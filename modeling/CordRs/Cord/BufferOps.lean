import CordRs.Cord.Buffer
import CordRs.RefHeap.Simulation

/-!
# Calls to a buffer

A buffer has a fixed capacity. Calls fill it, shorten it or copy it in place; what does not fit is
refused, cut off, or reported after as much as fits was taken.

## Main definitions

* `CordRs.CordBuffer.putSlicePartial`, `CordRs.CordBuffer.truncate`, `CordRs.CordBuffer.extend`,
  `CordRs.CordBuffer.clone`.
* `CordRs.BufferOp.step`, `CordRs.CordBuffer.language`: calls, and what they mean on the bytes.

## Main results

* `CordRs.newTag_tagToLength`: a flat with the capacity of another one has its tag.
* `CordRs.CordBuffer.keeps_capacity`: after any calls a buffer has the bytes that they leave, in the
  capacity it had.
-/

namespace CordRs

open RefHeap

/-! ### Tags -/

/-- The sizes of the three ranges of tags. -/
private theorem tagToAllocatedSize_cases {tag : ℕ} (hlo : flatTag ≤ tag) :
    (tagToAllocatedSize tag = 8 * (tag - 2) ∧ tag ≤ 66) ∨
    (tagToAllocatedSize tag = 512 + 64 * (tag - 66) ∧ 66 < tag ∧ tag ≤ 186) ∨
    (tagToAllocatedSize tag = 8192 + 4096 * (tag - 186) ∧ 186 < tag) := by
  have hbase : tagBase = 2 := rfl
  simp only [flatTag] at hlo
  rw [tagToAllocatedSize, hbase]
  split_ifs <;> omega

/-- The size of a tag is rounded, and has this tag. -/
theorem allocatedSizeToTag_tagToAllocatedSize {tag : ℕ} (hlo : flatTag ≤ tag) :
    allocatedSizeToTag (roundUpForTag (tagToAllocatedSize tag)) = tag := by
  have hbase : tagBase = 2 := rfl
  have hcases := tagToAllocatedSize_cases hlo
  have hround : roundUpForTag (tagToAllocatedSize tag) = tagToAllocatedSize tag := by
    rw [roundUpForTag, roundUp]
    obtain ⟨hsize, hle⟩ | ⟨hsize, hlt, hle⟩ | ⟨hsize, hlt⟩ := hcases
    · rw [if_pos (by omega)]
      omega
    · rw [if_neg (by omega), if_pos (by omega)]
      omega
    · rw [if_neg (by omega), if_neg (by omega)]
      omega
  simp only [flatTag] at hlo
  rw [hround, allocatedSizeToTag, hbase]
  obtain ⟨hsize, hle⟩ | ⟨hsize, hlt, hle⟩ | ⟨hsize, hlt⟩ := hcases
  · rw [if_pos (by omega)]
    omega
  · rw [if_neg (by omega), if_pos (by omega)]
    omega
  · rw [if_neg (by omega), if_neg (by omega)]
    omega

/-- A new flat with the capacity of a tag has this tag. -/
theorem newTag_tagToLength [Target] {tag : ℕ} (hlo : flatTag ≤ tag) (hhi : tag ≤ maxFlatTag) :
    newTag maxLargeFlatSize (tagToLength tag) = tag := by
  have ho := flatOverhead_eq
  have hmin : minFlatSize = 32 := rfl
  have hmax : maxLargeFlatSize = 262144 := rfl
  have hsize : 32 ≤ tagToAllocatedSize tag ∧ tagToAllocatedSize tag ≤ 262144 := by
    have hcases := tagToAllocatedSize_cases hlo
    simp only [flatTag, maxFlatTag] at hlo hhi
    omega
  have hsame : ∀ n, n = tagToAllocatedSize tag → allocatedSizeToTag (roundUpForTag n) = tag := by
    rintro n rfl
    exact allocatedSizeToTag_tagToAllocatedSize hlo
  rw [newTag, tagToLength, minFlatLength, hmin, hmax]
  refine hsame _ ?_
  split_ifs <;> omega

namespace CordBuffer

section Target

variable [Target]

/-- Give a buffer a length that is not greater than the one it has. -/
def shorten (b : CordBuffer) (len : ℕ) : HeapM CordBuffer := do
  let capacity ← b.capacity
  if len ≤ capacity then
    match b with
    | .short data => pure (.short (data.take len))
    | .long rep =>
      let (tag, data) ← flat rep
      write rep (.payload (.flat tag (data.take len)))
      pure b
  else
    throw (.panic s!"CordBuffer::set_len: len {len} exceeds capacity {capacity}")

/-- Keep the first bytes. -/
def truncate (b : CordBuffer) (len : ℕ) : HeapM CordBuffer := do
  let current ← b.len
  b.shorten (min len current)

/-- Keep no bytes. -/
def clear (b : CordBuffer) : HeapM CordBuffer := b.truncate 0

/-- Add as many bytes as fit, and return how many these are. -/
def putSlicePartial (b : CordBuffer) (src : Bytes) : HeapM (CordBuffer × ℕ) := do
  let available ← b.available
  let n := min src.length available
  let b ← b.putSlice (src.take n)
  pure (b, n)

/-- Add the bytes of an iterator, which ends after them or panics. What is returned beside the buffer
is the panic. An iterator is not asked any more when there was no room for a byte it gave. -/
def extend (b : CordBuffer) (items : Bytes) (fault : Option Fault) :
    HeapM (CordBuffer × Option Fault) := do
  let available ← b.available
  if items.length ≤ available ∧ fault.isSome then
    pure (b, fault)
  else
    let b ← b.setLen (items.take available)
    if available < items.length then
      pure (b, some (.panic
        s!"CordBuffer::extend: iterator yields bytes that exceed the available capacity of {available}"))
    else
      pure (b, none)

/-- A buffer with the same bytes and the same capacity. -/
def clone : CordBuffer → HeapM CordBuffer
  | .short data => pure (.short data)
  | .long rep => do
    let (tag, data) ← flat rep
    let new ← alloc (.payload (.flat (newTag maxLargeFlatSize (tagToLength tag)) []))
    putSlice (.long new) data

end Target

end CordBuffer

/-- A call to a buffer. -/
inductive BufferOp where
  | asSlice
  | available
  | setLen (written : Bytes)
  | putSlice (src : Bytes)
  | putSlicePartial (src : Bytes)
  | truncate (len : ℕ)
  | clear
  | extend (items : Bytes) (fault : Option Fault)
  | cloned

/-- What a call returns, or the panic after which the buffer is still there. -/
inductive BufferAnswer where
  | unit
  | bytes (data : Bytes)
  | number (n : ℕ)
  | outcome (fault : Option Fault)

/-- Run a call. A clone takes the place of the buffer. -/
def BufferOp.step [Target] : BufferOp → CordBuffer → HeapM (CordBuffer × BufferAnswer)
  | asSlice, b => do
    let data ← b.asSlice
    pure (b, .bytes data)
  | available, b => do
    let n ← b.available
    pure (b, .number n)
  | setLen written, b => do
    let b ← b.setLen written
    pure (b, .unit)
  | putSlice src, b => do
    let b ← b.putSlice src
    pure (b, .unit)
  | putSlicePartial src, b => do
    let (b, n) ← b.putSlicePartial src
    pure (b, .number n)
  | truncate len, b => do
    let b ← b.truncate len
    pure (b, .unit)
  | clear, b => do
    let b ← b.clear
    pure (b, .unit)
  | extend items fault, b => do
    let (b, fault) ← b.extend items fault
    pure (b, .outcome fault)
  | cloned, b => do
    let new ← b.clone
    b.drop
    pure (new, .unit)

/-! ### Meaning -/

/-- The bytes of a buffer and its capacity. -/
structure Filled where
  bytes : Bytes
  capacity : ℕ

/-- The room that is left. -/
def Filled.room (v : Filled) : ℕ := v.capacity - v.bytes.length

/-- The panic of a call with more bytes than there is room for. -/
def BufferOp.refuses (v : Filled) : BufferOp → Option Fault
  | setLen written =>
    if v.bytes.length + written.length ≤ v.capacity then none
    else some (.panic
      s!"CordBuffer::set_len: len {v.bytes.length + written.length} exceeds capacity {v.capacity}")
  | putSlice src =>
    if src.length ≤ v.room then none
    else some (.panic
      s!"CordBuffer::put_slice: {src.length} bytes exceed the available capacity of {v.room}")
  | _ => none

/-- A call is refused with a panic. -/
theorem BufferOp.panics_of_refuses {call : BufferOp} {v : Filled} {e : Fault}
    (hrefuses : call.refuses v = some e) : ∃ message, e = .panic message := by
  cases call with
  | setLen | putSlice =>
    simp only [refuses] at hrefuses
    split_ifs at hrefuses
    cases hrefuses
    exact ⟨_, rfl⟩
  | _ => cases hrefuses

/-- The panic that an iterator ends with. -/
def Filled.outcome (v : Filled) (items : Bytes) (fault : Option Fault) : Option Fault :=
  if items.length ≤ v.room then fault
  else some (.panic
    s!"CordBuffer::extend: iterator yields bytes that exceed the available capacity of {v.room}")

/-- The bytes that are added from an iterator: none if it panics while there is room. -/
def Filled.given (v : Filled) (items : Bytes) (fault : Option Fault) : Bytes :=
  if items.length ≤ v.room ∧ fault.isSome then [] else items.take v.room

/-- The bytes that a call leaves. -/
def BufferOp.bytes (v : Filled) : BufferOp → Bytes
  | asSlice | available | cloned => v.bytes
  | setLen src | putSlice src => v.bytes ++ src
  | putSlicePartial src => v.bytes ++ src.take v.room
  | truncate len => v.bytes.take len
  | clear => []
  | extend items fault => v.bytes ++ v.given items fault

/-- What a call answers. -/
def BufferOp.answer (v : Filled) : BufferOp → BufferAnswer
  | asSlice => .bytes v.bytes
  | available => .number v.room
  | putSlicePartial src => .number (min src.length v.room)
  | extend items fault => .outcome (v.outcome items fault)
  | _ => .unit

/-- The calls as a language. -/
def CordBuffer.language [Target] :
    Language (CordBuffer × Heap Node) Filled BufferOp BufferAnswer Fault where
  run op := runOn op.step
  Means op _ v answer v' := answer = op.answer v ∧ v' = { v with bytes := op.bytes v }
  refuses op v := op.refuses v
  Fits _ _ _ := True

namespace CordBuffer

section Rules

variable [Target] {h h₀ h' : Heap Node} {Z : List Addr} {R : Multiset Addr} {b : CordBuffer}
  {bs src items : Bytes} {cap len : ℕ} {fault : Option Fault}

/-- A buffer with some bytes, of which others see nothing. -/
structure Fills (h₀ : Heap Node) (Z : List Addr) (R : Multiset Addr) (s : CordBuffer × Heap Node)
    (v : Filled) : Prop where
  holds : s.1.Holds s.2 v.bytes v.capacity
  owned : Owned s.2 (s.1.cells ++ Z) R
  frame : Frame Z R h₀ s.2

/-- The first bytes are kept in place. -/
theorem wp_shorten (hb : b.Holds h bs cap) (ho : Owned h (b.cells ++ Z) R) (hlen : len ≤ bs.length)
    {Q : CordBuffer → Heap Node → Prop}
    (hQ : ∀ b' h', b'.Holds h' (bs.take len) cap → Owned h' (b'.cells ++ Z) R → Frame Z R h h' →
      Q b' h') :
    wp (b.shorten len) Q h := by
  have hle : (bs.take len).length ≤ cap := (List.length_take_le _ _).trans (hlen.trans hb.1)
  unfold shorten
  rw [wp_bind]
  refine wp_capacity hb ?_
  rw [if_pos (hlen.trans hb.1)]
  obtain ⟨-, hb⟩ := hb
  cases b with
  | short data =>
    obtain ⟨rfl, rfl⟩ := hb
    exact (wp_pure _ _ _).mpr (hQ _ h ⟨hle, rfl, rfl⟩ ho (.refl h))
  | long rep =>
    obtain ⟨tag, ha, hlo, hhi, rfl⟩ := hb
    have hopened : Owned h (rep :: Z) R := ho
    rw [wp_bind]
    refine wp_flat ha ?_
    rw [wp_bind]
    refine wp_write hopened List.mem_cons_self fun h₁ ho₁ hne₁ ha₁ ↦ ?_
    rw [wp_pure]
    exact hQ (.long rep) h₁ ⟨hle, tag, ha₁, hlo, hhi, rfl⟩ ho₁
      (hopened.frame_of_opened List.mem_cons_self (List.nodup_cons.mp hopened.nodup).1 hne₁)

theorem wp_truncate (hb : b.Holds h bs cap) (ho : Owned h (b.cells ++ Z) R)
    {Q : CordBuffer → Heap Node → Prop}
    (hQ : ∀ b' h', b'.Holds h' (bs.take len) cap → Owned h' (b'.cells ++ Z) R → Frame Z R h h' →
      Q b' h') :
    wp (b.truncate len) Q h := by
  rw [truncate, wp_bind]
  refine wp_len hb (wp_shorten hb ho (Nat.min_le_right _ _) fun b' h' hb' ho' hf' ↦ ?_)
  refine hQ b' h' ?_ ho' hf'
  rwa [← List.take_eq_take_min] at hb'

/-- As many bytes are added as fit. -/
theorem wp_putSlicePartial (hb : b.Holds h bs cap) (ho : Owned h (b.cells ++ Z) R)
    {Q : CordBuffer × ℕ → Heap Node → Prop}
    (hQ : ∀ b' h', b'.Holds h' (bs ++ src.take (cap - bs.length)) cap →
      Owned h' (b'.cells ++ Z) R → Frame Z R h h' →
      Q (b', min src.length (cap - bs.length)) h') :
    wp (b.putSlicePartial src) Q h := by
  have hle := hb.1
  rw [putSlicePartial, wp_bind]
  refine wp_available hb ?_
  rw [wp_bind, Nat.min_comm, ← List.take_eq_take_min]
  refine wp_putSlice hb ho ?_ fun b' h' hb' ho' hf' ↦ ?_
  · rw [List.length_take]
    omega
  · rw [wp_pure, Nat.min_comm]
    exact hQ b' h' hb' ho' hf'

/-- The bytes of an iterator are added, unless it panics while there is room. -/
theorem wp_extend {v : Filled} (hb : b.Holds h v.bytes v.capacity) (ho : Owned h (b.cells ++ Z) R)
    {Q : CordBuffer × Option Fault → Heap Node → Prop}
    (hQ : ∀ b' h', b'.Holds h' (v.bytes ++ v.given items fault) v.capacity →
      Owned h' (b'.cells ++ Z) R → Frame Z R h h' → Q (b', v.outcome items fault) h') :
    wp (b.extend items fault) Q h := by
  have hroom : v.capacity - v.bytes.length = v.room := rfl
  have hle := hb.1
  rw [extend, wp_bind]
  refine wp_available hb ?_
  rw [hroom]
  rw [Filled.given, Filled.outcome] at hQ
  by_cases hpanic : items.length ≤ v.room ∧ fault.isSome
  · rw [if_pos hpanic, wp_pure]
    rw [if_pos hpanic, if_pos hpanic.1, List.append_nil] at hQ
    exact hQ b h hb ho (.refl h)
  · rw [if_neg hpanic, wp_bind]
    rw [if_neg hpanic] at hQ
    refine wp_setLen hb ho ?_ fun b' h' hb' ho' hf' ↦ ?_
    · rw [List.length_take]
      omega
    · have hend := hQ b' h' hb' ho' hf'
      by_cases hfit : items.length ≤ v.room
      · rw [if_neg (not_lt.mpr hfit), wp_pure]
        rw [if_pos hfit] at hend
        obtain rfl : fault = none := by simpa [hfit] using hpanic
        exact hend
      · rw [if_pos (not_le.mp hfit), wp_pure]
        rw [if_neg hfit] at hend
        exact hend

/-- A clone has the same bytes and the same capacity, and the buffer is as it was. -/
theorem wp_clone (hb : b.Holds h bs cap) (ho : Owned h (b.cells ++ Z) R)
    {Q : CordBuffer → Heap Node → Prop}
    (hQ : ∀ b' h', b'.Holds h' bs cap → b.Holds h' bs cap →
      Owned h' (b.cells ++ (b'.cells ++ Z)) R → Frame (b.cells ++ Z) R h h' → Q b' h') :
    wp b.clone Q h := by
  cases b with
  | short data =>
    rw [clone, wp_pure]
    exact hQ (.short data) h hb hb ho (.refl h)
  | long rep =>
    obtain ⟨hle, tag, hnode, hlo, hhi, rfl⟩ := id hb
    rw [clone, wp_bind]
    refine wp_flat hnode ?_
    rw [wp_bind, newTag_tagToLength hlo hhi]
    refine wp_alloc ho fun new h₁ ho₁ hg₁ hnew ↦ ?_
    have hb₁ : (long new).Holds h₁ [] (tagToLength tag) :=
      ⟨Nat.zero_le _, tag, hnew, hlo, hhi, rfl⟩
    have ho₁' : Owned h₁ ((long new).cells ++ ((long rep).cells ++ Z)) R := ho₁
    have hroom : ([] : Bytes).length + bs.length ≤ tagToLength tag := by simpa using hle
    refine wp_putSlice hb₁ ho₁' hroom fun b' h₂ hb₂ ho₂ hf₂ ↦ ?_
    refine hQ b' h₂ hb₂ ((hb.grows hg₁).frame hf₂) (ho₂.perm ?_)
      ((ho.frame_of_grows hg₁).trans hf₂)
    rw [← List.append_assoc, ← List.append_assoc]
    exact List.perm_append_comm.append_right Z

/-- A length beyond the capacity is refused. -/
theorem Holds.throws_setLen (hb : b.Holds h bs cap) (hlt : cap < bs.length + src.length) :
    Throws (b.setLen src) (.panic
      s!"CordBuffer::set_len: len {bs.length + src.length} exceeds capacity {cap}") h := by
  unfold setLen
  refine throws_bind (wp_len hb (throws_bind (wp_capacity hb ?_)))
  rw [if_neg (not_le.mpr hlt)]
  exact throws_throw _ _

/-- No call depends on more than the buffer. -/
theorem admits {ops : List BufferOp} {s : CordBuffer × Heap Node} {v : Filled} :
    language.Admits ops s v := by
  induction ops generalizing s v with
  | nil => trivial
  | cons op ops ih => exact ⟨trivial, fun _ _ _ _ _ _ ↦ ih⟩

theorem capacity_of_meansAll {ops : List BufferOp} {s : CordBuffer × Heap Node}
    {answers : List BufferAnswer} {v v' : Filled} (hmeans : language.MeansAll ops s v answers v') :
    v'.capacity = v.capacity := by
  induction ops generalizing s v answers with
  | nil =>
    obtain ⟨-, rfl⟩ := hmeans
    rfl
  | cons op ops ih =>
    obtain ⟨-, _, _, s₁, v₁, -, -, ⟨-, rfl⟩, hops⟩ := hmeans
    have hrest := ih hops
    exact hrest

/-- A call leaves a buffer with the bytes that it means. -/
theorem Fills.step {s : CordBuffer × Heap Node} {v : Filled} {b' : CordBuffer}
    (hs : Fills h₀ Z R s v) (hb' : b'.Holds h' bs v.capacity) (ho' : Owned h' (b'.cells ++ Z) R)
    (hf' : Frame Z R s.2 h') : Fills h₀ Z R (b', h') { v with bytes := bs } :=
  ⟨hb', ho', hs.frame.trans hf'⟩

/-- Every call keeps what a buffer stands for. -/
theorem simulates : language.Simulates (fun _ ↦ True) (Fills h₀ Z R) where
  step op s v _ hs _ hgo := by
    obtain ⟨b, h⟩ := s
    obtain ⟨hb, ho, -⟩ := id hs
    have hle := hb.1
    refine wp_runOn.mpr ?_
    cases op with
    | asSlice =>
      rw [BufferOp.step, wp_bind]
      exact wp_asSlice hb ((wp_pure _ _ _).mpr ⟨v, ⟨rfl, rfl⟩, hs⟩)
    | available =>
      rw [BufferOp.step, wp_bind]
      exact wp_available hb ((wp_pure _ _ _).mpr ⟨v, ⟨rfl, rfl⟩, hs⟩)
    | setLen written =>
      have hroom : v.bytes.length + written.length ≤ v.capacity := by
        by_contra hlt
        simp [language, BufferOp.refuses, hlt] at hgo
      rw [BufferOp.step, wp_bind]
      refine wp_setLen hb ho hroom fun b' h' hb' ho' hf' ↦ (wp_pure _ _ _).mpr ?_
      exact ⟨_, ⟨rfl, rfl⟩, hs.step hb' ho' hf'⟩
    | putSlice src =>
      have hroom : src.length ≤ v.room := by
        by_contra hlt
        simp [language, BufferOp.refuses, hlt] at hgo
      rw [Filled.room] at hroom
      rw [BufferOp.step, wp_bind]
      refine wp_putSlice hb ho (by omega) fun b' h' hb' ho' hf' ↦ (wp_pure _ _ _).mpr ?_
      exact ⟨_, ⟨rfl, rfl⟩, hs.step hb' ho' hf'⟩
    | putSlicePartial src =>
      rw [BufferOp.step, wp_bind]
      refine wp_putSlicePartial hb ho fun b' h' hb' ho' hf' ↦ (wp_pure _ _ _).mpr ?_
      exact ⟨_, ⟨rfl, rfl⟩, hs.step hb' ho' hf'⟩
    | truncate len =>
      rw [BufferOp.step, wp_bind]
      refine wp_truncate hb ho fun b' h' hb' ho' hf' ↦ (wp_pure _ _ _).mpr ?_
      exact ⟨_, ⟨rfl, rfl⟩, hs.step hb' ho' hf'⟩
    | clear =>
      rw [BufferOp.step, wp_bind]
      refine wp_truncate hb ho fun b' h' hb' ho' hf' ↦ (wp_pure _ _ _).mpr ?_
      exact ⟨_, ⟨rfl, rfl⟩, hs.step hb' ho' hf'⟩
    | extend items fault =>
      rw [BufferOp.step, wp_bind]
      refine wp_extend hb ho fun b' h' hb' ho' hf' ↦ (wp_pure _ _ _).mpr ?_
      exact ⟨_, ⟨rfl, rfl⟩, hs.step hb' ho' hf'⟩
    | cloned =>
      rw [BufferOp.step, wp_bind]
      refine wp_clone hb ho fun b' h₁ hb' hb₁ ho₁ hf₁ ↦ ?_
      rw [wp_bind]
      refine wp_drop ho₁ fun h₂ ho₂ hf₂ ↦ (wp_pure _ _ _).mpr ⟨_, ⟨rfl, rfl⟩, ?_⟩
      refine hs.step (hb'.frame hf₂) ho₂ ((hf₁.mono ?_ le_rfl).trans (hf₂.mono ?_ le_rfl))
      · exact List.subset_append_right _ _
      · exact List.subset_append_right _ _
  stop op s v e _ hs _ hrefuses := by
    obtain ⟨b, h⟩ := s
    have hb := hs.holds
    refine throws_runOn ?_
    cases op with
    | setLen written =>
      simp only [language, BufferOp.refuses] at hrefuses
      split_ifs at hrefuses with hroom
      obtain rfl := Option.some.inj hrefuses
      exact (hb.throws_setLen (not_le.mp hroom)).bind _
    | putSlice src =>
      simp only [language, BufferOp.refuses] at hrefuses
      split_ifs at hrefuses with hroom
      obtain rfl := Option.some.inj hrefuses
      exact (hb.throws_putSlice (not_le.mp hroom)).bind _
    | _ => cases hrefuses

/-- A call that is not refused. -/
theorem wp_step {op : BufferOp} {v : Filled} (hb : b.Holds h v.bytes v.capacity)
    (ho : Owned h (b.cells ++ Z) R) (hgo : op.refuses v = none)
    {Q : CordBuffer × BufferAnswer → Heap Node → Prop}
    (hQ : ∀ b' h', b'.Holds h' (op.bytes v) v.capacity → Owned h' (b'.cells ++ Z) R →
      Frame Z R h h' → Q (b', op.answer v) h') :
    wp (op.step b) Q h := by
  have hs : Fills h Z R (b, h) v := ⟨hb, ho, .refl h⟩
  refine wp_mono (wp_runOn.mp (simulates.step op (b, h) v trivial hs trivial hgo)) ?_
  rintro ⟨b', _⟩ h' ⟨_, ⟨rfl, rfl⟩, hs'⟩
  exact hQ b' h' hs'.holds hs'.owned hs'.frame

theorem throws_step {op : BufferOp} {v : Filled} {e : Fault} (hb : b.Holds h v.bytes v.capacity)
    (ho : Owned h (b.cells ++ Z) R) (hrefuses : op.refuses v = some e) : Throws (op.step b) e h := by
  have hs : Fills h Z R (b, h) v := ⟨hb, ho, .refl h⟩
  exact throws_of_runOn (simulates.stop op (b, h) v e trivial hs trivial hrefuses)

/-- Whatever is called, a buffer has the bytes that the calls leave, never more than its capacity,
which is the one it had; others see nothing of it, and it panics only when it is asked to take more
than there is room for. -/
theorem keeps_capacity {ops : List BufferOp} (hb : b.Holds h bs cap)
    (ho : Owned h (b.cells ++ Z) R) :
    wp (language.runAll ops) (fun answers s ↦
      ∃ bs', language.MeansAll ops (b, h) ⟨bs, cap⟩ answers ⟨bs', cap⟩ ∧ bs'.length ≤ cap ∧
        s.1.Holds s.2 bs' cap ∧ Owned s.2 (s.1.cells ++ Z) R ∧ Frame Z R h s.2) (b, h) ∨
      ∃ e, Throws (language.runAll ops) e (b, h) ∧ language.Stops ops (b, h) ⟨bs, cap⟩ e := by
  have hs : Fills h Z R (b, h) ⟨bs, cap⟩ := ⟨hb, ho, .refl h⟩
  refine (simulates.runAll (fun _ _ ↦ trivial) hs admits).imp_left fun hrun ↦ wp_mono hrun ?_
  rintro answers ⟨b', h'⟩ ⟨⟨bs', cap'⟩, hmeans, hs'⟩
  obtain rfl : cap' = cap := capacity_of_meansAll hmeans
  exact ⟨bs', hmeans, hs'.holds.1, hs'.holds, hs'.owned, hs'.frame⟩

end Rules

/-- Sixteen bytes for a buffer with room for fifteen, which is shortened then. -/
def overfilling : List BufferOp := [.extend (List.replicate 16 7) none, .truncate 2, .asSlice]

/-- As many of the bytes as fit are there until the buffer is shortened. -/
theorem keeps_capacity_overfilling :
    letI : Target := ⟨64, .inr rfl⟩
    wp (language.runAll overfilling) (fun answers s ↦
      (∃ fault, answers = [.outcome (some fault), .unit, .bytes [7, 7]]) ∧
        s.1.Holds s.2 [7, 7] 15) (new, Heap.empty) := by
  let _ : Target := ⟨64, .inr rfl⟩
  have hb : new.Holds Heap.empty [] maxInline := ⟨Nat.zero_le _, rfl, rfl⟩
  have ho : Owned (Heap.empty : Heap Node) (new.cells ++ []) 0 := Owned.empty
  have hruns : wp (language.runAll overfilling) _ _ ∨ _ := keeps_capacity hb ho
  rcases hruns with hrun | ⟨e, -, hstops⟩
  · refine wp_mono hrun ?_
    rintro answers s ⟨bs', hmeans, -, hholds, -⟩
    obtain ⟨-, _, _, _, _, rfl, -, ⟨rfl, rfl⟩, -, _, _, _, _, rfl, -, ⟨rfl, rfl⟩, -, _, _, _, _,
      rfl, -, ⟨rfl, rfl⟩, rfl, hend⟩ := hmeans
    have hbytes : bs' = [7, 7] := congrArg Filled.bytes hend
    exact ⟨⟨_, rfl⟩, hbytes ▸ hholds⟩
  · have hgo : none ≠ some e := (Option.some_ne_none e).symm
    obtain ⟨-, _, _, _, -, -, hstops⟩ := hstops.resolve_left hgo
    obtain ⟨-, _, _, _, -, -, hstops⟩ := hstops.resolve_left hgo
    obtain ⟨-, _, _, _, -, -, hstops⟩ := hstops.resolve_left hgo
    exact hstops.elim

end CordBuffer

end CordRs
