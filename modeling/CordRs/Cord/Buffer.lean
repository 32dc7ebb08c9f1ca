import CordRs.Cord.Append

/-!
# Buffers that become part of a cord

A buffer collects bytes in place, or in a flat that nothing else refers to; the flat is an opened
cell of the heap until a cord adopts it.

## Main definitions

* `CordRs.CordBuffer` with `withCapacity`, `putSlice`, `setLen`, `drop`.
* `CordRs.CordBuffer.Holds`: the bytes and the capacity of a buffer.
* `CordRs.Cord.appendBuffer`.

## Main results

* `CordRs.CordBuffer.wp_withCapacity`, `CordRs.CordBuffer.wp_putSlice`,
  `CordRs.CordBuffer.wp_setLen`, `CordRs.CordBuffer.wp_drop`.
* `CordRs.Cord.wp_appendBuffer`.
-/

namespace CordRs

open RefHeap

/-- A buffer: up to fifteen bytes, or a flat. -/
inductive CordBuffer where
  | short (data : Bytes)
  | long (rep : Addr)

namespace CordBuffer

section Target

variable [Target]

/-- The largest capacity of a buffer by default. -/
def defaultMaxCapacity : ℕ := maxFlatLength

/-- A buffer without a flat. -/
def new : CordBuffer := .short []

/-- A buffer with room for `capacity` bytes, as far as the largest flat has it. -/
def withCapacity (capacity : ℕ) : HeapM CordBuffer := do
  if maxInline < capacity then
    let rep ← alloc (.payload (.flat (newTag maxFlatSize capacity) []))
    pure (.long rep)
  else
    pure new

/-- The tag and the bytes of a flat. -/
def flat (rep : Addr) : HeapM (ℕ × Bytes) := do
  match ← read rep with
  | .payload (.flat tag data) => pure (tag, data)
  | _ => throw .unreachable

/-- The bytes of a buffer. -/
def asSlice : CordBuffer → HeapM Bytes
  | .short data => pure data
  | .long rep => do
    let (_, data) ← flat rep
    pure data

/-- The number of bytes a buffer can hold. -/
def capacity : CordBuffer → HeapM ℕ
  | .short _ => pure maxInline
  | .long rep => do
    let (tag, _) ← flat rep
    pure (tagToLength tag)

/-- The number of bytes of a buffer. -/
def len (b : CordBuffer) : HeapM ℕ := do
  let data ← b.asSlice
  pure data.length

/-- The number of bytes that can still be added. -/
def available (b : CordBuffer) : HeapM ℕ := do
  let capacity ← b.capacity
  let len ← b.len
  pure (capacity - len)

/-- Take the bytes written to the front of the spare capacity into the buffer. -/
def setLen (b : CordBuffer) (written : Bytes) : HeapM CordBuffer := do
  let len ← b.len
  let capacity ← b.capacity
  if len + written.length ≤ capacity then
    match b with
    | .short data => pure (.short (data ++ written))
    | .long rep =>
      let (tag, data) ← flat rep
      write rep (.payload (.flat tag (data ++ written)))
      pure b
  else
    throw (.panic s!"CordBuffer::set_len: len {len + written.length} exceeds capacity {capacity}")

/-- Add bytes, for which there must be room. -/
def putSlice (b : CordBuffer) (src : Bytes) : HeapM CordBuffer := do
  let available ← b.available
  if src.length ≤ available then
    b.setLen src
  else
    throw (.panic s!"CordBuffer::put_slice: {src.length} bytes exceed the available capacity of {available}")

/-- Give up a buffer. -/
def drop : CordBuffer → HeapM Unit
  | .short _ => pure ()
  | .long rep => free rep

end Target

/-! ### Buffers on the heap -/

/-- The cell of a buffer. -/
def cells : CordBuffer → List Addr
  | .short _ => []
  | .long rep => [rep]

section Rules

variable [Target] {h h' : Heap Node} {Z : List Addr} {R : Multiset Addr} {b : CordBuffer}
  {bs src : Bytes} {cap n : ℕ}

/-- The capacity of a new buffer for `n` bytes. -/
def capacityOf (n : ℕ) : ℕ :=
  if maxInline < n then tagToLength (newTag maxFlatSize n) else maxInline

/-- The buffer has the bytes `bs` and room for `cap` of them. -/
def Holds (h : Heap Node) (b : CordBuffer) (bs : Bytes) (cap : ℕ) : Prop :=
  bs.length ≤ cap ∧ match b with
  | .short data => data = bs ∧ cap = maxInline
  | .long rep => ∃ tag, h.node? rep = some (.payload (.flat tag bs)) ∧ flatTag ≤ tag ∧
      tag ≤ maxFlatTag ∧ cap = tagToLength tag

theorem maxInline_le_capacityOf (n : ℕ) : maxInline ≤ capacityOf n := by
  have hmin := minFlatLength_pos
  obtain ⟨-, -, -, -, hle⟩ := newTag_spec n
  rw [capacityOf]
  split_ifs <;> omega

theorem capacityOf_le (n : ℕ) : capacityOf n ≤ maxFlatLength := by
  have hmin := minFlatLength_pos
  have hmax := minFlatLength_le_maxFlatLength
  obtain ⟨-, -, -, hle, -⟩ := newTag_spec n
  rw [capacityOf]
  split_ifs <;> omega

theorem le_capacityOf (n : ℕ) : min n maxFlatLength ≤ capacityOf n := by
  obtain ⟨-, -, hle, -, -⟩ := newTag_spec n
  rw [capacityOf]
  split_ifs <;> omega

theorem wp_withCapacity (ho : Owned h Z R) {Q : CordBuffer → Heap Node → Prop}
    (hQ : ∀ b h', b.Holds h' [] (capacityOf n) → Owned h' (b.cells ++ Z) R → Grows h h' → Q b h') :
    wp (withCapacity n) Q h := by
  rw [withCapacity]
  by_cases hn : maxInline < n
  · obtain ⟨hlo, hhi, -⟩ := newTag_spec n
    rw [if_pos hn, wp_bind]
    refine wp_alloc ho fun a h₁ ho₁ hg₁ ha₁ ↦ ?_
    rw [wp_pure]
    exact hQ (.long a) h₁ ⟨Nat.zero_le _, _, ha₁, hlo, hhi, by rw [capacityOf, if_pos hn]⟩ ho₁ hg₁
  · rw [if_neg hn, wp_pure]
    exact hQ new h ⟨Nat.zero_le _, rfl, by rw [capacityOf, if_neg hn]⟩ ho (.refl h)

omit [Target] in
theorem wp_flat {rep : Addr} {tag : ℕ} (ha : h.node? rep = some (.payload (.flat tag bs)))
    {Q : ℕ × Bytes → Heap Node → Prop} (hQ : Q (tag, bs) h) : wp (flat rep) Q h := by
  rw [flat, wp_bind]
  refine wp_read ha ?_
  exact (wp_pure _ _ _).mpr hQ

theorem wp_asSlice (hb : b.Holds h bs cap) {Q : Bytes → Heap Node → Prop} (hQ : Q bs h) :
    wp b.asSlice Q h := by
  obtain ⟨-, hb⟩ := hb
  cases b with
  | short data =>
    obtain ⟨rfl, -⟩ := hb
    exact (wp_pure _ _ _).mpr hQ
  | long rep =>
    obtain ⟨tag, ha, -⟩ := hb
    rw [asSlice, wp_bind]
    exact wp_flat ha ((wp_pure _ _ _).mpr hQ)

theorem wp_capacity (hb : b.Holds h bs cap) {Q : ℕ → Heap Node → Prop} (hQ : Q cap h) :
    wp b.capacity Q h := by
  obtain ⟨-, hb⟩ := hb
  cases b with
  | short data =>
    obtain ⟨-, rfl⟩ := hb
    exact (wp_pure _ _ _).mpr hQ
  | long rep =>
    obtain ⟨tag, ha, -, -, rfl⟩ := hb
    rw [capacity, wp_bind]
    exact wp_flat ha ((wp_pure _ _ _).mpr hQ)

theorem wp_len (hb : b.Holds h bs cap) {Q : ℕ → Heap Node → Prop} (hQ : Q bs.length h) :
    wp b.len Q h := by
  rw [len, wp_bind]
  exact wp_asSlice hb ((wp_pure _ _ _).mpr hQ)

theorem wp_available (hb : b.Holds h bs cap) {Q : ℕ → Heap Node → Prop}
    (hQ : Q (cap - bs.length) h) : wp b.available Q h := by
  rw [available, wp_bind]
  refine wp_capacity hb ?_
  rw [wp_bind]
  exact wp_len hb ((wp_pure _ _ _).mpr hQ)

/-- Bytes are added to a buffer, and nothing else changes. -/
theorem wp_setLen (hb : b.Holds h bs cap) (ho : Owned h (b.cells ++ Z) R)
    (hroom : bs.length + src.length ≤ cap) {Q : CordBuffer → Heap Node → Prop}
    (hQ : ∀ b' h', b'.Holds h' (bs ++ src) cap → Owned h' (b'.cells ++ Z) R → Frame Z R h h' →
      Q b' h') :
    wp (b.setLen src) Q h := by
  have hlen : (bs ++ src).length ≤ cap := by simpa using hroom
  unfold setLen
  rw [wp_bind]
  refine wp_len hb ?_
  rw [wp_bind]
  refine wp_capacity hb ?_
  rw [if_pos hroom]
  obtain ⟨-, hb⟩ := hb
  cases b with
  | short data =>
    obtain ⟨rfl, rfl⟩ := hb
    exact (wp_pure _ _ _).mpr (hQ _ h ⟨hlen, rfl, rfl⟩ ho (.refl h))
  | long rep =>
    obtain ⟨tag, ha, hlo, hhi, rfl⟩ := hb
    have hopened : Owned h (rep :: Z) R := ho
    rw [wp_bind]
    refine wp_flat ha ?_
    rw [wp_bind]
    refine wp_write hopened List.mem_cons_self fun h₁ ho₁ hne₁ ha₁ ↦ ?_
    rw [wp_pure]
    exact hQ (.long rep) h₁ ⟨hlen, tag, ha₁, hlo, hhi, rfl⟩ ho₁
      (hopened.frame_of_opened List.mem_cons_self (List.nodup_cons.mp hopened.nodup).1 hne₁)

theorem wp_putSlice (hb : b.Holds h bs cap) (ho : Owned h (b.cells ++ Z) R)
    (hroom : bs.length + src.length ≤ cap) {Q : CordBuffer → Heap Node → Prop}
    (hQ : ∀ b' h', b'.Holds h' (bs ++ src) cap → Owned h' (b'.cells ++ Z) R → Frame Z R h h' →
      Q b' h') :
    wp (b.putSlice src) Q h := by
  rw [putSlice, wp_bind]
  refine wp_available hb ?_
  rw [if_pos (by omega)]
  exact wp_setLen hb ho hroom hQ

/-- Bytes for which there is no room are not put into a buffer. -/
theorem Holds.throws_putSlice (hb : b.Holds h bs cap) (hlt : cap - bs.length < src.length) :
    Throws (b.putSlice src) (.panic
      s!"CordBuffer::put_slice: {src.length} bytes exceed the available capacity of {cap - bs.length}")
      h := by
  rw [putSlice]
  apply throws_bind
  apply wp_available hb
  rw [if_neg (Nat.not_le_of_lt hlt)]
  exact throws_throw _ _

/-- Whatever leaves the cell of a buffer alone leaves the buffer alone. -/
theorem Holds.congr (hb : b.Holds h bs cap) (hcells : ∀ a ∈ b.cells, h'.node? a = h.node? a) :
    b.Holds h' bs cap := by
  cases b with
  | short data => exact hb
  | long rep =>
    obtain ⟨hle, tag, ha, hlo, hhi, hcap⟩ := hb
    exact ⟨hle, tag, (hcells rep List.mem_cons_self).trans ha, hlo, hhi, hcap⟩

theorem Holds.grows (hb : b.Holds h bs cap) (hg : Grows h h') : b.Holds h' bs cap := by
  refine hb.congr fun a ha ↦ ?_
  cases b with
  | short data => cases ha
  | long rep =>
    obtain rfl := List.mem_singleton.mp ha
    obtain ⟨-, tag, hrep, -⟩ := hb
    rw [hrep, hg _ _ hrep]

theorem Holds.frame (hb : b.Holds h bs cap) (hf : Frame (b.cells ++ Z) R h h') :
    b.Holds h' bs cap :=
  hb.congr fun a ha ↦ hf.opened a (List.mem_append_left _ ha)

theorem wp_drop (ho : Owned h (b.cells ++ Z) R) {Q : Unit → Heap Node → Prop}
    (hQ : ∀ h', Owned h' Z R → Frame Z R h h' → Q () h') : wp b.drop Q h := by
  cases b with
  | short data => exact (wp_pure _ _ _).mpr (hQ h ho (.refl h))
  | long rep =>
    have hopened : Owned h (rep :: Z) R := ho
    rw [drop]
    refine wp_free hopened fun h₁ ho₁ hne₁ ↦ hQ h₁ ho₁ ?_
    exact hopened.frame_of_opened List.mem_cons_self (List.nodup_cons.mp hopened.nodup).1 hne₁

/-- The flat of a buffer that holds bytes is a data edge. -/
theorem Holds.exists_edge {rep : Addr} (hb : (long rep).Holds h bs cap) (hne : bs ≠ [])
    (ho : Owned h (rep :: Z) R) : ∃ e : Edge, e.addr = rep ∧ e.Held h ∧ e.Valid ∧ e.data = bs ∧
      Owned h Z (e.addr ::ₘ R) := by
  obtain ⟨hle, tag, ha, hlo, hhi, rfl⟩ := hb
  have hv : Payload.Valid (.flat tag bs) := ⟨hlo, hhi, List.length_pos_iff.mpr hne, hle⟩
  exact ⟨.whole rep (.flat tag bs), rfl, ⟨ha, ha⟩, hv, rfl,
    ho.closeCell ha ⟨[], rfl, hv, rfl⟩ (zero_add R).symm⟩

end Rules

end CordBuffer

/-! ### Appending a buffer -/

namespace Cord

variable [Target]

/-- Append the bytes of a buffer, which is given up. -/
def appendBuffer (c : Cord Addr) (buffer : CordBuffer) : HeapM (Cord Addr) := do
  let len ← buffer.len
  if len = 0 then
    buffer.drop
    pure c
  else
    match buffer with
    | .long rep => c.appendTree rep
    | .short data => c.appendPrecise data

variable {h : Heap Node} {Z : List Addr} {R : Multiset Addr} {c : Cord Rep} {b : CordBuffer}
  {bs : Bytes} {cap : ℕ}

/-- A cord next to a buffer that is given up. -/
theorem wp_dropBuffer (hc : Owns h (b.cells ++ Z) R c) {Q : Unit → Heap Node → Prop}
    (hQ : ∀ h', Owns h' Z R c → Frame Z R h h' → Q () h') : wp b.drop Q h :=
  CordBuffer.wp_drop hc.owned fun h' ho' hf' ↦ hQ h' (hc.frame ho' hf') (hf'.mono (List.Subset.refl _) (Multiset.le_add_left _ _))

/-- A buffer without bytes leaves a cord alone, and another one makes it grow. -/
theorem wp_appendBuffer (hc : Owns h (b.cells ++ Z) R c) (hb : b.Holds h bs cap)
    (hlen : c.len + bs.length ≤ usizeMax) (hcount : c.edgeCount + 1 ≤ maxCapacity ^ maxDepth)
    {Q : Cord Addr → Heap Node → Prop}
    (hempty : bs = [] → ∀ h', Owns h' Z R c → Frame Z R h h' → Q c.handle h')
    (hQ : bs ≠ [] → ∀ (c' : Cord Rep) h', Owns h' Z R c' → Grown c bs c' → Frame Z R h h' →
      Q c'.handle h') :
    wp (appendBuffer c.handle b) Q h := by
  unfold appendBuffer
  rw [wp_bind]
  refine CordBuffer.wp_len hb ?_
  by_cases hbs : bs = []
  · rw [if_pos (by simp [hbs]), wp_bind]
    refine wp_dropBuffer hc fun h' hc' hf' ↦ ?_
    exact (wp_pure _ _ _).mpr (hempty hbs h' hc' hf')
  · rw [if_neg (by simpa using hbs)]
    cases b with
    | short data =>
      obtain ⟨hle, rfl, rfl⟩ := hb
      have hmin := minFlatLength_pos
      have hmax := minFlatLength_le_maxFlatLength
      exact wp_appendPrecise hc hbs (by omega) hlen hcount (hQ hbs)
    | long rep =>
      obtain ⟨e, rfl, he, hv, rfl, ho⟩ := hb.exists_edge hbs hc.owned
      have hc' : Owns h Z (e.addr ::ₘ R) c :=
        ⟨ho.congr (by rw [Multiset.add_cons]), hc.held, hc.valid⟩
      refine wp_appendTree (s := .leaf e) hc' (Rep.held_leaf.mpr he)
        (Rep.Valid.leaf_iff.mpr ⟨rfl, hv⟩) (Nat.zero_le _)
        (by simpa [hv.length_data] using hlen) (by simpa using hcount)
        fun t' k' h' ht' hchunks hf' ↦ ?_
      exact hQ hbs (.tree t') h' (owns_tree ht') (.inl ⟨rfl, by simpa using hchunks⟩) hf'

end Cord

end CordRs
