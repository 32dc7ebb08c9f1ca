import CordRs.Cord.AppendCord
import CordRs.Cord.TakeAppendBuffer
import CordRs.RefHeap.Simulation

/-!
# Writing to the end of a cord

A writer takes the last flat out of its cord, or the bytes that the cord stores inline, into a
buffer, fills the buffer, and appends it to the cord when it is full, when it is flushed, or when the
writer is given up. A slice for which the buffer has no room is appended behind the buffer.

## Main definitions

* `CordRs.CordWriter` and its methods, `CordRs.WriterOp.step`.
* `CordRs.CordWriter.newRoom`: the room in the buffer that a cord hands out.
* `CordRs.CordWriter.TakesUnshared`: nothing that others share is given up for a buffer.
* `CordRs.CordWriter.language`: what the calls mean on the bytes.
* `CordRs.CordWriter.Writes`: the writer and its cord stand for some bytes.

## Main results

* `CordRs.CordWriter.writes_in_order`: the cord gets what was written, in the order of the calls.
-/

namespace CordRs

open RefHeap LevelTree

/-- A cord to append to, and the buffer that is being filled. -/
structure CordWriter where
  cord : Cord Addr
  buffer : Option CordBuffer

/-- A call of a writer. The bytes of `advanceMut` were put where `chunkMut` pointed to. -/
inductive WriterOp where
  | putSlice (src : Bytes)
  | chunkMut
  | advanceMut (written : Bytes)
  | flush
  | remainingMut

/-- What a call returns. -/
inductive WriterAnswer where
  | unit
  | number (n : ℕ)

namespace CordWriter

section Target

variable [Target]

/-- A writer that appends to a cord. -/
def new (c : Cord Addr) : CordWriter := ⟨c, none⟩

/-- Append what is in the buffer. -/
def flush (w : CordWriter) : HeapM CordWriter := do
  match w.buffer with
  | none => pure w
  | some buffer =>
    let len ← buffer.len
    if len = 0 then
      buffer.drop
      pure { w with buffer := none }
    else
      let cord ← w.cord.appendBuffer buffer
      pure ⟨cord, none⟩

/-- Whether there is no buffer with room. -/
def isFull (w : CordWriter) : HeapM Bool := do
  match w.buffer with
  | none => pure true
  | some buffer =>
    let available ← buffer.available
    pure (available = 0)

/-- Take a buffer with room out of the cord. -/
def takeBuffer (w : CordWriter) : HeapM CordWriter := do
  let (cord, buffer) ← w.cord.takeAppendBuffer CordBuffer.defaultMaxCapacity
  pure ⟨cord, some buffer⟩

/-- Have a buffer with room. -/
def bufferMut (w : CordWriter) : HeapM CordWriter := do
  let full ← w.isFull
  if full then
    let w ← w.flush
    w.takeBuffer
  else
    pure w

/-- Append a slice. -/
def putSlice (w : CordWriter) (src : Bytes) : HeapM CordWriter := do
  let w ← w.bufferMut
  match w.buffer with
  | none => throw (.panic "buffer was just set")
  | some buffer =>
    let available ← buffer.available
    if src.length ≤ available then
      let buffer ← buffer.putSlice src
      pure { w with buffer := some buffer }
    else
      let w ← w.flush
      let cord ← w.cord.appendSlice src
      pure { w with cord := cord }

/-- Point to the room in the buffer, and return its size. -/
def chunkMut (w : CordWriter) : HeapM (CordWriter × ℕ) := do
  let w ← w.bufferMut
  match w.buffer with
  | none => throw (.panic "buffer was just set")
  | some buffer =>
    let available ← buffer.available
    pure (w, available)

/-- Take over bytes that were put into the room in the buffer. -/
def advanceMut (w : CordWriter) (written : Bytes) : HeapM CordWriter := do
  match w.buffer with
  | none => throw (.panic "advance_mut without a preceding chunk_mut")
  | some buffer =>
    let len ← buffer.len
    let capacity ← buffer.capacity
    if len + written.length ≤ capacity then
      let buffer ← buffer.setLen written
      let w : CordWriter := { w with buffer := some buffer }
      let available ← buffer.available
      if available = 0 then w.flush else pure w
    else
      throw (.panic
        s!"CordWriter::advance_mut: {written.length} bytes exceed the chunk capacity")

/-- How many bytes may still be written. -/
def remainingMut (w : CordWriter) : HeapM ℕ := do
  let len ← w.cord.loadLen
  match w.buffer with
  | none => pure (usizeMax - len)
  | some buffer =>
    let buffered ← buffer.len
    pure (usizeMax - len - buffered)

/-- Give the cord back, or drop the writer. -/
def intoInner (w : CordWriter) : HeapM (Cord Addr) := do
  let w ← w.flush
  pure w.cord

end Target

end CordWriter

/-- Run a call. -/
def WriterOp.step [Target] : WriterOp → CordWriter → HeapM (CordWriter × WriterAnswer)
  | putSlice src, w => do
    let w ← w.putSlice src
    pure (w, .unit)
  | chunkMut, w => do
    let (w, size) ← w.chunkMut
    pure (w, .number size)
  | advanceMut written, w => do
    let w ← w.advanceMut written
    pure (w, .unit)
  | flush, w => do
    let w ← w.flush
    pure (w, .unit)
  | remainingMut, w => do
    let remaining ← w.remainingMut
    pure (w, .number remaining)

/-! ### Meaning -/

/-- What a writer stands for: the bytes of its cord and its buffer, and the room in the buffer if
there is one. -/
structure Written where
  bytes : Bytes
  room : Option ℕ

/-- The bytes that a call writes. -/
def WriterOp.written : WriterOp → Bytes
  | putSlice src => src
  | advanceMut written => written
  | _ => []

section Meaning

variable [Target]

/-- How many data edges a call may add. -/
def WriterOp.cost : WriterOp → ℕ
  | putSlice src => 1 + flatsFor src.length
  | chunkMut => 1
  | _ => 0

/-- The panic of a call that takes over more bytes than were asked for. -/
def WriterOp.refuses (v : Written) : WriterOp → Option Fault
  | advanceMut written =>
    match v.room with
    | none => some (.panic "advance_mut without a preceding chunk_mut")
    | some room =>
      if written.length ≤ room then none
      else some (.panic
        s!"CordWriter::advance_mut: {written.length} bytes exceed the chunk capacity")
  | _ => none

namespace CordWriter

/-- The number of data edges that the cord of a writer has with its buffer. -/
def edgeCount (s : CordWriter × Heap Node) : ℕ :=
  (s.1.cord.seen s.2).edgeCount + s.1.buffer.toList.length

/-- The cord of a writer whose buffer is appended, and the heap. -/
def flushed (s : CordWriter × Heap Node) : Cord Rep × Heap Node :=
  match s.1.flush s.2 with
  | .ok (w, h) => (w.cord.seen h, h)
  | .error _ => (.inline .new, s.2)

/-- The room in the buffer that a cord hands out. -/
def newRoom (c : Cord Rep) (h : Heap Node) : ℕ :=
  let given := c.handedOut h 0 CordBuffer.defaultMaxCapacity 16
  given.2 - given.1.length

/-- The room in the buffer that is filled next: the one that there is, if it has room. -/
def nextRoom (s : CordWriter × Heap Node) : Option ℕ → ℕ
  | some (room + 1) => room + 1
  | _ => newRoom (flushed s).1 (flushed s).2

/-- No node that is given up when a buffer is taken out of the cord is shared, for others hold
nothing or nothing of it. -/
def TakesUnshared (R : Multiset Addr) (s : CordWriter × Heap Node) : Prop :=
  R = 0 ∨ (s.1.isFull s.2 = .ok (true, s.2) → (flushed s).1.KeepsShared (flushed s).2 16)

end CordWriter

/-- What a call does to the bytes, and what it answers. -/
def WriterOp.Means (s : CordWriter × Heap Node) (v : Written) (answer : WriterAnswer)
    (v' : Written) : WriterOp → Prop
  | putSlice src =>
    let room := CordWriter.nextRoom s v.room
    answer = .unit ∧ 0 < room ∧
      v' = ⟨v.bytes ++ src, if src.length ≤ room then some (room - src.length) else none⟩
  | chunkMut =>
    let room := CordWriter.nextRoom s v.room
    answer = .number room ∧ 0 < room ∧ v' = ⟨v.bytes, some room⟩
  | advanceMut written => answer = .unit ∧ ∃ room, v.room = some room ∧ v' =
      ⟨v.bytes ++ written, if written.length = room then none else some (room - written.length)⟩
  | flush => answer = .unit ∧ v' = ⟨v.bytes, none⟩
  | remainingMut => answer = .number (usizeMax - v.bytes.length) ∧ v' = v

/-- The results of a call are within the limits, and it does not give up what others share. -/
def WriterOp.Fits (R : Multiset Addr) (s : CordWriter × Heap Node) (v : Written) : WriterOp → Prop
  | putSlice src => CordWriter.TakesUnshared R s ∧
      Limits (v.bytes.length + src.length) (CordWriter.edgeCount s + 1 + flatsFor src.length)
  | chunkMut => CordWriter.TakesUnshared R s ∧ CordWriter.edgeCount s + 1 ≤ maxCapacity ^ maxDepth
  | advanceMut written => v.bytes.length + written.length ≤ usizeMax
  | _ => True

/-- The calls of a writer as a language, while others hold the references `R`. -/
def CordWriter.language (R : Multiset Addr) :
    Language (CordWriter × Heap Node) Written WriterOp WriterAnswer Fault where
  run op := runOn op.step
  Means op s v answer v' := op.Means s v answer v'
  refuses op v := op.refuses v
  Fits op s v := op.Fits R s v

end Meaning

namespace CordWriter

section Rules

variable [Target] {h h₀ h' : Heap Node} {Z : List Addr} {R : Multiset Addr} {w : CordWriter}
  {bs src : Bytes} {room n : ℕ}

/-- The writer has no buffer, and its cord the bytes `bs`. -/
def Idle (Z : List Addr) (R : Multiset Addr) (bs : Bytes) (n : ℕ) (w : CordWriter)
    (h : Heap Node) : Prop :=
  ∃ c : Cord Rep, w = ⟨c.handle, none⟩ ∧ c.Owns h Z R ∧ c.bytes = bs ∧ c.edgeCount ≤ n

/-- The writer has a buffer with some room, and its cord and the buffer together the bytes `bs`. -/
def Busy (Z : List Addr) (R : Multiset Addr) (bs : Bytes) (room n : ℕ) (w : CordWriter)
    (h : Heap Node) : Prop :=
  ∃ (c : Cord Rep) (buffer : CordBuffer) (data : Bytes), w = ⟨c.handle, some buffer⟩ ∧
    c.Owns h (buffer.cells ++ Z) R ∧ buffer.Holds h data (data.length + room) ∧
    c.bytes ++ data = bs ∧ c.edgeCount + 1 ≤ n

/-- The buffer is appended when the writer is flushed. -/
theorem Busy.wp_flush (hw : Busy Z R bs room n w h) (hlimits : Limits bs.length n)
    {Q : CordWriter → Heap Node → Prop}
    (hQ : ∀ w' h', Idle Z R bs n w' h' → Frame Z R h h' → Q w' h') :
    wp w.flush Q h := by
  obtain ⟨c, buffer, data, rfl, hc, hb, hbytes, hedges⟩ := hw
  have hlen : c.len + data.length ≤ usizeMax := by
    rw [Cord.len_eq hc.valid, ← List.length_append, hbytes]
    exact hlimits.1
  have hcount := hedges.trans hlimits.2
  simp only [flush, wp_bind]
  refine CordBuffer.wp_len hb ?_
  by_cases hnil : data.length = 0
  · rw [if_pos hnil, wp_bind]
    refine Cord.wp_dropBuffer hc fun h₁ hc₁ hf₁ ↦ ?_
    rw [List.length_eq_zero_iff.mp hnil, List.append_nil] at hbytes
    exact (wp_pure _ _ _).mpr (hQ _ h₁ ⟨c, rfl, hc₁, hbytes, by omega⟩ hf₁)
  · rw [if_neg hnil, wp_bind]
    refine Cord.wp_appendBuffer_new hc hb hlen hcount fun c₁ h₁ hnew hedges₁ ↦ ?_
    refine (wp_pure _ _ _).mpr (hQ _ h₁ ⟨c₁, rfl, hnew.owns, ?_, by omega⟩ hnew.frame)
    exact hnew.bytes.trans hbytes

theorem Idle.wp_flush (hw : Idle Z R bs n w h) {Q : CordWriter → Heap Node → Prop} (hQ : Q w h) :
    wp w.flush Q h := by
  obtain ⟨c, rfl, -⟩ := hw
  exact (wp_pure _ _ _).mpr hQ

/-- A cord hands out a buffer with room. -/
theorem newRoom_pos {c : Cord Rep} (hv : c.Valid) : 0 < newRoom c h := by
  obtain ⟨hroom, hcap⟩ :=
    @Cord.room_handedOut _ h 0 CordBuffer.defaultMaxCapacity 16 c hv
  simp only [newRoom]
  by_cases hext : c.Extractable h 16
  · have hleft := hroom hext
    omega
  · have hbig : maxInline < maxFlatLength :=
      minFlatLength_pos.trans_le minFlatLength_le_maxFlatLength
    have hdefault : CordBuffer.defaultMaxCapacity = maxFlatLength := rfl
    have hleft := hcap hext rfl
    have hfew := @Cord.length_handedOut_le _ h 0 CordBuffer.defaultMaxCapacity 16 c hv hext
    omega

/-- A buffer that is taken out of the cord has room. -/
theorem Idle.wp_takeBuffer (hw : Idle Z R bs n w h)
    (hkeeps : R = 0 ∨ (w.cord.seen h).KeepsShared h 16) {Q : CordWriter → Heap Node → Prop}
    (hQ : ∀ w' h', 0 < newRoom (w.cord.seen h) h →
      Busy Z R bs (newRoom (w.cord.seen h) h) (n + 1) w' h' → Frame Z R h h' → Q w' h') :
    wp w.takeBuffer Q h := by
  obtain ⟨c, rfl, hc, hbytes, hedges⟩ := hw
  have hpos := newRoom_pos (h := h) hc.valid
  rw [Cord.seen_handle hc.held hc.valid] at hkeeps hQ
  rw [takeBuffer, Cord.takeAppendBuffer_eq, wp_bind]
  refine Cord.wp_takeAppendBufferWith hc (fun _ ↦ .inl rfl)
    (fun _ c' buffer h' hedges' htaken ↦ ?_) fun hbad r x h' hx _ ↦ ?_
  · simp only [newRoom] at hpos hQ
    refine (wp_pure _ _ _).mpr (hQ _ h' hpos ?_ htaken.frame)
    refine ⟨c', buffer, _, rfl, htaken.owns, ?_, htaken.bytes.trans hbytes, by omega⟩
    rw [Nat.add_sub_cancel' (Nat.le_of_lt (Nat.lt_of_sub_pos hpos))]
    exact htaken.holds
  · rcases hkeeps with rfl | hkeeps
    · exact absurd hx not_reach_zero
    · exact absurd hkeeps hbad

/-- The writer and its cord stand for what was written, and others find everything as it was. -/
structure Writes (h₀ : Heap Node) (Z : List Addr) (R : Multiset Addr) (s : CordWriter × Heap Node)
    (v : Written) : Prop where
  shape : v.room = none ∧ Idle Z R v.bytes (edgeCount s) s.1 s.2 ∨
    ∃ room, v.room = some room ∧ Busy Z R v.bytes room (edgeCount s) s.1 s.2
  limits : Limits v.bytes.length (edgeCount s)
  frame : Frame Z R h₀ s.2

variable {v : Written}

/-- The room in the buffer is what the buffer has available. -/
theorem Busy.wp_isFull (hw : Busy Z R bs room n w h) {Q : Bool → Heap Node → Prop}
    (hQ : Q (decide (room = 0)) h) : wp w.isFull Q h := by
  obtain ⟨c, buffer, data, rfl, -, hb, -⟩ := hw
  simp only [isFull, wp_bind]
  refine CordBuffer.wp_available hb ?_
  rw [wp_pure, Nat.add_sub_cancel_left]
  exact hQ

theorem Busy.mono {m : ℕ} (hw : Busy Z R bs room n w h) (hm : n ≤ m) : Busy Z R bs room m w h := by
  obtain ⟨c, buffer, data, heq, hc, hb, hbytes, hedges⟩ := hw
  exact ⟨c, buffer, data, heq, hc, hb, hbytes, hedges.trans hm⟩

/-- The writer gets a buffer with room, and keeps the one it has if there is room in it. -/
theorem Writes.wp_bufferMut (hw : Writes h₀ Z R (w, h) v) (hkeeps : TakesUnshared R (w, h))
    {Q : CordWriter → Heap Node → Prop}
    (hQ : ∀ w' h', 0 < nextRoom (w, h) v.room →
      Busy Z R v.bytes (nextRoom (w, h) v.room) (edgeCount (w, h) + 1) w' h' → Frame Z R h₀ h' →
      Q w' h') :
    wp w.bufferMut Q h := by
  have htake {w₁ h₁} (hfull : w.isFull h = .ok (true, h)) (hrun : w.flush h = .ok (w₁, h₁))
      (hidle : Idle Z R v.bytes (edgeCount (w, h)) w₁ h₁) (hf : Frame Z R h h₁)
      (hroom : nextRoom (w, h) v.room = newRoom (flushed (w, h)).1 (flushed (w, h)).2) :
      wp w.bufferMut Q h := by
    have hflushed : flushed (w, h) = (w₁.cord.seen h₁, h₁) := by rw [flushed, hrun]
    rw [bufferMut, wp_bind]
    refine ⟨true, h, hfull, ?_⟩
    simp only [if_true, wp_bind]
    rw [hroom, hflushed] at hQ
    refine ⟨w₁, h₁, hrun, hidle.wp_takeBuffer ?_ fun w₂ h₂ hpos hbusy hf₂ ↦ ?_⟩
    · refine hkeeps.imp_right fun hkeeps ↦ ?_
      rw [hflushed] at hkeeps
      exact hkeeps hfull
    · exact hQ w₂ h₂ hpos hbusy (hw.frame.trans (hf.trans hf₂))
  obtain ⟨hnone, hidle⟩ | ⟨room, hsome, hbusy⟩ := hw.shape
  · obtain ⟨c, rfl, hrest⟩ := id hidle
    exact htake rfl rfl hidle (.refl h) (hnone ▸ rfl)
  · cases room with
    | zero =>
      obtain ⟨full, h₁, hrunFull, rfl, rfl⟩ :=
        hbusy.wp_isFull (Q := fun full h' ↦ full = true ∧ h' = h) ⟨rfl, rfl⟩
      obtain ⟨w₁, h₂, hrun, hidle, hf⟩ := hbusy.wp_flush hw.limits
        (Q := fun w' h' ↦ Idle Z R v.bytes (edgeCount (w, h₁)) w' h' ∧ Frame Z R h₁ h')
        fun _ _ hi hf ↦ ⟨hi, hf⟩
      exact htake hrunFull hrun hidle hf (hsome ▸ rfl)
    | succ room =>
      have hroom : nextRoom (w, h) v.room = room + 1 := by rw [hsome, nextRoom]
      rw [hroom] at hQ
      rw [bufferMut, wp_bind]
      refine hbusy.wp_isFull ?_
      rw [decide_eq_false (Nat.succ_ne_zero room), if_neg Bool.false_ne_true, wp_pure]
      exact hQ w h (Nat.succ_pos room) (hbusy.mono (Nat.le_succ _)) hw.frame

/-- Bytes for which there is room are put into the buffer. -/
theorem Busy.wp_fill (hw : Busy Z R bs room n w h) {b : CordBuffer} (hbuffer : w.buffer = some b)
    (hroom : src.length ≤ room) {Q : CordBuffer → Heap Node → Prop}
    (hQ : ∀ b' h', Busy Z R (bs ++ src) (room - src.length) n { w with buffer := some b' } h' →
      Frame Z R h h' → Q b' h') :
    wp (b.setLen src) Q h := by
  obtain ⟨c, _, data, rfl, hc, hb, rfl, hedges⟩ := hw
  cases hbuffer
  refine CordBuffer.wp_setLen hb hc.owned (by omega) fun b' h' hb' ho' hf' ↦ hQ b' h' ?_ ?_
  · have hcap : data.length + room = (data ++ src).length + (room - src.length) := by
      rw [List.length_append]
      omega
    refine ⟨c, b', data ++ src, rfl, hc.frame ho' hf', hcap ▸ hb', ?_, hedges⟩
    exact (List.append_assoc _ _ _).symm
  · exact hf'.mono (List.Subset.refl _) (Multiset.le_add_left _ _)

/-- The buffer of a writer. -/
theorem Busy.exists_buffer (hw : Busy Z R bs room n w h) : ∃ b : CordBuffer, w.buffer = some b ∧
    ∃ data, b.Holds h data (data.length + room) := by
  obtain ⟨c, b, data, rfl, -, hb, -⟩ := hw
  exact ⟨b, rfl, data, hb⟩

/-- A writer without a buffer stands for the bytes of its cord. -/
theorem Writes.idle (hidle : Idle Z R bs n w h) (hlimits : Limits bs.length n)
    (hf : Frame Z R h₀ h) : Writes h₀ Z R (w, h) ⟨bs, none⟩ ∧ edgeCount (w, h) ≤ n := by
  obtain ⟨c, rfl, hc, hbytes, hedges⟩ := hidle
  have hcount : edgeCount (⟨c.handle, none⟩, h) = c.edgeCount := by
    rw [edgeCount, Cord.seen_handle hc.held hc.valid]
    rfl
  refine ⟨⟨.inl ⟨rfl, c, rfl, hc, hbytes, hcount.ge⟩, ?_, hf⟩, hcount ▸ hedges⟩
  exact ⟨hlimits.1, hcount ▸ hedges.trans hlimits.2⟩

/-- A writer with a buffer stands for the bytes of both. -/
theorem Writes.busy (hbusy : Busy Z R bs room n w h) (hlimits : Limits bs.length n)
    (hf : Frame Z R h₀ h) : Writes h₀ Z R (w, h) ⟨bs, some room⟩ ∧ edgeCount (w, h) ≤ n := by
  obtain ⟨c, buffer, data, rfl, hc, hb, hbytes, hedges⟩ := hbusy
  have hcount : edgeCount (⟨c.handle, some buffer⟩, h) = c.edgeCount + 1 := by
    rw [edgeCount, Cord.seen_handle hc.held hc.valid]
    rfl
  refine ⟨⟨.inr ⟨room, rfl, c, buffer, data, rfl, hc, hb, hbytes, hcount.ge⟩, ?_, hf⟩,
    hcount ▸ hedges⟩
  exact ⟨hlimits.1, hcount ▸ hedges.trans hlimits.2⟩

/-- A slice is put into the buffer, or appended behind it. -/
theorem Writes.wp_putSlice (hw : Writes h₀ Z R (w, h) v) (hkeeps : TakesUnshared R (w, h))
    (hlimits : Limits (v.bytes.length + src.length)
      (edgeCount (w, h) + 1 + flatsFor src.length))
    {Q : CordWriter → Heap Node → Prop}
    (hQ : ∀ w' h', 0 < nextRoom (w, h) v.room →
      edgeCount (w', h') ≤ edgeCount (w, h) + 1 + flatsFor src.length →
      Writes h₀ Z R (w', h') ⟨v.bytes ++ src, if src.length ≤ nextRoom (w, h) v.room then
        some (nextRoom (w, h) v.room - src.length) else none⟩ → Q w' h') :
    wp (w.putSlice src) Q h := by
  have hlen : (v.bytes ++ src).length = v.bytes.length + src.length := List.length_append
  obtain ⟨hbytes, hedges⟩ := hlimits
  rw [putSlice, wp_bind]
  refine hw.wp_bufferMut hkeeps fun w₁ h₁ hpos hbusy hf₁ ↦ ?_
  obtain ⟨b, hbuffer, data, hb⟩ := hbusy.exists_buffer
  simp only [hbuffer, wp_bind]
  refine CordBuffer.wp_available hb ?_
  rw [Nat.add_sub_cancel_left]
  by_cases hle : src.length ≤ nextRoom (w, h) v.room
  · simp only [if_pos hle, wp_bind, CordBuffer.putSlice]
    refine CordBuffer.wp_available hb ?_
    rw [Nat.add_sub_cancel_left, if_pos hle]
    rw [if_pos hle] at hQ
    refine hbusy.wp_fill hbuffer hle fun b' h₂ hbusy₂ hf₂ ↦ ?_
    obtain ⟨hw₂, hedges₂⟩ := Writes.busy (hbusy₂.mono (Nat.le_add_right _ (flatsFor src.length)))
      ⟨hlen ▸ hbytes, hedges⟩ (hf₁.trans hf₂)
    exact (wp_pure _ _ _).mpr (hQ _ h₂ hpos hedges₂ hw₂)
  · simp only [if_neg hle, wp_bind]
    rw [if_neg hle] at hQ
    refine hbusy.wp_flush ⟨by omega, by omega⟩ fun w₂ h₂ hidle hf₂ ↦ ?_
    obtain ⟨c, rfl, hc, hcbytes, hcedges⟩ := hidle
    have hmono := flatsFor_mono (Nat.sub_le src.length (c.room h₂))
    have hclen : c.len = v.bytes.length := by rw [Cord.len_eq hc.valid, hcbytes]
    refine Cord.wp_appendSlice hc (by omega) (by omega) fun c₃ h₃ hnew hedges₃ ↦ ?_
    have hidle₃ : Idle Z R (v.bytes ++ src) (edgeCount (w, h) + 1 + flatsFor src.length)
        ⟨c₃.handle, none⟩ h₃ := ⟨c₃, rfl, hnew.owns, by rw [hnew.bytes, hcbytes], by omega⟩
    obtain ⟨hw₃, hedges₃⟩ := Writes.idle hidle₃ ⟨hlen ▸ hbytes, hedges⟩
      (hf₁.trans (hf₂.trans hnew.frame))
    exact (wp_pure _ _ _).mpr (hQ _ h₃ hpos hedges₃ hw₃)

/-- The room that is pointed to is not empty. -/
theorem Writes.wp_chunkMut (hw : Writes h₀ Z R (w, h) v) (hkeeps : TakesUnshared R (w, h))
    (hedges : edgeCount (w, h) + 1 ≤ maxCapacity ^ maxDepth)
    {Q : CordWriter × ℕ → Heap Node → Prop}
    (hQ : ∀ w' h', 0 < nextRoom (w, h) v.room → edgeCount (w', h') ≤ edgeCount (w, h) + 1 →
      Writes h₀ Z R (w', h') ⟨v.bytes, some (nextRoom (w, h) v.room)⟩ →
      Q (w', nextRoom (w, h) v.room) h') :
    wp w.chunkMut Q h := by
  rw [chunkMut, wp_bind]
  refine hw.wp_bufferMut hkeeps fun w₁ h₁ hpos hbusy hf₁ ↦ ?_
  obtain ⟨b, hbuffer, data, hb⟩ := hbusy.exists_buffer
  simp only [hbuffer, wp_bind]
  refine CordBuffer.wp_available hb ?_
  rw [wp_pure, Nat.add_sub_cancel_left]
  obtain ⟨hw₁, hedges₁⟩ := Writes.busy hbusy ⟨hw.limits.1, hedges⟩ hf₁
  exact hQ w₁ h₁ hpos hedges₁ hw₁

/-- Bytes that were put into the room are taken over, and a full buffer is appended. -/
theorem Busy.wp_advanceMut {written : Bytes} (hw : Busy Z R bs room n w h) (hf : Frame Z R h₀ h)
    (hroom : written.length ≤ room) (hlimits : Limits (bs.length + written.length) n)
    {Q : CordWriter → Heap Node → Prop}
    (hQ : ∀ w' h', edgeCount (w', h') ≤ n → Writes h₀ Z R (w', h') ⟨bs ++ written,
      if written.length = room then none else some (room - written.length)⟩ → Q w' h') :
    wp (w.advanceMut written) Q h := by
  have hlimits' : Limits (bs ++ written).length n := by rwa [List.length_append]
  obtain ⟨b, hbuffer, data, hb⟩ := hw.exists_buffer
  simp only [advanceMut, hbuffer, wp_bind]
  refine CordBuffer.wp_len hb (CordBuffer.wp_capacity hb ?_)
  rw [if_pos (Nat.add_le_add_left hroom _), wp_bind]
  refine hw.wp_fill hbuffer hroom fun b' h₁ hbusy₁ hf₁ ↦ ?_
  obtain ⟨b₁, hbuffer₁, data₁, hb₁⟩ := hbusy₁.exists_buffer
  cases hbuffer₁
  rw [wp_bind]
  refine CordBuffer.wp_available hb₁ ?_
  rw [Nat.add_sub_cancel_left]
  by_cases hfull : written.length = room
  · rw [if_pos (by omega)]
    rw [if_pos hfull] at hQ
    refine hbusy₁.wp_flush hlimits' fun w₂ h₂ hidle hf₂ ↦ ?_
    obtain ⟨hw₂, hedges₂⟩ := Writes.idle hidle hlimits' (hf.trans (hf₁.trans hf₂))
    exact hQ w₂ h₂ hedges₂ hw₂
  · rw [if_neg (by omega), wp_pure]
    rw [if_neg hfull] at hQ
    obtain ⟨hw₁, hedges₁⟩ := Writes.busy hbusy₁ hlimits' (hf.trans hf₁)
    exact hQ _ h₁ hedges₁ hw₁

/-- More bytes than there was room for are refused. -/
theorem Busy.throws_advanceMut {written : Bytes} (hw : Busy Z R bs room n w h)
    (hroom : room < written.length) : Throws (w.advanceMut written) (.panic
      s!"CordWriter::advance_mut: {written.length} bytes exceed the chunk capacity") h := by
  obtain ⟨b, hbuffer, data, hb⟩ := hw.exists_buffer
  simp only [advanceMut, hbuffer]
  refine throws_bind (CordBuffer.wp_len hb (throws_bind (CordBuffer.wp_capacity hb ?_)))
  rw [if_neg (by omega)]
  exact throws_throw _ _

/-- What may still be written is counted from the cord and the buffer. -/
theorem Writes.wp_remainingMut (hw : Writes h₀ Z R (w, h) v) {Q : ℕ → Heap Node → Prop}
    (hQ : Q (usizeMax - v.bytes.length) h) : wp w.remainingMut Q h := by
  rw [remainingMut, wp_bind]
  obtain ⟨-, c, rfl, hc, hbytes, -⟩ | ⟨room, -, c, b, data, rfl, hc, hb, hbytes, -⟩ := hw.shape
  · refine Cord.wp_loadLen hc.held ?_
    rw [wp_pure, Cord.len_eq hc.valid, hbytes]
    exact hQ
  · refine Cord.wp_loadLen hc.held ?_
    rw [wp_bind]
    refine CordBuffer.wp_len hb ?_
    rw [wp_pure, Cord.len_eq hc.valid, Nat.sub_sub, ← List.length_append, hbytes]
    exact hQ

/-- The writer is flushed. -/
theorem Writes.wp_flush (hw : Writes h₀ Z R (w, h) v) {Q : CordWriter → Heap Node → Prop}
    (hQ : ∀ w' h', Idle Z R v.bytes (edgeCount (w, h)) w' h' → Frame Z R h₀ h' → Q w' h') :
    wp w.flush Q h := by
  obtain ⟨-, hidle⟩ | ⟨room, -, hbusy⟩ := hw.shape
  · exact hidle.wp_flush (hQ w h hidle hw.frame)
  · exact hbusy.wp_flush hw.limits fun w' h' hidle hf ↦ hQ w' h' hidle (hw.frame.trans hf)

/-- A call keeps what the writer and its cord stand for, and adds few data edges. -/
theorem Writes.wp_step {op : WriterOp} {s : CordWriter × Heap Node} (hw : Writes h₀ Z R s v)
    (hfits : op.Fits R s v) (hgo : op.refuses v = none) :
    wp (runOn op.step) (fun answer s' ↦ ∃ v', op.Means s v answer v' ∧ Writes h₀ Z R s' v' ∧
      edgeCount s' ≤ edgeCount s + op.cost) s := by
  obtain ⟨w, h⟩ := s
  refine wp_runOn.mpr ?_
  cases op with
  | putSlice src =>
    rw [WriterOp.step, wp_bind]
    refine hw.wp_putSlice hfits.1 hfits.2 fun w' h' hpos hedges hw' ↦ (wp_pure _ _ _).mpr ?_
    exact ⟨_, ⟨rfl, hpos, rfl⟩, hw', hedges.trans_eq (Nat.add_assoc _ _ _)⟩
  | chunkMut =>
    rw [WriterOp.step, wp_bind]
    refine hw.wp_chunkMut hfits.1 hfits.2 fun w' h' hpos hedges hw' ↦ (wp_pure _ _ _).mpr ?_
    exact ⟨_, ⟨rfl, hpos, rfl⟩, hw', hedges⟩
  | advanceMut written =>
    obtain ⟨hnone, -⟩ | ⟨room, hsome, hbusy⟩ := hw.shape
    · simp [WriterOp.refuses, hnone] at hgo
    · have hroom : written.length ≤ room := by
        by_contra hlt
        simp [WriterOp.refuses, hsome, hlt] at hgo
      rw [WriterOp.step, wp_bind]
      refine hbusy.wp_advanceMut hw.frame hroom ⟨hfits, hw.limits.2⟩
        fun w' h' hedges hw' ↦ (wp_pure _ _ _).mpr ?_
      exact ⟨_, ⟨rfl, room, hsome, rfl⟩, hw', hedges⟩
  | flush =>
    rw [WriterOp.step, wp_bind]
    refine hw.wp_flush fun w' h' hidle hf ↦ (wp_pure _ _ _).mpr ?_
    obtain ⟨hw', hedges⟩ := Writes.idle hidle hw.limits hf
    exact ⟨_, ⟨rfl, rfl⟩, hw', hedges⟩
  | remainingMut =>
    rw [WriterOp.step, wp_bind]
    exact hw.wp_remainingMut ((wp_pure _ _ _).mpr ⟨v, ⟨rfl, rfl⟩, hw, le_rfl⟩)

/-- Every call keeps what the writer and its cord stand for. -/
theorem simulates :
    (language R).Simulates (fun _ ↦ True) (Writes h₀ Z R) where
  step op s v _ hw hfits hrefuses := by
    refine wp_mono (hw.wp_step hfits hrefuses) ?_
    rintro answer s' ⟨v', hmeans, hw', -⟩
    exact ⟨v', hmeans, hw'⟩
  stop op s v e _ hw _ hrefuses := by
    obtain ⟨w, h⟩ := s
    cases op with
    | advanceMut written =>
      refine throws_runOn ?_
      rw [WriterOp.step]
      refine Throws.bind ?_ _
      obtain ⟨hnone, c, rfl, -⟩ | ⟨room, hsome, hbusy⟩ := hw.shape
      · simp only [language, WriterOp.refuses, hnone, Option.some.injEq] at hrefuses
        exact hrefuses ▸ rfl
      · simp only [language, WriterOp.refuses, hsome] at hrefuses
        by_cases hroom : written.length ≤ room
        · simp [hroom] at hrefuses
        · rw [if_neg hroom, Option.some.injEq] at hrefuses
          exact hrefuses ▸ hbusy.throws_advanceMut (not_le.mp hroom)
    | _ => cases hrefuses

/-- A call adds the bytes that it writes. -/
theorem bytes_of_means {op : WriterOp} {s : CordWriter × Heap Node} {answer : WriterAnswer}
    {v' : Written} (hmeans : op.Means s v answer v') : v'.bytes = v.bytes ++ op.written := by
  cases op with
  | putSlice src =>
    obtain ⟨-, -, rfl⟩ := hmeans
    rfl
  | chunkMut =>
    obtain ⟨-, -, rfl⟩ := hmeans
    exact (List.append_nil _).symm
  | advanceMut written =>
    obtain ⟨-, _, -, rfl⟩ := hmeans
    rfl
  | flush | remainingMut =>
    obtain ⟨-, rfl⟩ := hmeans
    exact (List.append_nil _).symm

/-- A call means one thing. -/
theorem means_unique {op : WriterOp} {s : CordWriter × Heap Node} {answer : WriterAnswer}
    {v₁ v₂ : Written} (h₁ : op.Means s v answer v₁) (h₂ : op.Means s v answer v₂) : v₁ = v₂ := by
  cases op with
  | flush | remainingMut => exact h₁.2.trans h₂.2.symm
  | putSlice src | chunkMut => exact h₁.2.2.trans h₂.2.2.symm
  | advanceMut written =>
    obtain ⟨-, room₁, hroom₁, rfl⟩ := h₁
    obtain ⟨-, room₂, hroom₂, rfl⟩ := h₂
    obtain rfl := Option.some.inj (hroom₁.symm.trans hroom₂)
    rfl

/-- The calls add the bytes that they write, in their order. -/
theorem bytes_of_meansAll {L : Language (CordWriter × Heap Node) Written WriterOp WriterAnswer Fault}
    (hL : ∀ op s v answer v', L.Means op s v answer v' → WriterOp.Means s v answer v' op)
    {ops : List WriterOp} {s : CordWriter × Heap Node} {answers : List WriterAnswer} {v' : Written}
    (hmeans : L.MeansAll ops s v answers v') :
    v'.bytes = v.bytes ++ ops.flatMap WriterOp.written := by
  induction ops generalizing s v answers with
  | nil => simp [hmeans.2]
  | cons op ops ih =>
    obtain ⟨-, _, _, s₁, v₁, -, -, hop, hops⟩ := hmeans
    rw [ih hops, bytes_of_means (hL op s v _ v₁ hop), List.flatMap_cons, List.append_assoc]

/-- The cord that a writer gives back has all the bytes. -/
theorem Writes.wp_intoInner (hw : Writes h₀ Z R (w, h) v) {Q : Cord Addr → Heap Node → Prop}
    (hQ : ∀ (c : Cord Rep) h', c.New v.bytes h₀ Z R h' → c.edgeCount ≤ edgeCount (w, h) →
      Q c.handle h') : wp w.intoInner Q h := by
  rw [intoInner, wp_bind]
  refine hw.wp_flush fun _ h' hidle hf ↦ (wp_pure _ _ _).mpr ?_
  obtain ⟨c, rfl, hc, hbytes, hedges⟩ := hidle
  exact hQ c h' ⟨hc, hbytes, hf⟩ hedges

/-- Calls to the writer of a cord of which others hold nothing, with results within the limits, are
admitted. -/
theorem admits_of_alone {ops : List WriterOp} {s : CordWriter × Heap Node} (hw : Writes h₀ Z 0 s v)
    (hlimits : Limits (v.bytes.length + (ops.flatMap WriterOp.written).length)
      (edgeCount s + (ops.map WriterOp.cost).sum)) : (language 0).Admits ops s v := by
  induction ops generalizing s v with
  | nil => trivial
  | cons op ops ih =>
    obtain ⟨hbytes, hedges⟩ := hlimits
    rw [List.flatMap_cons, List.length_append] at hbytes
    rw [List.map_cons, List.sum_cons] at hedges
    have hfits : op.Fits 0 s v := by
      cases op with
      | putSlice src =>
        simp only [WriterOp.written, WriterOp.cost] at hbytes hedges
        exact ⟨.inl rfl, by omega, by omega⟩
      | chunkMut =>
        simp only [WriterOp.cost] at hedges
        exact ⟨.inl rfl, by omega⟩
      | advanceMut written =>
        simp only [WriterOp.written] at hbytes
        exact (Nat.add_le_add_left (Nat.le_add_right _ _) _).trans hbytes
      | flush | remainingMut => trivial
    refine ⟨hfits, fun hgo answer s' v' hrun hmeans ↦ ?_⟩
    obtain ⟨answer₁, s₁, hrun₁, v₁, hmeans₁, hw₁, hedges₁⟩ := hw.wp_step hfits hgo
    obtain ⟨rfl, rfl⟩ := Prod.mk.inj (Except.ok.inj (hrun₁.symm.trans hrun))
    obtain rfl := means_unique hmeans₁ hmeans
    refine ih hw₁ ⟨?_, by omega⟩
    rw [bytes_of_means hmeans, List.length_append]
    omega

/-- What is written to a cord follows its bytes in the order of the calls, however much of it is
still in the buffer, and only taking over more bytes than there was room for panics. Others find
everything as it was; where they share nodes with the cord, no buffer may be taken that gives up one
of these. -/
theorem writes_in_order {c : Cord Rep} {ops : List WriterOp} (hc : c.Owns h Z R)
    (hlimits : Limits c.len c.edgeCount)
    (hadmits : (language R).Admits ops (new c.handle, h) ⟨c.bytes, none⟩) :
    wp ((language R).runAll ops) (fun answers s ↦
      ∃ v, (language R).MeansAll ops (new c.handle, h) ⟨c.bytes, none⟩ answers v ∧
        wp s.1.intoInner (fun cord h' ↦ ∃ c' : Cord Rep, c'.handle = cord ∧
          c'.New (c.bytes ++ ops.flatMap WriterOp.written) h Z R h') s.2) (new c.handle, h) ∨
      ∃ e, Throws ((language R).runAll ops) e (new c.handle, h) ∧
        (language R).Stops ops (new c.handle, h) ⟨c.bytes, none⟩ e := by
  have hlimits' : Limits c.bytes.length c.edgeCount := by rwa [← Cord.len_eq hc.valid]
  obtain ⟨hw, -⟩ := Writes.idle ⟨c, rfl, hc, rfl, le_rfl⟩ hlimits' (.refl h)
  refine (simulates.runAll (fun _ _ ↦ trivial) hw hadmits).imp_left fun hrun ↦ wp_mono hrun ?_
  rintro answers ⟨w, h₁⟩ ⟨v, hmeans, hw₁⟩
  refine ⟨v, hmeans, ?_⟩
  rw [← bytes_of_meansAll (fun _ _ _ _ _ hop ↦ hop) hmeans]
  exact hw₁.wp_intoInner fun c' h' hc' _ ↦ ⟨c', rfl, hc'⟩

end Rules

/-- Two bytes, and a third one that is put into the room there is. -/
def counting : List WriterOp := [.putSlice [1, 2], .chunkMut, .advanceMut [3]]

/-- The bytes of the two calls end up in the cord. -/
theorem writes_in_order_counting :
    letI : Target := ⟨64, .inr rfl⟩
    wp ((language 0).runAll counting) (fun _ s ↦
      wp s.1.intoInner (fun cord _ ↦ ∃ c : Cord Rep, c.handle = cord ∧ c.bytes = [1, 2, 3]) s.2)
      (new (.inline .new), Heap.empty) := by
  let _ : Target := ⟨64, .inr rfl⟩
  have hnew := Cord.new_empty Owned.empty (.refl (Heap.empty : Heap Node))
  have hstart : Limits 0 0 := ⟨Nat.zero_le _, Nat.zero_le _⟩
  have hadmits : (language 0).Admits counting (new (.inline .new), Heap.empty)
      ⟨(Cord.inline .new : Cord Rep).bytes, none⟩ := by
    obtain ⟨hw, hzero⟩ := Writes.idle ⟨.inline .new, rfl, hnew.owns, rfl, le_rfl⟩ hstart (.refl _)
    have hflats := flatsFor_le 2
    have hmax : 4 ≤ maxCapacity ^ maxDepth := by decide
    have hsum : 0 + (1 + flatsFor 2 + (1 + (0 + 0))) ≤ maxCapacity ^ maxDepth := by omega
    have hbytes : 3 ≤ usizeMax := by
      rw [usizeMax]
      decide
    exact admits_of_alone hw ⟨hbytes, (Nat.add_le_add_right hzero _).trans hsum⟩
  rcases writes_in_order hnew.owns hstart hadmits with hrun | ⟨e, -, hstops⟩
  · refine wp_mono hrun ?_
    rintro _ s ⟨v, -, hinner⟩
    refine wp_mono hinner ?_
    rintro _ _ ⟨c, hhandle, hc⟩
    exact ⟨c, hhandle, hc.bytes⟩
  · have hgo : none ≠ some e := (Option.some_ne_none e).symm
    obtain ⟨-, _, _, _, -, ⟨-, -, rfl⟩, hstops⟩ := hstops.resolve_left hgo
    obtain ⟨-, _, _, _, -, ⟨-, hpos, rfl⟩, hstops⟩ := hstops.resolve_left hgo
    obtain hrefuses | ⟨-, _, _, _, -, -, hstops⟩ := hstops
    · exact absurd ((if_pos (Nat.succ_le_of_lt hpos)).symm.trans hrefuses) hgo
    · exact hstops.elim

end CordWriter

end CordRs
