import CordRs.Cord.Buffer

/-!
# Building a cord from a sequence of bytes

The bytes of a sequence are collected in buffers that become part of the cord when they are full.
The first buffer grows until it is as large as a chunk can be. Each later one is sized for the bytes
the hint of the sequence still predicts, and once the hint is used up for a full chunk.

The chunks are those of the cord made from all bytes at once unless the hint ends inside a chunk
other than the first and the sequence goes on: the buffer for the predicted rest is then smaller than
a chunk and fills up before the end.

## Main definitions

* `CordRs.SeqAccess`, `CordRs.fill`, `CordRs.commit`, `CordRs.visitSeq`.
* `CordRs.cutLengths`: cutting a length into chunks.
* `CordRs.HintFits`: the hint does not end inside a chunk that the sequence fills.

## Main results

* `CordRs.cutLengths_eq_iff`: when the hint does not change the chunks.
* `CordRs.wp_visitSeq`: the chunks of the cord.
* `CordRs.Cord.visit_seq_shape`: the cord has the bytes of the sequence, and the chunks of the cord
  made from them exactly if the hint fits.
-/

namespace CordRs

open RefHeap

variable {ε : Type}

/-- A sequence of bytes that ends or fails behind them, and the length it reports. -/
structure SeqAccess (ε : Type) where
  items : Bytes
  error : Option ε
  sizeHint : Option ℕ

/-- The next byte of a sequence, none at its end. -/
def SeqAccess.nextElement (seq : SeqAccess ε) : Except ε (Option UInt8) × SeqAccess ε :=
  match seq.items with
  | byte :: items => (.ok (some byte), { seq with items := items })
  | [] =>
    match seq.error with
    | some e => (.error e, seq)
    | none => (.ok none, seq)

/-- Read bytes for a number of slots. Returns those read and whether the sequence ended or failed. -/
def fillSlots : ℕ → SeqAccess ε → Bytes × Except ε Bool × SeqAccess ε
  | 0, seq => ([], .ok false, seq)
  | slots + 1, seq =>
    match seq.nextElement with
    | (.ok (some byte), seq) =>
      let (written, ended, seq) := fillSlots slots seq
      (byte :: written, ended, seq)
    | (.ok none, seq) => ([], .ok true, seq)
    | (.error e, seq) => ([], .error e, seq)

section Target

variable [Target]

/-- Fill the spare capacity of a buffer. Returns the first byte that did not fit, none if the sequence
ended before. -/
def fill (seq : SeqAccess ε) (buffer : CordBuffer) :
    HeapM (Except ε (Option UInt8) × SeqAccess ε × CordBuffer) := do
  let available ← buffer.available
  let (written, ended, seq) := fillSlots available seq
  let buffer ← buffer.setLen written
  match ended with
  | .error e => pure (.error e, seq, buffer)
  | .ok true => pure (.ok none, seq, buffer)
  | .ok false =>
    let (next, seq) := seq.nextElement
    pure (next, seq, buffer)

/-- The capacity of the size class of a flat with `len` bytes. -/
def capacityFor (len : ℕ) : ℕ := roundUpForTag (max (len + flatOverhead) minFlatSize) - flatOverhead

/-- Add a buffer to a cord. It is copied if its capacity is larger than its bytes need. -/
def commit (cord : Cord Addr) (buffer : CordBuffer) : HeapM (Cord Addr) := do
  let data ← buffer.asSlice
  if data.length = 0 then
    buffer.drop
    pure cord
  else
    let capacity ← buffer.capacity
    if data.length ≤ maxInline ∨ capacityFor data.length < capacity then
      let cord ← cord.appendPrecise data
      buffer.drop
      pure cord
    else
      cord.appendBuffer buffer

/-- Whether a cord has no bytes. -/
def Cord.isEmpty : Cord Addr → Bool
  | .inline d => d.size = 0
  | .tree _ => false

/-- The capacity asked for after `consumed` bytes: what the hint still predicts, or a chunk. -/
def wantedCapacity (hint : Option ℕ) (consumed : ℕ) : ℕ :=
  match hint with
  | some total => if total - consumed ≠ 0 then total - consumed else CordBuffer.defaultMaxCapacity
  | none => CordBuffer.defaultMaxCapacity

/-- A buffer that replaces a full one: a larger one with its bytes while nothing was added to the cord
and it is smaller than a chunk, and otherwise a new one. -/
def nextBuffer (hint : Option ℕ) (cord : Cord Addr) (buffer : CordBuffer) (consumed : ℕ) :
    HeapM (Cord Addr × CordBuffer) := do
  let capacity ← buffer.capacity
  if cord.isEmpty ∧ capacity < CordBuffer.defaultMaxCapacity then
    let grown ← CordBuffer.withCapacity (min (capacity * 4) CordBuffer.defaultMaxCapacity)
    let data ← buffer.asSlice
    let grown ← grown.putSlice data
    buffer.drop
    pure (cord, grown)
  else
    let cord ← commit cord buffer
    let buffer ← CordBuffer.withCapacity (wantedCapacity hint consumed)
    pure (cord, buffer)

/-- Read bytes to the end of a sequence. The fuel bounds the number of buffers. -/
def visitLoop (hint : Option ℕ) :
    ℕ → SeqAccess ε → Cord Addr → CordBuffer → ℕ → HeapM (Except ε (Cord Addr))
  | 0, _, _, _, _ => throw .unreachable
  | fuel + 1, seq, cord, buffer, consumed => do
    let before ← buffer.len
    let (next, seq, buffer) ← fill seq buffer
    match next with
    | .error e =>
      buffer.drop
      cord.drop
      pure (.error e)
    | .ok next =>
      let after ← buffer.len
      let consumed := consumed + (after - before)
      match next with
      | none =>
        let cord ← commit cord buffer
        pure (.ok cord)
      | some byte =>
        let (cord, buffer) ← nextBuffer hint cord buffer consumed
        let buffer ← buffer.putSlice [byte]
        visitLoop hint fuel seq cord buffer (consumed + 1)

/-- Build a cord from a sequence of bytes. -/
def visitSeq (seq : SeqAccess ε) : HeapM (Except ε (Cord Addr)) := do
  let hint := seq.sizeHint
  let buffer ← CordBuffer.withCapacity (hint.getD 0)
  visitLoop hint (seq.items.length + 1) seq (.inline .new) buffer 0

end Target

/-! ### Cutting a length into chunks -/

section Cut

/-- The lengths of the chunks that `n` bytes are cut into, if a chunk that starts at `x` has room for
`top x` bytes. -/
def cutLengths (top : ℕ → ℕ) (x n : ℕ) : List ℕ :=
  if n = 0 then []
  else if _h : 0 < top x ∧ top x < n then top x :: cutLengths top (x + top x) (n - top x)
  else [n]
termination_by n

variable {top : ℕ → ℕ} {x y n m : ℕ}

@[simp] theorem cutLengths_zero : cutLengths top x 0 = [] := by rw [cutLengths, if_pos rfl]

theorem cutLengths_of_le (hn : 0 < n) (hle : n ≤ top x) : cutLengths top x n = [n] := by
  rw [cutLengths, if_neg hn.ne', dif_neg (by omega)]

theorem cutLengths_of_lt (hpos : 0 < top x) (hlt : top x < n) :
    cutLengths top x n = top x :: cutLengths top (x + top x) (n - top x) := by
  rw [cutLengths, if_neg (by omega), dif_pos ⟨hpos, hlt⟩]

/-- Where chunks of one size start does not matter. -/
private theorem cutLengths_const (x y n m : ℕ) :
    cutLengths (fun _ ↦ m) x n = cutLengths (fun _ ↦ m) y n := by
  induction n using Nat.strong_induction_on generalizing x y with
  | _ n ih =>
    rw [cutLengths, cutLengths.eq_def _ y]
    split_ifs with hn h
    · rfl
    · rw [ih (n - m) (by omega)]
    · rfl

theorem cutLengths_const_of_lt (hm : 0 < m) (hlt : m < n) :
    cutLengths (fun _ ↦ m) x n = m :: cutLengths (fun _ ↦ m) x (n - m) := by
  rw [@cutLengths_of_lt (fun _ ↦ m) x n hm hlt, cutLengths_const (x + m) x]

/-- Chunks of one size, as long as those that are not filled have enough room. -/
theorem cutLengths_eq (hm : 0 < m) (htop : ∀ i, i * m < n →
    top (x + i * m) = m ∨ n - i * m ≤ top (x + i * m) ∧ n - i * m ≤ m) :
    cutLengths top x n = cutLengths (fun _ ↦ m) y n := by
  induction n using Nat.strong_induction_on generalizing x with
  | _ n ih =>
    obtain rfl | hn := Nat.eq_zero_or_pos n
    · simp
    · have hfirst := htop 0 (by omega)
      rw [Nat.zero_mul, Nat.add_zero, Nat.sub_zero] at hfirst
      by_cases hle : n ≤ m
      · rw [@cutLengths_of_le (fun _ ↦ m) y n hn hle]
        exact cutLengths_of_le hn (by omega)
      · obtain hx | ⟨-, hle'⟩ := hfirst
        · rw [cutLengths_const_of_lt hm (by omega), cutLengths_of_lt (by omega) (by omega), hx]
          refine congrArg (m :: ·) (ih (n - m) (by omega) fun i hi ↦ ?_)
          have hnext := htop (i + 1) (by rw [Nat.succ_mul]; omega)
          rwa [Nat.succ_mul, Nat.add_comm (i * m), ← Nat.add_assoc, ← Nat.sub_sub] at hnext
        · exact absurd hle' hle

/-- A chunk that is filled before it is as large as the others makes a difference. -/
theorem cutLengths_ne {j : ℕ} (hm : 0 < m) (htop : ∀ i < j, top (x + i * m) = m)
    (hpos : 0 < top (x + j * m)) (hlt : top (x + j * m) < m) (hn : j * m + top (x + j * m) < n) :
    cutLengths top x n ≠ cutLengths (fun _ ↦ m) y n := by
  induction j generalizing x n with
  | zero =>
    rw [Nat.zero_mul, Nat.add_zero] at hpos hlt hn
    rw [Nat.zero_add] at hn
    rw [cutLengths_of_lt hpos hn]
    by_cases hle : n ≤ m
    · rw [@cutLengths_of_le (fun _ ↦ m) y n (by omega) hle]
      simp only [ne_eq, List.cons.injEq]
      omega
    · rw [cutLengths_const_of_lt hm (by omega)]
      simp only [ne_eq, List.cons.injEq]
      omega
  | succ j ih =>
    have hx := htop 0 (Nat.succ_pos j)
    rw [Nat.zero_mul, Nat.add_zero] at hx
    have hshift : ∀ i, x + (i + 1) * m = x + m + i * m := fun i ↦ by rw [Nat.succ_mul]; omega
    rw [hshift] at hpos hlt hn
    rw [Nat.succ_mul] at hn
    rw [cutLengths_const_of_lt hm (by omega), cutLengths_of_lt (by omega) (by omega), hx]
    intro heq
    exact ih (fun i hi ↦ (hshift i) ▸ htop (i + 1) (by omega)) hpos hlt (by omega)
      (List.cons.inj heq).2

end Cut

/-! ### The capacities of the buffers -/

section Hint

variable [Target] {hint : Option ℕ} {x n : ℕ}

open CordBuffer

theorem capacityOf_of_le (hn : maxFlatLength ≤ n) : capacityOf n = maxFlatLength := by
  have hlo := le_capacityOf n
  have hhi := capacityOf_le n
  omega

/-- The capacity of the buffer for the bytes from `x` on when it is added to the cord. -/
def bufferCapacity (hint : Option ℕ) (x : ℕ) : ℕ :=
  if x = 0 then maxFlatLength else capacityOf (wantedCapacity hint x)

/-- The hint does not end inside a chunk other than the first, or the buffer for the predicted rest is
as large as a chunk, or it takes all that is left of the `n` bytes. -/
def HintFits (hint : Option ℕ) (n : ℕ) : Prop :=
  ∀ total, hint = some total → maxFlatLength < total →
    let start := (total - 1) / maxFlatLength * maxFlatLength
    capacityOf (total - start) = maxFlatLength ∨ n ≤ start + capacityOf (total - start)

theorem bufferCapacity_le (hint : Option ℕ) (x : ℕ) : bufferCapacity hint x ≤ maxFlatLength := by
  rw [bufferCapacity]
  split_ifs
  · exact le_rfl
  · exact capacityOf_le _

theorem bufferCapacity_pos (hint : Option ℕ) (x : ℕ) : 0 < bufferCapacity hint x := by
  have hmin := maxInline_le_capacityOf (wantedCapacity hint x)
  have hpos := maxFlatLength_pos
  rw [bufferCapacity]
  split_ifs
  · exact hpos
  · exact lt_of_lt_of_le (by decide) hmin

/-- Once the hint is used up, and while it predicts a chunk, buffers are as large as a chunk. -/
theorem bufferCapacity_eq (hx : ∀ total, hint = some total → total ≤ x ∨ x + maxFlatLength ≤ total) :
    bufferCapacity hint x = maxFlatLength := by
  rw [bufferCapacity]
  split_ifs with h0
  · rfl
  · refine capacityOf_of_le ?_
    cases hint with
    | none => exact le_rfl
    | some total =>
      have := hx total rfl
      rw [wantedCapacity]
      split_ifs
      · omega
      · exact le_rfl

/-- The last chunk that the hint predicts starts at a multiple of the chunk size. -/
private theorem bufferCapacity_mul {total : ℕ} (htotal : 0 < total) (i : ℕ) :
    i ≠ (total - 1) / maxFlatLength → bufferCapacity (some total) (i * maxFlatLength) =
      maxFlatLength := by
  intro hi
  have hpos := maxFlatLength_pos
  have hdiv := Nat.div_add_mod (total - 1) maxFlatLength
  have hmod := Nat.mod_lt (total - 1) hpos
  rw [Nat.mul_comm] at hdiv
  refine bufferCapacity_eq fun total' htotal' ↦ ?_
  obtain rfl := Option.some.inj htotal'
  obtain hlt | hgt := Nat.lt_or_gt_of_ne hi
  · have := Nat.mul_le_mul_right maxFlatLength (Nat.succ_le_of_lt hlt)
    rw [Nat.succ_mul] at this
    omega
  · have := Nat.mul_le_mul_right maxFlatLength (Nat.succ_le_of_lt hgt)
    rw [Nat.succ_mul] at this
    omega

private theorem bufferCapacity_last {total : ℕ} (htotal : maxFlatLength < total) :
    bufferCapacity (some total) ((total - 1) / maxFlatLength * maxFlatLength) =
      capacityOf (total - (total - 1) / maxFlatLength * maxFlatLength) := by
  have hpos := maxFlatLength_pos
  have hdiv := Nat.div_mul_le_self (total - 1) maxFlatLength
  have hge : 0 < (total - 1) / maxFlatLength := Nat.div_pos (by omega) hpos
  have hstart : 0 < (total - 1) / maxFlatLength * maxFlatLength := Nat.mul_pos hge hpos
  rw [bufferCapacity, if_neg hstart.ne', wantedCapacity, if_pos (by omega)]

/-- The hint does not change the chunks exactly if it fits. -/
theorem cutLengths_eq_iff (hint : Option ℕ) (n : ℕ) :
    cutLengths (bufferCapacity hint) 0 n = cutLengths (fun _ ↦ maxFlatLength) 0 n ↔
      HintFits hint n := by
  have hpos := maxFlatLength_pos
  constructor
  · rintro heq total rfl htotal
    by_contra hne
    rw [not_or] at hne
    have hle := capacityOf_le (total - (total - 1) / maxFlatLength * maxFlatLength)
    have hlast := bufferCapacity_last htotal
    refine @cutLengths_ne _ 0 0 n maxFlatLength ((total - 1) / maxFlatLength) hpos
      (fun i hi ↦ ?_) (bufferCapacity_pos _ _) ?_ ?_ heq
    · rw [Nat.zero_add]
      exact bufferCapacity_mul (by omega) i hi.ne
    · rw [Nat.zero_add, hlast]
      omega
    · rw [Nat.zero_add, hlast]
      omega
  · intro hfits
    refine cutLengths_eq hpos fun i hi ↦ ?_
    rw [Nat.zero_add]
    cases hint with
    | none => exact .inl (bufferCapacity_eq (by simp))
    | some total =>
      by_cases hlast : 0 < total ∧ i = (total - 1) / maxFlatLength
      · obtain ⟨htotal, rfl⟩ := hlast
        by_cases hle : total ≤ maxFlatLength
        · rw [Nat.div_eq_of_lt (by omega), Nat.zero_mul]
          exact .inl rfl
        · rw [bufferCapacity_last (by omega)]
          have hcap := capacityOf_le (total - (total - 1) / maxFlatLength * maxFlatLength)
          obtain heq | hn := hfits total rfl (by omega)
          · exact .inl heq
          · exact .inr (by omega)
      · refine .inl ?_
        obtain rfl | htotal := Nat.eq_zero_or_pos total
        · exact bufferCapacity_eq fun total ht ↦ .inl (Option.some.inj ht ▸ Nat.zero_le _)
        · exact bufferCapacity_mul htotal i fun heq ↦ hlast ⟨htotal, heq⟩

/-- A buffer that is smaller than a chunk takes all that the hint predicts. -/
private theorem le_bufferCapacity {total : ℕ} (htotal : hint = some total)
    (hne : bufferCapacity hint x ≠ maxFlatLength) : total ≤ x + bufferCapacity hint x := by
  subst htotal
  by_contra hlt
  refine hne (bufferCapacity_eq fun total' htotal' ↦ .inr ?_)
  obtain rfl := Option.some.inj htotal'
  by_contra hfar
  have hlo := le_capacityOf (total - x)
  rw [bufferCapacity] at hne hlt
  split_ifs at hne hlt with h0
  · exact hne rfl
  · rw [wantedCapacity, if_pos (by omega)] at hlt
    omega

/-- Only one chunk besides the last is not full. -/
theorem length_cutLengths_le (hint : Option ℕ) (x n : ℕ) :
    (cutLengths (bufferCapacity hint) x n).length ≤ flatsFor n + 1 ∧
      ((∀ total, hint = some total → total ≤ x) →
        (cutLengths (bufferCapacity hint) x n).length ≤ flatsFor n) := by
  induction n using Nat.strong_induction_on generalizing x with
  | _ n ih =>
    have hpos := maxFlatLength_pos
    have htop := bufferCapacity_pos hint x
    have htople := bufferCapacity_le hint x
    obtain rfl | hn := Nat.eq_zero_or_pos n
    · simp
    · by_cases hle : n ≤ bufferCapacity hint x
      · rw [cutLengths_of_le hn hle, flatsFor_of_pos hn, List.length_singleton]
        exact ⟨by omega, fun _ ↦ by omega⟩
      · obtain ⟨hfirst, hrest⟩ := ih (n - bufferCapacity hint x) (by omega)
          (x + bufferCapacity hint x)
        have hmono := flatsFor_mono (Nat.sub_le n (bufferCapacity hint x))
        have hfull : bufferCapacity hint x = maxFlatLength →
            flatsFor n = 1 + flatsFor (n - bufferCapacity hint x) := fun heq ↦ by
          rw [flatsFor_of_pos hn, heq, Nat.min_eq_right (by omega)]
        rw [cutLengths_of_lt htop (by omega), List.length_cons]
        refine ⟨?_, fun hx ↦ ?_⟩
        · by_cases heq : bufferCapacity hint x = maxFlatLength
          · have := hfull heq
            omega
          · -- The buffer was sized for the rest of the hint, which it uses up.
            have := hrest fun total htotal ↦ le_bufferCapacity htotal heq
            omega
        · have := hfull (bufferCapacity_eq fun total htotal ↦ .inl (hx total htotal))
          have := hrest fun total htotal ↦ (hx total htotal).trans (Nat.le_add_right _ _)
          omega

end Hint

/-! ### Filling buffers -/

theorem fillSlots_of_lt {slots : ℕ} {seq : SeqAccess ε} {rest : Bytes} {taken : Bytes}
    (hitems : seq.items = taken ++ rest) (hslots : taken.length = slots) :
    fillSlots slots seq = (taken, .ok false, { seq with items := rest }) := by
  induction taken generalizing slots seq with
  | nil =>
    obtain rfl := hslots
    obtain ⟨items, error, hint⟩ := seq
    obtain rfl : items = rest := hitems
    rfl
  | cons byte taken ih =>
    obtain rfl := hslots
    obtain ⟨items, error, hint⟩ := seq
    obtain rfl : items = byte :: (taken ++ rest) := hitems
    simp only [List.length_cons, fillSlots, SeqAccess.nextElement]
    rw [@ih _ ⟨taken ++ rest, error, hint⟩ rfl rfl]

/-- A sequence that ends or fails in a free slot. -/
theorem fillSlots_of_length_lt {slots : ℕ} {seq : SeqAccess ε} (hslots : seq.items.length < slots) :
    fillSlots slots seq = (seq.items, match seq.error with | some e => .error e | none => .ok true,
      { seq with items := [] }) := by
  obtain ⟨items, error, hint⟩ := seq
  induction items generalizing slots with
  | nil =>
    obtain ⟨slots, rfl⟩ := Nat.exists_eq_succ_of_ne_zero (Nat.ne_zero_of_lt hslots)
    cases error <;> rfl
  | cons byte items ih =>
    obtain ⟨slots, rfl⟩ := Nat.exists_eq_succ_of_ne_zero (Nat.ne_zero_of_lt hslots)
    simp only [fillSlots, SeqAccess.nextElement]
    rw [ih (Nat.lt_of_succ_lt_succ hslots)]

section Rules

variable [Target] {h : Heap Node} {Z : List Addr} {R : Multiset Addr} {c : Cord Rep}
  {b : CordBuffer} {bs : Bytes} {cap : ℕ} {seq : SeqAccess ε}

/-- Filling a buffer takes as many bytes as fit, and one more if the sequence goes on. -/
theorem wp_fill (hb : b.Holds h bs cap) (ho : Owned h (b.cells ++ Z) R)
    {Q : Except ε (Option UInt8) × SeqAccess ε × CordBuffer → Heap Node → Prop}
    (hfull : ∀ taken byte rest b' h', seq.items = taken ++ byte :: rest →
      bs.length + taken.length = cap → b'.Holds h' (bs ++ taken) cap →
      Owned h' (b'.cells ++ Z) R → Frame Z R h h' →
      Q (.ok (some byte), { seq with items := rest }, b') h')
    (hend : bs.length + seq.items.length ≤ cap → ∀ b' h', b'.Holds h' (bs ++ seq.items) cap →
      Owned h' (b'.cells ++ Z) R → Frame Z R h h' →
      Q (match seq.error with | some e => .error e | none => .ok none,
        { seq with items := [] }, b') h') :
    wp (fill seq b) Q h := by
  have hle := hb.1
  rw [fill, wp_bind]
  refine CordBuffer.wp_available hb ?_
  obtain ⟨items, error, hint⟩ := seq
  dsimp only at hfull hend
  obtain hlt | heq | hgt := Nat.lt_trichotomy items.length (cap - bs.length)
  · rw [@fillSlots_of_length_lt _ _ ⟨items, error, hint⟩ hlt, wp_bind]
    dsimp only
    refine CordBuffer.wp_setLen hb ho (by omega) fun b' h' hb' ho' hf' ↦ ?_
    have hQ := hend (by omega) b' h' hb' ho' hf'
    cases error <;> exact (wp_pure _ _ _).mpr hQ
  · -- The last byte fills the buffer, and the end is found in its place.
    rw [@fillSlots_of_lt _ _ _ [] items (List.append_nil _).symm heq, wp_bind]
    refine CordBuffer.wp_setLen hb ho (by omega) fun b' h' hb' ho' hf' ↦ ?_
    have hQ := hend (by omega) b' h' hb' ho' hf'
    cases error <;> exact (wp_pure _ _ _).mpr hQ
  · have hsplit : items = items.take (cap - bs.length) ++
        items.drop (cap - bs.length) := (List.take_append_drop _ _).symm
    obtain ⟨byte, rest, hrest⟩ := List.exists_cons_of_length_pos
      (l := items.drop (cap - bs.length)) (by rw [List.length_drop]; omega)
    rw [hrest] at hsplit
    have htaken : (items.take (cap - bs.length)).length = cap - bs.length := by
      rw [List.length_take]
      omega
    rw [fillSlots_of_lt hsplit htaken, wp_bind]
    refine CordBuffer.wp_setLen hb ho (by omega) fun b' h' hb' ho' hf' ↦ ?_
    exact (wp_pure _ _ _).mpr (hfull _ byte rest b' h' hsplit (by omega) hb' ho' hf')

/-- Committing a buffer adds its bytes as a chunk, inline if they are few. -/
theorem wp_commit (hc : Cord.Owns h (b.cells ++ Z) R c) (hb : b.Holds h bs cap)
    (hcap : cap ≤ maxFlatLength) (hlen : c.len + bs.length ≤ usizeMax)
    (hcount : bs ≠ [] → c.edgeCount + 1 ≤ maxCapacity ^ maxDepth)
    {Q : Cord Addr → Heap Node → Prop}
    (hempty : bs = [] → ∀ h', Cord.Owns h' Z R c → Frame Z R h h' → Q c.handle h')
    (hQ : bs ≠ [] → ∀ (c' : Cord Rep) h', Cord.Owns h' Z R c' → c.Grown bs c' → Frame Z R h h' →
      Q c'.handle h') :
    wp (commit c.handle b) Q h := by
  have hle := hb.1
  rw [commit, wp_bind]
  refine CordBuffer.wp_asSlice hb ?_
  by_cases hbs : bs = []
  · rw [if_pos (by simp [hbs]), wp_bind]
    refine Cord.wp_dropBuffer hc fun h' hc' hf' ↦ ?_
    exact (wp_pure _ _ _).mpr (hempty hbs h' hc' hf')
  · rw [if_neg (by simpa using hbs), wp_bind]
    refine CordBuffer.wp_capacity hb ?_
    split_ifs with hcopy
    · rw [wp_bind]
      refine Cord.wp_appendPrecise hc hbs (by omega) hlen (hcount hbs) fun c' h₁ hc₁ hg hf₁ ↦ ?_
      rw [wp_bind]
      refine Cord.wp_dropBuffer hc₁ fun h' hc' hf' ↦ ?_
      exact (wp_pure _ _ _).mpr (hQ hbs c' h' hc' hg
        ((hf₁.mono (List.subset_append_right _ _) le_rfl).trans hf'))
    · exact Cord.wp_appendBuffer hc hb hlen (hcount hbs) hempty hQ

/-- Where the building of a cord is: nothing was added to it, or the buffer has the capacity the hint
gives it for the bytes from `x` on. -/
def Staging (hint : Option ℕ) (c : Cord Rep) (x cap : ℕ) : Prop :=
  c = .inline .new ∧ x = 0 ∧ cap ≤ maxFlatLength ∨
    c.isTree = true ∧ x ≠ 0 ∧ cap = bufferCapacity hint x

variable {hint : Option ℕ} {x : ℕ}

theorem Staging.cap_le (hs : Staging hint c x cap) : cap ≤ bufferCapacity hint x := by
  obtain ⟨-, rfl, hle⟩ | ⟨-, -, rfl⟩ := hs
  · exact hle
  · exact le_rfl

theorem Staging.chunks (hs : Staging hint c x cap) : c.chunks = [] ∨ c.isTree = true := by
  obtain ⟨rfl, -⟩ | ⟨htree, -⟩ := hs
  · exact .inl rfl
  · exact .inr htree

/-- A full buffer is replaced by one with room, and the chunks to come stay the same. -/
private theorem wp_nextBuffer (hc : Cord.Owns h (b.cells ++ Z) R c) (hb : b.Holds h bs cap)
    (hs : Staging hint c x cap) (hcap : maxInline ≤ cap) (hfull : bs.length = cap)
    (hlen : c.len + bs.length ≤ usizeMax) (hcount : c.edgeCount + 1 ≤ maxCapacity ^ maxDepth)
    {Q : Cord Addr × CordBuffer → Heap Node → Prop}
    (hQ : ∀ (c' : Cord Rep) b' bs' cap' x' h', Cord.Owns h' (b'.cells ++ Z) R c' →
      b'.Holds h' bs' cap' → Staging hint c' x' cap' → maxInline ≤ cap' → bs'.length < cap' →
      x' + bs'.length = x + cap → c'.bytes ++ bs' = c.bytes ++ bs →
      (∀ n, 0 < n → c'.chunks.map List.length ++ cutLengths (bufferCapacity hint) x' (bs'.length + n) =
        c.chunks.map List.length ++ cutLengths (bufferCapacity hint) x (cap + n)) →
      Frame Z R h h' → Q (c'.handle, b') h') :
    wp (nextBuffer hint c.handle b (x + cap)) Q h := by
  have hcappos : 0 < cap := lt_of_lt_of_le (by decide) hcap
  have hcaple := hs.cap_le.trans (bufferCapacity_le hint x)
  rw [nextBuffer, wp_bind]
  refine CordBuffer.wp_capacity hb ?_
  by_cases hgrow : c.handle.isEmpty = true ∧ cap < CordBuffer.defaultMaxCapacity
  · -- The buffer grows.
    have hmax : cap < maxFlatLength := hgrow.2
    have hroom := CordBuffer.le_capacityOf (min (cap * 4) maxFlatLength)
    have hupper := CordBuffer.capacityOf_le (min (cap * 4) maxFlatLength)
    rw [if_pos hgrow, wp_bind]
    refine CordBuffer.wp_withCapacity hc.owned fun b₁ h₁ hb₁ ho₁ hg₁ ↦ ?_
    rw [wp_bind]
    refine CordBuffer.wp_asSlice (hb.grows hg₁) ?_
    rw [CordBuffer.defaultMaxCapacity] at hb₁
    rw [wp_bind]
    refine CordBuffer.wp_putSlice hb₁ ho₁ (by rw [List.length_nil]; omega) fun b₂ h₂ hb₂ ho₂ hf₂ ↦ ?_
    have hperm : (b₂.cells ++ (b.cells ++ Z)).Perm (b.cells ++ (b₂.cells ++ Z)) := by
      rw [← List.append_assoc, ← List.append_assoc]
      exact List.perm_append_comm.append_right Z
    rw [wp_bind]
    refine CordBuffer.wp_drop (ho₂.perm hperm) fun h₃ ho₃ hf₃ ↦ ?_
    have hf : Frame Z (c.refs + R) h h₃ :=
      ((hc.owned.frame_of_grows hg₁).trans hf₂).mono (List.subset_append_right _ _) le_rfl |>.trans
        (hf₃.mono (List.subset_append_right _ _) le_rfl)
    obtain ⟨rfl, rfl, -⟩ | ⟨htree, -⟩ := hs
    · exact (wp_pure _ _ _).mpr (hQ (.inline .new) b₂ bs _ 0 h₃ (hc.frame ho₃ hf) (hb₂.frame hf₃)
        (.inl ⟨rfl, rfl, hupper⟩) (CordBuffer.maxInline_le_capacityOf _) (by omega) (by omega) rfl
        (fun n hn ↦ by rw [hfull]) (hf.mono (List.Subset.refl _) (Multiset.le_add_left _ _)))
    · cases c with
      | inline d => cases htree
      | tree t => cases hgrow.1
  · -- The buffer is added to the cord.
    have hcapeq : cap = bufferCapacity hint x := by
      obtain ⟨rfl, rfl, hle⟩ | ⟨-, -, heq⟩ := hs
      · have : ¬cap < maxFlatLength := fun hlt ↦ hgrow ⟨rfl, hlt⟩
        rw [bufferCapacity, if_pos rfl]
        omega
      · exact heq
    have hbs : bs ≠ [] := List.length_pos_iff.mp (by omega)
    rw [if_neg hgrow, wp_bind]
    refine wp_commit hc hb hcaple hlen (fun _ ↦ hcount) (fun hnil ↦ absurd hnil hbs)
      fun _ c' h₁ hc₁ hg hf₁ ↦ ?_
    rw [wp_bind]
    refine CordBuffer.wp_withCapacity hc₁.owned fun b₂ h₂ hb₂ ho₂ hg₂ ↦ ?_
    have hf₂ : Frame Z (c'.refs + R) h₁ h₂ := hc₁.owned.frame_of_grows hg₂
    have htree : c'.isTree = true := by
      obtain ⟨htree, -⟩ | ⟨d, rfl, hle, -⟩ := hg
      · exact htree
      · -- A first chunk is too long to be inline.
        obtain ⟨hnew, rfl, -⟩ | ⟨htree, -⟩ := hs
        · have hmin := minFlatLength_pos
          have hmax := minFlatLength_le_maxFlatLength
          rw [bufferCapacity, if_pos rfl] at hcapeq
          omega
        · cases htree
    refine (wp_pure _ _ _).mpr (hQ c' b₂ [] _ (x + cap) h₂ (hc₁.frame ho₂ hf₂) hb₂
      (.inr ⟨htree, by omega, by rw [bufferCapacity, if_neg (by omega)]⟩)
      (CordBuffer.maxInline_le_capacityOf _) ?_ rfl ?_ ?_ (hf₁.trans
        (hf₂.mono (List.Subset.refl _) (Multiset.le_add_left _ _))))
    · exact lt_of_lt_of_le (by decide) (CordBuffer.maxInline_le_capacityOf _)
    · rw [List.append_nil, hg.bytes_eq hc.valid hc₁.valid]
    · intro n hn
      rw [hg.chunks_eq hc.valid hbs hs.chunks, cutLengths_of_lt (x := x) (by omega) (by omega),
        ← hcapeq]
      simp [hfull]

/-- What is left to be read goes behind what was added to the cord and what is in the buffer. -/
private theorem wp_visitLoop {fuel : ℕ} (hc : Cord.Owns h (b.cells ++ Z) R c)
    (hb : b.Holds h bs cap) (hs : Staging hint c x cap) (hcap : maxInline ≤ cap)
    (hfuel : seq.items.length < fuel)
    (hlen : c.len + (bs.length + seq.items.length) ≤ usizeMax)
    (hcount : c.edgeCount + (cutLengths (bufferCapacity hint) x
      (bs.length + seq.items.length)).length ≤ maxCapacity ^ maxDepth)
    {Q : Except ε (Cord Addr) → Heap Node → Prop}
    (herr : ∀ e, seq.error = some e → ∀ h', Owned h' Z R → Frame Z R h h' → Q (.error e) h')
    (hok : seq.error = none → ∀ (c' : Cord Rep) h', Cord.Owns h' Z R c' →
      c'.bytes = c.bytes ++ bs ++ seq.items →
      c'.chunks.map List.length = c.chunks.map List.length ++
        cutLengths (bufferCapacity hint) x (bs.length + seq.items.length) →
      Frame Z R h h' → Q (.ok c'.handle) h') :
    wp (visitLoop hint fuel seq c.handle b (x + bs.length)) Q h := by
  induction fuel generalizing h c b bs cap x seq with
  | zero => exact absurd hfuel (Nat.not_lt_zero _)
  | succ fuel ih =>
    have hcaple := hs.cap_le.trans (bufferCapacity_le hint x)
    rw [visitLoop, wp_bind]
    refine CordBuffer.wp_len hb ?_
    rw [wp_bind]
    refine wp_fill hb hc.owned ?_ ?_
    · intro taken byte rest b₁ h₁ hitems hfull hb₁ ho₁ hf₁
      have hc₁ := hc.frame ho₁ hf₁
      have hbs₁ : (bs ++ taken).length = cap := by simpa using hfull
      have htotal : bs.length + seq.items.length = cap + (1 + rest.length) := by
        rw [hitems, List.length_append, List.length_cons]
        omega
      rw [htotal] at hlen hcount hok
      have hpos : 0 < (cutLengths (bufferCapacity hint) x (cap + (1 + rest.length))).length := by
        rw [cutLengths]
        split_ifs
        · omega
        · simp
        · simp
      dsimp only
      rw [wp_bind]
      refine CordBuffer.wp_len hb₁ ?_
      rw [wp_bind, show x + bs.length + ((bs ++ taken).length - bs.length) = x + cap by
        rw [List.length_append] at hbs₁ ⊢; omega]
      refine wp_nextBuffer hc₁ hb₁ hs hcap hbs₁ (by omega) (by omega)
        fun c₂ b₂ bs₂ cap₂ x₂ h₂ hc₂ hb₂ hs₂ hcap₂ hroom hx hbytes hcut hf₂ ↦ ?_
      dsimp only
      rw [wp_bind]
      refine CordBuffer.wp_putSlice hb₂ hc₂.owned (by simpa using hroom) fun b₃ h₃ hb₃ ho₃ hf₃ ↦ ?_
      have hc₃ := hc₂.frame ho₃ hf₃
      have hf : Frame Z R h h₃ := (hf₁.mono (List.Subset.refl _) (Multiset.le_add_left _ _)).trans
        (hf₂.trans (hf₃.mono (List.Subset.refl _) (Multiset.le_add_left _ _)))
      -- What was read is now in the cord or in the buffer.
      have hlen₂ : c₂.len + bs₂.length = c.len + cap := by
        rw [Cord.len_eq hc₂.valid, Cord.len_eq hc.valid, ← hbs₁, ← List.length_append, hbytes,
          List.length_append]
      have hcut₂ := hcut (1 + rest.length) (by omega)
      have hcount₂ := congrArg List.length hcut₂
      rw [List.length_append, List.length_append, List.length_map, List.length_map] at hcount₂
      have hputs : (bs₂ ++ [byte]).length + rest.length = bs₂.length + (1 + rest.length) := by
        rw [List.length_append, List.length_singleton, Nat.add_assoc]
      have hwp := @ih _ c₂ b₃ (bs₂ ++ [byte]) cap₂ { seq with items := rest } x₂ hc₃ hb₃ hs₂ hcap₂
        (by rw [hitems] at hfuel; simp at hfuel ⊢; omega) (by dsimp only; omega)
        (by dsimp only; rw [hputs]; exact hcount₂.trans_le hcount) ?_ ?_
      · rwa [List.length_append, List.length_singleton, ← Nat.add_assoc, hx] at hwp
      · intro e he h' ho' hf'
        exact herr e he h' ho' (hf.trans hf')
      · intro hnone c' h' hc' hbytes' hcut' hf'
        refine hok hnone c' h' hc' ?_ ?_ (hf.trans hf')
        · rw [hbytes', ← List.append_assoc, hbytes, hitems]
          simp
        · rw [hcut', hputs, hcut₂]
    · intro hle b₁ h₁ hb₁ ho₁ hf₁
      have hc₁ := hc.frame ho₁ hf₁
      have hf : Frame Z R h h₁ := hf₁.mono (List.Subset.refl _) (Multiset.le_add_left _ _)
      cases herror : seq.error with
      | some e =>
        dsimp only
        rw [wp_bind]
        refine Cord.wp_dropBuffer hc₁ fun h₂ hc₂ hf₂ ↦ ?_
        rw [wp_bind]
        refine Cord.wp_drop hc₂ fun h₃ ho₃ hf₃ ↦ ?_
        exact (wp_pure _ _ _).mpr (herr e herror h₃ ho₃ (hf.trans (hf₂.trans hf₃)))
      | none =>
        have hlen₁ : (bs ++ seq.items).length = bs.length + seq.items.length := List.length_append
        dsimp only
        rw [wp_bind]
        refine CordBuffer.wp_len hb₁ ?_
        rw [wp_bind]
        refine wp_commit hc₁ hb₁ hcaple (by omega) ?_ ?_ ?_
        · intro hne
          have hpos := List.length_pos_iff.mpr hne
          rwa [cutLengths_of_le (by omega) (hle.trans hs.cap_le)] at hcount
        · intro hnil h₂ hc₂ hf₂
          have hzero : bs.length + seq.items.length = 0 := by rw [← hlen₁, hnil, List.length_nil]
          refine (wp_pure _ _ _).mpr (hok herror c h₂ hc₂ ?_ ?_ (hf.trans hf₂))
          · rw [List.append_assoc, hnil, List.append_nil]
          · rw [hzero, cutLengths_zero, List.append_nil]
        · intro hne c' h₂ hc₂ hg hf₂
          have hpos := List.length_pos_iff.mpr hne
          refine (wp_pure _ _ _).mpr (hok herror c' h₂ hc₂ ?_ ?_ (hf.trans hf₂))
          · rw [hg.bytes_eq hc.valid hc₂.valid, List.append_assoc]
          · rw [hg.chunks_eq hc.valid hne hs.chunks, cutLengths_of_le (by omega) (hle.trans hs.cap_le),
              List.map_append, List.map_singleton, hlen₁]

/-- The cord has the bytes of the sequence in the chunks that the buffers are cut into. -/
theorem wp_visitSeq (ho : Owned h Z R) (hlen : seq.items.length ≤ usizeMax)
    (hcount : flatsFor seq.items.length + 1 ≤ maxCapacity ^ maxDepth)
    {Q : Except ε (Cord Addr) → Heap Node → Prop}
    (herr : ∀ e, seq.error = some e → ∀ h', Owned h' Z R → Frame Z R h h' → Q (.error e) h')
    (hok : seq.error = none → ∀ (c : Cord Rep) h', Cord.Owns h' Z R c → c.bytes = seq.items →
      c.chunks.map List.length =
        cutLengths (bufferCapacity seq.sizeHint) 0 seq.items.length → Frame Z R h h' →
      Q (.ok c.handle) h') :
    wp (visitSeq seq) Q h := by
  have hcut := (length_cutLengths_le seq.sizeHint 0 seq.items.length).1
  rw [visitSeq, wp_bind]
  refine CordBuffer.wp_withCapacity ho fun b h₁ hb₁ ho₁ hg₁ ↦ ?_
  have hf₁ : Frame Z R h h₁ := ho.frame_of_grows hg₁
  have hnew : Cord.Valid (.inline .new) := by
    rw [InlineData.new_eq]
    exact InlineData.wellFormed_ofBytes (Nat.zero_le _)
  have hzero : ([] : Bytes).length + seq.items.length = seq.items.length := by simp
  refine wp_visitLoop (c := .inline .new) (x := 0) (Cord.owns_inline ho₁ hnew) hb₁
    (.inl ⟨rfl, rfl, CordBuffer.capacityOf_le _⟩) (CordBuffer.maxInline_le_capacityOf _)
    (Nat.lt_succ_self _) ?_ ?_ ?_ ?_
  · rw [hzero]
    change 0 + _ ≤ _
    omega
  · rw [hzero]
    change 0 + _ ≤ _
    omega
  · exact fun e he h' ho' hf' ↦ herr e he h' ho' (hf₁.trans hf')
  · intro hnone c' h' hc' hbytes hcut' hf'
    exact hok hnone c' h' hc' hbytes (by rw [hcut', hzero]; rfl) (hf₁.trans hf')

/-! ### The shape of the cord -/

/-- The chunks bytes are cut into are full but the last one. -/
theorem length_chunks_eq (data : Bytes) : (chunks true data).map List.length =
    cutLengths (fun _ ↦ maxFlatLength) 0 data.length := by
  have hpos := maxFlatLength_pos
  induction hn : data.length using Nat.strong_induction_on generalizing data with
  | _ n ih =>
    obtain rfl | hdata := eq_or_ne data []
    · rw [chunks_nil, List.map_nil, ← hn, List.length_nil, cutLengths_zero]
    · have hlen := List.length_pos_iff.mpr hdata
      rw [chunks_of_ne_nil hdata, List.map_cons, length_consumed (Nat.min_le_left _ _)]
      by_cases hle : data.length ≤ maxFlatLength
      · rw [Nat.min_eq_left hle, @cutLengths_of_le (fun _ ↦ maxFlatLength) 0 n (by omega) (by omega),
          show consume true data data.length = [] by simp [consume], chunks_nil, List.map_nil, hn]
      · rw [Nat.min_eq_right (by omega), cutLengths_const_of_lt hpos (by omega)]
        refine congrArg (maxFlatLength :: ·) (ih (n - maxFlatLength) (by omega) _ ?_)
        rw [length_consume, hn]

namespace Cord

/-- The chunks of a cord are as long as those of the cord made from the given bytes. -/
def ShapedLike (h : Heap Node) (Z : List Addr) (R : Multiset Addr) (c : Cord Rep) (data : Bytes) :
    Prop :=
  wp (copyFromSlice data) (fun r h' ↦ ∃ c' : Cord Rep, r = c'.handle ∧ Owns h' Z R c' ∧
    c.chunks.map List.length = c'.chunks.map List.length) h

private theorem shapedLike_iff {data : Bytes} (ho : Owned h Z R) (hlen : data.length ≤ usizeMax)
    (hcount : flatsFor data.length ≤ maxCapacity ^ maxDepth) : ShapedLike h Z R c data ↔
      c.chunks.map List.length = cutLengths (fun _ ↦ maxFlatLength) 0 data.length := by
  rw [← length_chunks_eq]
  constructor
  · rintro ⟨r, h', hrun, c', rfl, hc', hchunks⟩
    obtain ⟨r₁, h₁, hrun₁, c₁, rfl, hc₁, hchunks₁⟩ : wp (copyFromSlice data) (fun r h' ↦
        ∃ c' : Cord Rep, r = c'.handle ∧ Owns h' Z R c' ∧ c'.chunks = CordRs.chunks true data) h :=
      wp_copyFromSlice ho hlen hcount fun c' h' hc' hchunks _ ↦ ⟨c', rfl, hc', hchunks⟩
    obtain ⟨hhandle, rfl⟩ := Prod.mk.inj (Except.ok.inj (hrun.symm.trans hrun₁))
    rw [hchunks, hc'.unique hc₁ hhandle, hchunks₁]
  · intro hchunks
    refine wp_copyFromSlice ho hlen hcount fun c' h' hc' hchunks' _ ↦ ⟨c', rfl, hc', ?_⟩
    rw [hchunks, hchunks']

/-- Where the chunks are as long as those of the cord made from the bytes, the hint fits. -/
private theorem hintFits_of_visit (ho : Owned h Z R) (hlen : seq.items.length ≤ usizeMax)
    (hcount : flatsFor seq.items.length + 1 ≤ maxCapacity ^ maxDepth) (hnone : seq.error = none)
    (hvisit : wp (visitSeq seq) (fun r h' ↦
      (∀ e, seq.error = some e → r = .error e) ∧
      (seq.error = none → ∃ c : Cord Rep, r = .ok c.handle ∧ Owns h' Z R c ∧
        c.bytes = seq.items ∧ ShapedLike h Z R c seq.items)) h) :
    HintFits seq.sizeHint seq.items.length := by
  obtain ⟨r, h', hrun, -, hprop⟩ := hvisit
  obtain ⟨c, rfl, hc, -, hshape⟩ := hprop hnone
  obtain ⟨r₁, h₁, hrun₁, c₁, rfl, hc₁, hcut⟩ : wp (visitSeq seq) (fun r h' ↦
      ∃ c : Cord Rep, r = .ok c.handle ∧ Owns h' Z R c ∧ c.chunks.map List.length =
        cutLengths (bufferCapacity seq.sizeHint) 0 seq.items.length) h :=
    wp_visitSeq ho hlen hcount (fun e he _ _ _ ↦ by rw [hnone] at he; cases he)
      fun _ c h' hc _ hcut _ ↦ ⟨c, rfl, hc, hcut⟩
  obtain ⟨hhandle, rfl⟩ := Prod.mk.inj (Except.ok.inj (hrun.symm.trans hrun₁))
  obtain rfl := hc.unique hc₁ (Except.ok.inj hhandle)
  rw [← cutLengths_eq_iff, ← hcut]
  exact (shapedLike_iff ho hlen (by omega)).mp hshape

/-- A visit passes on a failure of the sequence, and otherwise returns a cord with its bytes. The
chunks are as long as those of the cord made from the bytes exactly if the hint fits. -/
theorem visit_seq_shape (seq : SeqAccess ε) (ho : Owned h Z R)
    (hlen : seq.items.length ≤ usizeMax)
    (hcount : flatsFor seq.items.length + 1 ≤ maxCapacity ^ maxDepth) :
    wp (visitSeq seq) (fun r h' ↦ Frame Z R h h' ∧
      (∀ e, seq.error = some e → r = .error e ∧ Owned h' Z R) ∧
      (seq.error = none → ∃ c : Cord Rep, r = .ok c.handle ∧ Owns h' Z R c ∧
        c.bytes = seq.items)) h ∧
    (wp (visitSeq seq) (fun r h' ↦
      (∀ e, seq.error = some e → r = .error e) ∧
      (seq.error = none → ∃ c : Cord Rep, r = .ok c.handle ∧ Owns h' Z R c ∧
        c.bytes = seq.items ∧ ShapedLike h Z R c seq.items)) h ↔
      (seq.error = none → HintFits seq.sizeHint seq.items.length)) := by
  have hcount' : flatsFor seq.items.length ≤ maxCapacity ^ maxDepth := by omega
  refine ⟨wp_visitSeq ho hlen hcount (fun e he h' ho' hf' ↦ ⟨hf', fun e' he' ↦ ?_, ?_⟩)
    fun hnone c h' hc hbytes _ hf' ↦ ⟨hf', ?_, fun _ ↦ ⟨c, rfl, hc, hbytes⟩⟩, ?_, fun hfits ↦ ?_⟩
  · obtain rfl := Option.some.inj (he.symm.trans he')
    exact ⟨rfl, ho'⟩
  · intro hnone
    rw [hnone] at he
    cases he
  · intro e he
    rw [hnone] at he
    cases he
  · exact fun hvisit hnone ↦ hintFits_of_visit ho hlen hcount hnone hvisit
  · refine wp_visitSeq ho hlen hcount (fun e he h' ho' hf' ↦ ⟨fun e' he' ↦ ?_, fun hnone ↦ ?_⟩)
      fun hnone c h' hc hbytes hcut hf' ↦ ⟨fun e he ↦ ?_, fun _ ↦ ⟨c, rfl, hc, hbytes, ?_⟩⟩
    · obtain rfl := Option.some.inj (he.symm.trans he')
      rfl
    · rw [hnone] at he
      cases he
    · rw [hnone] at he
      cases he
    · rw [shapedLike_iff ho hlen hcount', hcut]
      exact (cutLengths_eq_iff _ _).mpr (hfits hnone)

end Cord

end Rules

/-! ### A hint that fits, and one that ends behind a chunk -/

/-- The chunks of 5000 bytes that the hint announces are those of the cord made from them. -/
theorem Cord.visit_seq_shape_announced :
    letI : Target := ⟨64, .inr rfl⟩
    let seq : SeqAccess Empty := ⟨List.replicate 5000 0, none, some 5000⟩
    wp (visitSeq seq) (fun r h' ↦ ∃ c : Cord Rep, r = .ok c.handle ∧ Cord.Owns h' [] 0 c ∧
      c.bytes = seq.items ∧ Cord.ShapedLike .empty [] 0 c seq.items) .empty := by
  let _ : Target := ⟨64, .inr rfl⟩
  intro seq
  have hlen : seq.items.length = 5000 := List.length_replicate
  have hvisit := Cord.visit_seq_shape seq Owned.empty (by rw [hlen]; decide) (by rw [hlen]; decide)
  have hfits : HintFits seq.sizeHint seq.items.length := by
    rw [hlen]
    -- The buffer for the 917 bytes behind the first chunk takes them all.
    intro total htotal _
    obtain rfl : 5000 = total := Option.some.inj htotal
    exact .inr (by decide)
  refine wp_mono (hvisit.2.mpr fun _ ↦ hfits) ?_
  rintro r h' ⟨-, hr⟩
  exact hr rfl

/-- With a hint of five bytes behind a chunk, the second of 5000 bytes' chunks is a short one. -/
theorem Cord.visit_seq_short_chunk :
    letI : Target := ⟨64, .inr rfl⟩
    let seq : SeqAccess Empty := ⟨List.replicate 5000 0, none, some 4088⟩
    ¬wp (visitSeq seq) (fun r h' ↦
      (∀ e, seq.error = some e → r = .error e) ∧
      (seq.error = none → ∃ c : Cord Rep, r = .ok c.handle ∧ Cord.Owns h' [] 0 c ∧
        c.bytes = seq.items ∧ Cord.ShapedLike .empty [] 0 c seq.items)) .empty := by
  let _ : Target := ⟨64, .inr rfl⟩
  intro seq hvisit
  have hlen : seq.items.length = 5000 := List.length_replicate
  have hfits := Cord.hintFits_of_visit Owned.empty (by rw [hlen]; decide) (by rw [hlen]; decide)
    rfl hvisit
  rw [hlen] at hfits
  -- The buffer for the five bytes takes fifteen.
  exact absurd (hfits 4088 rfl (by decide)) (by decide)

end CordRs
