import CordRs.Cord.AppendCord

/-!
# Appending the bytes of an iterator

The bytes of an iterator are collected in a buffer of 256 bytes, which is appended whenever it is
full. An iterator that panics loses none of the bytes it has given: the guard of the buffer appends
them while the panic unwinds.

## Main definitions

* `CordRs.Cord.extend`.

## Main results

* `CordRs.Cord.wp_extend`: the cord gets the bytes that the iterator gave, however it ends.
-/

namespace CordRs

open RefHeap LevelTree

namespace Cord

section Target

variable [Target]

/-- The size of the buffer for the bytes of an iterator. -/
def extendBufferSize : ℕ := 256

/-- Take bytes from an iterator and append the buffer whenever it is full. -/
def extendLoop : Bytes → Bytes → Cord Addr → HeapM (Cord Addr × Bytes)
  | [], buffer, c => pure (c, buffer)
  | byte :: bytes, buffer, c => do
    let buffer := buffer ++ [byte]
    if buffer.length = extendBufferSize then
      let c ← c.appendSlice buffer
      extendLoop bytes [] c
    else
      extendLoop bytes buffer c

/-- Append what is left in the buffer when its guard is dropped. -/
def flushGuard (c : Cord Addr) (buffer : Bytes) : HeapM (Cord Addr) :=
  if 0 < buffer.length then c.appendSlice buffer else pure c

/-- Append the bytes that an iterator gives until it ends or panics. -/
def extend (c : Cord Addr) (bytes : Bytes) (panics : Bool) : HeapM (Cord Addr) := do
  let (c, buffer) ← extendLoop bytes [] c
  if panics then
    flushGuard c buffer
  else
    let c ← c.appendSlice buffer
    flushGuard c []

/-- A cord with the bytes of an iterator. -/
def fromIter (bytes : Bytes) : HeapM (Cord Addr) := extend (.inline .new) bytes false

end Target

section Rules

variable [Target] {h h' : Heap Node} {Z : List Addr} {R : Multiset Addr} {c : Cord Rep}
  {bytes buffer src : Bytes}

/-- The number of times a buffer is appended for `n` bytes. -/
def extendEdges (n : ℕ) : ℕ := (n + (extendBufferSize - 1)) / extendBufferSize

/-- The bytes of the buffer are appended in one data edge at most. -/
private theorem wp_appendBuffered (hc : Owns h Z R c) (hsrc : src.length ≤ extendBufferSize)
    (hlen : c.len + src.length ≤ usizeMax)
    (hcount : c.edgeCount + extendEdges src.length ≤ maxCapacity ^ maxDepth)
    {Q : Cord Addr → Heap Node → Prop}
    (hQ : ∀ (c' : Cord Rep) h', New c' (c.bytes ++ src) h Z R h' →
      c'.edgeCount ≤ c.edgeCount + extendEdges src.length → Q c'.handle h') :
    wp (appendSlice c.handle src) Q h := by
  have hflats : flatsFor (src.length - c.room h) ≤ extendEdges src.length := by
    have hfit : extendBufferSize ≤ maxFlatLength := by
      have := maxBytesToCopy_le_maxFlatLength
      exact (show extendBufferSize ≤ maxBytesToCopy by decide).trans this
    have hone := flatsFor_le_one (show src.length - c.room h ≤ maxFlatLength by omega)
    by_cases hz : src.length = 0
    · simp [hz]
    · have : 1 ≤ extendEdges src.length := by
        simp only [extendEdges, extendBufferSize]
        omega
      omega
  apply wp_appendSlice hc hlen (by omega)
  intro c' h₁ hnew hedges
  exact hQ c' h₁ hnew (by omega)

/-- What the loop has appended and what is left in the buffer are the bytes given. -/
private theorem wp_extendLoop (hc : Owns h Z R c) (hbuffer : buffer.length < extendBufferSize)
    (hlen : c.len + (buffer.length + bytes.length) ≤ usizeMax)
    (hcount : c.edgeCount + extendEdges (buffer.length + bytes.length) ≤ maxCapacity ^ maxDepth)
    {Q : Cord Addr × Bytes → Heap Node → Prop}
    (hQ : ∀ (c' : Cord Rep) rest h', New c' (c.bytes ++ (buffer ++ bytes).take
        ((buffer ++ bytes).length - rest.length)) h Z R h' →
      rest <:+ buffer ++ bytes → rest.length < extendBufferSize →
      c'.edgeCount + extendEdges rest.length ≤
        c.edgeCount + extendEdges (buffer.length + bytes.length) → Q (c'.handle, rest) h') :
    wp (extendLoop bytes buffer c.handle) Q h := by
  induction bytes generalizing h c buffer with
  | nil =>
    rw [extendLoop, wp_pure]
    refine hQ c buffer h ⟨hc, ?_, .refl h⟩ ?_ hbuffer ?_
    · simp
    · rw [List.append_nil]
    · simp
  | cons byte bytes ih =>
    have hone : (buffer ++ [byte]).length = buffer.length + 1 := by simp
    have hsplit : buffer ++ byte :: bytes = (buffer ++ [byte]) ++ bytes := by simp
    rw [List.length_cons] at hlen hcount hQ
    rw [extendLoop]
    rw [hsplit] at hQ
    by_cases hfull : (buffer ++ [byte]).length = extendBufferSize
    · rw [if_pos hfull, wp_bind]
      have hsum : extendEdges (buffer.length + (bytes.length + 1)) = 1 + extendEdges bytes.length := by
        have heq : buffer.length + (bytes.length + 1) = bytes.length + extendBufferSize := by omega
        simp only [extendEdges, heq, extendBufferSize]
        omega
      have hfirst : extendEdges (buffer ++ [byte]).length = 1 := by rw [hfull]; decide
      apply wp_appendBuffered hc hfull.le (by omega) (by omega)
      intro c₁ h₁ hnew₁ hedges₁
      have hlen₁ : c₁.len = c.len + (buffer ++ [byte]).length := by
        rw [len_eq hnew₁.owns.valid, hnew₁.bytes, List.length_append, len_eq hc.valid]
      apply ih hnew₁.owns (by decide) (by simp only [List.length_nil]; omega)
        (by simp only [List.length_nil, Nat.zero_add]; omega)
      intro c₂ rest h₂ hnew₂ hsuffix hrest hedges₂
      simp only [List.nil_append, List.length_nil, Nat.zero_add] at hnew₂ hsuffix hedges₂
      refine hQ c₂ rest h₂ ⟨hnew₂.owns, ?_, hnew₁.frame.trans hnew₂.frame⟩
        (hsuffix.trans (List.suffix_append _ _)) hrest (by omega)
      have hle := hsuffix.length_le
      rw [hnew₂.bytes, hnew₁.bytes, List.append_assoc, List.length_append,
        Nat.add_sub_assoc hle, List.take_length_add_append]
    · rw [if_neg hfull]
      rw [show buffer.length + (bytes.length + 1) = (buffer ++ [byte]).length + bytes.length by
        omega] at hlen hcount hQ
      exact ih hc (by omega) hlen hcount hQ

/-- The bytes that an iterator gave are appended, whether it ended or panicked. -/
theorem wp_extend {panics : Bool} (hc : Owns h Z R c) (hlen : c.len + bytes.length ≤ usizeMax)
    (hcount : c.edgeCount + extendEdges bytes.length ≤ maxCapacity ^ maxDepth)
    {Q : Cord Addr → Heap Node → Prop}
    (hQ : ∀ (c' : Cord Rep) h', New c' (c.bytes ++ bytes) h Z R h' →
      c'.edgeCount ≤ c.edgeCount + extendEdges bytes.length → Q c'.handle h') :
    wp (extend c.handle bytes panics) Q h := by
  rw [extend, wp_bind]
  apply wp_extendLoop hc (by decide) (by simpa using hlen) (by simpa using hcount)
  intro c₁ rest h₁ hnew₁ hsuffix hrest hedges₁
  simp only [List.nil_append, List.length_nil, Nat.zero_add] at hnew₁ hsuffix hedges₁
  have hle := hsuffix.length_le
  have hjoin : bytes.take (bytes.length - rest.length) ++ rest = bytes := by
    conv_lhs => rw [List.suffix_iff_eq_drop.mp hsuffix]
    rw [List.length_drop, Nat.sub_sub_self (by omega), List.take_append_drop]
  have hlen₁ : c₁.len + rest.length = c.len + bytes.length := by
    rw [len_eq hnew₁.owns.valid, hnew₁.bytes, len_eq hc.valid, List.length_append,
      List.length_take]
    omega
  have hlast : wp (appendSlice c₁.handle rest) Q h₁ := by
    apply wp_appendBuffered hnew₁.owns hrest.le (by omega) (by omega)
    intro c₂ h₂ hnew₂ hedges₂
    refine hQ c₂ h₂ ⟨hnew₂.owns, ?_, hnew₁.frame.trans hnew₂.frame⟩ (by omega)
    rw [hnew₂.bytes, hnew₁.bytes, List.append_assoc, hjoin]
  cases panics with
  | true =>
    change wp (flushGuard c₁.handle rest) Q h₁
    rw [flushGuard]
    by_cases hz : 0 < rest.length
    · rw [if_pos hz]
      exact hlast
    · obtain rfl := List.length_eq_zero_iff.mp (Nat.eq_zero_of_not_pos hz)
      exact hlast
  | false =>
    change wp (appendSlice c₁.handle rest >>= fun c ↦ flushGuard c []) Q h₁
    rw [wp_bind]
    apply wp_mono hlast
    intro c₂ h₂ hQ₂
    exact (wp_pure _ _ _).mpr hQ₂

/-- A cord gets every byte that an iterator gave before it ended or panicked, in a data edge for
each full buffer and one for the rest, and others see no change. -/
theorem extend_keeps_given (panics : Bool) (hc : Owns h Z R c)
    (hlen : c.len + bytes.length ≤ usizeMax)
    (hcount : c.edgeCount + extendEdges bytes.length ≤ maxCapacity ^ maxDepth) :
    wp (extend c.handle bytes panics) (fun r h' ↦ ∃ c' : Cord Rep, r = c'.handle ∧
      New c' (c.bytes ++ bytes) h Z R h' ∧
      c'.edgeCount ≤ c.edgeCount + extendEdges bytes.length) h :=
  wp_extend hc hlen hcount fun c' _ hnew hedges ↦ ⟨c', rfl, hnew, hedges⟩

end Rules

/-- A byte that was given before a panic is in the cord. -/
theorem extend_keeps_given_pair :
    letI : Target := ⟨64, .inr rfl⟩
    wp (extend (.tree 2) [4] true) (fun r h' ↦ ∃ c' : Cord Rep, r = c'.handle ∧
      New c' [1, 2, 3, 4] sharedPair [] {2} h' ∧ c'.edgeCount ≤ 3) sharedPair := by
  let _ : Target := ⟨64, .inr rfl⟩
  have hc : Owns sharedPair [] {2} (.tree pairTree) := owns_tree holding_sharedPair
  have hlen : len (.tree pairTree) + 1 ≤ usizeMax := by
    rw [usizeMax]
    decide
  have hcount : edgeCount (.tree pairTree) + extendEdges 1 ≤ maxCapacity ^ maxDepth := by decide
  exact extend_keeps_given true hc hlen hcount

end Cord

end CordRs
