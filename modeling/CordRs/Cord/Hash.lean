import CordRs.Cord.Read

/-!
# Hashing a cord

`Hash for Cord` feeds the length and then the bytes in blocks of 1024 to the hasher, either
directly from a contiguous buffer or by filling a block buffer from the chunks. A hasher sees a
sequence of calls, so the model returns that sequence.

## Main definitions

* `CordRs.HasherCall`, `CordRs.blocks`, `CordRs.Cord.hash`.

## Main results

* `CordRs.Cord.hash_eq`: the calls are determined by the bytes of the cord.
-/

namespace CordRs

open RefHeap

/-- A call to a hasher. -/
inductive HasherCall where
  | writeUsize (n : ℕ)
  | write (bs : Bytes)
  deriving Repr, DecidableEq

/-- The size of a hashed block. -/
def blockSize : ℕ := 1024

/-- The blocks of a slice, the last of which may be shorter. -/
def blocks (bs : Bytes) : List Bytes :=
  (List.range ((bs.length + blockSize - 1) / blockSize)).map fun i ↦
    (bs.drop (blockSize * i)).take blockSize

/-- The block buffer, the number of bytes in it, and the calls made so far. -/
structure HashState where
  buffer : Bytes
  filled : ℕ
  calls : List HasherCall

/-- Move a chunk into the block buffer and write the blocks that get full. Each iteration takes
at least one byte of the chunk, whose length is the fuel. -/
def fillBlocks : ℕ → HashState → Bytes → HashState
  | 0, s, _ => s
  | fuel + 1, s, chunk =>
    if chunk = [] then
      s
    else
      let n := min chunk.length (blockSize - s.filled)
      let buffer := writeAt s.buffer s.filled (chunk.take n)
      let filled := s.filled + n
      if filled = blockSize then
        fillBlocks fuel ⟨buffer, 0, s.calls ++ [.write buffer]⟩ (chunk.drop n)
      else
        fillBlocks fuel ⟨buffer, filled, s.calls⟩ (chunk.drop n)

/-- The body of the loop over the chunks. -/
def hashChunk (s : HashState) (chunk : Bytes) : Except Fault (ForInStep HashState) :=
  .ok (.yield (fillBlocks chunk.length s chunk))

/-- The calls made to the hasher. -/
def Cord.hash (c : Cord Rep) : Except Fault (List HasherCall) := do
  let calls := [.writeUsize c.len]
  match c.asContiguous with
  | some flat => pure (calls ++ (blocks flat).map .write)
  | none =>
    let it ← ForwardChunks.new c
    let s ← forNext ForwardChunks.nextChunk hashChunk (it.bytesRemaining + 1) it
      ⟨List.replicate blockSize 0, 0, calls⟩
    if 0 < s.filled then
      pure (s.calls ++ [.write (s.buffer.take s.filled)])
    else
      pure s.calls

/-- The first blocks of a byte string. -/
def fullBlocks (bs : Bytes) (q : ℕ) : List Bytes :=
  (List.range q).map fun i ↦ (bs.drop (blockSize * i)).take blockSize

/-- After the bytes `seen` the full blocks were written and the rest is in the buffer. -/
def HashState.Seen (s : HashState) (calls : List HasherCall) (seen : Bytes) : Prop :=
  ∃ q, seen.length = blockSize * q + s.filled ∧ s.filled < blockSize ∧
    s.buffer.length = blockSize ∧ s.buffer.take s.filled = seen.drop (blockSize * q) ∧
    s.calls = calls ++ (fullBlocks seen q).map .write

private theorem fullBlocks_append {bs : Bytes} {q : ℕ} (h : blockSize * q ≤ bs.length)
    (xs : Bytes) : fullBlocks (bs ++ xs) q = fullBlocks bs q := by
  refine List.map_congr_left fun i hi ↦ ?_
  have hiq : blockSize * i + blockSize ≤ blockSize * q := by
    rw [← Nat.mul_succ]
    exact Nat.mul_le_mul_left _ (List.mem_range.mp hi)
  rw [List.drop_append_of_le_length (by omega), List.take_append_of_le_length]
  rw [List.length_drop]
  omega

private theorem fullBlocks_succ (bs : Bytes) (q : ℕ) :
    fullBlocks bs (q + 1) = fullBlocks bs q ++ [(bs.drop (blockSize * q)).take blockSize] := by
  rw [fullBlocks, List.range_succ, List.map_append]
  rfl

/-- Filling the buffer with a chunk keeps the state that of the bytes seen. -/
private theorem fillBlocks_seen {calls : List HasherCall} {fuel : ℕ} {s : HashState}
    {seen chunk : Bytes} (hs : s.Seen calls seen) (hfuel : chunk.length ≤ fuel) :
    (fillBlocks fuel s chunk).Seen calls (seen ++ chunk) := by
  induction fuel generalizing s seen chunk with
  | zero =>
    obtain rfl := List.eq_nil_of_length_eq_zero (Nat.le_zero.mp hfuel)
    simpa [fillBlocks] using hs
  | succ fuel ih =>
    by_cases hnil : chunk = []
    · simpa [fillBlocks, hnil] using hs
    · have hpos := List.length_pos_iff.mpr hnil
      obtain ⟨q, hlen, hlt, hbuf, htake, hcalls⟩ := hs
      obtain ⟨n, hn⟩ : ∃ n, n = min chunk.length (blockSize - s.filled) := ⟨_, rfl⟩
      have hwlen : (writeAt s.buffer s.filled (chunk.take n)).length = blockSize := by
        rw [length_writeAt (by simp; omega), hbuf]
      have htaken : (chunk.take n).length = n := by simp; omega
      -- The buffer now holds the rest of the bytes seen and of the part of the chunk taken.
      have hwtake : (writeAt s.buffer s.filled (chunk.take n)).take (s.filled + n) =
          (seen ++ chunk.take n).drop (blockSize * q) := by
        rw [writeAt, htake, List.drop_append_of_le_length (by omega), List.take_left']
        simp only [List.length_append, List.length_drop, htaken]
        omega
      have hdrop : (chunk.drop n).length ≤ fuel := by
        rw [List.length_drop]
        omega
      have hsplit : seen ++ chunk = (seen ++ chunk.take n) ++ chunk.drop n := by
        rw [List.append_assoc, List.take_append_drop]
      rw [fillBlocks, if_neg hnil, ← hn, hsplit]
      simp only
      split_ifs with hfull
      · refine ih ⟨q + 1, ?_, ?_, hwlen, ?_, ?_⟩ hdrop
        · rw [List.length_append, htaken, Nat.mul_succ]
          simp only
          omega
        · simp [blockSize]
        · rw [List.take_zero, List.drop_eq_nil_of_le]
          rw [List.length_append, htaken, Nat.mul_succ]
          omega
        · rw [hfull, List.take_of_length_le hwlen.le] at hwtake
          rw [fullBlocks_succ, fullBlocks_append (by omega), hcalls, ← hwtake,
            List.take_of_length_le hwlen.le]
          simp
      · refine ih ⟨q, ?_, ?_, hwlen, hwtake, ?_⟩ hdrop
        · rw [List.length_append, htaken]
          simp only
          omega
        · simp only
          omega
        · rw [fullBlocks_append (by omega), hcalls]

/-- The calls are the length and the blocks of the bytes, whatever the chunks are. -/
theorem Cord.hash_eq [Target] {c : Cord Rep} (hc : c.Valid) :
    c.hash = .ok (.writeUsize c.bytes.length :: (blocks c.bytes).map .write) := by
  cases hf : c.asContiguous with
  | some flat =>
    simp only [Cord.hash, hf, asContiguous_spec hf, len_eq hc]
    rfl
  | none =>
    obtain ⟨it, hnew, hrest⟩ := ForwardChunks.new_rest hc.source
    obtain ⟨calls, hcalls⟩ : ∃ calls, calls = [HasherCall.writeUsize c.len] := ⟨_, rfl⟩
    have hbody : ∀ seen chunk rest s, c.bytes = seen ++ chunk ++ rest → chunk ≠ [] →
        HashState.Seen s calls seen → (∃ s', hashChunk s chunk = .ok (.yield s') ∧
          s'.Seen calls (seen ++ chunk)) ∨
          ∃ s', hashChunk s chunk = .ok (.done s') ∧ s'.Seen calls c.bytes :=
      fun seen chunk rest s _ _ hs ↦ .inl ⟨_, rfl, fillBlocks_seen hs le_rfl⟩
    have hinit : HashState.Seen ⟨List.replicate blockSize 0, 0, calls⟩ calls [] :=
      ⟨0, by simp, by simp [blockSize], by simp, by simp, by simp [fullBlocks]⟩
    obtain ⟨s, hrun, q, hlen, hlt, hbuf, htake, hs⟩ := forNext_spec
      ForwardChunks.yields_nextChunk hashChunk _ _ hbody (fun _ h ↦ h)
      (List.nil_append _).symm hrest hinit (Nat.lt_succ_of_le hrest.length_eq.le)
    simp only [Cord.hash, hf, hnew, ok_bind, ← hcalls, hrun]
    have hblocks : (blocks c.bytes) = fullBlocks c.bytes
        ((c.bytes.length + blockSize - 1) / blockSize) := rfl
    simp only [blockSize] at hlen hlt hbuf
    split_ifs with hpos
    · have hq : (c.bytes.length + blockSize - 1) / blockSize = q + 1 := by
        simp only [blockSize]
        omega
      have hlast : (c.bytes.drop (blockSize * q)).length ≤ blockSize := by
        simp only [List.length_drop, blockSize]
        omega
      rw [hblocks, hq, fullBlocks_succ, List.take_of_length_le hlast, ← htake, hs, hcalls,
        len_eq hc]
      simp [pure, Except.pure]
    · have hq : (c.bytes.length + blockSize - 1) / blockSize = q := by
        simp only [blockSize]
        omega
      rw [hblocks, hq, hs, hcalls, len_eq hc]
      rfl

/-! ### The blocks of a byte string -/

private theorem flatten_fullBlocks (bs : Bytes) (q : ℕ) :
    (fullBlocks bs q).flatten = bs.take (blockSize * q) := by
  induction q with
  | zero => simp [fullBlocks]
  | succ q ih =>
    rw [fullBlocks_succ, List.flatten_append, ih, List.flatten_singleton, Nat.mul_succ,
      List.take_add]

private theorem lt_of_mem_blocks {bs : Bytes} {i : ℕ}
    (hi : i < (bs.length + blockSize - 1) / blockSize) : blockSize * i < bs.length := by
  simp only [blockSize] at hi ⊢
  omega

/-- The blocks make up the byte string. -/
theorem flatten_blocks (bs : Bytes) : (blocks bs).flatten = bs := by
  have : blocks bs = fullBlocks bs ((bs.length + blockSize - 1) / blockSize) := rfl
  rw [this, flatten_fullBlocks, List.take_of_length_le]
  simp only [blockSize]
  omega

/-- No block is empty. -/
theorem ne_nil_of_mem_blocks {bs block : Bytes} (h : block ∈ blocks bs) : block ≠ [] := by
  obtain ⟨i, hi, rfl⟩ := List.mem_map.mp h
  have := lt_of_mem_blocks (List.mem_range.mp hi)
  rw [← List.length_pos_iff, List.length_take, List.length_drop]
  simp only [blockSize] at this ⊢
  omega

/-- Every block but the last is full. -/
theorem length_of_mem_dropLast_blocks {bs block : Bytes} (h : block ∈ (blocks bs).dropLast) :
    block.length = blockSize := by
  rw [blocks, ← List.map_dropLast] at h
  obtain ⟨i, hi, rfl⟩ := List.mem_map.mp h
  obtain ⟨q, hq⟩ : ∃ q, q = (bs.length + blockSize - 1) / blockSize := ⟨_, rfl⟩
  rw [← hq] at hi
  cases q with
  | zero => simp at hi
  | succ q =>
    rw [List.range_succ, List.dropLast_concat, List.mem_range] at hi
    rw [List.length_take, List.length_drop]
    simp only [blockSize] at hq ⊢
    omega

theorem length_le_of_mem_blocks {bs block : Bytes} (h : block ∈ blocks bs) :
    block.length ≤ blockSize := by
  obtain ⟨i, -, rfl⟩ := List.mem_map.mp h
  rw [List.length_take]
  exact Nat.min_le_left _ _

/-- Cords with equal bytes make the same calls: the length, and one write for each block. -/
theorem Cord.hash_congr [Target] {a b : Cord Rep} (ha : a.Valid) (hb : b.Valid)
    (hab : a.bytes = b.bytes) :
    ∃ written : List Bytes,
      a.hash = .ok (.writeUsize a.bytes.length :: written.map .write) ∧
      b.hash = .ok (.writeUsize a.bytes.length :: written.map .write) ∧
      written.flatten = a.bytes ∧ (∀ block ∈ written, block ≠ [] ∧ block.length ≤ blockSize) ∧
      ∀ block ∈ written.dropLast, block.length = blockSize := by
  refine ⟨blocks a.bytes, hash_eq ha, ?_, flatten_blocks _, ?_, ?_⟩
  · rw [hash_eq hb, hab]
  · exact fun block h ↦ ⟨ne_nil_of_mem_blocks h, length_le_of_mem_blocks h⟩
  · exact fun block h ↦ length_of_mem_dropLast_blocks h

/-- An inline cord and a flat with the same two bytes. -/
theorem Cord.hash_congr_inline_flat :
    letI : Target := ⟨64, .inr rfl⟩
    ∃ written : List Bytes,
      Cord.hash (.inline (.ofBytes [1, 2])) = .ok (.writeUsize 2 :: written.map .write) ∧
      Cord.hash (.tree (.leaf (.whole 0 (.flat 6 [1, 2])))) =
        .ok (.writeUsize 2 :: written.map .write) ∧
      written.flatten = [1, 2] ∧ (∀ block ∈ written, block ≠ [] ∧ block.length ≤ blockSize) ∧
      ∀ block ∈ written.dropLast, block.length = blockSize :=
  letI : Target := ⟨64, .inr rfl⟩
  Cord.hash_congr (a := .inline (.ofBytes [1, 2])) (b := .tree (.leaf (.whole 0 (.flat 6 [1, 2]))))
    (InlineData.wellFormed_ofBytes (by decide))
    ⟨0, by decide, Rep.Valid.leaf_iff.mpr ⟨rfl, by decide, by decide, by decide, by decide⟩⟩ rfl

end CordRs
