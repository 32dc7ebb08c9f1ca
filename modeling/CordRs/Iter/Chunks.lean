import CordRs.Iter.Forward

/-!
# Chunks from both ends

`Chunks` yields the chunks of a cord from the front and from the back. The back has a reader of
its own, made when the first chunk is taken from the back, and both ends share the number of
bytes that remain. `Denotes cs bs` says that the iterator still has exactly the bytes `bs` to
yield; a call at either end splits a non-empty chunk off that end of `bs`.

Iterators are values, so a clone is another iterator in the same state. `runCalls`
runs any interleaving of calls and clones over a pool of iterators that descend from one of them.

## Main definitions

* `CordRs.Chunks`, `CordRs.Chunks.next`, `CordRs.Chunks.nextBack`, `CordRs.Chunks.sizeHint`.
* `CordRs.Chunks.Denotes`, `CordRs.Chunks.Iteration`, `CordRs.Chunks.runCalls`.

## Main results

* `CordRs.Chunks.next_spec`, `CordRs.Chunks.nextBack_spec`.
* `CordRs.Chunks.runCalls_spec`: what every interleaving of calls yields.
-/

namespace CordRs

open RefHeap

/-- The back of a double-ended iteration. -/
structure BackChunks where
  currentChunk : Bytes
  btreeReader : BtreeReader

/-- A double-ended iteration over chunks. -/
structure Chunks where
  front : ForwardChunks
  back : Option BackChunks

namespace Chunks

/-- Iterate over the chunks of a cord. -/
def new (cord : Cord Rep) : Except Fault Chunks := do
  pure ⟨← ForwardChunks.new cord, none⟩

/-- The next chunk from the front. -/
def next (cs : Chunks) : Except Fault (Chunks × Option Bytes) := do
  match cs.back with
  | none =>
    let (front, chunk) ← cs.front.nextChunk
    pure (⟨front, none⟩, chunk)
  | some _ =>
    if cs.front.bytesRemaining = 0 then
      pure (cs, none)
    else
      let n := min cs.front.currentChunk.length cs.front.bytesRemaining
      let chunk := cs.front.currentChunk.take n
      let remaining := cs.front.bytesRemaining - n
      if remaining = 0 then
        let front := { cs.front with bytesRemaining := remaining, currentChunk := [] }
        pure ({ cs with front := front }, some chunk)
      else if !cs.front.btreeReader.isSome then
        .error (.panic "internal error: entered unreachable code: next() on an invalid iterator")
      else
        let (reader, rest) ← cs.front.btreeReader.next
        let front :=
          { cs.front with bytesRemaining := remaining, btreeReader := reader, currentChunk := rest }
        pure ({ cs with front := front }, some chunk)

/-- The back of an iteration, made on first use. -/
def getBack (cs : Chunks) : Except Fault BackChunks := do
  match cs.back with
  | some back => pure back
  | none =>
    if cs.front.btreeReader.isSome then
      let (reader, chunk) ← BtreeReader.initLastFrom cs.front.btreeReader
      pure ⟨chunk, reader⟩
    else
      pure ⟨cs.front.currentChunk, .new⟩

/-- The next chunk from the back. -/
def nextBack (cs : Chunks) : Except Fault (Chunks × Option Bytes) := do
  if cs.front.bytesRemaining = 0 then
    pure (cs, none)
  else
    let back ← cs.getBack
    let n := min back.currentChunk.length cs.front.bytesRemaining
    let split := back.currentChunk.length - n
    let chunk := back.currentChunk.drop split
    let remaining := cs.front.bytesRemaining - n
    let front := { cs.front with bytesRemaining := remaining }
    if remaining = 0 then
      pure (⟨{ front with currentChunk := [] }, some { back with currentChunk := [] }⟩, some chunk)
    else if split = 0 then
      let (reader, previous) ← back.btreeReader.previous
      pure (⟨front, some ⟨previous, reader⟩⟩, some chunk)
    else
      pure (⟨front, some { back with currentChunk := back.currentChunk.take split }⟩, some chunk)

/-- Skip bytes of an iteration that has a back: whole chunks, then a part of one. The fuel bounds
the iterations, each of which skips at least one byte. -/
def advanceBytesBetweenEnds : ℕ → Chunks → ℕ → Except Fault Chunks
  | 0, _, _ => .error .unreachable
  | fuel + 1, cs, n => do
    if n = 0 then
      pure cs
    else
      let available := min cs.front.currentChunk.length cs.front.bytesRemaining
      if n < available then
        pure { cs with front := cs.front.removeChunkPrefix n }
      else
        let remaining := cs.front.bytesRemaining - available
        if remaining = 0 then
          let front := { cs.front with bytesRemaining := remaining, currentChunk := [] }
          pure { cs with front := front }
        else
          let (reader, chunk) ← cs.front.btreeReader.next
          let front :=
            { cs.front with bytesRemaining := remaining, btreeReader := reader, currentChunk := chunk }
          advanceBytesBetweenEnds fuel { cs with front := front } (n - available)

/-- Skip at most the bytes that remain. -/
def advanceBytes (cs : Chunks) (n : ℕ) : Except Fault Chunks := do
  match cs.back with
  | some _ => advanceBytesBetweenEnds (n + 1) cs n
  | none => pure ⟨← cs.front.advanceBytes n, none⟩

/-- Bounds on the number of chunks left. -/
def sizeHint (cs : Chunks) : ℕ × Option ℕ :=
  if cs.front.bytesRemaining = 0 then (0, some 0) else (1, some cs.front.bytesRemaining)

section Spec

variable [Target] {cs : Chunks} {src : Source} {pos taken : ℕ} {bs : Bytes}

/-- The back is on the last data edge of which nothing was given away. -/
def BackOn (back : BackChunks) (src : Source) (taken : ℕ) : Prop :=
  ∃ hd es e, src = .tree (.node hd es) ∧ back.btreeReader.navigator.At (.node hd es) e ∧
    back.currentChunk = e.data ∧ edgesLength back.btreeReader.navigator.after = taken

/-- Front and back of an iteration from `pos` to the byte before the last `taken`. -/
structure Inv (cs : Chunks) (src : Source) (pos taken : ℕ) : Prop where
  front : cs.front.Inv src pos taken
  none : cs.back = .none → taken = 0
  some : ∀ back, cs.back = .some back → 0 < cs.front.bytesRemaining → BackOn back src taken

/-- The iterator has exactly the bytes `bs` left. -/
def Denotes (cs : Chunks) (bs : Bytes) : Prop :=
  ∃ src pos taken, src.Valid ∧ cs.Inv src pos taken ∧
    bs = (src.bytes.drop pos).take cs.front.bytesRemaining

theorem Denotes.length_eq (hd : cs.Denotes bs) : bs.length = cs.front.bytesRemaining := by
  obtain ⟨src, pos, taken, -, hi, rfl⟩ := hd
  have := hi.front.total
  simp only [List.length_take, List.length_drop]
  omega

theorem denotes_of_forward {it : ForwardChunks} (hs : src.Valid) (hi : it.Inv src pos 0) :
    (⟨it, none⟩ : Chunks).Denotes (src.bytes.drop pos) := by
  refine ⟨src, pos, 0, hs, ⟨hi, fun _ ↦ rfl, by simp⟩, ?_⟩
  rw [List.take_of_length_le]
  have := hi.total
  simp only [List.length_drop]
  omega

theorem new_spec {c : Cord Rep} (hs : c.source.Valid) : ∃ cs, new c = .ok cs ∧ cs.Denotes c.bytes := by
  obtain ⟨it, hrun, hi⟩ := ForwardChunks.new_spec hs
  refine ⟨⟨it, none⟩, ?_, ?_⟩
  · rw [new, hrun]
    rfl
  · have := denotes_of_forward hs hi
    rwa [List.drop_zero] at this

omit [Target] in
/-- Splitting a chunk off the front of the bytes left. -/
private theorem window_front {all chunk rest : Bytes} {pos n m : ℕ}
    (hdrop : all.drop pos = chunk ++ rest) (hm : m = min chunk.length n) :
    (all.drop pos).take n = chunk.take m ++ (all.drop (pos + m)).take (n - m) := by
  have hchunk : chunk.take m = (all.drop pos).take m := by
    rw [hdrop, List.take_append_of_le_length (by omega)]
  rw [hchunk, ← List.drop_drop, ← List.take_add]
  congr 1
  omega

/-- Behind the current chunk nothing is left, or the chunk was a whole data edge and the reader
has another. -/
private theorem consume_spec {back : BackChunks} {m : ℕ} (hs : src.Valid) (hi : cs.Inv src pos taken)
    (hback : cs.back = some back) (hpos : 0 < cs.front.bytesRemaining)
    (hm : m = min cs.front.currentChunk.length cs.front.bytesRemaining) :
    (cs.front.bytesRemaining - m = 0 ∧
        Inv ⟨⟨[], cs.front.currentLeaf, cs.front.leafOffset, cs.front.bytesRemaining - m,
          cs.front.btreeReader⟩, cs.back⟩ src (pos + m) taken) ∨
      (cs.front.bytesRemaining - m ≠ 0 ∧ cs.front.btreeReader.isSome = true ∧
        ∃ r rest, cs.front.btreeReader.next = .ok (r, rest) ∧
          Inv ⟨⟨rest, cs.front.currentLeaf, cs.front.leafOffset, cs.front.bytesRemaining - m, r⟩,
            cs.back⟩ src (pos + m) taken) := by
  obtain ⟨hd, es, e, rfl, hat, hbc, htaken⟩ := hi.some back hback hpos
  have htotal := hi.front.total
  have hnone : cs.back ≠ none := by simp [hback]
  by_cases hr : cs.front.bytesRemaining - m = 0
  · exact .inl ⟨hr, ForwardChunks.inv_of_done hi.front.of hr rfl (by omega),
      fun h ↦ absurd h hnone, fun _ _ h ↦ absurd hr h.ne'⟩
  · have hmc : m = cs.front.currentChunk.length := by omega
    have hof : cs.front.btreeReader.Of (.node hd es) := hi.front.of
    have hbytes : (Source.tree (.node hd es)).bytes.length = hd.length :=
      (Source.Valid.node hs).1.length_bytes
    obtain ⟨r, rest', hrun, -, ⟨hend, -⟩ | ⟨-, hon⟩⟩ := (hi.front.on hpos).next_reader hs
    · omega
    · rw [← hmc] at hon
      exact .inr ⟨hr, hof.isSome, r, rest', hrun,
        ForwardChunks.inv_of_on (hon _ _ _) hs (by omega) (by omega),
        fun h ↦ absurd h hnone, fun b hb _ ↦ hi.some b hb hpos⟩

/-- A chunk from the front is a non-empty piece of what is left, and there is none exactly when
nothing is left. -/
theorem next_spec (hd : cs.Denotes bs) :
    (bs = [] ∧ cs.next = .ok (cs, none)) ∨
      ∃ cs' chunk rest, cs.next = .ok (cs', some chunk) ∧ chunk ≠ [] ∧ bs = chunk ++ rest ∧
        cs'.Denotes rest := by
  have hlen := hd.length_eq
  obtain ⟨src, pos, taken, hs, hi, rfl⟩ := hd
  cases hback : cs.back with
  | none =>
    obtain rfl := hi.none hback
    have hcs : cs = ⟨cs.front, none⟩ := by rw [← hback]
    rcases ForwardChunks.nextChunk_spec hi.front hs with ⟨hz, hrun⟩ | ⟨it', hrun, hne, hi'⟩
    · refine .inl ⟨List.eq_nil_of_length_eq_zero (by omega), ?_⟩
      simp only [next, hback, hrun, ok_bind]
      rw [← hcs]
      rfl
    · obtain ⟨rest, hdrop⟩ := hi.front.chunk_prefix hs
      have hle := hi.front.chunk_length_le hs
      have htotal := hi.front.total
      have htotal' := hi'.total
      refine .inr ⟨⟨it', none⟩, _, _, ?_, hne, ?_, denotes_of_forward hs hi'⟩
      · simp only [next, hback, hrun, ok_bind]
        rfl
      · rw [window_front hdrop.symm (Nat.min_eq_left hle).symm, List.take_length,
          List.take_of_length_le]
        simp only [List.length_drop]
        omega
  | some back =>
    by_cases hz : cs.front.bytesRemaining = 0
    · refine .inl ⟨List.eq_nil_of_length_eq_zero (by omega), ?_⟩
      simp only [next, hback, if_pos hz]
      rfl
    · have hpos : 0 < cs.front.bytesRemaining := Nat.pos_of_ne_zero hz
      obtain ⟨rest, hdrop, hne⟩ := (hi.front.on hpos).drop_bytes hs
      have hchunk := List.length_pos_iff.mpr hne
      obtain ⟨m, hm⟩ : ∃ m, m = min cs.front.currentChunk.length cs.front.bytesRemaining := ⟨_, rfl⟩
      have htake : cs.front.currentChunk.take m ≠ [] := by
        rw [← List.length_pos_iff, List.length_take]
        omega
      have hwin := window_front (n := cs.front.bytesRemaining) hdrop hm
      rcases consume_spec hs hi hback hpos hm with ⟨hr, hi'⟩ | ⟨hr, hsome, r, rest', hrun, hi'⟩
      · refine .inr ⟨_, _, _, ?_, htake, hwin, _, _, taken, hs, hi', rfl⟩
        simp only [next, hback, if_neg hz, ← hm, if_pos hr]
        rfl
      · refine .inr ⟨_, _, _, ?_, htake, hwin, _, _, taken, hs, hi', rfl⟩
        simp only [next, hback, if_neg hz, ← hm, if_neg hr, hsome, Bool.not_true,
          Bool.false_eq_true, if_false, hrun, ok_bind]
        rfl

theorem next_of_nil (hd : cs.Denotes []) : cs.next = .ok (cs, none) := by
  rcases next_spec hd with ⟨-, hrun⟩ | ⟨_, chunk, rest, -, hne, heq, -⟩
  · exact hrun
  · exact absurd (List.append_eq_nil_iff.mp heq.symm).1 hne

private theorem advanceBytesBetweenEnds_spec {back : BackChunks} {fuel n : ℕ} (hs : src.Valid)
    (hi : cs.Inv src pos taken) (hback : cs.back = some back) (hn : n ≤ cs.front.bytesRemaining)
    (hfuel : n < fuel) :
    ∃ cs', advanceBytesBetweenEnds fuel cs n = .ok cs' ∧ cs'.Inv src (pos + n) taken ∧
      cs'.front.bytesRemaining = cs.front.bytesRemaining - n := by
  induction fuel generalizing cs pos n with
  | zero => omega
  | succ fuel ih =>
    by_cases hz : n = 0
    · subst hz
      exact ⟨cs, rfl, hi, rfl⟩
    have hpos : 0 < cs.front.bytesRemaining := by omega
    obtain ⟨rest, hdrop, hne⟩ := (hi.front.on hpos).drop_bytes hs
    have hchunk := List.length_pos_iff.mpr hne
    obtain ⟨m, hm⟩ : ∃ m, m = min cs.front.currentChunk.length cs.front.bytesRemaining := ⟨_, rfl⟩
    by_cases hlt : n < m
    · refine ⟨⟨cs.front.removeChunkPrefix n, cs.back⟩, ?_,
        ⟨ForwardChunks.removeChunkPrefix_spec hi.front hs (by omega) (by omega),
          fun h ↦ hi.none h, fun b hb _ ↦ hi.some b hb hpos⟩, rfl⟩
      simp only [advanceBytesBetweenEnds, if_neg hz, ← hm, if_pos hlt]
      rfl
    · rcases consume_spec hs hi hback hpos hm with ⟨hr, hi'⟩ | ⟨hr, -, r, rest', hrun, hi'⟩
      · obtain rfl : m = n := by omega
        refine ⟨_, ?_, hi', rfl⟩
        simp only [advanceBytesBetweenEnds, if_neg hz, ← hm, if_neg hlt, if_pos hr]
        rfl
      · obtain ⟨cs', hrun', hi'', hlen⟩ := ih (n := n - m) hi' hback
          (by change n - m ≤ cs.front.bytesRemaining - m; omega) (by omega)
        refine ⟨cs', ?_, ?_, ?_⟩
        · simp only [advanceBytesBetweenEnds, if_neg hz, ← hm, if_neg hlt, if_neg hr, hrun, ok_bind]
          exact hrun'
        · rwa [Nat.add_assoc, Nat.add_sub_cancel' (Nat.le_of_not_lt hlt)] at hi''
        · rw [hlen]
          change cs.front.bytesRemaining - m - (n - m) = _
          omega

/-- Skipping leaves the bytes behind those skipped. -/
theorem advanceBytes_spec {n : ℕ} (hd : cs.Denotes bs) (hn : n ≤ bs.length) :
    ∃ cs', cs.advanceBytes n = .ok cs' ∧ cs'.Denotes (bs.drop n) := by
  rw [hd.length_eq] at hn
  obtain ⟨src, pos, taken, hs, hi, rfl⟩ := hd
  cases hback : cs.back with
  | none =>
    obtain rfl := hi.none hback
    obtain ⟨it', hrun, hi'⟩ := ForwardChunks.advanceBytes_spec hi.front hs hn
    have htotal := hi.front.total
    refine ⟨⟨it', none⟩, ?_, ?_⟩
    · simp only [advanceBytes, hback, hrun, ok_bind]
      rfl
    · rw [List.take_of_length_le (by simp only [List.length_drop]; omega), List.drop_drop]
      exact denotes_of_forward hs hi'
  | some back =>
    obtain ⟨cs', hrun, hi', hlen⟩ :=
      advanceBytesBetweenEnds_spec hs hi hback hn (Nat.lt_succ_self n)
    refine ⟨cs', ?_, src, pos + n, taken, hs, hi', ?_⟩
    · simp only [advanceBytes, hback, hrun]
    · rw [List.drop_take, List.drop_drop, hlen]

/-- The back is made on the last data edge. -/
private theorem getBack_spec (hs : src.Valid) (hi : cs.Inv src pos taken)
    (hpos : 0 < cs.front.bytesRemaining) :
    ∃ back, cs.getBack = .ok back ∧
      (BackOn back src taken ∨ back.currentChunk = cs.front.currentChunk ∧ taken = 0 ∧
        pos + cs.front.currentChunk.length = src.bytes.length) := by
  cases hback : cs.back with
  | some back =>
    refine ⟨back, ?_, .inl (hi.some back hback hpos)⟩
    simp only [getBack, hback]
    rfl
  | none =>
    obtain rfl := hi.none hback
    cases hsome : cs.front.btreeReader.isSome with
    | false =>
      refine ⟨⟨cs.front.currentChunk, .new⟩, ?_,
        .inr ⟨rfl, rfl, (hi.front.on hpos).not_isSome hs hsome⟩⟩
      simp only [getBack, hback, hsome]
      rfl
    | true =>
      obtain ⟨hd, es, rfl⟩ := hi.front.of.exists_node hsome
      obtain ⟨hv, hk⟩ := Source.Valid.node hs
      obtain ⟨r, e, hrun, hat, hafter⟩ := BtreeReader.initLastFrom_spec hi.front.of hv hk
      refine ⟨⟨e.data, r⟩, ?_, .inl ⟨hd, es, e, rfl, hat, rfl, by rw [hafter]; rfl⟩⟩
      simp only [getBack, hback, hsome, if_true, hrun, ok_bind]
      rfl

omit [Target] in
/-- Splitting a chunk off the back of the bytes left. -/
private theorem window_back {all chunk pre post : Bytes} {pos n m : ℕ}
    (hall : all = pre ++ chunk ++ post) (hend : pos + n = pre.length + chunk.length)
    (hm : m = min chunk.length n) :
    (all.drop pos).take n =
      (all.drop pos).take (n - m) ++ chunk.drop (chunk.length - m) := by
  have hchunk : chunk.drop (chunk.length - m) = ((all.drop pos).drop (n - m)).take m := by
    rw [List.drop_drop, hall, show pos + (n - m) = pre.length + (chunk.length - m) by omega,
      List.append_assoc, ← List.drop_drop, List.drop_left,
      List.drop_append_of_le_length (by omega), List.take_left' (by simp; omega)]
  rw [hchunk, ← List.take_add]
  congr 1
  omega

/-- A chunk from the back is a non-empty piece of what is left, and there is none exactly when
nothing is left. -/
theorem nextBack_spec (hd : cs.Denotes bs) :
    (bs = [] ∧ cs.nextBack = .ok (cs, none)) ∨
      ∃ cs' chunk rest, cs.nextBack = .ok (cs', some chunk) ∧ chunk ≠ [] ∧ bs = rest ++ chunk ∧
        cs'.Denotes rest := by
  have hlen := hd.length_eq
  obtain ⟨src, pos, taken, hs, hi, rfl⟩ := hd
  by_cases hz : cs.front.bytesRemaining = 0
  · refine .inl ⟨List.eq_nil_of_length_eq_zero (by omega), ?_⟩
    simp only [nextBack, if_pos hz]
    rfl
  have hpos : 0 < cs.front.bytesRemaining := Nat.pos_of_ne_zero hz
  have htotal := hi.front.total
  obtain ⟨back, hget, hcase⟩ := getBack_spec hs hi hpos
  obtain ⟨m, hm⟩ : ∃ m, m = min back.currentChunk.length cs.front.bytesRemaining := ⟨_, rfl⟩
  -- The chunk of the back ends where the bytes given away start.
  obtain ⟨pre, post, hall, hend, hbne⟩ : ∃ pre post, src.bytes = pre ++ back.currentChunk ++ post ∧
      pos + cs.front.bytesRemaining = pre.length + back.currentChunk.length ∧
      back.currentChunk ≠ [] := by
    rcases hcase with ⟨hd, es, e, rfl, hat, hbc, htaken⟩ | ⟨hbc, rfl, hend⟩
    · have hv := (Source.Valid.node hs).1
      have hvalid : ∀ e' ∈ back.btreeReader.navigator.after, e'.Valid := fun e' he' ↦
        hv.leaves_valid e' (by rw [hat.leaves_eq]; simp [he'])
      have hpost := ForwardChunks.flatMap_data_length hvalid
      have he : e.Valid := hv.leaves_valid e (by rw [hat.leaves_eq]; simp)
      have hall : (Source.tree (.node hd es)).bytes =
          back.btreeReader.navigator.before.flatMap Edge.data ++ back.currentChunk ++
            back.btreeReader.navigator.after.flatMap Edge.data := by
        rw [Source.bytes, Rep.bytes, hat.leaves_eq, hbc]
        simp
      refine ⟨_, _, hall, ?_, hbc ▸ he.data_ne_nil⟩
      rw [hall] at htotal
      simp only [List.length_append] at htotal
      omega
    · obtain ⟨rest, hdrop, hne⟩ := (hi.front.on hpos).drop_bytes hs
      have hrest : rest = [] := by
        have := congrArg List.length hdrop
        simp only [List.length_drop, List.length_append] at this
        exact List.eq_nil_of_length_eq_zero (by omega)
      refine ⟨src.bytes.take pos, [], ?_, ?_, hbc ▸ hne⟩
      · rw [hbc, List.append_nil]
        rw [hrest, List.append_nil] at hdrop
        rw [← hdrop, List.take_append_drop]
      · rw [hbc, List.length_take]
        omega
  have hblen := List.length_pos_iff.mpr hbne
  have hwin := window_back hall hend hm
  have hchunk : back.currentChunk.drop (back.currentChunk.length - m) ≠ [] := by
    rw [← List.length_pos_iff, List.length_drop]
    omega
  have hmle : m ≤ cs.front.bytesRemaining := by omega
  by_cases hr : cs.front.bytesRemaining - m = 0
  · refine .inr ⟨⟨⟨[], cs.front.currentLeaf, cs.front.leafOffset, cs.front.bytesRemaining - m,
        cs.front.btreeReader⟩, some ⟨[], back.btreeReader⟩⟩, _, _, ?_, hchunk, hwin,
      _, _, taken + m, hs, ⟨ForwardChunks.inv_of_done hi.front.of hr rfl (by omega),
        by simp, fun _ _ h ↦ absurd hr h.ne'⟩, rfl⟩
    simp only [nextBack, if_neg hz, hget, ok_bind, ← hm, if_pos hr]
    rfl
  · have hsplit : back.currentChunk.length - m = 0 := by omega
    rcases hcase with ⟨hd, es, e, rfl, hat, hbc, htaken⟩ | ⟨hbc, rfl, hfin⟩
    · have hv := (Source.Valid.node hs).1
      have he : e.Valid := hv.leaves_valid e (by rw [hat.leaves_eq]; simp)
      have hm' : m = e.length := by rw [← he.length_data, ← hbc]; omega
      have hbytes : (Source.tree (.node hd es)).bytes.length = hd.length := hv.length_bytes
      have hsum : hd.length = edgesLength back.btreeReader.navigator.before +
          (e.length + edgesLength back.btreeReader.navigator.after) := by
        rw [← edgesLength_cons, ← edgesLength_append, ← hat.leaves_eq]
        exact hv.length_leaves.symm
      have hne : back.btreeReader.navigator.before ≠ [] := by
        intro hnil
        rw [hnil, edgesLength_nil] at hsum
        omega
      obtain ⟨r, e', hrun, hat', hafter, -⟩ := BtreeReader.previous_spec hat hv hne
      have hfront : cs.front.On (.tree (.node hd es)) pos := hi.front.on hpos
      refine .inr ⟨⟨⟨cs.front.currentChunk, cs.front.currentLeaf, cs.front.leafOffset,
          cs.front.bytesRemaining - m, cs.front.btreeReader⟩, some ⟨e'.data, r⟩⟩, _, _, ?_, hchunk,
        hwin, _, _, taken + m, hs,
          ⟨ForwardChunks.inv_of_on hfront hs (by omega) (by omega), by simp, ?_⟩, rfl⟩
      · simp only [nextBack, if_neg hz, hget, ok_bind, ← hm, if_neg hr, if_pos hsplit, hrun]
        rfl
      · rintro _ ⟨rfl⟩ -
        refine ⟨hd, es, e', rfl, hat', rfl, ?_⟩
        simp only [hafter, edgesLength_cons]
        omega
    · rw [hbc] at hm
      omega

end Spec

/-! ### Interleavings -/

/-- An iterator with what it, or the one it was cloned from, yielded at either end. -/
structure Iteration where
  chunks : Chunks
  front : List Bytes
  back : List Bytes

/-- A call on one of a pool of iterators. -/
inductive Call where
  | next (i : ℕ)
  | nextBack (i : ℕ)
  | clone (i : ℕ)

/-- Take a chunk from the front and record it. -/
def Iteration.callNext (it : Iteration) : Except Fault Iteration := do
  let (cs, chunk) ← it.chunks.next
  pure ⟨cs, it.front ++ chunk.toList, it.back⟩

/-- Take a chunk from the back and record it. -/
def Iteration.callNextBack (it : Iteration) : Except Fault Iteration := do
  let (cs, chunk) ← it.chunks.nextBack
  pure ⟨cs, it.front, it.back ++ chunk.toList⟩

/-- Perform a call; one on an iterator that does not exist does nothing. -/
def call (pool : List Iteration) : Call → Except Fault (List Iteration)
  | .next i =>
    match pool[i]? with
    | some it => do pure (pool.set i (← it.callNext))
    | none => pure pool
  | .nextBack i =>
    match pool[i]? with
    | some it => do pure (pool.set i (← it.callNextBack))
    | none => pure pool
  | .clone i =>
    match pool[i]? with
    | some it => pure (pool ++ [it])
    | none => pure pool

/-- Perform calls in order. -/
def runCalls : List Call → List Iteration → Except Fault (List Iteration)
  | [], pool => pure pool
  | c :: cs, pool => do runCalls cs (← call pool c)

/-- The next chunk from one of the ends. -/
def takeFrom (fromBack : Bool) (cs : Chunks) : Except Fault (Chunks × Option Bytes) :=
  if fromBack then cs.nextBack else cs.next

/-- The chunks obtained when each entry says from which end the next one is taken. -/
def drain : List Bool → Chunks → Except Fault (Chunks × List Bytes)
  | [], cs => pure (cs, [])
  | fromBack :: ds, cs => do
    let (cs, chunk) ← cs.takeFrom fromBack
    let (cs, chunks) ← drain ds cs
    pure (cs, chunk.toList ++ chunks)

section Interleaving

variable [Target] {start : Bytes} {cs : Chunks} {bs : Bytes} {it : Iteration}

/-- What was yielded at the front, what is left and what was yielded at the back make up the bytes
at the start, and no empty chunk was yielded. -/
def Iteration.Splits (it : Iteration) (start rest : Bytes) : Prop :=
  it.chunks.Denotes rest ∧ start = it.front.flatten ++ rest ++ it.back.reverse.flatten ∧
    ∀ chunk ∈ it.front ++ it.back, chunk ≠ []

private theorem Iteration.callNext_splits {rest : Bytes} (h : it.Splits start rest) :
    ∃ it' rest', it.callNext = .ok it' ∧ it'.Splits start rest' := by
  obtain ⟨hd, hstart, hne⟩ := h
  rcases next_spec hd with ⟨-, hrun⟩ | ⟨cs', chunk, rest', hrun, hchunk, rfl, hd'⟩
  · refine ⟨it, rest, ?_, hd, hstart, hne⟩
    simp only [Iteration.callNext, hrun, ok_bind, Option.toList_none, List.append_nil]
    rfl
  · refine ⟨⟨cs', it.front ++ [chunk], it.back⟩, rest', ?_, hd', ?_, ?_⟩
    · simp only [Iteration.callNext, hrun, ok_bind, Option.toList_some]
      rfl
    · rw [hstart]
      simp
    · intro c hc
      simp only [List.mem_append, List.mem_singleton] at hc
      rcases hc with (hc | rfl) | hc
      · exact hne c (List.mem_append_left _ hc)
      · exact hchunk
      · exact hne c (List.mem_append_right _ hc)

private theorem Iteration.callNextBack_splits {rest : Bytes} (h : it.Splits start rest) :
    ∃ it' rest', it.callNextBack = .ok it' ∧ it'.Splits start rest' := by
  obtain ⟨hd, hstart, hne⟩ := h
  rcases nextBack_spec hd with ⟨-, hrun⟩ | ⟨cs', chunk, rest', hrun, hchunk, rfl, hd'⟩
  · refine ⟨it, rest, ?_, hd, hstart, hne⟩
    simp only [Iteration.callNextBack, hrun, ok_bind, Option.toList_none, List.append_nil]
    rfl
  · refine ⟨⟨cs', it.front, it.back ++ [chunk]⟩, rest', ?_, hd', ?_, ?_⟩
    · simp only [Iteration.callNextBack, hrun, ok_bind, Option.toList_some]
      rfl
    · rw [hstart]
      simp
    · intro c hc
      simp only [List.mem_append, List.mem_singleton] at hc
      rcases hc with hc | hc | rfl
      · exact hne c (List.mem_append_left _ hc)
      · exact hne c (List.mem_append_right _ hc)
      · exact hchunk

/-- A call keeps every iterator of the pool a splitting of the bytes at the start. -/
private theorem call_splits {pool : List Iteration} (c : Call)
    (h : ∀ it ∈ pool, ∃ rest, it.Splits start rest) :
    ∃ pool', call pool c = .ok pool' ∧ ∀ it ∈ pool', ∃ rest, it.Splits start rest := by
  have hset : ∀ i it', (∃ rest, it'.Splits start rest) →
      ∀ it ∈ pool.set i it', ∃ rest, it.Splits start rest := by
    intro i it' hit' it hit
    rcases List.mem_or_eq_of_mem_set hit with hmem | rfl
    · exact h it hmem
    · exact hit'
  cases c with
  | next i =>
    cases hi : pool[i]? with
    | none => exact ⟨pool, by simp only [call, hi]; rfl, h⟩
    | some it =>
      obtain ⟨rest, hs⟩ := h it (List.mem_of_getElem? hi)
      obtain ⟨it', rest', hrun, hs'⟩ := Iteration.callNext_splits hs
      refine ⟨pool.set i it', ?_, hset i it' ⟨rest', hs'⟩⟩
      simp only [call, hi, hrun, ok_bind]
      rfl
  | nextBack i =>
    cases hi : pool[i]? with
    | none => exact ⟨pool, by simp only [call, hi]; rfl, h⟩
    | some it =>
      obtain ⟨rest, hs⟩ := h it (List.mem_of_getElem? hi)
      obtain ⟨it', rest', hrun, hs'⟩ := Iteration.callNextBack_splits hs
      refine ⟨pool.set i it', ?_, hset i it' ⟨rest', hs'⟩⟩
      simp only [call, hi, hrun, ok_bind]
      rfl
  | clone i =>
    cases hi : pool[i]? with
    | none => exact ⟨pool, by simp only [call, hi]; rfl, h⟩
    | some it =>
      refine ⟨pool ++ [it], by simp only [call, hi]; rfl, fun it' hit' ↦ ?_⟩
      rcases List.mem_append.mp hit' with hit' | hit'
      · exact h it' hit'
      · obtain rfl := List.mem_singleton.mp hit'
        exact h it' (List.mem_of_getElem? hi)

/-- Every interleaving of calls and clones runs without a fault, and leaves iterators each of
which splits the bytes at the start. -/
theorem runCalls_spec (calls : List Call) {pool : List Iteration}
    (h : ∀ it ∈ pool, ∃ rest, it.Splits start rest) :
    ∃ pool', runCalls calls pool = .ok pool' ∧ ∀ it ∈ pool', ∃ rest, it.Splits start rest := by
  induction calls generalizing pool with
  | nil => exact ⟨pool, rfl, h⟩
  | cons c calls ih =>
    obtain ⟨pool₁, hrun₁, h₁⟩ := call_splits c h
    obtain ⟨pool₂, hrun₂, h₂⟩ := ih h₁
    refine ⟨pool₂, ?_, h₂⟩
    simp only [runCalls, hrun₁, ok_bind, hrun₂]

/-- Either end gives a non-empty piece of what is left, and nothing exactly when nothing is left. -/
theorem takeFrom_spec (fromBack : Bool) (hd : cs.Denotes bs) :
    (bs = [] ∧ cs.takeFrom fromBack = .ok (cs, none)) ∨
      ∃ cs' chunk rest, cs.takeFrom fromBack = .ok (cs', some chunk) ∧ chunk ≠ [] ∧
        bs = (if fromBack then rest ++ chunk else chunk ++ rest) ∧ cs'.Denotes rest := by
  cases fromBack with
  | false => exact next_spec hd
  | true => exact nextBack_spec hd

/-- However the rest is taken, its chunks are not empty and make up bytes of the rest. -/
theorem drain_spec (ds : List Bool) (hd : cs.Denotes bs) :
    ∃ cs' chunks bs', drain ds cs = .ok (cs', chunks) ∧ cs'.Denotes bs' ∧
      (∀ chunk ∈ chunks, chunk ≠ []) ∧ chunks.flatten.length + bs'.length = bs.length := by
  induction ds generalizing cs bs with
  | nil => exact ⟨cs, [], bs, rfl, hd, by simp, by simp⟩
  | cons d ds ih =>
    rcases takeFrom_spec d hd with ⟨-, hrun⟩ | ⟨cs₁, chunk, rest, hrun, hne, heq, hd₁⟩
    · obtain ⟨cs₂, chunks, bs₂, hdrain, hd₂, hne₂, hlen⟩ := ih hd
      refine ⟨cs₂, chunks, bs₂, ?_, hd₂, hne₂, hlen⟩
      simp only [drain, hrun, ok_bind, hdrain, Option.toList_none, List.nil_append]
      rfl
    · obtain ⟨cs₂, chunks, bs₂, hdrain, hd₂, hne₂, hlen⟩ := ih hd₁
      refine ⟨cs₂, chunk :: chunks, bs₂, ?_, hd₂, List.forall_mem_cons.mpr ⟨hne, hne₂⟩, ?_⟩
      · simp only [drain, hrun, ok_bind, hdrain, Option.toList_some, List.singleton_append]
        rfl
      · have hsum := congrArg List.length heq
        cases d <;> simp only [Bool.false_eq_true, if_true, if_false, List.length_append] at hsum <;>
          simp only [List.flatten_cons, List.length_append] <;> omega

/-- The chunks taken from the front are what is still to come. -/
theorem drain_front_spec (hd : cs.Denotes bs) {n : ℕ} (hn : bs.length ≤ n) :
    ∃ cs' chunks, drain (List.replicate n false) cs = .ok (cs', chunks) ∧ cs'.Denotes [] ∧
      chunks.flatten = bs := by
  induction n generalizing cs bs with
  | zero =>
    obtain rfl := List.eq_nil_of_length_eq_zero (Nat.le_zero.mp hn)
    exact ⟨cs, [], rfl, hd, rfl⟩
  | succ n ih =>
    rcases takeFrom_spec false hd with ⟨rfl, hrun⟩ | ⟨cs₁, chunk, rest, hrun, hne, rfl, hd₁⟩
    · obtain ⟨cs₂, chunks, hdrain, hd₂, hflat⟩ := ih hd (Nat.zero_le n)
      refine ⟨cs₂, chunks, ?_, hd₂, hflat⟩
      simp only [List.replicate_succ, drain, hrun, ok_bind, hdrain, Option.toList_none,
        List.nil_append]
      rfl
    · have hpos := List.length_pos_iff.mpr hne
      simp only [Bool.false_eq_true, if_false, List.length_append] at hn
      obtain ⟨cs₂, chunks, hdrain, hd₂, hflat⟩ := ih hd₁ (show rest.length ≤ n by omega)
      refine ⟨cs₂, chunk :: chunks, ?_, hd₂, by rw [List.flatten_cons, hflat]; rfl⟩
      simp only [List.replicate_succ, drain, hrun, ok_bind, hdrain, Option.toList_some,
        List.singleton_append]
      rfl

omit [Target] in
theorem length_le_length_flatten {chunks : List Bytes} (h : ∀ chunk ∈ chunks, chunk ≠ []) :
    chunks.length ≤ chunks.flatten.length := by
  induction chunks with
  | nil => simp
  | cons c cs ih =>
    have hc := List.length_pos_iff.mpr (h c List.mem_cons_self)
    have := ih fun chunk hm ↦ h chunk (List.mem_cons_of_mem _ hm)
    rw [List.length_cons, List.flatten_cons, List.length_append]
    omega

/-- However all of the rest is taken, the number of its chunks is within the bounds. -/
theorem sizeHint_spec {ds : List Bool} {cs' : Chunks} {chunks : List Bytes} (hd : cs.Denotes bs)
    (hdrain : drain ds cs = .ok (cs', chunks)) (hend : cs'.next = .ok (cs', none)) :
    cs.sizeHint.1 ≤ chunks.length ∧ ∀ n, cs.sizeHint.2 = some n → chunks.length ≤ n := by
  obtain ⟨cs₁, chunks₁, bs', hrun, hd', hne, hlen⟩ := drain_spec ds hd
  cases hdrain.symm.trans hrun
  have hnil : bs' = [] := by
    rcases next_spec hd' with ⟨hnil, -⟩ | ⟨cs₂, chunk, rest, hrun', -⟩
    · exact hnil
    · cases hend.symm.trans hrun'
  rw [hnil, List.length_nil, Nat.add_zero, hd.length_eq] at hlen
  have hle := length_le_length_flatten hne
  by_cases hz : cs.front.bytesRemaining = 0
  · rw [sizeHint, if_pos hz]
    refine ⟨Nat.zero_le _, ?_⟩
    rintro n ⟨rfl⟩
    omega
  · rw [sizeHint, if_neg hz]
    refine ⟨?_, ?_⟩
    · refine Nat.one_le_iff_ne_zero.mpr fun hzero ↦ hz ?_
      rw [← hlen, List.length_eq_zero_iff.mp hzero]
      rfl
    · rintro n ⟨rfl⟩
      omega

end Interleaving

end Chunks

end CordRs
