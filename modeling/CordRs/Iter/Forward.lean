import CordRs.Rep.Reader
import CordRs.InlineData

/-!
# Forward iteration over the chunks of a cord

`ForwardChunks` is the state behind every forward traversal: the rest of the current chunk, the
number of bytes that remain, and either a reader of the btree or the single data edge of the
cord. `On it src pos` describes a state that is at the byte `pos` of its source, and `Inv` adds
the count of the bytes that remain when `taken` bytes were given away at the back.

## Main definitions

* `CordRs.Cord`, `CordRs.Source`, `CordRs.ForwardChunks`.
* `CordRs.ForwardChunks.step`, `CordRs.ForwardChunks.advanceBytes`,
  `CordRs.ForwardChunks.nextChunk`, `CordRs.ForwardChunks.gatherInline`.
* `CordRs.ForwardChunks.On`, `CordRs.ForwardChunks.Inv`.

## Main results

* `CordRs.ForwardChunks.new_spec`, `CordRs.ForwardChunks.step_spec`,
  `CordRs.ForwardChunks.advanceBytes_spec`, `CordRs.ForwardChunks.nextChunk_spec`,
  `CordRs.ForwardChunks.gatherInline_spec`.
-/

namespace CordRs

open RefHeap

/-- A cord: inline bytes or a tree, given by its address or by the borrowed tree itself. -/
inductive Cord (ρ : Type) where
  | inline (data : InlineData)
  | tree (rep : ρ)

/-- What can be iterated over: a slice or a borrowed tree. -/
inductive Source where
  | slice (bs : Bytes)
  | tree (t : Rep)

/-- The bytes of a source. -/
def Source.bytes : Source → Bytes
  | slice bs => bs
  | tree t => t.bytes

/-- A tree is valid and not too high. -/
def Source.Valid [Target] : Source → Prop
  | slice _ => True
  | tree t => ∃ k ≤ maxDepth, t.Valid k

section Source

variable [Target]

theorem Source.Valid.node {hd : BtreeHeader} {es : List Rep}
    (hs : (Source.tree (.node hd es)).Valid) :
    Rep.Valid (hd.height + 1) (.node hd es) ∧ hd.height ≤ maxHeight := by
  obtain ⟨k, hk, hv⟩ := hs
  obtain rfl := (Rep.Valid.node_iff.mp hv).1
  refine ⟨hv, ?_⟩
  simp only [maxHeight, maxDepth] at hk ⊢
  omega

theorem Source.Valid.leaf {e : Edge} (hs : (Source.tree (.leaf e)).Valid) : e.Valid := by
  obtain ⟨k, -, hv⟩ := hs
  exact (Rep.Valid.leaf_iff.mp hv).2

end Source

/-- The source a borrowed cord is iterated as. -/
def Cord.source : Cord Rep → Source
  | inline d => .slice d.inlineSlice
  | tree t => .tree t

/-- The bytes of a borrowed cord. -/
def Cord.bytes (c : Cord Rep) : Bytes := c.source.bytes

/-- The state of a forward iteration. -/
structure ForwardChunks where
  currentChunk : Bytes
  currentLeaf : Option Edge
  leafOffset : ℕ
  bytesRemaining : ℕ
  btreeReader : BtreeReader

namespace ForwardChunks

/-- The state without any bytes. -/
def empty : ForwardChunks := ⟨[], none, 0, 0, .new⟩

/-- Start at the first chunk of a tree. -/
def initTree (it : ForwardChunks) (tree : Rep) : Except Fault ForwardChunks := do
  match tree with
  | .node hd es =>
    let (reader, chunk) ← BtreeReader.init (.node hd es)
    pure { it with btreeReader := reader, currentChunk := chunk }
  | .leaf e => pure { it with currentLeaf := some e, currentChunk := e.data }

/-- Start at the first byte of a cord. -/
def new (cord : Cord Rep) : Except Fault ForwardChunks := do
  match cord with
  | .tree tree =>
    if tree.length ≠ 0 then
      initTree { empty with bytesRemaining := tree.length } tree
    else
      pure empty
  | .inline d =>
    pure { empty with currentChunk := d.inlineSlice, bytesRemaining := d.inlineSlice.length }

/-- Start at the first byte of a slice. -/
def single (slice : Bytes) : ForwardChunks :=
  { empty with currentChunk := slice, bytesRemaining := slice.length }

/-- Move to the next chunk. -/
def step (it : ForwardChunks) : Except Fault ForwardChunks := do
  let remaining := it.bytesRemaining - it.currentChunk.length
  if 0 < remaining then
    if it.btreeReader.isSome then
      let (reader, chunk) ← it.btreeReader.next
      pure { it with bytesRemaining := remaining, btreeReader := reader, currentChunk := chunk }
    else
      .error (.panic "internal error: entered unreachable code: step() on an invalid iterator")
  else
    pure { it with bytesRemaining := remaining, currentChunk := [] }

/-- Drop bytes of the current chunk. -/
def removeChunkPrefix (it : ForwardChunks) (n : ℕ) : ForwardChunks :=
  { it with
    currentChunk := it.currentChunk.drop n
    bytesRemaining := it.bytesRemaining - n
    leafOffset := it.leafOffset + n }

/-- Advance beyond the current chunk of a btree. -/
def advanceBytesBtree (it : ForwardChunks) (n : ℕ) : Except Fault ForwardChunks := do
  let remaining := it.bytesRemaining - n
  if remaining ≠ 0 then
    if n = it.currentChunk.length then
      let (reader, chunk) ← it.btreeReader.next
      pure { it with bytesRemaining := remaining, btreeReader := reader, currentChunk := chunk }
    else
      let offset := (← it.btreeReader.length) - remaining
      let (reader, chunk) ← it.btreeReader.seek offset
      pure { it with bytesRemaining := remaining, btreeReader := reader, currentChunk := chunk }
  else
    pure { it with bytesRemaining := remaining, currentChunk := [] }

/-- Advance by at most the bytes that remain. -/
def advanceBytes (it : ForwardChunks) (n : ℕ) : Except Fault ForwardChunks := do
  if n < it.currentChunk.length then
    pure (it.removeChunkPrefix n)
  else if n ≠ 0 then
    if it.btreeReader.isSome then
      it.advanceBytesBtree n
    else
      pure { it with bytesRemaining := 0, currentChunk := [] }
  else
    pure it

/-- The loop of `gatherInline`: copy whole chunks to `tail` from offset `dst` on. The fuel bounds
the iterations, each of which copies at least one byte. -/
def gatherChunks : ℕ → ForwardChunks → Bytes → ℕ → ℕ →
    Except Fault (ForwardChunks × Bytes × ℕ × ℕ)
  | 0, _, _, _, _ => .error .unreachable
  | fuel + 1, it, tail, dst, remaining => do
    if it.currentChunk.length < remaining then
      let chunk := it.currentChunk
      let tail := tail.take dst ++ smallMemmove false (tail.drop dst) chunk chunk.length
      gatherChunks fuel (← it.step) tail (dst + chunk.length) (remaining - chunk.length)
    else
      pure (it, tail, dst, remaining)

/-- Copy the next `n` bytes, at most fifteen, and move beyond them if `maintain`. -/
def gatherInline (maintain : Bool) (it : ForwardChunks) (n : ℕ) :
    Except Fault (ForwardChunks × InlineData) := do
  let (it, tail, dst, remaining) ← gatherChunks (n + 1) it InlineData.new.tail 0 n
  if remaining ≠ 0 then
    let tail := tail.take dst ++ smallMemmove false (tail.drop dst) it.currentChunk remaining
    if maintain then
      if remaining < it.currentChunk.length then
        pure (it.removeChunkPrefix remaining, ⟨n, tail⟩)
      else
        pure (← it.step, ⟨n, tail⟩)
    else
      pure (it, ⟨n, tail⟩)
  else
    pure (it, ⟨n, tail⟩)

/-- Return the current chunk and move beyond it; `none` at the end. -/
def nextChunk (it : ForwardChunks) : Except Fault (ForwardChunks × Option Bytes) := do
  if it.bytesRemaining = 0 then
    pure (it, none)
  else
    pure (← it.step, some it.currentChunk)

/-! ### Positions -/

section Inv

variable [Target]

/-- The iteration is at the byte `pos` of its source. -/
def On (it : ForwardChunks) (src : Source) (pos : ℕ) : Prop :=
  match src with
  | .slice bs =>
    it.btreeReader = .new ∧ it.currentLeaf = none ∧ it.currentChunk = bs.drop pos ∧
      pos < bs.length
  | .tree (.leaf e) =>
    it.btreeReader = .new ∧ it.currentLeaf = some e ∧ it.currentChunk = e.data.drop pos ∧
      it.leafOffset = pos ∧ pos < e.length
  | .tree (.node hd es) =>
    ∃ e n, it.btreeReader.On (.node hd es) e ∧ n < e.length ∧ it.currentChunk = e.data.drop n ∧
      edgesLength it.btreeReader.navigator.before + n = pos

/-- The iteration belongs to its source, wherever it is. -/
def Of (it : ForwardChunks) (src : Source) : Prop :=
  match src with
  | .slice _ => it.btreeReader = .new ∧ it.currentLeaf = none
  | .tree (.leaf e) => it.btreeReader = .new ∧ it.currentLeaf = some e
  | .tree (.node hd es) => it.btreeReader.Of (.node hd es)

/-- The iteration is at the byte `pos` of its source, of which the last `taken` bytes were given
away at the back. -/
structure Inv (it : ForwardChunks) (src : Source) (pos taken : ℕ) : Prop where
  total : it.bytesRemaining + pos + taken = src.bytes.length
  of : it.Of src
  on : 0 < it.bytesRemaining → it.On src pos
  done : it.bytesRemaining = 0 → it.currentChunk = []

variable {it it' : ForwardChunks} {src : Source} {pos taken : ℕ}

theorem flatMap_data_length {es : List Edge} (hes : ∀ e ∈ es, e.Valid) :
    (es.flatMap Edge.data).length = edgesLength es := by
  rw [List.length_flatMap, edgesLength]
  exact congrArg _ (List.map_congr_left fun e he ↦ (hes e he).length_data)

/-- What the current chunk and the rest of the source are. -/
theorem On.drop_bytes (hon : it.On src pos) (hs : src.Valid) :
    ∃ rest, src.bytes.drop pos = it.currentChunk ++ rest ∧ it.currentChunk ≠ [] := by
  match src with
  | .slice bs =>
    obtain ⟨-, -, hchunk, hlt⟩ := hon
    refine ⟨[], by rw [hchunk, List.append_nil]; rfl, ?_⟩
    rw [hchunk]
    simpa using hlt
  | .tree (.leaf e) =>
    obtain ⟨-, -, hchunk, -, hlt⟩ := hon
    have he := Source.Valid.leaf hs
    refine ⟨[], by rw [hchunk, List.append_nil, Source.bytes, Rep.bytes_leaf], ?_⟩
    rw [hchunk, ne_eq, List.drop_eq_nil_iff, he.length_data]
    omega
  | .tree (.node hd es) =>
    obtain ⟨e, n, hr, hn, hchunk, rfl⟩ := hon
    have hv := (Source.Valid.node hs).1
    have he := hr.edge_valid
    refine ⟨it.btreeReader.navigator.after.flatMap Edge.data, ?_, ?_⟩
    · have hbefore : (it.btreeReader.navigator.before.flatMap Edge.data).length = _ :=
        flatMap_data_length fun e he ↦
          hv.leaves_valid e (by rw [hr.1.leaves_eq]; exact List.mem_append_left _ he)
      rw [Source.bytes, Rep.bytes, hr.1.leaves_eq, List.flatMap_append, List.flatMap_cons,
        ← List.drop_drop, List.drop_left' hbefore, hchunk, List.drop_append_of_le_length]
      rw [he.length_data]
      exact le_of_lt hn
    · rw [hchunk, ne_eq, List.drop_eq_nil_iff, he.length_data]
      omega

theorem On.of (hon : it.On src pos) (hs : src.Valid) : it.Of src := by
  match src with
  | .slice bs => exact ⟨hon.1, hon.2.1⟩
  | .tree (.leaf e) => exact ⟨hon.1, hon.2.1⟩
  | .tree (.node hd es) =>
    obtain ⟨e, n, hr, -⟩ := hon
    exact hr.of (Source.Valid.node hs).1

theorem Inv.chunk_eq_nil_iff (hi : it.Inv src pos taken) (hs : src.Valid) :
    it.currentChunk = [] ↔ it.bytesRemaining = 0 := by
  refine ⟨fun hnil ↦ ?_, hi.done⟩
  by_contra hne
  obtain ⟨_, -, hchunk⟩ := (hi.on (Nat.pos_of_ne_zero hne)).drop_bytes hs
  exact hchunk hnil

/-- The current chunk starts at the position. -/
theorem Inv.chunk_prefix (hi : it.Inv src pos taken) (hs : src.Valid) :
    it.currentChunk <+: src.bytes.drop pos := by
  by_cases hz : it.bytesRemaining = 0
  · rw [hi.done hz]
    exact List.nil_prefix
  · obtain ⟨rest, heq, -⟩ := (hi.on (Nat.pos_of_ne_zero hz)).drop_bytes hs
    exact ⟨rest, heq.symm⟩

/-- Without bytes taken at the back the current chunk is no longer than what remains. -/
theorem Inv.chunk_length_le (hi : it.Inv src pos 0) (hs : src.Valid) :
    it.currentChunk.length ≤ it.bytesRemaining := by
  have := (hi.chunk_prefix hs).length_le
  have := hi.total
  rw [List.length_drop] at *
  omega

/-! ### Moves -/

theorem new_spec {c : Cord Rep} (hs : c.source.Valid) :
    ∃ it, new c = .ok it ∧ it.Inv c.source 0 0 := by
  match c with
  | .inline d =>
    refine ⟨_, rfl, ⟨rfl, ⟨rfl, rfl⟩, fun hpos ↦ ⟨rfl, rfl, rfl, hpos⟩, fun hz ↦ ?_⟩⟩
    exact List.eq_nil_of_length_eq_zero hz
  | .tree (.leaf e) =>
    have he := Source.Valid.leaf hs
    have hlen : e.data.length = e.length := he.length_data
    have hpos := he.length_pos
    refine ⟨⟨e.data, some e, 0, e.length, .new⟩, ?_, ⟨?_, ⟨rfl, rfl⟩, fun _ ↦ ?_, fun hz ↦ ?_⟩⟩
    · have hne : Rep.length (.leaf e) ≠ 0 := by simpa using Nat.pos_iff_ne_zero.mp hpos
      simp only [new, if_pos hne]
      rfl
    · simp only [Cord.source, Source.bytes, Rep.bytes_leaf]
      omega
    · exact ⟨rfl, rfl, rfl, rfl, hpos⟩
    · simp only at hz
      omega
  | .tree (.node hd es) =>
    obtain ⟨hv, hk⟩ := Source.Valid.node hs
    obtain ⟨r, e, hrun, hr, hbefore⟩ := BtreeReader.init_spec hv hk
    have hpos := hv.length_pos
    refine ⟨⟨e.data, none, 0, hd.length, r⟩, ?_, ⟨?_, hr.of hv, fun _ ↦ ?_, fun hz ↦ ?_⟩⟩
    · have hne : Rep.length (.node hd es) ≠ 0 := Nat.pos_iff_ne_zero.mp hpos
      simp only [new, if_pos hne, initTree, hrun, ok_bind]
      rfl
    · exact hv.length_bytes.symm
    · exact ⟨e, 0, hr, hr.edge_valid.length_pos, rfl, by rw [hbefore]; rfl⟩
    · simp only [Rep.length_node] at hz hpos
      omega

theorem single_spec (bs : Bytes) : (single bs).Inv (.slice bs) 0 0 := by
  refine ⟨rfl, ⟨rfl, rfl⟩, fun hpos ↦ ⟨rfl, rfl, rfl, hpos⟩, fun hz ↦ ?_⟩
  exact List.eq_nil_of_length_eq_zero hz

/-- A btree reader moves on to the chunk after the current one. -/
theorem On.next_reader {hd : BtreeHeader} {es : List Rep} (hon : it.On (.tree (.node hd es)) pos)
    (hs : (Source.tree (.node hd es)).Valid) :
    ∃ r chunk, it.btreeReader.next = .ok (r, chunk) ∧ r.Of (.node hd es) ∧
      ((pos + it.currentChunk.length = hd.length ∧ chunk = []) ∨
        (pos + it.currentChunk.length < hd.length ∧ ∀ n lf lo,
          On ⟨chunk, lf, lo, n, r⟩ (.tree (.node hd es)) (pos + it.currentChunk.length))) := by
  obtain ⟨e, n, hr, hn, hchunk, rfl⟩ := hon
  have hv := (Source.Valid.node hs).1
  have hlen : it.currentChunk.length = e.length - n := by
    rw [hchunk, List.length_drop, hr.edge_valid.length_data]
  have htotal : hd.length = _ := hr.length_eq hv
  rcases BtreeReader.next_spec hr hv with ⟨hafter, hrun⟩ | ⟨r, e', hrun, hr', hbefore, hafter⟩
  · refine ⟨_, _, hrun, hr.of hv, .inl ⟨?_, rfl⟩⟩
    have : it.btreeReader.remaining = 0 := by rw [hr.2, hafter]; rfl
    omega
  · have hpos' := hr'.edge_valid.length_pos
    refine ⟨_, _, hrun, hr'.of hv, .inr ⟨?_, fun _ _ _ ↦ ⟨e', 0, hr', hpos', rfl, ?_⟩⟩⟩
    · have : it.btreeReader.remaining = e'.length + edgesLength r.navigator.after := by
        rw [hr.2, hafter, edgesLength_cons]
      omega
    · simp only [hbefore, edgesLength_append, edgesLength_cons, edgesLength_nil]
      omega

/-- A source that is not a btree has one chunk. -/
theorem On.not_isSome (hon : it.On src pos) (hs : src.Valid) (hsome : it.btreeReader.isSome = false) :
    pos + it.currentChunk.length = src.bytes.length := by
  match src with
  | .slice bs =>
    obtain ⟨-, -, hchunk, hlt⟩ := hon
    rw [hchunk, List.length_drop, Source.bytes]
    omega
  | .tree (.leaf e) =>
    obtain ⟨-, -, hchunk, -, hlt⟩ := hon
    have := (Source.Valid.leaf hs).length_data
    rw [hchunk, List.length_drop, Source.bytes, Rep.bytes_leaf]
    omega
  | .tree (.node hd es) =>
    have := (hon.of hs : it.btreeReader.Of _).isSome
    simp [hsome] at this

theorem Of.exists_node (hof : it.Of src) (hsome : it.btreeReader.isSome = true) :
    ∃ hd es, src = .tree (.node hd es) := by
  match src with
  | .slice bs => simp [hof.1] at hsome
  | .tree (.leaf e) => simp [hof.1] at hsome
  | .tree (.node hd es) => exact ⟨hd, es, rfl⟩

/-- A state with bytes left is described by its position. -/
theorem inv_of_on {chunk : Bytes} {lf : Option Edge} {lo n : ℕ} {r : BtreeReader}
    (hon : On ⟨chunk, lf, lo, n, r⟩ src pos) (hs : src.Valid) (hn : 0 < n)
    (htotal : n + pos + taken = src.bytes.length) : Inv ⟨chunk, lf, lo, n, r⟩ src pos taken :=
  ⟨htotal, hon.of hs, fun _ ↦ hon, fun hz ↦ absurd hz hn.ne'⟩

/-- A state without bytes left. -/
theorem inv_of_done {chunk : Bytes} {lf : Option Edge} {lo n : ℕ} {r : BtreeReader}
    (hof : Of ⟨chunk, lf, lo, n, r⟩ src) (hn : n = 0) (hchunk : chunk = [])
    (htotal : n + pos + taken = src.bytes.length) : Inv ⟨chunk, lf, lo, n, r⟩ src pos taken :=
  ⟨htotal, hof, fun hpos ↦ absurd hn hpos.ne', fun _ ↦ hchunk⟩

theorem step_spec (hi : it.Inv src pos 0) (hs : src.Valid) (hpos : 0 < it.bytesRemaining) :
    ∃ it', it.step = .ok it' ∧ it'.Inv src (pos + it.currentChunk.length) 0 := by
  have hle := hi.chunk_length_le hs
  have htotal := hi.total
  have hon := hi.on hpos
  by_cases hz : 0 < it.bytesRemaining - it.currentChunk.length
  · cases hsome : it.btreeReader.isSome with
    | false =>
      have := hon.not_isSome hs hsome
      omega
    | true =>
      obtain ⟨hd, es, rfl⟩ := hi.of.exists_node hsome
      obtain ⟨r, chunk, hrun, hof, hcase⟩ := hon.next_reader hs
      have hbytes : (Source.tree (.node hd es)).bytes.length = hd.length :=
        (Source.Valid.node hs).1.length_bytes
      obtain ⟨heq, -⟩ | ⟨-, hon'⟩ := hcase
      · omega
      · refine ⟨⟨chunk, it.currentLeaf, it.leafOffset, it.bytesRemaining - it.currentChunk.length, r⟩, ?_,
          inv_of_on (hon' _ _ _) hs (by omega) ?_⟩
        · simp only [step, if_pos hz, hsome, if_true, hrun, ok_bind]
          rfl
        · omega
  · refine ⟨⟨[], it.currentLeaf, it.leafOffset, it.bytesRemaining - it.currentChunk.length,
        it.btreeReader⟩, ?_,
      inv_of_done hi.of (by omega) rfl ?_⟩
    · simp only [step, if_neg hz]
      rfl
    · omega

theorem removeChunkPrefix_spec {n : ℕ} (hi : it.Inv src pos taken) (hs : src.Valid)
    (hn : n < it.currentChunk.length) (hr : n < it.bytesRemaining) :
    (it.removeChunkPrefix n).Inv src (pos + n) taken := by
  have htotal := hi.total
  refine ⟨?_, ?_, fun _ ↦ ?_, fun hz ↦ ?_⟩
  · simp only [removeChunkPrefix]
    omega
  · match src, hi.of with
    | .slice bs, hof => exact hof
    | .tree (.leaf e), hof => exact hof
    | .tree (.node hd es), hof => exact hof
  · match src, hi.on (by omega) with
    | .slice bs, ⟨hnew, hleaf, hchunk, hlt⟩ =>
      refine ⟨hnew, hleaf, ?_, ?_⟩
      · rw [removeChunkPrefix, hchunk, List.drop_drop]
      · rw [hchunk, List.length_drop] at hn
        omega
    | .tree (.leaf e), ⟨hnew, hleaf, hchunk, hoff, hlt⟩ =>
      refine ⟨hnew, hleaf, ?_, ?_, ?_⟩
      · rw [removeChunkPrefix, hchunk, List.drop_drop]
      · rw [removeChunkPrefix, hoff]
      · rw [hchunk, List.length_drop, (Source.Valid.leaf hs).length_data] at hn
        omega
    | .tree (.node hd es), ⟨e, m, hre, hm, hchunk, hoff⟩ =>
      refine ⟨e, m + n, hre, ?_, ?_, ?_⟩
      · rw [hchunk, List.length_drop, hre.edge_valid.length_data] at hn
        omega
      · rw [removeChunkPrefix, hchunk, List.drop_drop]
      · simp only [removeChunkPrefix]
        omega
  · simp only [removeChunkPrefix] at hz
    omega

theorem advanceBytesBtree_spec {n : ℕ} (hi : it.Inv src pos 0) (hs : src.Valid)
    (hsome : it.btreeReader.isSome = true) (hn : it.currentChunk.length ≤ n)
    (hle : n ≤ it.bytesRemaining) (hpos : 0 < it.bytesRemaining) :
    ∃ it', it.advanceBytesBtree n = .ok it' ∧ it'.Inv src (pos + n) 0 := by
  have htotal := hi.total
  obtain ⟨hd, es, rfl⟩ := hi.of.exists_node hsome
  have hv := (Source.Valid.node hs).1
  have hbytes : (Source.tree (.node hd es)).bytes.length = hd.length := hv.length_bytes
  by_cases hz : it.bytesRemaining - n ≠ 0
  · by_cases heq : n = it.currentChunk.length
    · obtain ⟨r, chunk, hrun, hof, hcase⟩ := (hi.on hpos).next_reader hs
      obtain ⟨hend, -⟩ | ⟨-, hon'⟩ := hcase
      · omega
      · rw [← heq] at hon'
        refine ⟨⟨chunk, it.currentLeaf, it.leafOffset, it.bytesRemaining - n, r⟩, ?_,
          inv_of_on (hon' _ _ _) hs (by omega) (by omega)⟩
        simp only [advanceBytesBtree, if_pos hz, if_pos heq, hrun, ok_bind]
        rfl
    · have hof : it.btreeReader.Of (.node hd es) := hi.of
      have hoff : hd.length - (it.bytesRemaining - n) = pos + n := by omega
      have hlt : pos + n < Rep.length (.node hd es) := by rw [Rep.length_node]; omega
      obtain ⟨r, e, m, hrun, hr, hm, hsum⟩ := BtreeReader.seek_spec hof hv hlt
      refine ⟨⟨e.data.drop m, it.currentLeaf, it.leafOffset, it.bytesRemaining - n, r⟩, ?_,
        inv_of_on ⟨e, m, hr, hm, rfl, hsum⟩ hs (by omega) (by omega)⟩
      simp only [advanceBytesBtree, if_pos hz, if_neg heq, BtreeReader.length, hof.1, ok_bind,
        Rep.length_node, hoff, hrun]
      rfl
  · refine ⟨⟨[], it.currentLeaf, it.leafOffset, it.bytesRemaining - n, it.btreeReader⟩, ?_,
      inv_of_done hi.of (by omega) rfl (by omega)⟩
    simp only [advanceBytesBtree, if_neg hz]
    rfl

/-- Advancing by at most what remains moves the position by exactly that much. -/
theorem advanceBytes_spec {n : ℕ} (hi : it.Inv src pos 0) (hs : src.Valid)
    (hle : n ≤ it.bytesRemaining) :
    ∃ it', it.advanceBytes n = .ok it' ∧ it'.Inv src (pos + n) 0 := by
  have hchunk := hi.chunk_length_le hs
  by_cases hlt : n < it.currentChunk.length
  · refine ⟨_, ?_, removeChunkPrefix_spec hi hs hlt (by omega)⟩
    simp only [advanceBytes, if_pos hlt]
    rfl
  · by_cases hz : n ≠ 0
    · have hpos : 0 < it.bytesRemaining := by omega
      cases hsome : it.btreeReader.isSome with
      | true =>
        simp only [advanceBytes, if_neg hlt, if_pos hz, hsome, if_true]
        exact advanceBytesBtree_spec hi hs hsome (by omega) hle hpos
      | false =>
        have hend := (hi.on hpos).not_isSome hs hsome
        have htotal := hi.total
        refine ⟨⟨[], it.currentLeaf, it.leafOffset, 0, it.btreeReader⟩, ?_,
          inv_of_done hi.of rfl rfl (by omega)⟩
        simp only [advanceBytes, if_neg hlt, if_pos hz, hsome]
        rfl
    · obtain rfl : n = 0 := by omega
      refine ⟨it, ?_, hi⟩
      simp only [advanceBytes, if_neg hlt]
      rfl

/-- The next chunk is a non-empty piece at the position, and there is none exactly at the end. -/
theorem nextChunk_spec (hi : it.Inv src pos 0) (hs : src.Valid) :
    (it.bytesRemaining = 0 ∧ it.nextChunk = .ok (it, none)) ∨
      ∃ it', it.nextChunk = .ok (it', some it.currentChunk) ∧ it.currentChunk ≠ [] ∧
        it'.Inv src (pos + it.currentChunk.length) 0 := by
  by_cases hz : it.bytesRemaining = 0
  · refine .inl ⟨hz, ?_⟩
    rw [nextChunk, if_pos hz]
    rfl
  · obtain ⟨it', hrun, hi'⟩ := step_spec hi hs (Nat.pos_of_ne_zero hz)
    refine .inr ⟨it', ?_, fun hnil ↦ hz ((hi.chunk_eq_nil_iff hs).mp hnil), hi'⟩
    rw [nextChunk, if_neg hz, hrun]
    rfl

/-! ### Gathering inline bytes -/

omit [Target] in
/-- A move into the zero tail appends the bytes moved. -/
private theorem move_to_tail (done chunk : Bytes) {n : ℕ} (hn : done.length + n ≤ maxInline)
    (hchunk : n ≤ chunk.length) :
    (InlineData.ofBytes done).tail.take done.length ++
        smallMemmove false ((InlineData.ofBytes done).tail.drop done.length) chunk n =
      (InlineData.ofBytes (done ++ chunk.take n)).tail := by
  have hlen : (chunk.take n).length = n := by simpa using hchunk
  simp only [InlineData.ofBytes, List.take_left, List.drop_left]
  rw [smallMemmove_false (by omega) hchunk (by simp; omega), List.drop_replicate,
    List.append_assoc, List.length_append, hlen, Nat.sub_sub]

omit [Target] in
private theorem drop_take_append {bs chunk rest : Bytes} {p m : ℕ} (h : bs.drop p = chunk ++ rest) :
    chunk ++ (bs.drop (p + chunk.length)).take m = (bs.drop p).take (chunk.length + m) := by
  rw [← List.drop_drop, h, List.drop_left, List.take_length_add_append]

private theorem gatherChunks_spec (hs : src.Valid) {fuel remaining : ℕ} (done : Bytes)
    (hi : it.Inv src pos 0) (hfuel : remaining < fuel) (hle : remaining ≤ it.bytesRemaining)
    (hmax : done.length + remaining ≤ maxInline) :
    ∃ it' m, gatherChunks fuel it (InlineData.ofBytes done).tail done.length remaining =
        .ok (it', (InlineData.ofBytes (done ++ (src.bytes.drop pos).take m)).tail,
          done.length + m, remaining - m) ∧
      m ≤ remaining ∧ remaining - m ≤ it'.currentChunk.length ∧ it'.Inv src (pos + m) 0 := by
  induction fuel generalizing it pos done remaining with
  | zero => omega
  | succ fuel ih =>
    by_cases hlt : it.currentChunk.length < remaining
    · have hpos : 0 < it.bytesRemaining := by omega
      obtain ⟨it₁, hstep, hi₁⟩ := step_spec hi hs hpos
      obtain ⟨rest, hdrop, hne⟩ := (hi.on hpos).drop_bytes hs
      have hchunk := List.length_pos_iff.mpr hne
      have htotal := hi.total
      have htotal₁ := hi₁.total
      have hdone : (done ++ it.currentChunk).length = done.length + it.currentChunk.length :=
        List.length_append
      obtain ⟨it₂, m, hrun, hm, hrem, hi₂⟩ := ih (done ++ it.currentChunk) hi₁
        (show remaining - it.currentChunk.length < fuel by omega) (by omega) (by omega)
      refine ⟨it₂, it.currentChunk.length + m, ?_, by omega, by omega, ?_⟩
      · have htail := move_to_tail done it.currentChunk (by omega) le_rfl
        rw [List.take_length] at htail
        rw [List.append_assoc, drop_take_append hdrop, hdone] at hrun
        simp only [gatherChunks, if_pos hlt, hstep, ok_bind, htail, hrun, Nat.add_assoc,
          Nat.sub_sub]
      · rwa [Nat.add_assoc] at hi₂
    · refine ⟨it, 0, ?_, Nat.zero_le _, by omega, hi⟩
      simp only [gatherChunks, if_neg hlt, List.take_zero, List.append_nil]
      rfl

/-- Gathering returns the next bytes, and moves beyond them on request. -/
theorem gatherInline_spec (maintain : Bool) {n : ℕ} (hi : it.Inv src pos 0) (hs : src.Valid)
    (hle : n ≤ it.bytesRemaining) (hmax : n ≤ maxInline) :
    ∃ it', gatherInline maintain it n =
        .ok (it', InlineData.ofBytes ((src.bytes.drop pos).take n)) ∧
      (maintain = true → it'.Inv src (pos + n) 0) := by
  have hlen : ((src.bytes.drop pos).take n).length = n := by
    have := hi.total
    simp only [List.length_take, List.length_drop]
    omega
  have hofBytes : ∀ tail, tail = (InlineData.ofBytes ((src.bytes.drop pos).take n)).tail →
      (⟨n, tail⟩ : InlineData) = InlineData.ofBytes ((src.bytes.drop pos).take n) := by
    rintro _ rfl
    rw [InlineData.ofBytes, hlen]
  obtain ⟨it₁, m, hrun, hm, hrem, hi₁⟩ := gatherChunks_spec hs [] hi
    (Nat.lt_succ_self n) hle (by simpa using hmax)
  simp only [List.nil_append, List.length_nil, Nat.zero_add] at hrun
  have htotal := hi.total
  have htotal₁ := hi₁.total
  have hm' : ((src.bytes.drop pos).take m).length = m := by
    simp only [List.length_take, List.length_drop]
    omega
  by_cases hz : n - m ≠ 0
  · obtain ⟨rest, hdrop, hne⟩ := (hi₁.on (by omega)).drop_bytes hs
    have htail : (InlineData.ofBytes ((src.bytes.drop pos).take m)).tail.take m ++ smallMemmove false
          ((InlineData.ofBytes ((src.bytes.drop pos).take m)).tail.drop m) it₁.currentChunk (n - m) =
        (InlineData.ofBytes ((src.bytes.drop pos).take n)).tail := by
      have hmove := move_to_tail ((src.bytes.drop pos).take m) it₁.currentChunk
        (n := n - m) (by omega) (by omega)
      rw [hm'] at hmove
      rw [hmove]
      have hsplit : (src.bytes.drop pos).take n = (src.bytes.drop pos).take m ++
          ((src.bytes.drop (pos + m)).take (n - m)) := by
        rw [← List.drop_drop, ← List.take_add, Nat.add_sub_cancel' hm]
      rw [hsplit, hdrop, List.take_append_of_le_length (by omega)]
    cases maintain with
    | false =>
      refine ⟨it₁, ?_, by simp⟩
      simp only [gatherInline, InlineData.new_eq, hrun, ok_bind, if_pos hz, htail,
        hofBytes _ rfl]
      rfl
    | true =>
      by_cases hlt : n - m < it₁.currentChunk.length
      · refine ⟨it₁.removeChunkPrefix (n - m), ?_, fun _ ↦ ?_⟩
        · simp only [gatherInline, InlineData.new_eq, hrun, ok_bind, if_pos hz, if_true, if_pos hlt,
            htail, hofBytes _ rfl]
          rfl
        · have := removeChunkPrefix_spec hi₁ hs hlt (hlt.trans_le (hi₁.chunk_length_le hs))
          rwa [Nat.add_assoc, Nat.add_sub_cancel' hm] at this
      · obtain ⟨it₂, hstep, hi₂⟩ := step_spec hi₁ hs (by omega)
        refine ⟨it₂, ?_, fun _ ↦ ?_⟩
        · simp only [gatherInline, InlineData.new_eq, hrun, ok_bind, if_pos hz, if_true,
            if_neg hlt, htail, hofBytes _ rfl, hstep]
          rfl
        · have hchunk : it₁.currentChunk.length = n - m := by omega
          rwa [hchunk, Nat.add_assoc, Nat.add_sub_cancel' hm] at hi₂
  · have hmn : m = n := by omega
    subst hmn
    refine ⟨it₁, ?_, fun _ ↦ hi₁⟩
    simp only [gatherInline, InlineData.new_eq, hrun, ok_bind, if_neg hz, hofBytes _ rfl]
    rfl

end Inv

end ForwardChunks

end CordRs
