import CordRs.Cord.Read

/-!
# Comparing cords

Comparisons take shortcuts (identical handles, two inline values, the first chunks) before they
walk the chunks of both sides in lockstep. The right-hand side is a cord or a slice.

Two borrowed trees at one address are the same tree only in one heap, so the results about cords
assume a heap that holds both sides.

## Main definitions

* `CordRs.CordLike`, `CordRs.Cord.compare`, `CordRs.Cord.equals`, `CordRs.Cord.startsWith`,
  `CordRs.Cord.endsWith`.

## Main results

* `CordRs.Cord.compare_eq`, `CordRs.Cord.equals_eq`, `CordRs.Cord.startsWith_eq`,
  `CordRs.Cord.endsWith_eq`: each agrees with the byte strings.
* `CordRs.Cord.comparisons_agree`: the same in one statement, with the laws of the order.
-/

namespace CordRs

open RefHeap

/-- The right-hand side of a comparison. -/
inductive CordLike where
  | cord (c : Cord Rep)
  | slice (bs : Bytes)

namespace CordLike

/-- The bytes of a right-hand side. -/
def bytes : CordLike → Bytes
  | cord c => c.bytes
  | slice bs => bs

/-- The length of a right-hand side. -/
def len : CordLike → ℕ
  | cord c => c.len
  | slice bs => bs.length

/-- The first chunk of a right-hand side. -/
def firstChunk : CordLike → Except Fault Bytes
  | cord c => c.firstChunk
  | slice bs => .ok bs

/-- All bytes as one chunk, if there is one. -/
def singleChunk : CordLike → Option Bytes
  | cord c => c.asContiguous
  | slice bs => some bs

/-- The chunks of a right-hand side. -/
def chunks : CordLike → Except Fault Chunks
  | cord c => Chunks.new c
  | slice bs => .ok ⟨ForwardChunks.single bs, none⟩

end CordLike

namespace Cord

/-- Whether two handles are the same sixteen bytes. -/
def isSame : Cord Rep → Cord Rep → Bool
  | inline a, inline b => a.isSame b
  | tree s, tree t => s.addr = t.addr
  | _, _ => false

/-- Take the next chunk once the current one is used up; `false` at the end. -/
def advanceChunk {τ : Type} (next : τ → Except Fault (τ × Option Bytes)) (it : τ)
    (chunk : Bytes) : Except Fault (τ × Bytes × Bool) := do
  if chunk ≠ [] then
    pure (it, chunk, true)
  else
    match ← next it with
    | (it, some chunk) => pure (it, chunk, true)
    | (it, none) => pure (it, chunk, false)

/-- The result once one side has no chunk left. -/
def compareEnds (lhsChunk rhsChunk : Bytes) : Ordering :=
  match rhsChunk.isEmpty, lhsChunk.isEmpty with
  | true, false => .gt
  | false, true => .lt
  | _, _ => .eq

/-- The lockstep walk over the chunks of both sides. Each iteration compares at least one byte;
the fuel bounds their number. -/
def compareLoop : ℕ → ForwardChunks → Chunks → Bytes → Bytes → ℕ → Except Fault Ordering
  | 0, _, _, _, _, _ => .error .unreachable
  | fuel + 1, lhsIt, rhsIt, lhsChunk, rhsChunk, size => do
    let (lhsIt, lhsChunk, more) ← advanceChunk ForwardChunks.nextChunk lhsIt lhsChunk
    if !more then
      pure (compareEnds lhsChunk rhsChunk)
    else
      let (rhsIt, rhsChunk, more) ← advanceChunk Chunks.next rhsIt rhsChunk
      if !more then
        pure (compareEnds lhsChunk rhsChunk)
      else
        let n := min lhsChunk.length rhsChunk.length
        let size := size - n
        let result := compareBytes (lhsChunk.take n) (rhsChunk.take n)
        if result ≠ .eq then
          pure result
        else if size = 0 then
          pure .eq
        else
          compareLoop fuel lhsIt rhsIt (lhsChunk.drop n) (rhsChunk.drop n) size

/-- The bytes of a chunk from `n` on, which must not be beyond its end. -/
def chunkFrom (chunk : Bytes) (n : ℕ) : Except Fault Bytes :=
  if n ≤ chunk.length then
    .ok (chunk.drop n)
  else
    .error (.panic "range start index out of range for slice")

/-- Compare beyond the first chunks, of which `comparedSize` bytes are known to be equal. -/
def compareSlowPath (self : Cord Rep) (rhs : CordLike) (comparedSize size : ℕ) :
    Except Fault Ordering := do
  let lhsIt ← ForwardChunks.new self
  let rhsIt ← rhs.chunks
  let (lhsIt, lhsChunk) ← lhsIt.nextChunk
  let (rhsIt, rhsChunk) ← rhsIt.next
  let lhsChunk ← chunkFrom (lhsChunk.getD []) comparedSize
  let rhsChunk ← chunkFrom (rhsChunk.getD []) comparedSize
  compareLoop (size + 1) lhsIt rhsIt lhsChunk rhsChunk (size - comparedSize)

/-- Compare the first `size` bytes. -/
def comparePrefix (self : Cord Rep) (rhs : CordLike) (size : ℕ) : Except Fault Ordering := do
  let lhsChunk ← self.firstChunk
  let rhsChunk ← rhs.firstChunk
  let comparedSize := min lhsChunk.length rhsChunk.length
  let result := compareBytes (lhsChunk.take comparedSize) (rhsChunk.take comparedSize)
  if comparedSize = size ∨ result ≠ .eq then
    pure result
  else
    self.compareSlowPath rhs comparedSize size

/-- Compare by the bytes both sides have, then by length. -/
def compareSizes (self : Cord Rep) (rhs : CordLike) : Except Fault Ordering := do
  let lhsSize := self.len
  let rhsSize := rhs.len
  if lhsSize = rhsSize then
    self.comparePrefix rhs lhsSize
  else if lhsSize < rhsSize then
    let result ← self.comparePrefix rhs lhsSize
    pure (if result = .eq then .lt else result)
  else
    let result ← self.comparePrefix rhs rhsSize
    pure (if result = .eq then .gt else result)

/-- The lexicographic order of the bytes. -/
def compare (self : Cord Rep) (rhs : CordLike) : Except Fault Ordering :=
  match rhs with
  | .cord other =>
    if self.isSame other then
      .ok .eq
    else
      match self, other with
      | inline a, inline b => .ok (a.compare b)
      | _, _ => self.compareSizes rhs
  | .slice _ => self.compareSizes rhs

/-- Whether both sides have the same bytes. -/
def equals (self : Cord Rep) (rhs : CordLike) : Except Fault Bool := do
  let rhsSize := rhs.len
  if self.len ≠ rhsSize then
    pure false
  else
    match rhs with
    | .cord other =>
      if self.isSame other then
        pure true
      else
        pure ((← self.comparePrefix rhs rhsSize) = .eq)
    | .slice _ => pure ((← self.comparePrefix rhs rhsSize) = .eq)

/-- Whether the right-hand side is a prefix. -/
def startsWith (self : Cord Rep) (rhs : CordLike) : Except Fault Bool := do
  let prefixSize := rhs.len
  if self.len < prefixSize then
    pure false
  else
    pure ((← self.comparePrefix rhs prefixSize) = .eq)

/-- Match one chunk of the needle; `none` on a mismatch. Each iteration matches at least one byte
of the chunk, whose length bounds the fuel. -/
def matchChunk : ℕ → ForwardChunks → Bytes → Except Fault (Option ForwardChunks)
  | 0, it, needleChunk => if needleChunk = [] then .ok (some it) else .error .unreachable
  | fuel + 1, it, needleChunk => do
    if needleChunk = [] then
      pure (some it)
    else if it.currentChunk = [] then
      pure none
    else
      let n := min it.currentChunk.length needleChunk.length
      if it.currentChunk.take n ≠ needleChunk.take n then
        pure none
      else
        matchChunk fuel (← it.advanceBytes n) (needleChunk.drop n)

/-- The body of the loop over the chunks of the needle. -/
def subcordChunk (s : Option ForwardChunks) (chunk : Bytes) :
    Except Fault (ForInStep (Option ForwardChunks)) := do
  match s with
  | none => pure (.done none)
  | some it =>
    match ← matchChunk chunk.length it chunk with
    | some it => pure (.yield (some it))
    | none => pure (.done none)

/-- Whether the bytes at a position start with those of the needle. -/
def isSubcordAt (haystack : ForwardChunks) (needle : Chunks) : Except Fault Bool := do
  let s ← forNext Chunks.next subcordChunk (needle.front.bytesRemaining + 1) needle (some haystack)
  pure s.isSome

/-- Whether the right-hand side is a suffix. -/
def endsWith (self : Cord Rep) (rhs : CordLike) : Except Fault Bool := do
  let mySize := self.len
  let suffixSize := rhs.len
  if mySize < suffixSize then
    pure false
  else
    let position ← ForwardChunks.new self
    let position ← position.advanceBytes (mySize - suffixSize)
    match rhs.singleChunk with
    | some chunk =>
      let matched ← matchChunk chunk.length position chunk
      pure matched.isSome
    | none => isSubcordAt position (← rhs.chunks)

end Cord

/-- The heap holds the tree of a cord. -/
def Cord.Held (h : Heap Node) : Cord Rep → Prop
  | .inline _ => True
  | .tree t => t.Held h

/-- The heap holds the tree of a right-hand side. -/
def CordLike.Held (h : Heap Node) : CordLike → Prop
  | cord c => c.Held h
  | slice _ => True

/-! ### First chunks -/

section FirstChunk

variable [Target]

/-- The first chunk of an iteration is its current chunk. -/
theorem ForwardChunks.Rest.nextChunk_eq {it : ForwardChunks} {bs : Bytes} (hr : it.Rest bs) :
    (bs = [] ∧ it.currentChunk = []) ∨
      ∃ it' rest, it.nextChunk = .ok (it', some it.currentChunk) ∧ it.currentChunk ≠ [] ∧
        bs = it.currentChunk ++ rest ∧ it'.Rest rest := by
  have hlen := hr.length_eq
  rcases ForwardChunks.yields_nextChunk it bs hr with ⟨rfl, -⟩ | ⟨it', chunk, rest, hrun, hne, rfl, hr'⟩
  · obtain ⟨src, pos, -, hi, -⟩ := hr
    exact .inl ⟨rfl, hi.done hlen.symm⟩
  · have hchunk : chunk = it.currentChunk := by
      obtain ⟨src, pos, hs, hi, -⟩ := hr
      rcases ForwardChunks.nextChunk_spec hi hs with ⟨-, hrun'⟩ | ⟨it'', hrun', -⟩
      · rw [hrun'] at hrun
        nomatch hrun
      · rw [hrun'] at hrun
        injection hrun with hrun
        injection hrun with _ hrun
        exact (Option.some.inj hrun).symm
    exact .inr ⟨it', rest, hchunk ▸ hrun, hchunk ▸ hne, hchunk ▸ rfl, hr'⟩

/-- The first chunk of a cord is the one iteration starts with. -/
theorem Cord.firstChunk_new {c : Cord Rep} (hc : c.Valid) :
    ∃ it, ForwardChunks.new c = .ok it ∧ it.Rest c.bytes ∧ c.firstChunk = .ok it.currentChunk := by
  obtain ⟨it, hrun, hrest⟩ := ForwardChunks.new_rest hc.source
  refine ⟨it, hrun, hrest, ?_⟩
  match c with
  | .inline d =>
    obtain rfl := Except.ok.inj hrun
    rfl
  | .tree (.leaf e) =>
    have hne : Rep.length (.leaf e) ≠ 0 := (Source.Valid.leaf hc).length_pos.ne'
    simp only [ForwardChunks.new, if_pos hne] at hrun
    obtain rfl := Except.ok.inj hrun
    rfl
  | .tree (.node hd es) =>
    obtain ⟨hv, hk⟩ := Source.Valid.node hc
    obtain ⟨r, e, hinit, hr, hbefore⟩ := BtreeReader.init_spec hv hk
    obtain ⟨e', rest, hfirst, hleaves⟩ := firstData_spec hv
    have hne : Rep.length (.node hd es) ≠ 0 := hv.length_pos.ne'
    simp only [ForwardChunks.new, if_pos hne, ForwardChunks.initTree, hinit, ok_bind] at hrun
    obtain rfl := Except.ok.inj hrun
    have := hr.1.leaves_eq
    rw [hbefore, hleaves] at this
    obtain rfl : e' = e := (List.cons.inj this).1
    exact hfirst

namespace CordLike

variable {rhs : CordLike}

/-- A right-hand side is a valid cord or any slice. -/
def Valid : CordLike → Prop
  | cord c => c.Valid
  | slice _ => True

theorem len_eq (hr : rhs.Valid) : rhs.len = rhs.bytes.length := by
  cases rhs with
  | cord c => exact Cord.len_eq hr
  | slice bs => rfl

private theorem denotes_of_rest {it : ForwardChunks} {bs : Bytes} (hr : it.Rest bs) :
    (⟨it, none⟩ : Chunks).Denotes bs := by
  obtain ⟨src, pos, hs, hi, rfl⟩ := hr
  exact Chunks.denotes_of_forward hs hi

/-- The chunks of a right-hand side start with its first chunk. -/
theorem chunks_spec (hr : rhs.Valid) : ∃ cs chunk, rhs.chunks = .ok cs ∧ cs.Denotes rhs.bytes ∧
    cs.front.bytesRemaining = rhs.bytes.length ∧ rhs.firstChunk = .ok chunk ∧
    (rhs.bytes = [] ∧ chunk = [] ∨ ∃ cs' rest, cs.next = .ok (cs', some chunk) ∧ chunk ≠ [] ∧
      rhs.bytes = chunk ++ rest ∧ cs'.Denotes rest) := by
  obtain ⟨it, hrun, hrest, hfirst⟩ : ∃ it, rhs.chunks = .ok ⟨it, none⟩ ∧ it.Rest rhs.bytes ∧
      rhs.firstChunk = .ok it.currentChunk := by
    cases rhs with
    | cord c =>
      obtain ⟨it, hnew, hrest, hfirst⟩ := Cord.firstChunk_new hr
      refine ⟨it, ?_, hrest, hfirst⟩
      simp only [chunks, Chunks.new, hnew, ok_bind]
      rfl
    | slice bs =>
      exact ⟨.single bs, rfl, ⟨.slice bs, 0, trivial, ForwardChunks.single_spec bs, rfl⟩, rfl⟩
  refine ⟨⟨it, none⟩, it.currentChunk, hrun, denotes_of_rest hrest, hrest.length_eq.symm, hfirst, ?_⟩
  rcases hrest.nextChunk_eq with h | ⟨it', rest, hnext, hne, heq, hrest'⟩
  · exact .inl h
  · refine .inr ⟨⟨it', none⟩, rest, ?_, hne, heq, denotes_of_rest hrest'⟩
    simp only [Chunks.next, hnext, ok_bind]
    rfl

omit [Target] in
theorem singleChunk_spec {chunk : Bytes} (h : rhs.singleChunk = some chunk) :
    chunk = rhs.bytes := by
  cases rhs with
  | cord c => exact Cord.asContiguous_spec h
  | slice bs => exact (Option.some.inj h).symm

end CordLike

end FirstChunk

/-! ### The lockstep walk -/

/-- A comparison may be split at any point. -/
theorem compareBytes_take {a b : Bytes} {n size : ℕ} (hn : n ≤ size) (ha : n ≤ a.length)
    (hb : n ≤ b.length) :
    compareBytes (a.take size) (b.take size) =
      if compareBytes (a.take n) (b.take n) ≠ .eq then compareBytes (a.take n) (b.take n)
      else compareBytes ((a.drop n).take (size - n)) ((b.drop n).take (size - n)) := by
  have hsplit : ∀ m : Bytes, m.take size = m.take n ++ (m.drop n).take (size - n) := by
    intro m
    rw [← List.take_add, Nat.add_sub_cancel' hn]
  rw [hsplit a, hsplit b]
  split_ifs with hne
  · exact compareBytes_append_of_ne (by simp [ha, hb]) hne _ _
  · rw [not_not, compareBytes_eq_iff] at hne
    rw [hne, compareBytes_append_left]

/-- A byte string is below a longer one unless the first difference says otherwise. -/
theorem compareBytes_of_length_lt {a b : Bytes} (h : a.length < b.length) :
    compareBytes a b =
      if compareBytes (a.take a.length) (b.take a.length) = .eq then .lt
      else compareBytes (a.take a.length) (b.take a.length) := by
  obtain ⟨x, hx⟩ : ∃ x, x = b.take a.length := ⟨_, rfl⟩
  obtain ⟨y, ys, hy⟩ : ∃ y ys, b.drop a.length = y :: ys :=
    List.exists_cons_of_ne_nil (by rw [ne_eq, List.drop_eq_nil_iff]; omega)
  have hb : b = x ++ y :: ys := by rw [hx, ← hy, List.take_append_drop]
  have hlen : x.length = a.length := by rw [hx, List.length_take]; omega
  rw [List.take_length, ← hx]
  split_ifs with heq
  · rw [hb, ← compareBytes_eq_iff.mp heq]
    have := compareBytes_append_left a [] (y :: ys)
    rwa [List.append_nil] at this
  · rw [hb]
    have := compareBytes_append_of_ne hlen.symm heq [] (y :: ys)
    rwa [List.append_nil] at this

theorem compareBytes_trans {a b c : Bytes} (hab : compareBytes a b ≠ .gt)
    (hbc : compareBytes b c ≠ .gt) : compareBytes a c ≠ .gt ∧
      (compareBytes a c = .eq → compareBytes a b = .eq ∧ compareBytes b c = .eq) := by
  induction a generalizing b c with
  | nil =>
    cases c with
    | nil =>
      cases b with
      | nil => simp [compareBytes]
      | cons y ys => simp [compareBytes] at hbc
    | cons z zs => simp [compareBytes]
  | cons x xs ih =>
    cases b with
    | nil => simp [compareBytes] at hab
    | cons y ys =>
      cases c with
      | nil => simp [compareBytes] at hbc
      | cons z zs =>
        simp only [compareBytes] at hab hbc ⊢
        rcases Nat.lt_trichotomy x.toNat y.toNat with hxy | hxy | hxy
        · rcases Nat.lt_trichotomy y.toNat z.toNat with hyz | hyz | hyz
          · simp [hxy.trans hyz]
          · simp [hyz ▸ hxy]
          · simp [hyz, hyz.not_gt] at hbc
        · rcases Nat.lt_trichotomy y.toNat z.toNat with hyz | hyz | hyz
          · simp [hxy ▸ hyz]
          · simp only [hxy, hyz, lt_irrefl, if_false] at hab hbc ⊢
            exact ih hab hbc
          · simp [hyz, hyz.not_gt] at hbc
        · simp [hxy, hxy.not_gt] at hab

namespace Cord

section Walk

variable [Target]

omit [Target] in
private theorem advanceChunk_spec {τ : Type} {next : τ → Except Fault (τ × Option Bytes)}
    {denotes : τ → Bytes → Prop} (hy : Yields next denotes) {it : τ} {chunk rest : Bytes}
    (hd : denotes it rest) (hne : chunk ++ rest ≠ []) :
    ∃ it' chunk' rest', advanceChunk next it chunk = .ok (it', chunk', true) ∧
      denotes it' rest' ∧ chunk' ≠ [] ∧ chunk ++ rest = chunk' ++ rest' := by
  by_cases hchunk : chunk = []
  · subst hchunk
    rcases hy it rest hd with ⟨rfl, -⟩ | ⟨it', chunk', rest', hrun, hne', rfl, hd'⟩
    · exact absurd rfl hne
    · refine ⟨it', chunk', rest', ?_, hd', hne', rfl⟩
      simp only [advanceChunk, hrun, ok_bind]
      rfl
  · refine ⟨it, chunk, rest, ?_, hd, hchunk, rfl⟩
    simp only [advanceChunk, ne_eq, hchunk, not_false_iff, if_true]
    rfl

private theorem compareLoop_spec {fuel size : ℕ} {lhsIt : ForwardChunks} {rhsIt : Chunks}
    {lhsChunk rhsChunk lhs rhs : Bytes} (hl : lhsIt.Rest lhs) (hr : rhsIt.Denotes rhs)
    (hsize : size = min (lhsChunk ++ lhs).length (rhsChunk ++ rhs).length) (hpos : 0 < size)
    (hfuel : size < fuel) :
    compareLoop fuel lhsIt rhsIt lhsChunk rhsChunk size =
      .ok (compareBytes ((lhsChunk ++ lhs).take size) ((rhsChunk ++ rhs).take size)) := by
  induction fuel generalizing lhsIt rhsIt lhsChunk rhsChunk lhs rhs size with
  | zero => omega
  | succ fuel ih =>
    obtain ⟨lhsIt', lc, lhs', hrunl, hl', hlc, heql⟩ :=
      advanceChunk_spec ForwardChunks.yields_nextChunk hl
        (List.length_pos_iff.mp (show 0 < (lhsChunk ++ lhs).length by omega))
    obtain ⟨rhsIt', rc, rhs', hrunr, hr', hrc, heqr⟩ :=
      advanceChunk_spec Chunks.yields_next hr
        (List.length_pos_iff.mp (show 0 < (rhsChunk ++ rhs).length by omega))
    rw [heql, heqr] at hsize ⊢
    have hlcpos := List.length_pos_iff.mpr hlc
    have hrcpos := List.length_pos_iff.mpr hrc
    obtain ⟨n, hn⟩ : ∃ n, n = min lc.length rc.length := ⟨_, rfl⟩
    have htakel : (lc ++ lhs').take n = lc.take n := List.take_append_of_le_length (by omega)
    have htaker : (rc ++ rhs').take n = rc.take n := List.take_append_of_le_length (by omega)
    have hdropl : (lc ++ lhs').drop n = lc.drop n ++ lhs' := List.drop_append_of_le_length (by omega)
    have hdropr : (rc ++ rhs').drop n = rc.drop n ++ rhs' := List.drop_append_of_le_length (by omega)
    simp only [List.length_append] at hsize
    simp only [compareLoop, hrunl, hrunr, ok_bind, ← hn, Bool.not_true, Bool.false_eq_true, if_false]
    have hsplit := compareBytes_take (a := lc ++ lhs') (b := rc ++ rhs') (show n ≤ size by omega)
      (by rw [List.length_append]; omega) (by rw [List.length_append]; omega)
    rw [hsplit, htakel, htaker, hdropl, hdropr]
    by_cases hne : compareBytes (lc.take n) (rc.take n) ≠ .eq
    · simp only [if_pos hne]
      rfl
    · simp only [if_neg hne]
      by_cases hz : size - n = 0
      · simp only [hz, if_true, List.take_zero]
        rfl
      · rw [if_neg hz]
        exact ih hl' hr' (by simp only [List.length_append, List.length_drop]; omega) (by omega)
          (by omega)

/-- The slow path compares what is left of the first `size` bytes, from any point in both first
chunks. -/
private theorem compareSlowPath_spec {c : Cord Rep} {rhs : CordLike} {n size : ℕ} (hc : c.Valid)
    (hr : rhs.Valid) (hsize : size = min c.bytes.length rhs.bytes.length) (hlt : n < size)
    (hn : ∀ chunk, c.firstChunk = .ok chunk → n ≤ chunk.length)
    (hn' : ∀ chunk, rhs.firstChunk = .ok chunk → n ≤ chunk.length) :
    c.compareSlowPath rhs n size = .ok (compareBytes ((c.bytes.drop n).take (size - n))
      ((rhs.bytes.drop n).take (size - n))) := by
  obtain ⟨it, hnew, hrest, hfirst⟩ := firstChunk_new hc
  obtain ⟨cs, chunk', hchunks, -, -, hfirst', hcase'⟩ := rhs.chunks_spec hr
  have hle := hn _ hfirst
  have hle' := hn' _ hfirst'
  rcases hrest.nextChunk_eq with ⟨hnil, -⟩ | ⟨it', rest, hnext, -, heq, hrest'⟩
  · rw [hnil] at hsize
    simp at hsize
    omega
  rcases hcase' with ⟨hnil, -⟩ | ⟨cs', rest', hnext', -, heq', hd'⟩
  · rw [hnil] at hsize
    simp at hsize
    omega
  rw [heq, heq'] at hsize ⊢
  simp only [List.length_append] at hsize
  rw [List.drop_append_of_le_length hle, List.drop_append_of_le_length hle']
  simp only [compareSlowPath, hnew, hchunks, hnext, hnext', ok_bind, Option.getD_some, chunkFrom,
    if_pos hle, if_pos hle']
  exact compareLoop_spec hrest' hd' (by simp only [List.length_append, List.length_drop]; omega)
    (by omega) (by omega)

/-- Comparing a prefix agrees with the bytes, however much the first chunks decide. -/
private theorem comparePrefix_spec {c : Cord Rep} {rhs : CordLike} {size : ℕ} (hc : c.Valid)
    (hr : rhs.Valid) (hsize : size = min c.bytes.length rhs.bytes.length) :
    c.comparePrefix rhs size = .ok (compareBytes (c.bytes.take size) (rhs.bytes.take size)) := by
  obtain ⟨chunk, hfirst, ⟨rest, heq⟩, -⟩ := firstChunk_spec hc
  obtain ⟨chunk', hfirst', ⟨rest', heq'⟩⟩ : ∃ chunk, rhs.firstChunk = .ok chunk ∧
      chunk <+: rhs.bytes := by
    cases rhs with
    | cord c => exact (firstChunk_spec hr).imp fun _ h ↦ ⟨h.1, h.2.1⟩
    | slice bs => exact ⟨bs, rfl, List.prefix_refl _⟩
  obtain ⟨n, hn⟩ : ∃ n, n = min chunk.length chunk'.length := ⟨_, rfl⟩
  have hlen := congrArg List.length heq
  have hlen' := congrArg List.length heq'
  rw [List.length_append] at hlen hlen'
  have htake : c.bytes.take n = chunk.take n := by
    rw [← heq, List.take_append_of_le_length (by omega)]
  have htake' : rhs.bytes.take n = chunk'.take n := by
    rw [← heq', List.take_append_of_le_length (by omega)]
  rw [compareBytes_take (n := n) (by omega) (by omega) (by omega), htake, htake']
  simp only [comparePrefix, hfirst, hfirst', ok_bind, ← hn]
  by_cases hne : compareBytes (chunk.take n) (chunk'.take n) ≠ .eq
  · rw [if_pos (.inr hne), if_pos hne]
    rfl
  · rw [if_neg hne]
    by_cases hdone : n = size
    · rw [if_pos (.inl hdone), hdone, Nat.sub_self, List.take_zero, List.take_zero, ← hdone,
        not_not.mp hne]
      rfl
    · rw [if_neg (not_or.mpr ⟨hdone, hne⟩)]
      refine compareSlowPath_spec hc hr hsize (by omega) ?_ ?_
      · rw [hfirst]
        rintro _ ⟨rfl⟩
        omega
      · rw [hfirst']
        rintro _ ⟨rfl⟩
        omega

private theorem compareSizes_spec {c : Cord Rep} {rhs : CordLike} (hc : c.Valid) (hr : rhs.Valid) :
    c.compareSizes rhs = .ok (compareBytes c.bytes rhs.bytes) := by
  have hpre := fun size ↦ @comparePrefix_spec _ c rhs size hc hr
  simp only [compareSizes, Cord.len_eq hc, CordLike.len_eq hr]
  rcases Nat.lt_trichotomy c.bytes.length rhs.bytes.length with hlt | heq | hgt
  · rw [if_neg hlt.ne, if_pos hlt, hpre _ (by omega), ok_bind, compareBytes_of_length_lt hlt]
    rfl
  · rw [if_pos heq, hpre _ (by omega), List.take_length, heq, List.take_length]
  · rw [if_neg hgt.ne', if_neg (by omega), hpre _ (by omega), ok_bind,
      ← compareBytes_swap rhs.bytes c.bytes, compareBytes_of_length_lt hgt,
      ← compareBytes_swap (rhs.bytes.take _)]
    cases compareBytes (rhs.bytes.take _) (c.bytes.take _) <;> rfl

end Walk

/-! ### Comparisons -/

section Comparisons

variable [Target] {h : Heap Node} {c : Cord Rep} {rhs : CordLike}

omit [Target] in
/-- Handles that are the same denote the same bytes. -/
theorem bytes_eq_of_isSame {a b : Cord Rep} (ha : a.Held h) (hb : b.Held h)
    (h : a.isSame b = true) : a.bytes = b.bytes := by
  match a, b with
  | inline a, inline b =>
    simp only [isSame, InlineData.isSame, decide_eq_true_iff] at h
    simp only [bytes, source, Source.bytes, InlineData.inlineSlice, h.1, h.2]
  | tree s, tree t =>
    simp only [isSame, decide_eq_true_iff] at h
    rw [ha.unique hb h]
  | inline a, tree t => simp [isSame] at h
  | tree s, inline b => simp [isSame] at h

/-- The order of two sides that one heap holds is that of their bytes. -/
theorem compare_eq (hc : c.Valid) (hr : rhs.Valid) (hch : c.Held h) (hrh : rhs.Held h) :
    c.compare rhs = .ok (compareBytes c.bytes rhs.bytes) := by
  cases rhs with
  | slice bs => exact compareSizes_spec hc hr
  | cord b =>
    by_cases hsame : c.isSame b = true
    · simp only [compare, hsame, if_true, bytes_eq_of_isSame hch hrh hsame, CordLike.bytes,
        compareBytes_self]
    · match c, b with
      | inline x, inline y =>
        rw [compare, if_neg hsame, hc.2, hr.2, InlineData.compare_ofBytes hc.length_le hr.length_le]
        simp [bytes, source, Source.bytes, CordLike.bytes]
      | tree s, b =>
        simp only [compare, if_neg hsame]
        exact compareSizes_spec hc hr
      | inline x, tree t =>
        simp only [compare, if_neg hsame]
        exact compareSizes_spec hc hr

/-- Equality is that of the bytes. -/
theorem equals_eq (hc : c.Valid) (hr : rhs.Valid) (hch : c.Held h) (hrh : rhs.Held h) :
    c.equals rhs = .ok (decide (c.bytes = rhs.bytes)) := by
  simp only [equals, len_eq hc, CordLike.len_eq hr]
  by_cases hlen : c.bytes.length = rhs.bytes.length
  · have hcmp : c.comparePrefix rhs rhs.bytes.length =
        .ok (compareBytes c.bytes rhs.bytes) := by
      rw [comparePrefix_spec hc hr (by omega), List.take_length, List.take_of_length_le hlen.le]
    have hdecide : decide (compareBytes c.bytes rhs.bytes = .eq) = decide (c.bytes = rhs.bytes) :=
      decide_eq_decide.mpr compareBytes_eq_iff
    rw [if_neg (not_not.mpr hlen)]
    cases rhs with
    | slice bs =>
      simp only [hcmp, ok_bind, hdecide]
      rfl
    | cord b =>
      by_cases hsame : c.isSame b = true
      · simp only [hsame, if_true, CordLike.bytes, bytes_eq_of_isSame hch hrh hsame, decide_true]
        rfl
      · simp only [if_neg hsame, hcmp, ok_bind, hdecide]
        rfl
  · rw [if_pos hlen, decide_eq_false fun heq ↦ hlen (congrArg _ heq)]
    rfl

/-- Whether the right-hand side is a prefix is decided by the bytes. -/
theorem startsWith_eq (hc : c.Valid) (hr : rhs.Valid) :
    c.startsWith rhs = .ok (decide (rhs.bytes <+: c.bytes)) := by
  simp only [startsWith, len_eq hc, CordLike.len_eq hr]
  by_cases hlt : c.bytes.length < rhs.bytes.length
  · rw [if_pos hlt, decide_eq_false fun hp ↦ hlt.not_ge hp.length_le]
    rfl
  · rw [if_neg hlt, comparePrefix_spec hc hr (by omega), List.take_length, ok_bind]
    congr 1
    refine decide_eq_decide.mpr ?_
    rw [compareBytes_eq_iff, List.prefix_iff_eq_take, eq_comm]

end Comparisons

/-! ### Suffixes -/

section Suffix

variable [Target] {c : Cord Rep} {rhs : CordLike}

/-- Advancing within what is left drops that much of it. -/
theorem advanceBytes_rest {it : ForwardChunks} {bs : Bytes} {n : ℕ} (hr : it.Rest bs)
    (hn : n ≤ bs.length) : ∃ it', it.advanceBytes n = .ok it' ∧ it'.Rest (bs.drop n) := by
  have hlen := hr.length_eq
  obtain ⟨src, pos, hs, hi, rfl⟩ := hr
  obtain ⟨it', hrun, hi'⟩ := ForwardChunks.advanceBytes_spec hi hs (hn.trans hlen.le)
  exact ⟨it', hrun, src, pos + n, hs, hi', by rw [List.drop_drop]⟩

/-- Matching a chunk succeeds exactly when it is a prefix of what is left, and consumes it. -/
private theorem matchChunk_spec {fuel : ℕ} {it : ForwardChunks} {hay chunk : Bytes}
    (hr : it.Rest hay) (hfuel : chunk.length ≤ fuel) :
    (∃ it' rest, matchChunk fuel it chunk = .ok (some it') ∧ hay = chunk ++ rest ∧ it'.Rest rest) ∨
      (matchChunk fuel it chunk = .ok none ∧ ¬ chunk <+: hay) := by
  induction fuel generalizing it hay chunk with
  | zero =>
    obtain rfl := List.eq_nil_of_length_eq_zero (Nat.le_zero.mp hfuel)
    exact .inl ⟨it, hay, rfl, rfl, hr⟩
  | succ fuel ih =>
    by_cases hchunk : chunk = []
    · refine .inl ⟨it, hay, ?_, by rw [hchunk, List.nil_append], hr⟩
      simp only [matchChunk, if_pos hchunk]
      rfl
    have hpos := List.length_pos_iff.mpr hchunk
    rcases hr.nextChunk_eq with ⟨rfl, hnil⟩ | ⟨-, rest, -, hne, heq, -⟩
    · refine .inr ⟨?_, fun hp ↦ hchunk (List.prefix_nil.mp hp)⟩
      simp only [matchChunk, if_neg hchunk, if_pos hnil]
      rfl
    obtain ⟨cur, hcur⟩ : ∃ cur, cur = it.currentChunk := ⟨_, rfl⟩
    rw [← hcur] at hne heq
    have hcpos := List.length_pos_iff.mpr hne
    obtain ⟨n, hn⟩ : ∃ n, n = min cur.length chunk.length := ⟨_, rfl⟩
    have hhay : cur.take n = hay.take n := by
      rw [heq, List.take_append_of_le_length (by omega)]
    have hle : n ≤ hay.length := by
      rw [heq, List.length_append]
      omega
    by_cases hcmp : cur.take n = chunk.take n
    · obtain ⟨it', hrun, hr'⟩ := advanceBytes_rest hr hle
      have hrest : matchChunk (fuel + 1) it chunk = matchChunk fuel it' (chunk.drop n) := by
        simp only [matchChunk, if_neg hchunk, ← hcur, if_neg hne, ← hn, hcmp, ne_eq,
          not_true_eq_false, if_false, hrun, ok_bind]
      have happ : hay = chunk.take n ++ hay.drop n := by
        rw [← hcmp, hhay, List.take_append_drop]
      rw [hrest]
      have hshort : (chunk.drop n).length ≤ fuel := by
        rw [List.length_drop]
        omega
      rcases ih hr' hshort with
        ⟨it'', rest', hrun', heq', hr''⟩ | ⟨hrun', hnot⟩
      · refine .inl ⟨it'', rest', hrun', ?_, hr''⟩
        rw [happ, heq', ← List.append_assoc, List.take_append_drop]
      · refine .inr ⟨hrun', fun hp ↦ hnot ?_⟩
        obtain ⟨tail, rfl⟩ := hp
        rw [List.drop_append_of_le_length (by omega)]
        exact List.prefix_append _ _
    · refine .inr ⟨?_, fun hp ↦ hcmp ?_⟩
      · simp only [matchChunk, if_neg hchunk, ← hcur, if_neg hne, ← hn, ne_eq, hcmp,
          not_false_iff, if_true]
        rfl
      · obtain ⟨tail, rfl⟩ := hp
        rw [hhay, List.take_append_of_le_length (by omega)]

/-- The chunks of the needle are matched one after the other. -/
theorem isSubcordAt_spec {it : ForwardChunks} {cs : Chunks} {hay needle : Bytes}
    (hr : it.Rest hay) (hd : cs.Denotes needle) :
    isSubcordAt it cs = .ok (decide (needle <+: hay)) := by
  have hbody : ∀ seen chunk rest s, needle = seen ++ chunk ++ rest → chunk ≠ [] →
      (∃ it' left, s = some it' ∧ hay = seen ++ left ∧ it'.Rest left) →
      (∃ s', subcordChunk s chunk = .ok (.yield s') ∧
        ∃ it' left, s' = some it' ∧ hay = seen ++ chunk ++ left ∧ it'.Rest left) ∨
      ∃ s', subcordChunk s chunk = .ok (.done s') ∧ s'.isSome = decide (needle <+: hay) := by
    rintro seen chunk rest _ rfl - ⟨it', left, rfl, rfl, hr'⟩
    rcases matchChunk_spec hr' (le_refl chunk.length) with
      ⟨it'', rest', hrun, rfl, hr''⟩ | ⟨hrun, hnot⟩
    · refine .inl ⟨some it'', ?_, it'', rest', rfl, by rw [List.append_assoc], hr''⟩
      simp only [subcordChunk, hrun, ok_bind]
      rfl
    · refine .inr ⟨none, ?_, ?_⟩
      · simp only [subcordChunk, hrun, ok_bind]
        rfl
      · rw [Option.isSome_none, eq_comm, decide_eq_false_iff_not, List.append_assoc,
          List.prefix_append_right_inj]
        exact fun hp ↦ hnot ((List.prefix_append chunk rest).trans hp)
  obtain ⟨s, hrun, hs⟩ := forNext_spec Chunks.yields_next subcordChunk _ _ hbody
    (by
      rintro _ ⟨it', left, rfl, rfl, -⟩
      simp) (List.nil_append _).symm hd ⟨it, hay, rfl, rfl, hr⟩
    (Nat.lt_succ_of_le hd.length_eq.le)
  simp only [isSubcordAt, hrun, ok_bind, hs]
  rfl

/-- Whether the right-hand side is a suffix is decided by the bytes. -/
theorem endsWith_eq (hc : c.Valid) (hr : rhs.Valid) :
    c.endsWith rhs = .ok (decide (rhs.bytes <:+ c.bytes)) := by
  simp only [endsWith, len_eq hc, CordLike.len_eq hr]
  by_cases hlt : c.bytes.length < rhs.bytes.length
  · rw [if_pos hlt, decide_eq_false fun hp ↦ hlt.not_ge hp.length_le]
    rfl
  obtain ⟨it, hnew, hrest⟩ := ForwardChunks.new_rest hc.source
  obtain ⟨it', hrun, hrest'⟩ := advanceBytes_rest hrest
    (Nat.sub_le c.bytes.length rhs.bytes.length)
  -- A prefix of that many last bytes is all of them.
  have hiff : rhs.bytes <+: c.bytes.drop (c.bytes.length - rhs.bytes.length) ↔
      rhs.bytes <:+ c.bytes := by
    rw [List.suffix_iff_eq_drop]
    constructor
    · intro hp
      exact hp.eq_of_length (by rw [List.length_drop]; omega)
    · intro heq
      rw [← heq]
  rw [if_neg hlt]
  simp only [hnew, ok_bind, hrun, ← decide_eq_decide.mpr hiff]
  cases hsingle : rhs.singleChunk with
  | some chunk =>
    obtain rfl := CordLike.singleChunk_spec hsingle
    rcases matchChunk_spec hrest' (le_refl rhs.bytes.length) with
      ⟨it'', rest, hmatch, heq, -⟩ | ⟨hmatch, hnot⟩
    · simp only [hmatch, ok_bind, heq, List.prefix_append, decide_true]
      rfl
    · simp only [hmatch, ok_bind, decide_eq_false hnot]
      rfl
  | none =>
    obtain ⟨cs, -, hchunks, hd, -⟩ := rhs.chunks_spec hr
    simp only [hchunks, ok_bind]
    exact isSubcordAt_spec hrest' hd

end Suffix

/-! ### Agreement -/

section Agreement

variable [Target] {h : Heap Node}

/-- Every comparison with a right-hand side is that of the bytes, and the shortcuts return what
the walk over all chunks returns. -/
structure Agrees (c : Cord Rep) (rhs : CordLike) : Prop where
  compare : c.compare rhs = .ok (compareBytes c.bytes rhs.bytes)
  equals : c.equals rhs = .ok (decide (c.bytes = rhs.bytes))
  startsWith : c.startsWith rhs = .ok (decide (rhs.bytes <+: c.bytes))
  endsWith : c.endsWith rhs = .ok (decide (rhs.bytes <:+ c.bytes))
  sizes : c.compareSizes rhs = c.compare rhs
  slow : ∀ size, size = min c.len rhs.len → 0 < size →
    c.compareSlowPath rhs 0 size = c.comparePrefix rhs size

private theorem agrees {c : Cord Rep} {rhs : CordLike} (hc : c.Valid) (hr : rhs.Valid)
    (hch : c.Held h) (hrh : rhs.Held h) : c.Agrees rhs where
  compare := compare_eq hc hr hch hrh
  equals := equals_eq hc hr hch hrh
  startsWith := startsWith_eq hc hr
  endsWith := endsWith_eq hc hr
  sizes := by rw [compareSizes_spec hc hr, compare_eq hc hr hch hrh]
  slow size hsize hpos := by
    rw [len_eq hc, CordLike.len_eq hr] at hsize
    rw [comparePrefix_spec hc hr hsize, compareSlowPath_spec hc hr hsize hpos
      (fun _ _ ↦ Nat.zero_le _) (fun _ _ ↦ Nat.zero_le _), List.drop_zero, List.drop_zero,
      Nat.sub_zero]

/-- Comparisons agree with the bytes, for a cord or a slice on the right, and their order is the
lexicographic one of unsigned bytes: antisymmetric, transitive and equal exactly on equal sides. -/
theorem comparisons_agree {a b c : Cord Rep} (ha : a.Valid) (hb : b.Valid) (hc : c.Valid)
    (hah : a.Held h) (hbh : b.Held h) (hch : c.Held h) (bs : Bytes) :
    a.Agrees (.cord b) ∧ a.Agrees (.slice bs) ∧
      (a.compare (.cord b) = .ok .lt ↔
        List.Lex (fun x y : UInt8 ↦ x.toNat < y.toNat) a.bytes b.bytes) ∧
      (∃ o, a.compare (.cord b) = .ok o ∧ b.compare (.cord a) = .ok o.swap ∧
        (o = .eq ↔ a.equals (.cord b) = .ok true)) ∧
      ∀ o₁ o₂, a.compare (.cord b) = .ok o₁ → b.compare (.cord c) = .ok o₂ → o₁ ≠ .gt → o₂ ≠ .gt →
        ∃ o, a.compare (.cord c) = .ok o ∧ o ≠ .gt ∧ (o = .eq → o₁ = .eq ∧ o₂ = .eq) := by
  have cmp {x y : Cord Rep} (hx : x.Valid) (hy : y.Valid) (hxh : x.Held h) (hyh : y.Held h) :
      x.compare (.cord y) = .ok (compareBytes x.bytes y.bytes) := compare_eq hx hy hxh hyh
  have hab := cmp ha hb hah hbh
  have hbc := cmp hb hc hbh hch
  have hslice : a.Agrees (.slice bs) := agrees ha trivial hah trivial
  refine ⟨agrees ha hb hah hbh, hslice, ?_, ?_, ?_⟩
  · rw [hab, Except.ok.injEq]
    exact compareBytes_eq_lt_iff
  · refine ⟨_, hab, ?_, ?_⟩
    · rw [cmp hb ha hbh hah]
      exact congrArg _ (compareBytes_swap _ _).symm
    · have heq : a.equals (.cord b) = .ok (decide (a.bytes = b.bytes)) := equals_eq ha hb hah hbh
      rw [compareBytes_eq_iff, heq, Except.ok.injEq, decide_eq_true_iff]
  · rintro o₁ o₂ h₁ h₂ hle₁ hle₂
    rw [hab, Except.ok.injEq] at h₁
    rw [hbc, Except.ok.injEq] at h₂
    subst h₁ h₂
    exact ⟨_, cmp ha hc hah hch, compareBytes_trans hle₁ hle₂⟩

end Agreement

/-- Inline bytes, a flat with the same bytes and a btree that shares the flat. -/
theorem comparisons_agree_shared_flat :
    letI : Target := ⟨64, .inr rfl⟩
    Agrees (.inline (.ofBytes [1, 2])) (.cord (.tree (.leaf (.whole 0 (.flat 6 [1, 2]))))) ∧
      Agrees (.inline (.ofBytes [1, 2])) (.slice [1, 3]) :=
  letI : Target := ⟨64, .inr rfl⟩
  let flat : Edge := .whole 0 (.flat 6 [1, 2])
  have hflat : flat.Valid := ⟨by decide, by decide, by decide, by decide⟩
  have h := comparisons_agree (h := ⟨[some ⟨3, flat.node⟩, some ⟨1, .btree ⟨4, 0, 0, [0, 0]⟩⟩]⟩)
    (a := .inline (.ofBytes [1, 2])) (b := .tree (.leaf flat))
    (c := .tree (.node ⟨1, 4, 0, 0⟩ [.leaf flat, .leaf flat]))
    (InlineData.wellFormed_ofBytes (by decide)) ⟨0, by decide, Rep.Valid.leaf_iff.mpr ⟨rfl, hflat⟩⟩
    ⟨1, by decide, Rep.Valid.node_iff.mpr ⟨rfl, by simp, by decide, rfl, by simp [hflat]⟩⟩
    trivial (Rep.held_leaf.mpr ⟨rfl, rfl⟩)
    (Rep.held_node.mpr ⟨rfl, by simp; exact ⟨rfl, rfl⟩⟩) [1, 3]
  ⟨h.1, h.2.1⟩

end Cord

end CordRs
