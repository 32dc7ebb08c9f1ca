import CordRs.Iter.Loop

/-!
# Reading a cord

The read paths of a cord, each with its own traversal: the length, the first chunk, the single
contiguous buffer if there is one, copying to a buffer, the byte at an index and the iterator over
bytes. On a valid cord they all agree with its bytes.

## Main definitions

* `CordRs.Cord.Valid`, `CordRs.Cord.len`, `CordRs.Cord.firstChunk`, `CordRs.Cord.asContiguous`.
* `CordRs.Cord.copyToUninit`, `CordRs.Cord.toVec`, `CordRs.Cord.copyPrefixTo`,
  `CordRs.Cord.getByte`, `CordRs.BytesIter`.

## Main results

* `CordRs.Cord.len_eq`, `CordRs.Cord.firstChunk_spec`, `CordRs.Cord.asContiguous_spec`,
  `CordRs.Cord.toVec_spec`, `CordRs.Cord.copyPrefixTo_spec`, `CordRs.Cord.getByte_spec`,
  `CordRs.BytesIter.collect_spec`.
-/

namespace CordRs

open RefHeap

namespace Cord

/-- Inline data is well formed and a tree is valid and not too high. -/
def Valid [Target] : Cord Rep → Prop
  | inline d => d.WellFormed
  | tree t => ∃ k ≤ maxDepth, t.Valid k

/-- The length of a cord. -/
def len : Cord Rep → ℕ
  | inline d => d.size
  | tree t => t.length

/-- Whether a cord is not inline. -/
def isTree : Cord Rep → Bool
  | inline _ => false
  | tree _ => true

/-- The first data edge of a btree node. -/
def firstData : ℕ → Rep → Except Fault Bytes
  | _, .leaf _ => .error .unreachable
  | 0, .node hd es => do
    let e ← asDataEdge (← (outerLevel false hd es).edge)
    pure e.data
  | height + 1, .node hd es => do firstData height (← (outerLevel false hd es).edge)

/-- The first chunk of a cord. -/
def firstChunk : Cord Rep → Except Fault Bytes
  | inline d => .ok d.inlineSlice
  | tree (.leaf e) => .ok e.data
  | tree (.node hd es) => firstData hd.height (.node hd es)

/-- The bytes of a tree that is a single contiguous buffer. -/
def getFlatAux : Rep → Option Bytes
  | .leaf e => some e.data
  | .node hd [.leaf e] => if hd.height = 0 then some e.data else none
  | .node _ _ => none

/-- The bytes of a cord if it is a single contiguous buffer. -/
def asContiguous : Cord Rep → Option Bytes
  | inline d => some d.inlineSlice
  | tree t => getFlatAux t

/-- Copy a chunk to `dst` at an offset, which must leave room for it, and move the offset. -/
def copyChunk (s : Bytes × ℕ) (chunk : Bytes) : Except Fault (ForInStep (Bytes × ℕ)) :=
  if s.2 + chunk.length ≤ s.1.length then
    .ok (.yield (writeAt s.1 s.2 chunk, s.2 + chunk.length))
  else
    .error (.panic "mid > len")

/-- Copy all bytes to the front of `dst`, which must have room for them. -/
def copyToUninit (c : Cord Rep) (dst : Bytes) : Except Fault Bytes := do
  match c.asContiguous with
  | some chunk => pure (writeAt dst 0 chunk)
  | none =>
    let it ← ForwardChunks.new c
    let (dst, _) ← forNext ForwardChunks.nextChunk copyChunk (it.bytesRemaining + 1) it (dst, 0)
    pure dst

/-- Copy all bytes to a vector whose spare capacity is `spare`. -/
def toVec (c : Cord Rep) (spare : Bytes) : Except Fault Bytes := do
  let vec ← c.copyToUninit spare
  pure (vec.take c.len)

/-- Copy as much of a chunk as fits to `dst` at an offset, and stop once nothing fits. -/
def copyPrefixChunk (s : Bytes × ℕ) (chunk : Bytes) : Except Fault (ForInStep (Bytes × ℕ)) :=
  let n := min chunk.length (s.1.length - s.2)
  if n = 0 then
    .ok (.done s)
  else
    .ok (.yield (writeAt s.1 s.2 (chunk.take n), s.2 + n))

/-- Copy as many bytes as fit to the front of `dst` and return their number. -/
def copyPrefixTo (c : Cord Rep) (dst : Bytes) : Except Fault (Bytes × ℕ) := do
  match c.asContiguous with
  | some flat =>
    let n := min flat.length dst.length
    pure (writeAt dst 0 (flat.take n), n)
  | none =>
    let result := min c.len dst.length
    let it ← ForwardChunks.new c
    let (dst, _) ←
      forNext ForwardChunks.nextChunk copyPrefixChunk (it.bytesRemaining + 1) it (dst, 0)
    pure (dst, result)

/-- The byte at an offset of a btree node. -/
def byteAt : ℕ → Rep → ℕ → Except Fault UInt8
  | _, .leaf _, _ => .error .unreachable
  | 0, .node hd es, offset => do
    let front ← indexOf hd.begin (es.map Rep.length) offset
    let e ← asDataEdge (← (⟨hd, es, front.index⟩ : Level).edge)
    match e.data[front.n]? with
    | some byte => pure byte
    | none => .error (.panic "index out of bounds")
  | height + 1, .node hd es, offset => do
    let front ← indexOf hd.begin (es.map Rep.length) offset
    byteAt height (← (⟨hd, es, front.index⟩ : Level).edge) front.n

/-- The byte at an index, which must be less than the length. -/
def byteRef : Cord Rep → ℕ → Except Fault UInt8
  | inline d, index =>
    match d.inlineSlice[index]? with
    | some byte => .ok byte
    | none => .error (.panic "index out of bounds")
  | tree (.node hd es), index => byteAt hd.height (.node hd es) index
  | tree (.leaf e), index =>
    match e.base.2.data[index + e.start]? with
    | some byte => .ok byte
    | none => .error (.panic "index out of bounds")

/-- The byte at an index, if there is one. -/
def getByte (c : Cord Rep) (index : ℕ) : Except Fault (Option UInt8) := do
  if c.len ≤ index then pure none else pure (some (← c.byteRef index))

section Spec

variable [Target] {c : Cord Rep}

theorem Valid.source (hc : c.Valid) : c.source.Valid := by
  match c with
  | inline d => trivial
  | tree t => exact hc

theorem len_eq (hc : c.Valid) : c.len = c.bytes.length := by
  match c with
  | inline d => exact hc.length_inlineSlice.symm
  | tree t =>
    obtain ⟨k, -, hv⟩ := hc
    exact hv.length_bytes.symm

theorem firstData_spec {t : Rep} {h : ℕ} (ht : t.Valid (h + 1)) :
    ∃ e rest, firstData h t = .ok e.data ∧ t.leaves = e :: rest := by
  induction h generalizing t with
  | zero =>
    obtain ⟨hd, es, rfl⟩ := ht.exists_node
    obtain ⟨hk, hne, -, -, hes⟩ := Rep.Valid.node_iff.mp ht
    obtain ⟨s, ss, rfl⟩ := List.exists_cons_of_ne_nil hne
    obtain ⟨e, rfl, -⟩ := Rep.Valid.zero_iff.mp (Nat.add_right_cancel hk ▸ hes s List.mem_cons_self)
    refine ⟨e, ss.flatMap RoseTree.leaves, ?_, by simp⟩
    simp only [firstData, Level.edge_of_eq (show (outerLevel false hd (.leaf e :: ss)).edges =
      [] ++ .leaf e :: ss from rfl) rfl, ok_bind]
    rfl
  | succ h ih =>
    obtain ⟨hd, es, rfl⟩ := ht.exists_node
    obtain ⟨hk, hne, -, -, hes⟩ := Rep.Valid.node_iff.mp ht
    obtain ⟨s, ss, rfl⟩ := List.exists_cons_of_ne_nil hne
    obtain ⟨e, rest, hrun, hleaves⟩ := ih (Nat.add_right_cancel hk ▸ hes s List.mem_cons_self)
    refine ⟨e, rest ++ ss.flatMap RoseTree.leaves, ?_, by simp [hleaves]⟩
    simp only [firstData, Level.edge_of_eq (show (outerLevel false hd (s :: ss)).edges =
      [] ++ s :: ss from rfl) rfl, ok_bind, hrun]

/-- The first chunk is a prefix of the bytes, empty only if they are. -/
theorem firstChunk_spec (hc : c.Valid) :
    ∃ chunk, c.firstChunk = .ok chunk ∧ chunk <+: c.bytes ∧ (chunk = [] → c.bytes = []) := by
  match c with
  | inline d => exact ⟨_, rfl, List.prefix_refl _, id⟩
  | tree (.leaf e) =>
    refine ⟨e.data, rfl, ?_, fun hnil ↦ absurd hnil (Source.Valid.leaf hc).data_ne_nil⟩
    simp [bytes, source, Source.bytes]
  | tree (.node hd es) =>
    have hv := (Source.Valid.node hc).1
    obtain ⟨e, rest, hrun, hleaves⟩ := firstData_spec hv
    have he : e.Valid := hv.leaves_valid e (by rw [hleaves]; simp)
    refine ⟨e.data, hrun, ⟨rest.flatMap Edge.data, ?_⟩, fun hnil ↦ absurd hnil he.data_ne_nil⟩
    simp [bytes, source, Source.bytes, Rep.bytes, hleaves]

omit [Target] in
/-- A single contiguous buffer holds the bytes of the cord. -/
theorem asContiguous_spec {flat : Bytes} (hf : c.asContiguous = some flat) : flat = c.bytes := by
  match c with
  | inline d => exact (Option.some.inj hf).symm
  | tree t =>
    rw [asContiguous] at hf
    cases t with
    | leaf e =>
      rw [getFlatAux] at hf
      rw [← Option.some.inj hf, bytes, source, Source.bytes, Rep.bytes_leaf]
    | node hd es =>
      obtain _ | ⟨_ | _, _ | _⟩ := es
      case cons.leaf.nil e =>
        rw [getFlatAux] at hf
        split_ifs at hf
        rw [← Option.some.inj hf]
        simp [bytes, source, Source.bytes]
      all_goals simp [getFlatAux] at hf

omit [Target] in
/-- Writing behind a prefix that is already there. -/
theorem writeAt_snoc (seen chunk dst : Bytes) :
    writeAt (writeAt dst 0 seen) seen.length chunk = writeAt dst 0 (seen ++ chunk) := by
  simp only [writeAt, List.take_zero, List.nil_append, Nat.zero_add, List.length_append]
  rw [List.take_left, ← List.drop_drop, List.drop_left, List.drop_drop, List.append_assoc]

omit [Target] in
private theorem copyChunk_spec {all seen chunk rest dst : Bytes}
    (hall : all = seen ++ chunk ++ rest) (hlen : all.length ≤ dst.length) :
    copyChunk (writeAt dst 0 seen, seen.length) chunk =
      .ok (.yield (writeAt dst 0 (seen ++ chunk), (seen ++ chunk).length)) := by
  have hle : seen.length + chunk.length ≤ dst.length := by
    rw [hall] at hlen
    simp only [List.length_append] at hlen
    omega
  simp only [copyChunk]
  rw [length_writeAt (by omega), if_pos hle, writeAt_snoc, List.length_append]

/-- All bytes are written to the front, and nothing else. -/
theorem copyToUninit_spec {dst : Bytes} (hc : c.Valid) (hlen : c.bytes.length ≤ dst.length) :
    c.copyToUninit dst = .ok (writeAt dst 0 c.bytes) := by
  cases hf : c.asContiguous with
  | some flat =>
    simp only [copyToUninit, hf, asContiguous_spec hf]
    rfl
  | none =>
    obtain ⟨it, hnew, hrest⟩ := ForwardChunks.new_rest hc.source
    have hbody : ∀ seen chunk rest s, c.bytes = seen ++ chunk ++ rest → chunk ≠ [] →
        s = (writeAt dst 0 seen, seen.length) → (∃ s', copyChunk s chunk = .ok (.yield s') ∧
          s' = (writeAt dst 0 (seen ++ chunk), (seen ++ chunk).length)) ∨
          ∃ s', copyChunk s chunk = .ok (.done s') ∧ s'.1 = writeAt dst 0 c.bytes := by
      rintro seen chunk rest _ hall - rfl
      exact .inl ⟨_, copyChunk_spec hall hlen, rfl⟩
    have hinit : (dst, 0) = (writeAt dst 0 [], ([] : Bytes).length) := by simp [writeAt]
    obtain ⟨s, hrun, hs⟩ := forNext_spec ForwardChunks.yields_nextChunk copyChunk _ _ hbody
      (by rintro _ rfl; rfl) (List.nil_append _).symm hrest hinit
      (Nat.lt_succ_of_le hrest.length_eq.le)
    simp only [copyToUninit, hf, hnew, ok_bind, hrun, ← hs]
    rfl

theorem toVec_spec {spare : Bytes} (hc : c.Valid) (hlen : c.len ≤ spare.length) :
    c.toVec spare = .ok c.bytes := by
  rw [len_eq hc] at hlen
  rw [toVec, copyToUninit_spec hc hlen, ok_bind, len_eq hc, writeAt]
  simp [pure, Except.pure]

/-- The front of `dst` after a prefix of the bytes was seen, and the offset reached. -/
private def prefixState (dst seen : Bytes) : Bytes × ℕ :=
  (writeAt dst 0 (seen.take (min seen.length dst.length)), min seen.length dst.length)

omit [Target] in
private theorem copyPrefixChunk_spec (dst : Bytes) {all seen chunk rest : Bytes}
    (hall : all = seen ++ chunk ++ rest) (hne : chunk ≠ []) :
    copyPrefixChunk (prefixState dst seen) chunk =
        .ok (.yield (prefixState dst (seen ++ chunk))) ∨
      (copyPrefixChunk (prefixState dst seen) chunk = .ok (.done (prefixState dst seen)) ∧
        prefixState dst seen = prefixState dst all) := by
  have hpos := List.length_pos_iff.mpr hne
  have hw : (writeAt dst 0 (seen.take (min seen.length dst.length))).length = dst.length :=
    length_writeAt (by simp)
  simp only [copyPrefixChunk, prefixState, hw]
  by_cases hfull : seen.length < dst.length
  · left
    have hmin : min seen.length dst.length = seen.length := by omega
    have htake : (seen ++ chunk).take (min (seen ++ chunk).length dst.length) =
        seen ++ chunk.take (min chunk.length (dst.length - seen.length)) := by
      rw [List.take_append, List.take_of_length_le (by simp; omega), List.length_append]
      congr 2
      omega
    rw [if_neg (by omega), hmin, List.take_length, writeAt_snoc, htake, List.length_append]
    congr 3
    omega
  · right
    have hlen := congrArg List.length hall
    simp only [List.length_append] at hlen
    have hmin : min seen.length dst.length = dst.length := by omega
    have hmin' : min all.length dst.length = dst.length := by omega
    refine ⟨if_pos (by omega), ?_⟩
    rw [hmin, hmin', hall, List.append_assoc, List.take_append_of_le_length (by omega)]

/-- The bytes that fit are written to the front, and nothing else. -/
theorem copyPrefixTo_spec (hc : c.Valid) (dst : Bytes) :
    c.copyPrefixTo dst = .ok (writeAt dst 0 (c.bytes.take (min c.bytes.length dst.length)),
      min c.bytes.length dst.length) := by
  cases hf : c.asContiguous with
  | some flat =>
    simp only [copyPrefixTo, hf, asContiguous_spec hf]
    rfl
  | none =>
    obtain ⟨it, hnew, hrest⟩ := ForwardChunks.new_rest hc.source
    have hbody : ∀ seen chunk rest s, c.bytes = seen ++ chunk ++ rest → chunk ≠ [] →
        s = prefixState dst seen → (∃ s', copyPrefixChunk s chunk = .ok (.yield s') ∧
          s' = prefixState dst (seen ++ chunk)) ∨
          ∃ s', copyPrefixChunk s chunk = .ok (.done s') ∧ s' = prefixState dst c.bytes := by
      rintro seen chunk rest _ hall hne rfl
      rcases copyPrefixChunk_spec dst hall hne with hrun | ⟨hrun, heq⟩
      · exact .inl ⟨_, hrun, rfl⟩
      · exact .inr ⟨_, hrun, heq⟩
    have hinit : (dst, 0) = prefixState dst [] := by simp [prefixState, writeAt]
    obtain ⟨s, hrun, hs⟩ := forNext_spec ForwardChunks.yields_nextChunk copyPrefixChunk _ _ hbody
      (fun _ h ↦ h) (List.nil_append _).symm hrest hinit (Nat.lt_succ_of_le hrest.length_eq.le)
    simp only [copyPrefixTo, hf, hnew, ok_bind, hrun, hs, len_eq hc]
    rfl

private theorem getElem?_middle {as cs : List Rep} {b : Rep} {k offset : ℕ}
    (has : ∀ a ∈ as, a.Valid k) (hle : (as.map Rep.length).sum ≤ offset)
    (hb : offset - (as.map Rep.length).sum < b.bytes.length) :
    ((as ++ b :: cs).flatMap Rep.bytes)[offset]? = b.bytes[offset - (as.map Rep.length).sum]? := by
  rw [List.flatMap_append, List.flatMap_cons, List.getElem?_append_right, List.getElem?_append_left,
    Rep.length_flatMap_bytes has]
  · rwa [Rep.length_flatMap_bytes has]
  · rwa [Rep.length_flatMap_bytes has]

private theorem byteAt_spec {t : Rep} {h offset : ℕ} (ht : t.Valid (h + 1))
    (hlt : offset < t.length) : ∃ b, byteAt h t offset = .ok b ∧ t.bytes[offset]? = some b := by
  induction h generalizing t offset with
  | zero =>
    obtain ⟨hd, es, rfl⟩ := ht.exists_node
    obtain ⟨hk, -, -, hsum, hes⟩ := Rep.Valid.node_iff.mp ht
    rw [Rep.length_node, hsum] at hlt
    obtain ⟨as, s, cs, rfl, hle, hn, hidx⟩ := indexOf_spec Rep.length hd.begin hlt
    have hs : s.Valid hd.height := hes s (by simp)
    obtain ⟨e, rfl, he⟩ := Rep.Valid.zero_iff.mp (Nat.add_right_cancel hk ▸ hs)
    have hn' : offset - (as.map Rep.length).sum < e.data.length := by rwa [he.length_data]
    refine ⟨e.data.get ⟨_, hn'⟩, ?_, ?_⟩
    · simp only [byteAt, hidx, ok_bind, (Level.points_mk hd as (.leaf e) cs).edge, asDataEdge,
        List.getElem?_eq_getElem hn']
      rfl
    · rw [Rep.bytes_node, getElem?_middle (fun a ha ↦ hes a (by simp [ha])) hle
        (by rwa [Rep.bytes_leaf]), Rep.bytes_leaf, List.getElem?_eq_getElem hn']
      rfl
  | succ h ih =>
    obtain ⟨hd, es, rfl⟩ := ht.exists_node
    obtain ⟨hk, -, -, hsum, hes⟩ := Rep.Valid.node_iff.mp ht
    rw [Rep.length_node, hsum] at hlt
    obtain ⟨as, s, cs, rfl, hle, hn, hidx⟩ := indexOf_spec Rep.length hd.begin hlt
    have hs : s.Valid hd.height := hes s (by simp)
    obtain ⟨b, hrun, hb⟩ := ih (Nat.add_right_cancel hk ▸ hs) hn
    refine ⟨b, ?_, ?_⟩
    · simp only [byteAt, hidx, ok_bind, (Level.points_mk hd as s cs).edge, hrun]
    · rw [Rep.bytes_node, getElem?_middle (fun a ha ↦ hes a (by simp [ha])) hle
        (by rwa [hs.length_bytes]), hb]

private theorem Edge.getElem?_base {e : Edge} (he : e.Valid) {i : ℕ} (hi : i < e.length) :
    e.base.2.data[i + e.start]? = e.data[i]? := by
  cases e with
  | whole a p => rfl
  | part a length start child p =>
    simp only [Edge.length] at hi
    simp only [Edge.base, Edge.start, Edge.data, List.getElem?_take_of_lt hi, List.getElem?_drop,
      Nat.add_comm]

/-- The byte at an index is that of the byte string, and there is none beyond the length. -/
theorem getByte_spec (hc : c.Valid) (i : ℕ) : c.getByte i = .ok c.bytes[i]? := by
  have hlen := len_eq hc
  by_cases hle : c.len ≤ i
  · rw [getByte, if_pos hle, List.getElem?_eq_none (by omega)]
    rfl
  · have hb : i < c.bytes.length := by omega
    obtain ⟨b, hrun, hget⟩ : ∃ b, c.byteRef i = .ok b ∧ c.bytes[i]? = some b := by
      match c with
      | inline d =>
        have hget : d.inlineSlice[i]? = some (d.inlineSlice.get ⟨i, hb⟩) :=
          List.getElem?_eq_getElem hb
        exact ⟨_, by simp only [byteRef, hget], hget⟩
      | tree (.leaf e) =>
        have he := Source.Valid.leaf hc
        have hi : i < e.length := by simpa [len] using hle
        have hi' : i < e.data.length := by rwa [he.length_data]
        refine ⟨e.data.get ⟨i, hi'⟩, ?_, ?_⟩
        · simp only [byteRef, Edge.getElem?_base he hi, List.getElem?_eq_getElem hi']
          rfl
        · simp only [bytes, source, Source.bytes, Rep.bytes_leaf, List.getElem?_eq_getElem hi']
          rfl
      | tree (.node hd es) =>
        exact byteAt_spec (Source.Valid.node hc).1 (by simpa [len] using hle)
    rw [getByte, if_neg hle, hrun, hget]
    rfl

end Spec

end Cord

/-! ### The iterator over bytes -/

/-- Iterate over the bytes of a cord from both ends. -/
structure BytesIter where
  chunks : Chunks
  current : Bytes
  backCurrent : Bytes

namespace BytesIter

/-- Iterate over the bytes of a cord. -/
def new (cord : Cord Rep) : Except Fault BytesIter := do
  let chunks ← Chunks.new cord
  let (chunks, chunk) ← chunks.next
  pure ⟨chunks, chunk.getD [], []⟩

/-- The next byte from the front. -/
def next (it : BytesIter) : Except Fault (BytesIter × Option UInt8) := do
  match it.current with
  | byte :: rest => pure ({ it with current := rest }, some byte)
  | [] =>
    match ← it.chunks.next with
    | (chunks, some chunk) =>
      pure ({ it with chunks := chunks, current := chunk.tail }, chunk.head?)
    | (chunks, none) =>
      pure ({ it with chunks := chunks, backCurrent := it.backCurrent.tail }, it.backCurrent.head?)

/-- The number of bytes left. -/
def remaining (it : BytesIter) : ℕ :=
  it.current.length + it.chunks.front.bytesRemaining + it.backCurrent.length

/-- Collect the bytes left; the fuel bounds their number. -/
def collect : ℕ → BytesIter → Except Fault Bytes
  | 0, _ => .error .unreachable
  | fuel + 1, it => do
    match ← it.next with
    | (_, none) => pure []
    | (it, some byte) => pure (byte :: (← collect fuel it))

variable [Target] {it : BytesIter} {bs : Bytes}

/-- The iterator has exactly the bytes `bs` left. -/
def Denotes (it : BytesIter) (bs : Bytes) : Prop :=
  ∃ mid, it.chunks.Denotes mid ∧ bs = it.current ++ mid ++ it.backCurrent

theorem Denotes.remaining_eq (hd : it.Denotes bs) : it.remaining = bs.length := by
  obtain ⟨mid, hm, rfl⟩ := hd
  simp only [remaining, List.length_append, hm.length_eq]

theorem new_spec {c : Cord Rep} (hs : c.source.Valid) :
    ∃ it, new c = .ok it ∧ it.Denotes c.bytes := by
  obtain ⟨cs, hnew, hd⟩ := Chunks.new_spec hs
  rcases Chunks.next_spec hd with ⟨hnil, hrun⟩ | ⟨cs', chunk, rest, hrun, -, heq, hd'⟩
  · refine ⟨⟨cs, [], []⟩, ?_, [], hnil ▸ hd, by simpa using hnil⟩
    simp only [new, hnew, ok_bind, hrun]
    rfl
  · refine ⟨⟨cs', chunk, []⟩, ?_, rest, hd', by simpa using heq⟩
    simp only [new, hnew, ok_bind, hrun]
    rfl

/-- The next byte is the first of those left. -/
theorem next_spec (hd : it.Denotes bs) :
    ∃ it', it.next = .ok (it', bs.head?) ∧ it'.Denotes bs.tail := by
  obtain ⟨mid, hm, rfl⟩ := hd
  cases hcur : it.current with
  | cons b rest =>
    refine ⟨{ it with current := rest }, ?_, mid, hm, by simp⟩
    simp only [next, hcur]
    rfl
  | nil =>
    rcases Chunks.next_spec hm with ⟨rfl, hrun⟩ | ⟨cs', chunk, rest, hrun, hne, rfl, hd'⟩
    · refine ⟨{ it with backCurrent := it.backCurrent.tail }, ?_, [], hm, by simp [hcur]⟩
      simp only [next, hcur, hrun, ok_bind]
      rfl
    · obtain ⟨b, chunk, rfl⟩ := List.exists_cons_of_ne_nil hne
      refine ⟨⟨cs', chunk, it.backCurrent⟩, ?_, rest, hd', by simp⟩
      simp only [next, hcur, hrun, ok_bind]
      rfl

theorem collect_spec (hd : it.Denotes bs) {fuel : ℕ} (hfuel : bs.length < fuel) :
    collect fuel it = .ok bs := by
  induction fuel generalizing it bs with
  | zero => omega
  | succ fuel ih =>
    obtain ⟨it', hrun, hd'⟩ := next_spec hd
    cases bs with
    | nil =>
      simp only [collect, hrun, ok_bind]
      rfl
    | cons b bs =>
      have := ih hd' (by simpa using hfuel)
      simp only [collect, hrun, ok_bind, List.head?_cons, this]
      rfl

end BytesIter

end CordRs
