import CordRs.Btree.ReaderRead
import CordRs.Cord.Append
import CordRs.Cord.Find

/-!
# Moving and reading at a cursor

A cursor is a forward iteration that knows the length of its cord. Every call of it is, on the pair
of the bytes of the cord and a position, a plain function: it moves the position and returns bytes
from there on. Reads that return a cord share the tree of the cord the cursor was made for, which
must stay alive as long as the cursor does; whatever else happens on the heap between two calls
does not matter.

## Main definitions

* `CordRs.ForwardChunks.readBytes`, `CordRs.Cursor.nextByte`, `CordRs.Cursor.read`,
  `CordRs.Cursor.readToEnd`, `CordRs.Cursor.seek`.
* `CordRs.CursorOp`, `CordRs.Cursor.apply`: the calls.
* `CordRs.Cord.Borrowed`: the heap holds the tree of a cord.
* `CordRs.CursorOp.moves`, `CordRs.CursorOp.Answers`: the calls on bytes and a position.
* `CordRs.Cursor.Run`: the cursors reached by calls, with their positions.

## Main results

* `CordRs.ForwardChunks.wp_readBytes`: the cord a read returns.
* `CordRs.Cursor.apply_spec`: a call is the call on bytes and a position.
* `CordRs.Cursor.cursor_refines`: what holds of every cursor that is reached.
-/

namespace CordRs

open RefHeap

/-! ### Calls -/

section Calls

variable [Target]

/-- Read the next bytes into a new cord, at most those that remain. -/
def ForwardChunks.readBytes (it : ForwardChunks) (n : ℕ) : HeapM (ForwardChunks × Cord Addr) := do
  if n ≤ maxInline then
    let (it, data) ← liftM (it.gatherInline true n)
    pure (it, .inline data)
  else if it.btreeReader.isSome then
    let chunkSize := it.currentChunk.length
    let remaining := it.bytesRemaining - n
    if n ≤ chunkSize ∧ n ≤ maxBytesToCopy then
      let subcord ← Cord.copyFromSlice (it.currentChunk.take n)
      if n < chunkSize then
        pure ({ it with bytesRemaining := remaining, currentChunk := it.currentChunk.drop n },
          subcord)
      else
        let (reader, chunk) ← liftM it.btreeReader.next
        pure ({ it with bytesRemaining := remaining, btreeReader := reader, currentChunk := chunk },
          subcord)
    else
      let (reader, chunk, tree) ← it.btreeReader.read n chunkSize
      match tree with
      | some tree =>
        pure ({ it with bytesRemaining := remaining, btreeReader := reader, currentChunk := chunk },
          .tree tree)
      | none => throw .unreachable
  else
    match it.currentLeaf with
    | none => throw (.panic "read_bytes: single data edge with no current_leaf")
    | some leaf =>
      if n = leaf.length then
        let rep ← refRep leaf.addr
        pure ({ it with bytesRemaining := 0, currentChunk := [] }, .tree rep)
      else
        let offset := leaf.start + it.leafOffset
        let tree ← substring leaf.base.1 offset n
        let chunk := it.currentChunk.drop n
        pure ({ it with bytesRemaining := it.bytesRemaining - n, currentChunk := chunk,
                        leafOffset := it.leafOffset + n }, .tree tree)

/-- Where to seek to. -/
inductive SeekFrom where
  | start (n : UInt64)
  | fromEnd (delta : Int64)
  | current (delta : Int64)

/-- The sum of a 64-bit number and a signed one, if it is one of 64 bits. -/
def checkedAddSigned (a : ℕ) (delta : Int64) : Option ℕ :=
  let sum := (a : ℤ) + delta.toInt
  if 0 ≤ sum ∧ sum < 2 ^ 64 then some sum.toNat else none

/-- The offset asked for in a cord of length `len` at the position `current`, if it is one of 64
bits. -/
def SeekFrom.resolve (len current : ℕ) : SeekFrom → Option ℕ
  | start n => some n.toNat
  | fromEnd delta => checkedAddSigned len delta
  | SeekFrom.current delta => checkedAddSigned current delta

namespace Cursor

/-- The byte at the cursor. -/
def peek (it : Cursor) : Option UInt8 := it.chunks.currentChunk.head?

/-- Read the next bytes into a new cord. -/
def readCord (it : Cursor) (n : ℕ) : HeapM (Cursor × Cord Addr) := do
  if n ≤ it.chunks.bytesRemaining then
    let (chunks, cord) ← it.chunks.readBytes n
    pure ({ it with chunks := chunks }, cord)
  else
    throw (.panic ("cannot read past the end of a Cord: n = " ++ toString n ++
      ", remaining = " ++ toString it.chunks.bytesRemaining))

/-- The byte at the cursor, and move beyond it. -/
def nextByte (it : Cursor) : Except Fault (Cursor × Option UInt8) := do
  match it.peek with
  | none => pure (it, none)
  | some byte =>
    if 1 < it.chunks.currentChunk.length then
      pure ({ it with chunks := it.chunks.removeChunkPrefix 1 }, some byte)
    else
      pure ({ it with chunks := ← it.chunks.step }, some byte)

/-- Copy bytes to `buf` behind the `written` first ones until it is full or none are left. Each
iteration copies at least one byte, and the fuel bounds their number. -/
def readLoop : ℕ → Cursor → Bytes → ℕ → Except Fault (Cursor × Bytes × ℕ)
  | 0, _, _, _ => .error .unreachable
  | fuel + 1, it, buf, written => do
    if written < buf.length then
      let chunk := it.chunk
      if chunk = [] then
        pure (it, buf, written)
      else
        let n := min chunk.length (buf.length - written)
        let buf := writeAt buf written (chunk.take n)
        readLoop fuel (← it.advance n) buf (written + n)
    else
      pure (it, buf, written)

/-- Fill a buffer, and return the number of bytes written. -/
def read (it : Cursor) (buf : Bytes) : Except Fault (Cursor × Bytes × ℕ) :=
  readLoop (buf.length + 1) it buf 0

/-- Append all bytes that are left to a vector, and return their number. -/
def readToEnd (it : Cursor) (buf : Bytes) : Except Fault (Cursor × Bytes × ℕ) := do
  let n := it.remaining
  let buf ← forNext ForwardChunks.nextChunk (fun buf chunk ↦ .ok (.yield (buf ++ chunk))) (n + 1)
    it.chunks buf
  pure (← it.advance n, buf, n)

/-- Seek to an offset within the cord and return it, none if there is no such offset. -/
def seek (cord : Cord Rep) (it : Cursor) (pos : SeekFrom) : Except Fault (Cursor × Option ℕ) := do
  let current := it.position
  let len := current + it.remaining
  match (pos.resolve len current).filter fun t ↦ decide (t ≤ usizeMax ∧ t ≤ len) with
  | none => pure (it, none)
  | some target =>
    if current ≤ target then
      pure (← it.advance (target - current), some target)
    else
      let it ← Cursor.new cord
      pure (← it.advance target, some target)

end Cursor

/-- A call of a cursor. -/
inductive CursorOp where
  | advance (n : ℕ)
  | peek
  | chunk
  | nextByte
  | readCord (n : ℕ)
  | read (buf : Bytes)
  | readToEnd (buf : Bytes)
  | seek (pos : SeekFrom)
  | clone

/-- What a call returns. -/
inductive CursorAnswer where
  | unit
  | byte (b : Option UInt8)
  | chunk (bs : Bytes)
  | cord (c : Cord Addr)
  | buffer (buf : Bytes) (n : ℕ)
  | offset (target : Option ℕ)
  | cursor (it : Cursor)

/-- Perform a call of a cursor made for a cord. -/
def Cursor.apply (cord : Cord Rep) (it : Cursor) : CursorOp → HeapM (Cursor × CursorAnswer)
  | .advance n => do
    let it ← liftM (it.advance n)
    pure (it, .unit)
  | .peek => pure (it, .byte it.peek)
  | .chunk => pure (it, .chunk it.chunk)
  | .nextByte => do
    let (it, byte) ← liftM it.nextByte
    pure (it, .byte byte)
  | .readCord n => do
    let (it, cord) ← it.readCord n
    pure (it, .cord cord)
  | .read buf => do
    let (it, buf, n) ← liftM (it.read buf)
    pure (it, .buffer buf n)
  | .readToEnd buf => do
    let (it, buf, n) ← liftM (it.readToEnd buf)
    pure (it, .buffer buf n)
  | .seek pos => do
    let (it, target) ← liftM (seek cord it pos)
    pure (it, .offset target)
  | .clone => pure (it, .cursor it)

end Calls

/-! ### Reading a cord -/

section Rules

variable [Target] {h h' : Heap Node} {Z : List Addr} {R : Multiset Addr} {c : Cord Rep}
  {pos n : ℕ}

/-- The heap holds the tree of a cord, which is reachable from the references held. -/
structure Cord.Borrowed (c : Cord Rep) (h : Heap Node) (Z : List Addr) (R : Multiset Addr) :
    Prop where
  owned : Owned h Z R
  reach : ∀ t, c = .tree t → Reach h R t.addr
  held : ∀ t, c = .tree t → t.Held h

namespace Cord

/-- A cord stays borrowed when the heap gets a new one. -/
theorem Borrowed.of_new {c' : Cord Rep} {bs : Bytes} (hb : c.Borrowed h Z R)
    (hnew : c'.New bs h Z R h') : c.Borrowed h' Z (c'.refs + R) where
  owned := hnew.owns.owned
  reach t ht :=
    ((hb.reach t ht).transfer fun x hx ↦ hnew.frame.kept x hx).mono (Multiset.le_add_left _ _)
  held t ht := (hb.held t ht).frame hnew.frame (hb.reach t ht)

/-- A tree that was added to the heap is a new cord. -/
theorem new_tree {t : Rep} {bs : Bytes} {k : ℕ} (ht : Holding h' Z R k t) (hbs : t.bytes = bs)
    (hf : Frame Z R h h') : New (.tree t) bs h Z R h' :=
  ⟨owns_tree ht, hbs, hf⟩

/-- A data edge that was added to the heap is a new cord. -/
theorem new_leaf {e : Edge} {bs : Bytes} (ho : Owned h' Z (e.addr ::ₘ R)) (he : e.Held h')
    (hbs : e.data = bs) (hf : Frame Z R h h') : New (.tree (.leaf e)) bs h Z R h' := by
  have hheld : Rep.Held h' (.leaf e) := Rep.held_leaf.mpr he
  obtain ⟨i, hi⟩ := hheld.valid ho (.root (Multiset.mem_cons_self _ _))
  obtain rfl := (Rep.Valid.leaf_iff.mp hi).1
  exact new_tree ⟨ho, hheld, hi, Nat.zero_le _⟩ (by rw [Rep.bytes_leaf, hbs]) hf

end Cord

namespace ForwardChunks

variable {it : ForwardChunks}

/-- A copy of a few bytes is a new cord. -/
private theorem wp_copy {data : Bytes} (ho : Owned h Z R) (hmax : data.length ≤ maxBytesToCopy)
    {Q : Cord Addr → Heap Node → Prop}
    (hQ : ∀ (c' : Cord Rep) h', c'.New data h Z R h' → Q c'.handle h') :
    wp (Cord.copyFromSlice data) Q h := by
  have hsmall : maxBytesToCopy ≤ usizeMax ∧ maxBytesToCopy ≤ maxCapacity ^ maxDepth := by
    refine ⟨?_, by decide⟩
    rcases Target.bits_eq with hbits | hbits <;> rw [usizeMax, hbits] <;> decide
  refine Cord.wp_copyFromSlice ho (hmax.trans hsmall.1)
    ((flatsFor_le _).trans (hmax.trans hsmall.2)) fun c' h' hc' hchunks hf ↦ hQ c' h' ⟨hc', ?_, hf⟩
  rw [← Cord.flatten_chunks c' hc'.valid, hchunks]
  exact @CordRs.flatten_chunks true _ data

/-- A read of a reader from the position gives the next bytes, and the reader is behind them. -/
private theorem wp_read_btree {hd : BtreeHeader} {es : List Rep}
    (hi : it.Inv (.tree (.node hd es)) pos 0) (hs : (Source.tree (.node hd es)).Valid)
    (hb : (Cord.tree (.node hd es)).Borrowed h Z R) (hlen : hd.length ≤ usizeMax) (hn : 0 < n)
    (hle : n ≤ it.bytesRemaining) {Q : BtreeReader × Bytes × Option Addr → Heap Node → Prop}
    (hQ : ∀ r chunk (t : Rep) h',
      (Cord.tree t).New (((Source.tree (.node hd es)).bytes.drop pos).take n) h Z R h' →
      Inv ⟨chunk, it.currentLeaf, it.leafOffset, it.bytesRemaining - n, r⟩ (.tree (.node hd es))
        (pos + n) 0 → Q (r, chunk, some t.addr) h') :
    wp (it.btreeReader.read n it.currentChunk.length) Q h := by
  obtain ⟨hv, hk⟩ := Source.Valid.node hs
  have hon := hi.on (by omega)
  have htotal := hi.total
  have hbytes : (Source.tree (.node hd es)).bytes.length = hd.length := hv.length_bytes
  obtain ⟨e, m, hr, hm, hchunk, hpos⟩ := hon
  have hclen : it.currentChunk.length = e.length - m := by
    rw [hchunk, List.length_drop, hr.edge_valid.length_data]
  have hcne : it.currentChunk ≠ [] := by
    rw [← List.length_pos_iff]
    omega
  have hrlen := hr.length_eq hv
  rw [Rep.length_node] at hrlen
  have hcur := Navigator.current_spec hr.1 hv
  have hserves : it.btreeReader.Serves (.node hd es) n it.currentChunk.length := by
    refine ⟨⟨e, hcur⟩, fun _ e' he' ↦ ?_, fun hz ↦ ?_, .inr hr.2⟩
    · rw [hcur] at he'
      cases he'
      omega
    · omega
  refine wp_mono (BtreeReader.wp_read (hr.tracks hv) hserves (fun e' he' ↦ ?_) hn (by omega)
    hb.owned (hb.reach _ rfl) (hb.held _ rfl) hv
    (by simp only [maxHeight, maxDepth] at hk ⊢; omega) hlen) ?_
  · rw [hcur] at he'
    cases he'
    omega
  rintro ⟨r, chunk, tree⟩ h' ⟨htr, hcont, hon', hpart⟩
  rw [BtreeReader.readFrom_of_at hr.1 hv, show edgesLength it.btreeReader.navigator.before +
    (e.length - it.currentChunk.length) = pos by omega] at hcont hon' hpart
  have hi' : Inv ⟨chunk, it.currentLeaf, it.leafOffset, it.bytesRemaining - n, r⟩
      (.tree (.node hd es)) (pos + n) 0 := by
    by_cases hz : it.bytesRemaining - n = 0
    · obtain ⟨hnil, -⟩ := hcont.ended (by rw [Rep.length_node]; omega)
      exact inv_of_done htr.1 hz hnil (by omega)
    · have hlt : pos + n < Rep.length (.node hd es) := by
        rw [Rep.length_node]
        omega
      obtain ⟨e', hr'⟩ := hon' hlt
      obtain ⟨m', hm', hchunk', hpos'⟩ := hcont.on_edge hr' hv hlt
      exact inv_of_on ⟨e', m', hr', hm', hchunk', hpos'⟩ hs (by omega) (by omega)
  cases tree with
  | none =>
    have hlt := hpart.none_iff.mp rfl
    rw [Rep.length_node] at hlt
    omega
  | some a =>
    obtain ⟨u, j, rfl, ho, hheld, huv, hj, hext, -⟩ := hpart.part a rfl
    have hdepth : j ≤ maxDepth := by
      simp only [maxHeight, maxDepth] at hk ⊢
      omega
    exact hQ r chunk u h' (Cord.new_tree ⟨ho, hheld, huv, hdepth⟩ hext.data hpart.frame) hi'

/-- Reading from a btree. -/
private theorem wp_readBytes_btree {hd : BtreeHeader} {es : List Rep}
    (hi : it.Inv (.tree (.node hd es)) pos 0) (hs : (Source.tree (.node hd es)).Valid)
    (hb : (Cord.tree (.node hd es)).Borrowed h Z R) (hlen : hd.length ≤ usizeMax)
    (hn : maxInline < n) (hle : n ≤ it.bytesRemaining)
    {Q : ForwardChunks × Cord Addr → Heap Node → Prop}
    (hQ : ∀ it' (c' : Cord Rep) h',
      c'.New (((Source.tree (.node hd es)).bytes.drop pos).take n) h Z R h' →
      it'.Inv (.tree (.node hd es)) (pos + n) 0 → Q (it', c'.handle) h') :
    wp (it.readBytes n) Q h := by
  have hof : it.btreeReader.Of (.node hd es) := hi.of
  have htotal := hi.total
  have hclen := hi.chunk_length_le hs
  have hon := hi.on (by omega)
  rw [readBytes, if_neg (by omega), if_pos hof.isSome]
  by_cases hsmall : n ≤ it.currentChunk.length ∧ n ≤ maxBytesToCopy
  · obtain ⟨rest, hdrop, -⟩ := hon.drop_bytes hs
    rw [if_pos hsmall, wp_bind]
    refine wp_copy hb.owned ((List.length_take_le _ _).trans hsmall.2) fun c' h' hc' ↦ ?_
    have hnew : c'.New (((Source.tree (.node hd es)).bytes.drop pos).take n) h Z R h' := by
      rwa [hdrop, List.take_append_of_le_length hsmall.1]
    by_cases hlt : n < it.currentChunk.length
    · rw [if_pos hlt, wp_pure]
      refine hQ _ c' h' hnew ?_
      obtain ⟨e, m, hr, hm, hchunk, hpos⟩ := hon
      have helen : it.currentChunk.length = e.length - m := by
        rw [hchunk, List.length_drop, hr.edge_valid.length_data]
      refine inv_of_on ⟨e, m + n, hr, by omega, ?_, ?_⟩ hs (by omega) (by omega)
      · rw [hchunk, List.drop_drop]
      · rw [← hpos, Nat.add_assoc]
    · obtain rfl : n = it.currentChunk.length := by omega
      obtain ⟨r, chunk, hrun, hof', hcase⟩ := hon.next_reader hs
      have hbytes : (Source.tree (.node hd es)).bytes.length = hd.length :=
        (Source.Valid.node hs).1.length_bytes
      rw [if_neg hlt]
      simp only [wp_bind, wp_liftM, wp_pure]
      refine ⟨_, hrun, hQ _ c' h' hnew ?_⟩
      obtain ⟨hend, rfl⟩ | ⟨hlt', hon'⟩ := hcase
      · exact inv_of_done hof' (by omega) rfl (by omega)
      · exact inv_of_on (hon' _ _ _) hs (by omega) (by omega)
  · rw [if_neg hsmall, wp_bind]
    refine wp_read_btree hi hs hb hlen (by omega) hle fun r chunk t h' hnew hi' ↦ ?_
    rw [wp_pure]
    exact hQ _ (.tree t) h' hnew hi'

/-- Reading from a single data edge. -/
private theorem wp_readBytes_leaf {e : Edge} (hi : it.Inv (.tree (.leaf e)) pos 0)
    (hs : (Source.tree (.leaf e)).Valid) (hb : (Cord.tree (.leaf e)).Borrowed h Z R)
    (hn : maxInline < n) (hle : n ≤ it.bytesRemaining)
    {Q : ForwardChunks × Cord Addr → Heap Node → Prop}
    (hQ : ∀ it' (c' : Cord Rep) h',
      c'.New (((Source.tree (.leaf e)).bytes.drop pos).take n) h Z R h' →
      it'.Inv (.tree (.leaf e)) (pos + n) 0 → Q (it', c'.handle) h') :
    wp (it.readBytes n) Q h := by
  obtain ⟨hreader, hleaf, hchunk, hoff, hpos⟩ := hi.on (by omega)
  have htotal := hi.total
  have he : e.Valid := Source.Valid.leaf hs
  have hheld : e.Held h := Rep.held_leaf.mp (hb.held _ rfl)
  have hbytes : (Source.tree (.leaf e)).bytes = e.data := Rep.bytes_leaf e
  have hdata := he.length_data
  rw [hbytes] at htotal hQ
  rw [readBytes, if_neg (by omega), if_neg (by simp [hreader]), hleaf]
  by_cases hall : n = e.length
  · -- The whole edge can only be read from its first byte.
    obtain rfl : pos = 0 := by omega
    dsimp only
    rw [if_pos hall, wp_bind]
    refine wp_refRep hb.owned (hb.reach _ rfl) fun h' ho' hn' ↦ ?_
    have hg := Grows.of_node?_eq hn'
    rw [wp_pure]
    refine hQ _ (.tree (.leaf e)) h' (Cord.new_leaf ho' ⟨hg _ _ hheld.1, hg _ _ hheld.2⟩ ?_
      (hb.owned.frame_of_grows hg)) (inv_of_done ⟨hreader, rfl⟩ rfl rfl ?_)
    · rw [List.drop_zero, List.take_of_length_le (by omega)]
    · rw [hbytes]
      omega
  · dsimp only
    rw [if_neg hall, wp_bind, hoff]
    refine wp_substring_base hb.owned (hb.reach _ rfl) hheld he (by omega) (by omega)
      fun e' h' he' hdata' ho' hg ↦ ?_
    rw [wp_pure]
    refine hQ _ (.tree (.leaf e')) h' (Cord.new_leaf ho' he' hdata' (hb.owned.frame_of_grows hg)) ?_
    by_cases hz : it.bytesRemaining - n = 0
    · refine inv_of_done ⟨hreader, rfl⟩ hz ?_ ?_
      · rw [List.drop_eq_nil_iff, hchunk, List.length_drop]
        omega
      · rw [hbytes]
        omega
    · refine inv_of_on ⟨hreader, rfl, ?_, rfl, by omega⟩ hs (by omega) ?_
      · rw [hchunk, List.drop_drop]
      · rw [hbytes]
        omega

/-- A read returns a cord with the next bytes and moves beyond them. -/
theorem wp_readBytes (hi : it.Inv c.source pos 0) (hc : c.Valid) (hlen : c.len ≤ usizeMax)
    (hb : c.Borrowed h Z R) (hle : n ≤ it.bytesRemaining)
    {Q : ForwardChunks × Cord Addr → Heap Node → Prop}
    (hQ : ∀ it' (c' : Cord Rep) h', c'.New ((c.bytes.drop pos).take n) h Z R h' →
      it'.Inv c.source (pos + n) 0 → Q (it', c'.handle) h') :
    wp (it.readBytes n) Q h := by
  have hs := hc.source
  by_cases hn : n ≤ maxInline
  · obtain ⟨it', hrun, hi'⟩ := gatherInline_spec true hi hs hle hn
    rw [readBytes, if_pos hn]
    simp only [wp_bind, wp_liftM, wp_pure]
    have hmax : ((c.bytes.drop pos).take n).length ≤ maxInline :=
      (List.length_take_le _ _).trans hn
    refine ⟨_, hrun, hQ it' (.inline (.ofBytes ((c.bytes.drop pos).take n))) h
      ⟨Cord.owns_inline hb.owned (InlineData.wellFormed_ofBytes hmax), ?_, .refl h⟩ (hi' rfl)⟩
    exact InlineData.inlineSlice_ofBytes _
  · have hn' := Nat.lt_of_not_le hn
    cases c with
    | inline d =>
      have htotal := hi.total
      have hmax : d.size ≤ maxInline := hc.1
      have hsize := Cord.len_eq hc
      simp only [Cord.len, Cord.bytes] at hsize
      omega
    | tree t =>
      cases t with
      | leaf e => exact wp_readBytes_leaf hi hs hb hn' hle hQ
      | node hd es => exact wp_readBytes_btree hi hs hb hlen hn' hle hQ

end ForwardChunks

end Rules

/-! ### Positions of a cursor -/

namespace SeekFrom

/-- The offset that is asked for, seen from a position. -/
def target (len pos : ℕ) : SeekFrom → ℤ
  | start n => n.toNat
  | fromEnd delta => len + delta.toInt
  | current delta => pos + delta.toInt

/-- The offset a seek leads to, if it is one of a cord. -/
def within (len pos : ℕ) (dest : SeekFrom) : Option ℕ :=
  let target := dest.target len pos
  if 0 ≤ target ∧ target ≤ len then some target.toNat else none

end SeekFrom

namespace Cursor

section Spec

variable [Target] {c : Cord Rep} {it : Cursor} {pos n : ℕ}

/-- The cursor is at the byte `pos` of its cord. -/
structure At (it : Cursor) (c : Cord Rep) (pos : ℕ) : Prop where
  len : it.len = c.len
  chunks : it.chunks.Inv c.source pos 0

theorem new_at (hc : c.Valid) : ∃ it, new c = .ok it ∧ it.At c 0 := by
  obtain ⟨chunks, hrun, hi⟩ := ForwardChunks.new_spec hc.source
  refine ⟨⟨chunks, c.len⟩, ?_, rfl, hi⟩
  simp only [new, hrun, ok_bind]
  rfl

theorem At.on (hat : it.At c pos) (hc : c.Valid) : it.On c.bytes pos where
  len := hat.len.trans (Cord.len_eq hc)
  le := by
    have htotal := hat.chunks.total
    rw [Cord.bytes]
    omega
  rest := ⟨_, pos, hc.source, hat.chunks, rfl⟩

theorem At.remaining_eq (hat : it.At c pos) (hc : c.Valid) :
    it.remaining = c.bytes.length - pos := (hat.on hc).remaining_eq

theorem At.position_eq (hat : it.At c pos) (hc : c.Valid) : it.position = pos :=
  (hat.on hc).position_eq

/-- Advancing within what remains moves the position. -/
theorem At.advance (hat : it.At c pos) (hc : c.Valid) (hn : n ≤ c.bytes.length - pos) :
    ∃ it', it.advance n = .ok it' ∧ it'.At c (pos + n) := by
  have hrem := hat.remaining_eq hc
  rw [remaining] at hrem
  obtain ⟨chunks, hrun, hi⟩ := ForwardChunks.advanceBytes_spec hat.chunks hc.source (hrem ▸ hn)
  refine ⟨{ it with chunks }, ?_, hat.len, hi⟩
  rw [Cursor.advance, if_pos (hrem ▸ hn), hrun]
  rfl

/-- The byte at the cursor is the first one left. -/
theorem At.peek_eq (hat : it.At c pos) (hc : c.Valid) : it.peek = (c.bytes.drop pos).head? := by
  rcases (hat.on hc).chunk with ⟨rfl, hnil⟩ | ⟨rest, hne, hdrop⟩
  · rw [List.drop_length]
    exact congrArg List.head? hnil
  · rw [hdrop, List.head?_append_of_ne_nil _ hne]
    rfl

theorem nextByte_spec (hat : it.At c pos) (hc : c.Valid) :
    ∃ it', it.nextByte = .ok (it', (c.bytes.drop pos).head?) ∧
      it'.At c (min (pos + 1) c.bytes.length) := by
  have hpeek := hat.peek_eq hc
  have hle := (hat.on hc).le
  rcases (hat.on hc).chunk with ⟨rfl, hnil⟩ | ⟨rest, hne, hdrop⟩
  · rw [List.drop_length, List.head?_nil] at hpeek ⊢
    refine ⟨it, ?_, by rwa [Nat.min_eq_right (Nat.le_succ _)]⟩
    simp only [nextByte, hpeek]
    rfl
  · have hpos : 0 < it.chunk.length := List.length_pos_iff.mpr hne
    have hchunk : it.chunk.length = it.chunks.currentChunk.length := rfl
    have hlen := congrArg List.length hdrop
    rw [List.length_append, List.length_drop] at hlen
    have hrem := hat.remaining_eq hc
    rw [remaining] at hrem
    obtain ⟨b, tail, hbytes⟩ := List.exists_cons_of_length_pos
      (show 0 < (c.bytes.drop pos).length by rw [List.length_drop]; omega)
    rw [hbytes, List.head?_cons] at hpeek ⊢
    rw [Nat.min_eq_left (by omega)]
    by_cases hlt : 1 < it.chunks.currentChunk.length
    · refine ⟨{ it with chunks := it.chunks.removeChunkPrefix 1 }, ?_, hat.len,
        ForwardChunks.removeChunkPrefix_spec hat.chunks hc.source hlt (by omega)⟩
      simp only [nextByte, hpeek, if_pos hlt]
      rfl
    · obtain ⟨chunks, hrun, hi⟩ := ForwardChunks.step_spec hat.chunks hc.source (by omega)
      rw [show it.chunks.currentChunk.length = 1 by omega] at hi
      refine ⟨{ it with chunks }, ?_, hat.len, hi⟩
      simp only [nextByte, hpeek, if_neg hlt, hrun, ok_bind]
      rfl

private theorem readLoop_spec {buf : Bytes} (fuel : ℕ) (seen : Bytes) (hat : it.At c pos)
    (hc : c.Valid) (hle : seen.length ≤ buf.length) (hfuel : buf.length - seen.length < fuel)
    (hn : n = min (buf.length - seen.length) (c.bytes.length - pos)) :
    ∃ it', readLoop fuel it (writeAt buf 0 seen) seen.length =
        .ok (it', writeAt buf 0 (seen ++ (c.bytes.drop pos).take n), seen.length + n) ∧
      it'.At c (pos + n) := by
  induction fuel generalizing it pos seen n with
  | zero => omega
  | succ fuel ih =>
    have hwlen : (writeAt buf 0 seen).length = buf.length := length_writeAt (by omega)
    rw [readLoop, hwlen]
    by_cases hfull : seen.length < buf.length
    · rw [if_pos hfull]
      rcases (hat.on hc).chunk with ⟨rfl, hnil⟩ | ⟨rest, hne, hdrop⟩
      · obtain rfl : n = 0 := by omega
        refine ⟨it, ?_, hat⟩
        simp only [hnil, if_true, List.take_zero, List.append_nil]
        rfl
      · have hpos := List.length_pos_iff.mpr hne
        have hdlen := congrArg List.length hdrop
        rw [List.length_append, List.length_drop] at hdlen
        obtain ⟨m, hm⟩ : ∃ m, m = min it.chunk.length (buf.length - seen.length) := ⟨_, rfl⟩
        have htake : it.chunk.take m = (c.bytes.drop pos).take m := by
          rw [hdrop, List.take_append_of_le_length (by omega)]
        have hslen : (seen ++ it.chunk.take m).length = seen.length + m := by
          rw [List.length_append, List.length_take]
          omega
        obtain ⟨it₁, hadv, hat₁⟩ := hat.advance (n := m) hc (by omega)
        obtain ⟨it', hrun, hat'⟩ := ih (n := n - m) (seen ++ it.chunk.take m) hat₁
          (by omega) (by omega) (by omega)
        rw [hslen, List.append_assoc, htake, ← List.drop_drop, ← List.take_add,
          Nat.add_sub_cancel' (by omega), Nat.add_assoc, Nat.add_sub_cancel' (by omega)] at hrun
        rw [Nat.add_assoc, Nat.add_sub_cancel' (by omega)] at hat'
        refine ⟨it', ?_, hat'⟩
        dsimp only
        rw [if_neg hne, ← hm, Cord.writeAt_snoc, hadv, ok_bind, htake, hrun]
    · obtain rfl : n = 0 := by omega
      rw [if_neg hfull, List.take_zero, List.append_nil]
      exact ⟨it, rfl, hat⟩

/-- A buffer is filled with the next bytes, as far as there are any. -/
theorem read_spec (buf : Bytes) (hat : it.At c pos) (hc : c.Valid)
    (hn : n = min buf.length (c.bytes.length - pos)) :
    ∃ it', it.read buf = .ok (it', writeAt buf 0 ((c.bytes.drop pos).take n), n) ∧
      it'.At c (pos + n) := by
  have hstart : writeAt buf 0 [] = buf := by simp [writeAt]
  obtain ⟨it', hrun, hat'⟩ := readLoop_spec (buf.length + 1) [] hat hc (Nat.zero_le _)
    (Nat.lt_succ_self _) hn
  rw [hstart, List.nil_append, List.length_nil, Nat.zero_add] at hrun
  exact ⟨it', hrun, hat'⟩

theorem readToEnd_spec (buf : Bytes) (hat : it.At c pos) (hc : c.Valid) :
    ∃ it', it.readToEnd buf = .ok (it', buf ++ c.bytes.drop pos, c.bytes.length - pos) ∧
      it'.At c c.bytes.length := by
  have hrem := hat.remaining_eq hc
  have hle := (hat.on hc).le
  have hrest := (hat.on hc).rest
  obtain ⟨s, hloop, rfl⟩ := forNext_spec ForwardChunks.yields_nextChunk
    (fun s chunk ↦ .ok (.yield (s ++ chunk))) (fun seen s ↦ s = buf ++ seen)
    (fun s ↦ s = buf ++ c.bytes.drop pos)
    (by rintro seen chunk rest _ - - rfl; exact .inl ⟨_, rfl, List.append_assoc _ _ _⟩)
    (fun _ h ↦ h) (List.nil_append _).symm hrest (List.append_nil buf).symm
    (show (c.bytes.drop pos).length < it.remaining + 1 by rw [List.length_drop]; omega)
  obtain ⟨it', hadv, hat'⟩ := hat.advance (n := it.remaining) hc hrem.le
  rw [hrem, Nat.add_sub_cancel' hle] at hat'
  refine ⟨it', ?_, hat'⟩
  simp only [readToEnd, hloop, ok_bind, hadv, ← hrem]
  rfl

/-! ### Seeking -/

omit [Target] in
private theorem filter_some {p : ℕ → Bool} {a : ℕ} :
    (some a).filter p = if p a then some a else none := by
  rfl

/-- The sum is checked to be one of 64 bits, and then to be at most the length. -/
private theorem filter_checkedAddSigned {len : ℕ} (hlen : len ≤ usizeMax) (a : ℕ) (delta : Int64) :
    ((checkedAddSigned a delta).filter fun t ↦ decide (t ≤ usizeMax ∧ t ≤ len)) =
      if 0 ≤ (a : ℤ) + delta.toInt ∧ (a : ℤ) + delta.toInt ≤ len then
        some ((a : ℤ) + delta.toInt).toNat else none := by
  have hmax : usizeMax < 2 ^ 64 := by
    rcases Target.bits_eq with hbits | hbits <;> rw [usizeMax, hbits] <;> decide
  rw [checkedAddSigned]
  generalize (a : ℤ) + delta.toInt = sum
  by_cases hsum : 0 ≤ sum ∧ sum < 2 ^ 64
  · rw [if_pos hsum, filter_some]
    refine if_congr ?_ rfl rfl
    rw [decide_eq_true_iff]
    omega
  · rw [if_neg hsum, if_neg (by omega), Option.filter_none]

private theorem filter_resolve {len : ℕ} (hlen : len ≤ usizeMax) (pos : ℕ) (dest : SeekFrom) :
    ((dest.resolve len pos).filter fun t ↦ decide (t ≤ usizeMax ∧ t ≤ len)) =
      dest.within len pos := by
  cases dest with
  | start n =>
    rw [SeekFrom.within, SeekFrom.target, SeekFrom.resolve, filter_some]
    refine if_congr ?_ rfl rfl
    rw [decide_eq_true_iff]
    omega
  | fromEnd delta => exact filter_checkedAddSigned hlen _ delta
  | current delta => exact filter_checkedAddSigned hlen _ delta

/-- A seek leads to the target exactly if it is an offset of the cord, and otherwise leaves the
cursor as it is. -/
theorem seek_spec (dest : SeekFrom) (hat : it.At c pos) (hc : c.Valid) (hlen : c.len ≤ usizeMax) :
    ∃ it', seek c it dest = .ok (it', dest.within c.bytes.length pos) ∧
      it'.At c ((dest.within c.bytes.length pos).getD pos) ∧
      (dest.within c.bytes.length pos = none → it' = it) := by
  have hle := (hat.on hc).le
  have htotal : pos + (c.bytes.length - pos) = c.bytes.length := Nat.add_sub_cancel' hle
  rw [Cord.len_eq hc] at hlen
  have hwithin := filter_resolve hlen pos dest
  simp only [seek, hat.position_eq hc, hat.remaining_eq hc, htotal, hwithin]
  cases htarget : dest.within c.bytes.length pos with
  | none => exact ⟨it, rfl, hat, fun _ ↦ rfl⟩
  | some target =>
    have htle : target ≤ c.bytes.length := by
      rw [SeekFrom.within] at htarget
      split_ifs at htarget with hin
      obtain rfl := Option.some.inj htarget
      omega
    by_cases hge : pos ≤ target
    · obtain ⟨it', hrun, hat'⟩ := hat.advance (n := target - pos) hc (by omega)
      rw [Nat.add_sub_cancel' hge] at hat'
      refine ⟨it', ?_, hat', by simp⟩
      simp only [if_pos hge, hrun, ok_bind]
      rfl
    · obtain ⟨it₀, hnew, hat₀⟩ := new_at hc
      obtain ⟨it', hrun, hat'⟩ := hat₀.advance (n := target) hc (by omega)
      rw [Nat.zero_add] at hat'
      refine ⟨it', ?_, hat', by simp⟩
      simp only [if_neg hge, hnew, ok_bind, hrun]
      rfl

end Spec

end Cursor

/-! ### Runs -/

namespace CursorOp

/-- A call may not ask for more bytes than remain. -/
def Allowed (len pos : ℕ) : CursorOp → Prop
  | advance n => pos + n ≤ len
  | readCord n => pos + n ≤ len
  | _ => True

/-- The position after a call. -/
def moves (bs : Bytes) (pos : ℕ) : CursorOp → ℕ
  | advance n => pos + n
  | nextByte => min (pos + 1) bs.length
  | readCord n => pos + n
  | read buf => pos + min buf.length (bs.length - pos)
  | readToEnd _ => bs.length
  | seek dest => (dest.within bs.length pos).getD pos
  | peek | chunk | clone => pos

variable [Target]

/-- What a call of a cursor at `pos` returns, and what else changes. -/
def Answers (c : Cord Rep) (pos : ℕ) (it : Cursor) (h : Heap Node) (Z : List Addr)
    (R : Multiset Addr) (it' : Cursor) (answer : CursorAnswer) (h' : Heap Node) : CursorOp → Prop
  | advance _ => answer = .unit ∧ h' = h
  | peek => answer = .byte (c.bytes.drop pos).head? ∧ it' = it ∧ h' = h
  | chunk => ∃ chunk, answer = .chunk chunk ∧ chunk <+: c.bytes.drop pos ∧
      (chunk = [] ↔ pos = c.bytes.length) ∧ it' = it ∧ h' = h
  | nextByte => answer = .byte (c.bytes.drop pos).head? ∧ h' = h
  | readCord n => ∃ c' : Cord Rep, answer = .cord c'.handle ∧
      c'.New ((c.bytes.drop pos).take n) h Z R h' ∧ c.Borrowed h' Z (c'.refs + R)
  | read buf => answer = .buffer
      (writeAt buf 0 ((c.bytes.drop pos).take (min buf.length (c.bytes.length - pos))))
      (min buf.length (c.bytes.length - pos)) ∧ h' = h
  | readToEnd buf => answer = .buffer (buf ++ c.bytes.drop pos) (c.bytes.length - pos) ∧ h' = h
  | seek dest => answer = .offset (dest.within c.bytes.length pos) ∧
      (dest.within c.bytes.length pos = none → it' = it) ∧ h' = h
  | clone => answer = .cursor it ∧ it' = it ∧ h' = h

end CursorOp

namespace Cursor

section Runs

variable [Target] {c : Cord Rep} {it : Cursor} {pos : ℕ} {h : Heap Node} {Z : List Addr}
  {R : Multiset Addr}

/-- The cursors that are made for a cord, moved by calls and cloned, each with its position. Between
two calls the heap may change in any way that keeps the tree of the cord. -/
inductive Run (c : Cord Rep) : Cursor → ℕ → Prop
  | new {it : Cursor} (hnew : new c = .ok it) : Run c it 0
  | call {it it' : Cursor} {pos : ℕ} {op : CursorOp} {answer : CursorAnswer} {h h' : Heap Node}
      {Z : List Addr} {R : Multiset Addr} (hrun : Run c it pos) (hb : c.Borrowed h Z R)
      (hcall : it.apply c op h = .ok ((it', answer), h')) : Run c it' (op.moves c.bytes pos)
  | clone {it it' copy : Cursor} {pos : ℕ} {h h' : Heap Node} {Z : List Addr} {R : Multiset Addr}
      (hrun : Run c it pos) (hb : c.Borrowed h Z R)
      (hcall : it.apply c .clone h = .ok ((it', .cursor copy), h')) : Run c copy pos

/-- A call that asks for too much stops with a panic. -/
theorem apply_refused {op : CursorOp} (hat : it.At c pos) (hc : c.Valid)
    (hop : ¬op.Allowed c.bytes.length pos) :
    ∃ message, it.apply c op h = .error (.panic message) := by
  have hrem := hat.remaining_eq hc
  have hle := (hat.on hc).le
  rw [remaining] at hrem
  cases op with
  | advance n =>
    have hlt : ¬n ≤ it.chunks.bytesRemaining := fun hn ↦ hop (show pos + n ≤ _ by omega)
    rw [apply, advance, if_neg hlt]
    exact ⟨_, rfl⟩
  | readCord n =>
    have hlt : ¬n ≤ it.chunks.bytesRemaining := fun hn ↦ hop (show pos + n ≤ _ by omega)
    rw [apply, readCord, if_neg hlt]
    exact ⟨_, rfl⟩
  | _ => exact absurd trivial hop

/-- A call is the call on the bytes of the cord and a position. -/
theorem apply_spec {op : CursorOp} (hat : it.At c pos) (hc : c.Valid) (hlen : c.len ≤ usizeMax)
    (hb : c.Borrowed h Z R) (hop : op.Allowed c.bytes.length pos) :
    wp (it.apply c op) (fun q h' ↦ q.1.At c (op.moves c.bytes pos) ∧
      op.Answers c pos it h Z R q.1 q.2 h') h := by
  have hrem := hat.remaining_eq hc
  have hle := (hat.on hc).le
  cases op with
  | advance n =>
    obtain ⟨it', hrun, hat'⟩ := hat.advance (n := n) hc (by have : pos + n ≤ _ := hop; omega)
    simp only [apply, wp_bind, wp_liftM, wp_pure]
    exact ⟨it', hrun, hat', rfl, rfl⟩
  | peek =>
    rw [apply, wp_pure]
    exact ⟨hat, congrArg _ (hat.peek_eq hc), rfl, rfl⟩
  | chunk =>
    rw [apply, wp_pure]
    refine ⟨hat, it.chunk, rfl, hat.chunks.chunk_prefix hc.source, ?_, rfl, rfl⟩
    rw [chunk, hat.chunks.chunk_eq_nil_iff hc.source]
    rw [remaining] at hrem
    omega
  | nextByte =>
    obtain ⟨it', hrun, hat'⟩ := nextByte_spec hat hc
    simp only [apply, wp_bind, wp_liftM, wp_pure]
    exact ⟨_, hrun, hat', rfl, rfl⟩
  | readCord n =>
    have hn : n ≤ it.chunks.bytesRemaining := by
      have : pos + n ≤ _ := hop
      rw [remaining] at hrem
      omega
    simp only [apply, readCord, if_pos hn, wp_bind, wp_pure]
    refine ForwardChunks.wp_readBytes hat.chunks hc hlen hb hn fun chunks c' h' hnew hi ↦ ?_
    exact ⟨⟨hat.len, hi⟩, c', rfl, hnew, hb.of_new hnew⟩
  | read buf =>
    obtain ⟨it', hrun, hat'⟩ := read_spec buf hat hc rfl
    simp only [apply, wp_bind, wp_liftM, wp_pure]
    exact ⟨_, hrun, hat', rfl, rfl⟩
  | readToEnd buf =>
    obtain ⟨it', hrun, hat'⟩ := readToEnd_spec buf hat hc
    simp only [apply, wp_bind, wp_liftM, wp_pure]
    exact ⟨_, hrun, hat', rfl, rfl⟩
  | seek dest =>
    obtain ⟨it', hrun, hat', hsame⟩ := seek_spec dest hat hc hlen
    simp only [apply, wp_bind, wp_liftM, wp_pure]
    exact ⟨_, hrun, hat', rfl, hsame, rfl⟩
  | clone =>
    rw [apply, wp_pure]
    exact ⟨hat, rfl, rfl, rfl⟩

theorem Run.at (hrun : Run c it pos) (hc : c.Valid) (hlen : c.len ≤ usizeMax) : it.At c pos := by
  induction hrun with
  | new hnew =>
    obtain ⟨it₀, hnew₀, hat⟩ := new_at hc
    cases hnew.symm.trans hnew₀
    exact hat
  | @call it it' pos op answer h h' Z R _ hb hcall ih =>
    by_cases hop : op.Allowed c.bytes.length pos
    · obtain ⟨q, h₁, hcall', hat, -⟩ := apply_spec ih hc hlen hb hop
      cases hcall.symm.trans hcall'
      exact hat
    · obtain ⟨message, hcall'⟩ := apply_refused (h := h) ih hc hop
      cases hcall.symm.trans hcall'
  | clone _ _ hcall ih =>
    cases hcall
    exact ih

/-- In every run of a cursor over a valid cord the position and the number of bytes that remain make
up the length, and the chunk starts at the position and is empty only at the end. Every call is
the call on the bytes of the cord and the position, and leads to another cursor of the run. -/
theorem cursor_refines (hc : c.Valid) (hlen : c.len ≤ usizeMax) :
    (∃ it, new c = .ok it) ∧ ∀ it pos, Run c it pos →
      it.position = pos ∧ it.position + it.remaining = c.bytes.length ∧
      it.chunk <+: c.bytes.drop pos ∧ (it.chunk = [] ↔ it.remaining = 0) ∧
      ∀ op {h Z R}, c.Borrowed h Z R →
        (op.Allowed c.bytes.length pos → wp (it.apply c op) (fun q h' ↦
          Run c q.1 (op.moves c.bytes pos) ∧ op.Answers c pos it h Z R q.1 q.2 h') h) ∧
        (¬op.Allowed c.bytes.length pos →
          ∃ message, it.apply c op h = .error (.panic message)) := by
  obtain ⟨it₀, hnew, -⟩ := new_at hc
  refine ⟨⟨it₀, hnew⟩, fun it pos hrun ↦ ?_⟩
  have hat := hrun.at hc hlen
  have hle := (hat.on hc).le
  refine ⟨hat.position_eq hc, ?_, hat.chunks.chunk_prefix hc.source,
    hat.chunks.chunk_eq_nil_iff hc.source, fun op h Z R hb ↦ ⟨fun hop ↦ ?_, apply_refused hat hc⟩⟩
  · rw [hat.position_eq hc, hat.remaining_eq hc]
    omega
  · obtain ⟨q, h', hcall, -, hanswers⟩ := apply_spec hat hc hlen hb hop
    exact ⟨q, h', hcall, .call hrun hb hcall, hanswers⟩

end Runs

/-- The chunks from a cursor on. -/
def iterChunks (it : Cursor) : Chunks := ⟨it.chunks, none⟩

private theorem borrowed_pair :
    letI : Target := ⟨64, .inr rfl⟩
    (Cord.tree pairTree).Borrowed sharedPair [] {2, 2} := by
  let _ : Target := ⟨64, .inr rfl⟩
  refine ⟨holding_sharedPair.owned, ?_, ?_⟩
  · rintro _ ⟨rfl⟩
    exact .root (Multiset.mem_cons_self _ _)
  · rintro _ ⟨rfl⟩
    exact holding_sharedPair.held

/-- Reading across the two flats, and a seek beyond the end. -/
theorem cursor_refines_pair :
    letI : Target := ⟨64, .inr rfl⟩
    ∃ it, new (.tree pairTree) = .ok it ∧ it.position + it.remaining = 3 ∧
      wp (it.apply (.tree pairTree) (.readCord 3)) (fun q h' ↦
        CursorOp.Answers (.tree pairTree) 0 it sharedPair [] {2, 2} q.1 q.2 h' (.readCord 3))
        sharedPair ∧
      wp (it.apply (.tree pairTree) (.seek (.fromEnd 1))) (fun q h' ↦
        q.2 = .offset none ∧ q.1 = it ∧ h' = sharedPair) sharedPair := by
  let _ : Target := ⟨64, .inr rfl⟩
  have ht := holding_sharedPair
  have hb := borrowed_pair
  obtain ⟨⟨it, hnew⟩, hrun⟩ :=
    cursor_refines (c := .tree pairTree) ⟨1, by decide, ht.valid⟩ (by decide)
  have hthree : 0 + 3 ≤ (Cord.tree pairTree).bytes.length := by decide
  obtain ⟨-, htotal, -, -, hop⟩ := hrun it 0 (.new hnew)
  refine ⟨it, hnew, htotal, ?_, ?_⟩
  · exact wp_mono ((hop (.readCord 3) hb).1 hthree) fun q h' hq ↦ hq.2
  · exact wp_mono ((hop (.seek (.fromEnd 1)) hb).1 trivial) fun q h' hq ↦
      ⟨hq.2.1, hq.2.2.1 (by decide), hq.2.2.2⟩

end Cursor

/-! ### The chunks from a cursor -/

namespace Chunks

/-- An iteration over chunks from the byte `pos` on, of a cord or from a cursor. -/
inductive Starts [Target] (c : Cord Rep) : Chunks → ℕ → Prop
  | cord {cs : Chunks} (hnew : new c = .ok cs) : Starts c cs 0
  | cursor {it : Cursor} {pos : ℕ} (hrun : Cursor.Run c it pos) : Starts c it.iterChunks pos

/-- In every interleaving of calls at the ends and clones no call stops with a fault: the branches
declared unreachable are not reached, and the back is not moved before the first data edge. What an
iterator yielded at the front, what is still to come and what it yielded at the back make up the
bytes at the start, and no chunk is empty. Both ends return nothing, and keep doing so, exactly
when nothing is left, and the number of chunks left is within the bounds of `sizeHint`. -/
theorem ends_exact [Target] {c : Cord Rep} {cs : Chunks} {pos : ℕ} (hc : c.Valid)
    (hlen : c.len ≤ usizeMax) (hstart : Starts c cs pos) (calls : List Call) :
    ∃ pool, runCalls calls [⟨cs, [], []⟩] = .ok pool ∧ ∀ it ∈ pool, ∃ rest,
      c.bytes.drop pos = it.front.flatten ++ rest ++ it.back.reverse.flatten ∧
      (∀ chunk ∈ it.front ++ it.back, chunk ≠ []) ∧
      (∃ cs' chunks, drain (List.replicate rest.length false) it.chunks = .ok (cs', chunks) ∧
        chunks.flatten = rest ∧ cs'.next = .ok (cs', none)) ∧
      (∀ fromBack, (rest = [] ∧ it.chunks.takeFrom fromBack = .ok (it.chunks, none)) ∨
        rest ≠ [] ∧ ∃ cs' chunk, it.chunks.takeFrom fromBack = .ok (cs', some chunk)) ∧
      ∀ ds cs' chunks, drain ds it.chunks = .ok (cs', chunks) → cs'.next = .ok (cs', none) →
        it.chunks.sizeHint.1 ≤ chunks.length ∧
          ∀ n, it.chunks.sizeHint.2 = some n → chunks.length ≤ n := by
  have hd : cs.Denotes (c.bytes.drop pos) := by
    cases hstart with
    | cord hnew =>
      obtain ⟨cs', hnew', hd⟩ := new_spec hc.source
      cases hnew.symm.trans hnew'
      exact hd
    | cursor hrun => exact denotes_of_forward hc.source (hrun.at hc hlen).chunks
  have hone : ∀ it ∈ [(⟨cs, [], []⟩ : Iteration)], ∃ rest, it.Splits (c.bytes.drop pos) rest :=
    List.forall_mem_singleton.mpr ⟨_, hd, by simp, by simp⟩
  obtain ⟨pool, hrun, hpool⟩ := runCalls_spec calls hone
  refine ⟨pool, hrun, fun it hit ↦ ?_⟩
  obtain ⟨rest, hd', hsplit, hne⟩ := hpool it hit
  refine ⟨rest, hsplit, hne, ?_, fun fromBack ↦ ?_, fun ds cs' chunks ↦ sizeHint_spec hd'⟩
  · obtain ⟨cs', chunks, hdrain, hend, hflat⟩ := drain_front_spec hd' le_rfl
    exact ⟨cs', chunks, hdrain, hflat, next_of_nil hend⟩
  · rcases takeFrom_spec fromBack hd' with h | ⟨cs', chunk, rest', htake, hchunk, rfl, -⟩
    · exact .inl h
    · refine .inr ⟨?_, cs', chunk, htake⟩
      cases fromBack <;> simp [hchunk]

/-- An iteration from the second byte on, that starts inside the first flat. -/
theorem ends_exact_pair :
    letI : Target := ⟨64, .inr rfl⟩
    ∃ it pool, Cursor.Run (.tree pairTree) it 1 ∧
      runCalls [.nextBack 0, .clone 0, .next 0] [⟨it.iterChunks, [], []⟩] = .ok pool ∧
      ∀ it ∈ pool, ∃ rest, [2, 3] = it.front.flatten ++ rest ++ it.back.reverse.flatten := by
  let _ : Target := ⟨64, .inr rfl⟩
  have ht := holding_sharedPair
  have hb : (Cord.tree pairTree).Borrowed sharedPair [] {2, 2} := Cursor.borrowed_pair
  have hnew : Cursor.Run (.tree pairTree) ⟨⟨[1, 2], none, 0, 3, ⟨1, pairAt 0⟩⟩, 3⟩ 0 := .new rfl
  have hcall : Cursor.apply (.tree pairTree) ⟨⟨[1, 2], none, 0, 3, ⟨1, pairAt 0⟩⟩, 3⟩ (.advance 1)
      sharedPair = .ok ((⟨⟨[2], none, 1, 2, ⟨1, pairAt 0⟩⟩, 3⟩, .unit), sharedPair) := rfl
  have hrun : Cursor.Run (.tree pairTree) ⟨⟨[2], none, 1, 2, ⟨1, pairAt 0⟩⟩, 3⟩ 1 :=
    hnew.call hb hcall
  obtain ⟨pool, hpool, hsplits⟩ := ends_exact (c := .tree pairTree) ⟨1, by decide, ht.valid⟩
    (by decide) (.cursor hrun) [.nextBack 0, .clone 0, .next 0]
  exact ⟨_, pool, hrun, hpool, fun it hit ↦ (hsplits it hit).imp fun rest h ↦ h.1⟩

end Chunks

end CordRs
