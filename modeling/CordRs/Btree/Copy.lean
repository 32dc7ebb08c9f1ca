import CordRs.Btree.Append
import CordRs.Rep.Index
import CordRs.Rep.Pieces

/-!
# Parts of a tree

The suffix, the prefix or a middle part of a borrowed tree is copied: nodes and data edges that are
needed in full are shared, the nodes along the cuts are new, and the data edges at the cuts are
replaced by substrings. A copy is no higher than it has to be.

A level is one more than the height of a btree node, and zero for a data edge.

## Main definitions

* `CordRs.copySuffix`, `CordRs.copyPrefix`, `CordRs.subTree`.
* `CordRs.Copied`: a tree whose data edges are the given pieces.

## Main results

* `CordRs.wp_copySuffix`, `CordRs.wp_copyPrefix`: the pieces and the level of what is copied.
* `CordRs.Btree.sub_tree_shares`: a part of a tree has the data edges that meet the range.
-/

namespace CordRs

open RefHeap LevelTree

/-- The lengths of edges. -/
def edgeLengths : List Addr → HeapM (List ℕ)
  | [] => pure []
  | edge :: edges => do
    let node ← read edge
    let lens ← edgeLengths edges
    pure (node.length :: lens)

/-- The edge at a slot. -/
def edge (b : Btree) (index : ℕ) : HeapM Addr :=
  match b.edges[index - b.begin]? with
  | some edge => pure edge
  | none => throw .window

/-- A tree with its level. -/
structure CopyResult where
  edge : Addr
  level : ℕ

/-- Copy a node from an offset inside it on, where `len` bytes remain; `child` copies the edge that
is cut. -/
def copySuffixNode (child : Addr → ℕ → ℕ → HeapM Addr) (node : Addr) (offset len : ℕ) :
    HeapM Addr := do
  let b ← asBtree node
  let lens ← edgeLengths b.edges
  let pos ← liftM (indexBeyond b.begin lens offset)
  let sub ← copyToEndFrom node pos.index len
  if pos.n = 0 then
    pure sub
  else
    let begin := pos.index - 1
    let last ← edge b begin
    let l ← read last
    let first ← child last (l.length - pos.n) pos.n
    let s ← asBtree sub
    write sub (.btree { s with begin := begin, edges := first :: s.edges })
    pure sub

/-- Copy a node of the given height from an offset inside it on. -/
def copySuffixDown : ℕ → Addr → ℕ → ℕ → HeapM Addr
  | 0 => copySuffixNode fun edge offset len => do
    let edge ← refRep edge
    makeSubstring edge offset len
  | height + 1 => copySuffixNode (copySuffixDown height)

/-- The suffix of a node of the given height from an offset on, by `child` if it lies within the last
edge. -/
def copySuffixAt (height : ℕ) (child : Addr → ℕ → HeapM CopyResult) (this : Addr) (offset : ℕ) :
    HeapM CopyResult := do
  let b ← asBtree this
  let back ← edgeAt true this
  let l ← read back
  if b.length - offset ≤ l.length then
    child back (l.length - (b.length - offset))
  else if offset = 0 then
    let this ← refRep this
    pure ⟨this, height + 1⟩
  else
    let sub ← copySuffixDown height this offset (b.length - offset)
    pure ⟨sub, height + 1⟩

/-- The suffix of a tree of the given height from an offset on. -/
def copySuffix : ℕ → Addr → ℕ → HeapM CopyResult
  | 0 => copySuffixAt 0 fun back offset => do
    let back ← refRep back
    let edge ← makeSubstringFrom back offset
    pure ⟨edge, 0⟩
  | height + 1 => copySuffixAt (height + 1) (copySuffix height)

/-- Copy the first `n` bytes of a node, which has more; `child` copies the edge that is cut. -/
def copyPrefixNode (child : Addr → ℕ → HeapM Addr) (node : Addr) (n : ℕ) : HeapM Addr := do
  let b ← asBtree node
  let lens ← edgeLengths b.edges
  let pos ← liftM (indexOf b.begin lens n)
  let sub ← copyBeginTo node pos.index n
  if pos.n = 0 then
    pure sub
  else
    let next ← edge b pos.index
    let last ← child next pos.n
    let s ← asBtree sub
    write sub (.btree { s with edges := s.edges ++ [last] })
    pure sub

/-- Copy the first `n` bytes of a node of the given height, which has more. -/
def copyPrefixDown : ℕ → Addr → ℕ → HeapM Addr
  | 0 => copyPrefixNode fun edge n => do
    let edge ← refRep edge
    makeSubstring edge 0 n
  | height + 1 => copyPrefixNode (copyPrefixDown height)

/-- The first `n` bytes of a node of the given height, by `child` if they lie within the first edge
and the tree may become lower. -/
def copyPrefixAt (allowFolding : Bool) (height : ℕ) (child : Addr → ℕ → HeapM CopyResult)
    (this : Addr) (n : ℕ) : HeapM CopyResult := do
  let b ← asBtree this
  let front ← edgeAt false this
  let l ← read front
  if allowFolding ∧ n ≤ l.length then
    child front n
  else if b.length = n then
    let this ← refRep this
    pure ⟨this, height + 1⟩
  else
    let sub ← copyPrefixDown height this n
    pure ⟨sub, height + 1⟩

/-- The first `n` bytes of a tree of the given height. -/
def copyPrefix (allowFolding : Bool) : ℕ → Addr → ℕ → HeapM CopyResult
  | 0 => copyPrefixAt allowFolding 0 fun front n => do
    let front ← refRep front
    let edge ← makeSubstring front 0 n
    pure ⟨edge, 0⟩
  | height + 1 => copyPrefixAt allowFolding (height + 1) (copyPrefix allowFolding height)

/-- Put nodes with a single edge above a tree. -/
def raiseTo : ℕ → Addr → HeapM Addr
  | 0, edge => pure edge
  | n + 1, edge => do
    let edge ← newWith edge
    raiseTo n edge

/-- A node of the given height with two edges and those between the slots they come from. -/
def composeNode (height n : ℕ) (pre : Addr) (between : List Addr) (suf : Addr) : HeapM Addr := do
  let sub ← newNode height
  refAll between
  write sub (.btree ⟨n, height, 0, pre :: between ++ [suf]⟩)
  pure sub

/-- The rest of an edge from an offset on and the first `n` bytes of an edge behind it, with the
height of a node that has both as edges. The edges are below a node of the given height. -/
def partialEdges : ℕ → Addr → ℕ → Addr → ℕ → Bool → HeapM (ℕ × Addr × Addr)
  | 0, left, offset, right, n, _ => do
    let left ← refRep left
    let pre ← makeSubstringFrom left offset
    let right ← refRep right
    let suf ← makeSubstring right 0 n
    pure (0, pre, suf)
  | height + 1, left, offset, right, n, adjacent => do
    let pre ← copySuffix height left offset
    let suf ← copyPrefix true height right n
    -- Without an edge in between, the tree is only as high as its two parts need.
    let level := if adjacent then max pre.level suf.level else height + 1
    let preEdge ← raiseTo (level - pre.level) pre.edge
    let sufEdge ← raiseTo (level - suf.level) suf.edge
    pure (level, preEdge, sufEdge)

/-- The `n` bytes from an offset on of a node of the given height, by `inside` if they lie within an
edge. -/
def subTreeNode (height : ℕ) (inside : Addr → ℕ → ℕ → HeapM Addr) (node : Addr) (offset n : ℕ) :
    HeapM Addr := do
  let b ← asBtree node
  let lens ← edgeLengths b.edges
  let front ← liftM (indexOf b.begin lens offset)
  let left ← edge b front.index
  let l ← read left
  if front.n + n ≤ l.length then
    inside left front.n n
  else
    let back ← liftM (indexBeforeFrom b.begin lens front n)
    let right ← edge b back.index
    let between :=
      (b.edges.drop (front.index + 1 - b.begin)).take (back.index - (front.index + 1))
    let (level, pre, suf) ←
      partialEdges height left front.n right back.n (front.index + 1 = back.index)
    composeNode level n pre between suf

/-- The `n` bytes from an offset on of a tree of the given height. -/
def subTreeDown : ℕ → Addr → ℕ → ℕ → HeapM Addr
  | 0 => subTreeNode 0 fun left offset n => do
    let left ← refRep left
    makeSubstring left offset n
  | height + 1 => subTreeNode (height + 1) (subTreeDown height)

/-- The `n` bytes from an offset on of a borrowed tree, none for no bytes. -/
def subTree (this : Addr) (offset n : ℕ) : HeapM (Option Addr) := do
  if n = 0 then
    pure none
  else
    let b ← asBtree this
    let sub ← subTreeDown b.height this offset n
    pure (some sub)

section Rules

variable [Target] {h h' : Heap Node} {Z : List Addr} {R : Multiset Addr} {k : ℕ} {t : Rep}

/-! ### The pieces of a tree -/

/-- The data edges of a tree as pieces. -/
def Rep.pieces (t : Rep) : List Piece := t.leaves.map Edge.piece

omit [Target] in
@[simp] theorem Rep.pieces_leaf (e : Edge) : Rep.pieces (.leaf e) = [e.piece] := by
  simp [Rep.pieces]

omit [Target] in
@[simp] theorem Rep.pieces_node (hd : BtreeHeader) (es : List Rep) :
    Rep.pieces (.node hd es) = es.flatMap Rep.pieces := by
  rw [Rep.pieces, RoseTree.leaves_node, List.map_flatMap]
  rfl

theorem Rep.Valid.piecesLength_eq (hv : t.Valid k) : piecesLength t.pieces = t.length := by
  rw [Rep.pieces, piecesLength_map, hv.length_leaves]

theorem Rep.Valid.pos_pieces (hv : t.Valid k) : ∀ p ∈ t.pieces, 0 < p.length :=
  pos_map hv.leaves_valid

theorem piecesLength_flatMap {es : List Rep} (hes : ∀ t ∈ es, t.Valid k) :
    piecesLength (es.flatMap Rep.pieces) = (es.map Rep.length).sum := by
  induction es with
  | nil => rfl
  | cons t es ih =>
    obtain ⟨ht, hes⟩ := List.forall_mem_cons.mp hes
    rw [List.flatMap_cons, piecesLength_append, ht.piecesLength_eq, ih hes, List.map_cons,
      List.sum_cons]

theorem pos_flatMap_pieces {es : List Rep} (hes : ∀ t ∈ es, t.Valid k) :
    ∀ p ∈ es.flatMap Rep.pieces, 0 < p.length := by
  intro p hp
  obtain ⟨t, ht, hp⟩ := List.mem_flatMap.mp hp
  exact (hes t ht).pos_pieces p hp

omit [Target] in
theorem cuts_flatMap (es : List Rep) :
    Cuts (es.flatMap RoseTree.leaves) (es.flatMap Rep.pieces) := by
  have := cuts_map (es.flatMap RoseTree.leaves)
  rwa [List.map_flatMap] at this

/-- A new reference to a valid tree whose data edges are the given pieces. -/
structure Copied (h h' : Heap Node) (Z : List Addr) (R : Multiset Addr) (k : ℕ)
    (ps : List Piece) (t : Rep) : Prop where
  owned : Owned h' Z (t.addr ::ₘ R)
  held : t.Held h'
  valid : t.Valid k
  cuts : Cuts t.leaves ps
  frame : Frame Z R h h'

theorem Copied.length_eq {ps : List Piece} (hc : Copied h h' Z R k ps t) :
    t.length = piecesLength ps := by
  rw [← hc.valid.length_leaves, hc.cuts.edgesLength_eq]

/-! ### Nodes -/

omit [Target] in
theorem wp_edgeLengths {ts : List Rep} (hts : ∀ t ∈ ts, t.Held h) {Q : List ℕ → Heap Node → Prop}
    (hQ : Q (ts.map Rep.length) h) : wp (edgeLengths (ts.map Rep.addr)) Q h := by
  induction ts generalizing Q with
  | nil => exact (wp_pure _ _ _).mpr hQ
  | cons t ts ih =>
    rw [List.map_cons, edgeLengths, wp_bind]
    refine wp_read (hts t List.mem_cons_self).node? ?_
    rw [wp_bind]
    refine ih (fun t ht ↦ hts t (List.mem_cons_of_mem _ ht)) ?_
    rwa [wp_pure, t.root_length]

omit [Target] in
theorem wp_edge {hd : BtreeHeader} {as cs : List Rep} {b : Rep} {Q : Addr → Heap Node → Prop}
    (hQ : Q b.addr h) :
    wp (edge (Rep.btree hd (as ++ b :: cs)) (hd.begin + as.length)) Q h := by
  have hget : (Rep.btree hd (as ++ b :: cs)).edges[hd.begin + as.length -
      (Rep.btree hd (as ++ b :: cs)).begin]? = some b.addr := by
    simp [Rep.btree]
  rw [edge, hget]
  exact (wp_pure _ _ _).mpr hQ

theorem wp_copyToEndFrom {hd : BtreeHeader} {as cs : List Rep} {newLength : ℕ} (ho : Owned h Z R)
    (hr : Reach h R hd.addr) (ht : Rep.Held h (.node hd (as ++ cs))) {Q : Addr → Heap Node → Prop}
    (hQ : ∀ c h', Owned h' (c :: Z) (((cs.map Rep.addr : List Addr) : Multiset Addr) + R) →
      Grows h h' → h'.node? c = some (.btree ⟨newLength, hd.height, hd.begin + as.length,
        cs.map Rep.addr⟩) → Q c h') :
    wp (copyToEndFrom hd.addr (hd.begin + as.length) newLength) Q h := by
  obtain ⟨hnode, -⟩ := Rep.held_node.mp ht
  have hdrop : (Rep.btree hd (as ++ cs)).edges.drop (hd.begin + as.length -
      (Rep.btree hd (as ++ cs)).begin) = cs.map Rep.addr := by
    simp [Rep.btree]
  rw [copyToEndFrom, wp_bind]
  refine wp_asBtree hnode ?_
  simp only [hdrop, wp_bind, wp_pure]
  refine wp_alloc ho fun c h₁ ho₁ hg₁ hc₁ ↦ ?_
  refine wp_refAll ho₁ (fun e he ↦ ?_) fun h₂ ho₂ hn₂ ↦
    hQ c h₂ ho₂ (hg₁.trans (Grows.of_node?_eq hn₂)) ((hn₂ c).trans hc₁)
  refine (hr.child hnode ?_).transfer (ho.frame_of_grows hg₁).kept
  obtain ⟨t, ht, rfl⟩ := List.mem_map.mp he
  exact List.mem_map_of_mem (by simp [ht])

theorem wp_copyBeginTo {hd : BtreeHeader} {as cs : List Rep} {newLength : ℕ} (ho : Owned h Z R)
    (hr : Reach h R hd.addr) (ht : Rep.Held h (.node hd (as ++ cs))) {Q : Addr → Heap Node → Prop}
    (hQ : ∀ c h', Owned h' (c :: Z) (((as.map Rep.addr : List Addr) : Multiset Addr) + R) →
      Grows h h' → h'.node? c = some (.btree ⟨newLength, hd.height, hd.begin, as.map Rep.addr⟩) →
      Q c h') :
    wp (copyBeginTo hd.addr (hd.begin + as.length) newLength) Q h := by
  obtain ⟨hnode, -⟩ := Rep.held_node.mp ht
  have htake : (Rep.btree hd (as ++ cs)).edges.take (hd.begin + as.length -
      (Rep.btree hd (as ++ cs)).begin) = as.map Rep.addr := by
    simp [Rep.btree]
  rw [copyBeginTo, wp_bind]
  refine wp_asBtree hnode ?_
  simp only [htake, wp_bind, wp_pure]
  refine wp_alloc ho fun c h₁ ho₁ hg₁ hc₁ ↦ ?_
  refine wp_refAll ho₁ (fun e he ↦ ?_) fun h₂ ho₂ hn₂ ↦
    hQ c h₂ ho₂ (hg₁.trans (Grows.of_node?_eq hn₂)) ((hn₂ c).trans hc₁)
  refine (hr.child hnode ?_).transfer (ho.frame_of_grows hg₁).kept
  obtain ⟨t, ht, rfl⟩ := List.mem_map.mp he
  exact List.mem_map_of_mem (by simp [ht])

/-- A new reference to a part of a borrowed data edge. -/
theorem wp_refSubstring {e : Edge} {offset n : ℕ} (ho : Owned h Z R) (hr : Reach h R e.addr)
    (he : e.Held h) (hv : e.Valid) (hn : 0 < n) (hle : offset + n ≤ e.length)
    {Q : Addr → Heap Node → Prop}
    (hQ : ∀ (e' : Edge) h', Copied h h' Z R 0 [⟨e, offset, n⟩] (.leaf e') → Q e'.addr h') :
    wp (refRep e.addr) (fun e' h₁ ↦ wp (makeSubstring e' offset n) Q h₁) h := by
  refine wp_refRep ho hr fun h₁ ho₁ hn₁ ↦ ?_
  refine wp_makeSubstring ho₁ ⟨(hn₁ _).trans he.1, (hn₁ _).trans he.2⟩ hv hn hle
    fun e' h₂ he' hpart ho₂ hf₂ ↦ ?_
  have hheld : Rep.Held h₂ (.leaf e') := Rep.held_leaf.mpr he'
  obtain ⟨i, hi⟩ := hheld.valid ho₂ (.root (Multiset.mem_cons_self _ _))
  refine hQ e' h₂ ⟨ho₂, hheld, (Rep.Valid.leaf_iff.mp hi).1 ▸ hi, ?_,
    (Owned.frame_of_node?_eq hn₁).trans hf₂⟩
  rw [RoseTree.leaves_leaf]
  exact cuts_singleton hpart

/-- A new reference to a borrowed tree. -/
theorem wp_refTree (ho : Owned h Z R) (hr : Reach h R t.addr) (ht : t.Held h) (hv : t.Valid k)
    {Q : Addr → Heap Node → Prop}
    (hQ : ∀ h', Copied h h' Z R k t.pieces t → Q t.addr h') : wp (refRep t.addr) Q h := by
  refine wp_refRep ho hr fun h₁ ho₁ hn₁ ↦ hQ h₁ ⟨ho₁, ?_, hv, cuts_map _,
    Owned.frame_of_node?_eq hn₁⟩
  exact ht.grows (Grows.of_node?_eq hn₁)

/-! ### Suffixes -/

/-- A copy of a node whose first edges are cut off. -/
private theorem wp_copySuffixNode {child : Addr → ℕ → ℕ → HeapM Addr} {hd : BtreeHeader}
    {es : List Rep} {offset len : ℕ}
    (hchild : ∀ b ∈ es, ∀ {h Z R} {offset len : ℕ} {Q : Addr → Heap Node → Prop}, Owned h Z R →
      Reach h R b.addr → b.Held h → 0 < offset → offset < b.length → len = b.length - offset →
      (∀ s h', Copied h h' Z R k (dropPieces b.pieces offset) s → Q s.addr h') →
      wp (child b.addr offset len) Q h)
    (ho : Owned h Z R) (hr : Reach h R hd.addr) (ht : Rep.Held h (.node hd es))
    (hv : Rep.Valid (k + 1) (.node hd es)) (hpos : 0 < offset) (hlt : offset < hd.length)
    (hlen : len = hd.length - offset) {Q : Addr → Heap Node → Prop}
    (hQ : ∀ s h', Copied h h' Z R (k + 1) (dropPieces (es.flatMap Rep.pieces) offset) s →
      Q s.addr h') :
    wp (copySuffixNode child hd.addr offset len) Q h := by
  obtain ⟨hnode, hes⟩ := Rep.held_node.mp ht
  obtain ⟨hk, -, hcap, hsum, hesv⟩ := Rep.Valid.node_iff.mp hv
  obtain rfl : k = hd.height := Nat.succ_injective hk
  obtain ⟨as, b, cs, rfl, hlt', hle', hpos'⟩ :=
    indexBeyond_spec Rep.length hd.begin hpos (hsum ▸ hlt.le)
  rw [copySuffixNode, wp_bind]
  refine wp_asBtree hnode ?_
  rw [Rep.btree_edges, wp_bind]
  refine wp_edgeLengths hes ?_
  rw [Rep.btree_begin, wp_bind, wp_liftM]
  refine ⟨_, hpos', ?_⟩
  have hsplit : as ++ b :: cs = (as ++ [b]) ++ cs := by simp
  have hbv := hesv b (by simp)
  have hcv : ∀ t ∈ cs, t.Valid hd.height := fun t ht ↦ hesv t (by simp [ht])
  have hasv : ∀ t ∈ as, t.Valid hd.height := fun t ht ↦ hesv t (by simp [ht])
  have hdrop : dropPieces ((as ++ b :: cs).flatMap Rep.pieces) offset =
      dropPieces (b.pieces ++ cs.flatMap Rep.pieces) (offset - (as.map Rep.length).sum) := by
    rw [List.flatMap_append, dropPieces_append_of_le, piecesLength_flatMap hasv, List.flatMap_cons]
    rw [piecesLength_flatMap hasv]
    exact hlt'.le
  rw [List.map_append, List.sum_append, List.map_cons, List.sum_cons] at hsum
  rw [List.length_append, List.length_cons] at hcap
  have hindex : hd.begin + as.length + 1 = hd.begin + (as ++ [b]).length := by
    simp [add_assoc]
  rw [hsplit] at ht
  simp only [hindex]
  rw [wp_bind]
  refine wp_copyToEndFrom ho hr ht fun c h₁ ho₁ hg₁ hc₁ ↦ ?_
  have hcs₁ : ∀ t ∈ cs, t.Held h₁ := fun t ht ↦ (hes t (by simp [ht])).grows hg₁
  by_cases hn : (as.map Rep.length).sum + b.length - offset = 0
  · -- The cut is between two edges.
    rw [if_pos hn, wp_pure]
    have hne : cs ≠ [] := by
      rintro rfl
      rw [List.map_nil, List.sum_nil] at hsum
      omega
    obtain ⟨ho₂, hheld, hv₂⟩ := closeNode ho₁ hc₁ (fun t ht ↦ ⟨hcs₁ t ht, hcv t ht⟩) hne
      (by simp only [List.length_append, List.length_singleton]; omega) (by omega)
    refine hQ (.node ⟨c, len, hd.height, _⟩ cs) h₁ ⟨ho₂, hheld, hv₂, ?_, ho.frame_of_grows hg₁⟩
    rw [hdrop, dropPieces_append_of_le (by rw [hbv.piecesLength_eq]; omega), hbv.piecesLength_eq,
      show offset - (as.map Rep.length).sum - b.length = 0 by omega,
      dropPieces_zero (pos_flatMap_pieces hcv), RoseTree.leaves_node]
    exact cuts_flatMap cs
  · rw [if_neg hn]
    simp only [← hindex, Nat.add_sub_cancel]
    rw [wp_bind]
    refine wp_edge ?_
    rw [wp_bind]
    refine wp_read ((hes b (by simp)).grows hg₁).node? ?_
    rw [wp_bind, b.root_length]
    have hreach : Reach h₁ (((cs.map Rep.addr : List Addr) : Multiset Addr) + R) b.addr :=
      ((hr.child hnode (by
        simp [Pointers.children, Node.children])).transfer (ho.frame_of_grows hg₁).kept).mono
          (Multiset.le_add_left _ _)
    refine hchild b (by simp) ho₁ hreach ((hes b (by simp)).grows hg₁) (by omega) (by omega)
      (by omega) fun f h₂ hf ↦ ?_
    have hc₂ := (hf.frame.opened c List.mem_cons_self).trans hc₁
    have hcZ := (List.nodup_cons.mp ho₁.nodup).1
    rw [wp_bind]
    refine wp_asBtree hc₂ ?_
    rw [wp_bind]
    refine wp_write hf.owned List.mem_cons_self fun h₃ ho₃ hne₃ hc₃ ↦ ?_
    have hf₃ : Frame Z _ h₂ h₃ := hf.owned.frame_of_opened List.mem_cons_self hcZ hne₃
    have hts : ∀ t ∈ f :: cs, Rep.Held h₃ t ∧ Rep.Valid hd.height t := by
      refine List.forall_mem_cons.mpr ⟨⟨hf.held.frame hf₃ (.root (Multiset.mem_cons_self _ _)),
        hf.valid⟩, fun t ht ↦ ⟨?_, hcv t ht⟩⟩
      have hmem : t.addr ∈ ((cs.map Rep.addr : List Addr) : Multiset Addr) + R :=
        Multiset.mem_add.mpr (.inl (Multiset.mem_coe.mpr (List.mem_map_of_mem ht)))
      exact ((hcs₁ t ht).frame hf.frame (.root hmem)).frame hf₃
        (.root (Multiset.mem_cons_of_mem hmem))
    rw [show b.length - ((as.map Rep.length).sum + b.length - offset) =
      offset - (as.map Rep.length).sum by omega] at hf
    have hflen := hf.length_eq
    rw [piecesLength_dropPieces, hbv.piecesLength_eq] at hflen
    obtain ⟨ho₄, hheld, hv₄⟩ := closeNode (R := R) (ho₃.congr (by
      rw [List.map_cons, coe_cons_add])) hc₃ hts (List.cons_ne_nil _ _)
      (by rw [List.length_cons]; omega) (by
        rw [List.map_cons, List.sum_cons]
        change len = _
        omega)
    rw [wp_pure]
    refine hQ (.node ⟨c, len, hd.height, _⟩ (f :: cs)) h₃ ⟨ho₄, hheld, hv₄, ?_,
      (ho.frame_of_grows hg₁).trans (((hf.frame.mono (List.subset_cons_self _ _)
        (Multiset.le_add_left _ _))).trans (hf₃.mono (List.Subset.refl _)
          ((Multiset.le_add_left _ _).trans (Multiset.le_cons_self _ _))))⟩
    rw [hdrop, dropPieces_append_of_lt (by rw [hbv.piecesLength_eq]; omega), RoseTree.leaves_node,
      List.flatMap_cons]
    exact hf.cuts.append (cuts_flatMap cs)

/-- A copy of a node of a tree whose first edges are cut off. -/
private theorem wp_copySuffixDown {offset len : ℕ} (ho : Owned h Z R) (hr : Reach h R t.addr)
    (ht : t.Held h) (hv : t.Valid (k + 1)) (hpos : 0 < offset) (hlt : offset < t.length)
    (hlen : len = t.length - offset) {Q : Addr → Heap Node → Prop}
    (hQ : ∀ s h', Copied h h' Z R (k + 1) (dropPieces t.pieces offset) s → Q s.addr h') :
    wp (copySuffixDown k t.addr offset len) Q h := by
  induction k generalizing h Z R t offset len Q with
  | zero =>
    obtain ⟨hd, es, rfl⟩ := hv.exists_node
    rw [Rep.pieces_node] at hQ
    refine wp_copySuffixNode (fun b hb h Z R offset len Q ho hr hb' hpos hlt hlen hQ ↦ ?_) ho hr ht hv
      hpos hlt hlen hQ
    obtain ⟨e, rfl, he⟩ := Rep.Valid.zero_iff.mp (hv.edges b hb)
    rw [Rep.length_leaf] at hlt hlen
    rw [wp_bind]
    refine wp_refSubstring ho hr (Rep.held_leaf.mp hb') he (by omega) (by omega)
      fun e' h' hc ↦ hQ (.leaf e') h' ?_
    rw [Rep.pieces_leaf, dropPieces_piece hlt, ← hlen]
    exact hc
  | succ k ih =>
    obtain ⟨hd, es, rfl⟩ := hv.exists_node
    rw [Rep.pieces_node] at hQ
    refine wp_copySuffixNode (fun b hb h Z R offset len Q ho hr hb' hpos hlt hlen hQ ↦ ?_) ho hr ht hv
      hpos hlt hlen hQ
    exact ih ho hr hb' (hv.edges b hb) hpos hlt hlen hQ

/-- A new reference to the rest of a borrowed data edge. -/
theorem wp_refSubstringFrom {e : Edge} {offset : ℕ} (ho : Owned h Z R) (hr : Reach h R e.addr)
    (he : e.Held h) (hv : e.Valid) (hlt : offset < e.length) {Q : Addr → Heap Node → Prop}
    (hQ : ∀ (e' : Edge) h', Copied h h' Z R 0 [⟨e, offset, e.length - offset⟩] (.leaf e') →
      Q e'.addr h') :
    wp (refRep e.addr) (fun e' h₁ ↦ wp (makeSubstringFrom e' offset) Q h₁) h := by
  refine wp_refRep ho hr fun h₁ ho₁ hn₁ ↦ ?_
  refine wp_makeSubstringFrom ho₁ ⟨(hn₁ _).trans he.1, (hn₁ _).trans he.2⟩ hv hlt
    fun e' h₂ he' hpart ho₂ hf₂ ↦ ?_
  have hheld : Rep.Held h₂ (.leaf e') := Rep.held_leaf.mpr he'
  obtain ⟨i, hi⟩ := hheld.valid ho₂ (.root (Multiset.mem_cons_self _ _))
  refine hQ e' h₂ ⟨ho₂, hheld, (Rep.Valid.leaf_iff.mp hi).1 ▸ hi, ?_,
    (Owned.frame_of_node?_eq hn₁).trans hf₂⟩
  rw [RoseTree.leaves_leaf]
  exact cuts_singleton hpart

private theorem wp_copySuffixAt {child : Addr → ℕ → HeapM CopyResult} {offset : ℕ}
    {Q : CopyResult → Heap Node → Prop}
    (hchild : ∀ {b : Rep} {offset}, Reach h R b.addr → b.Held h → b.Valid k → offset < b.length →
      (∀ s j h', j ≤ k → Copied h h' Z R j (dropPieces b.pieces offset) s → Q ⟨s.addr, j⟩ h') →
      wp (child b.addr offset) Q h)
    (ho : Owned h Z R) (hr : Reach h R t.addr) (ht : t.Held h) (hv : t.Valid (k + 1))
    (hlt : offset < t.length)
    (hQ : ∀ s j h', j ≤ k + 1 → Copied h h' Z R j (dropPieces t.pieces offset) s →
      Q ⟨s.addr, j⟩ h') :
    wp (copySuffixAt k child t.addr offset) Q h := by
  obtain ⟨hd, es, rfl⟩ := hv.exists_node
  obtain ⟨hnode, hes⟩ := Rep.held_node.mp ht
  obtain ⟨-, hne, -, hsum, -⟩ := Rep.Valid.node_iff.mp hv
  have hev := hv.edges
  obtain ⟨as, b, rfl⟩ : ∃ (as : List Rep) (b : Rep), es = join true as [b] := exists_join true hne
  have hplug : plug true ([] ++ [⟨hd, as⟩]) b = .node hd (join true as [b]) := rfl
  have hbheld := hes b (by simp)
  have hasv : ∀ t ∈ as, t.Valid k := fun t ht ↦ hev t (by simp [ht])
  rw [Rep.length_node] at hlt
  rw [map_join, sum_join, List.map_singleton, List.sum_singleton] at hsum
  rw [copySuffixAt, wp_bind]
  refine wp_asBtree hnode ?_
  rw [wp_bind]
  refine wp_edgeAt (c := ⟨hd, as⟩) (hplug ▸ ht) fun _ ↦ ?_
  rw [plug_nil, wp_bind]
  refine wp_read hbheld.node? ?_
  rw [b.root_length, Rep.btree_length]
  by_cases hle : hd.length - offset ≤ b.length
  · rw [if_pos hle]
    refine hchild (hr.child hnode (by simp [Pointers.children, Node.children])) hbheld
      (hev b (by simp)) (by omega) fun s j h' hj hc ↦ hQ s j h' (hj.trans (Nat.le_succ k)) ?_
    rw [Rep.pieces_node, join, if_pos rfl, List.flatMap_append, dropPieces_append_of_le,
      piecesLength_flatMap hasv, List.flatMap_singleton]
    · rwa [show b.length - (hd.length - offset) = offset - (as.map Rep.length).sum by omega] at hc
    · rw [piecesLength_flatMap hasv]
      omega
  · rw [if_neg hle]
    by_cases hoff : offset = 0
    · rw [if_pos hoff, wp_bind]
      refine wp_refTree ho hr ht hv fun h' hc ↦ ?_
      rw [wp_pure]
      exact hQ _ _ h' le_rfl (by rwa [hoff, dropPieces_zero hv.pos_pieces])
    · rw [if_neg hoff, wp_bind]
      refine wp_copySuffixDown ho hr ht hv (Nat.pos_of_ne_zero hoff) hlt rfl fun s h' hc ↦ ?_
      rw [wp_pure]
      exact hQ s _ h' le_rfl hc

/-- The suffix of a tree is no higher than the tree. -/
theorem wp_copySuffix {offset : ℕ} (ho : Owned h Z R) (hr : Reach h R t.addr) (ht : t.Held h)
    (hv : t.Valid (k + 1)) (hlt : offset < t.length) {Q : CopyResult → Heap Node → Prop}
    (hQ : ∀ s j h', j ≤ k + 1 → Copied h h' Z R j (dropPieces t.pieces offset) s →
      Q ⟨s.addr, j⟩ h') :
    wp (copySuffix k t.addr offset) Q h := by
  induction k generalizing t offset Q with
  | zero =>
    refine wp_copySuffixAt (fun hr hb hv hlt hQ ↦ ?_) ho hr ht hv hlt hQ
    obtain ⟨e, rfl, he⟩ := Rep.Valid.zero_iff.mp hv
    rw [wp_bind]
    simp only [wp_bind, wp_pure]
    refine wp_refSubstringFrom ho hr (Rep.held_leaf.mp hb) he hlt fun e' h' hc ↦
      hQ (.leaf e') 0 h' le_rfl ?_
    rw [Rep.pieces_leaf, dropPieces_piece hlt]
    exact hc
  | succ k ih =>
    exact wp_copySuffixAt (fun hr hb hv hlt hQ ↦ ih hr hb hv hlt hQ) ho hr ht hv hlt hQ

/-! ### Prefixes -/

/-- The edges of a node before the cut, the cut edge and those behind it. -/
theorem takePieces_edges {as cs : List Rep} {b : Rep} {n : ℕ}
    (hes : ∀ t ∈ as ++ b :: cs, t.Valid k) (hle : (as.map Rep.length).sum ≤ n)
    (hlt : n - (as.map Rep.length).sum < b.length) :
    takePieces ((as ++ b :: cs).flatMap Rep.pieces) n =
      as.flatMap Rep.pieces ++ takePieces b.pieces (n - (as.map Rep.length).sum) := by
  have has : piecesLength (as.flatMap Rep.pieces) = (as.map Rep.length).sum :=
    piecesLength_flatMap fun t ht ↦ hes t (by simp [ht])
  rw [List.flatMap_append, takePieces_append_of_le (has.trans_le hle), has, List.flatMap_cons,
    takePieces_append_of_lt]
  rwa [(hes b (by simp)).piecesLength_eq]

/-- A copy of a node whose last edges are cut off. -/
private theorem wp_copyPrefixNode {child : Addr → ℕ → HeapM Addr} {hd : BtreeHeader}
    {es : List Rep} {n : ℕ}
    (hchild : ∀ b ∈ es, ∀ {h Z R} {n : ℕ} {Q : Addr → Heap Node → Prop}, Owned h Z R →
      Reach h R b.addr → b.Held h → 0 < n → n < b.length →
      (∀ s h', Copied h h' Z R k (takePieces b.pieces n) s →
        windows s.shape = cropOutline (windows b.shape) n → Q s.addr h') →
      wp (child b.addr n) Q h)
    (ho : Owned h Z R) (hr : Reach h R hd.addr) (ht : Rep.Held h (.node hd es))
    (hv : Rep.Valid (k + 1) (.node hd es)) (hpos : 0 < n) (hlt : n < hd.length)
    {Q : Addr → Heap Node → Prop}
    (hQ : ∀ s h', Copied h h' Z R (k + 1) (takePieces (es.flatMap Rep.pieces) n) s →
      windows s.shape = cropOutline (windows (Rep.shape (.node hd es))) n → Q s.addr h') :
    wp (copyPrefixNode child hd.addr n) Q h := by
  obtain ⟨hnode, hes⟩ := Rep.held_node.mp ht
  obtain ⟨hk, -, hcap, hsum, hesv⟩ := Rep.Valid.node_iff.mp hv
  obtain rfl : k = hd.height := Nat.succ_injective hk
  obtain ⟨as, b, cs, rfl, hle', hlt', hpos'⟩ := indexOf_spec Rep.length hd.begin (hsum ▸ hlt)
  have hcrop := @cropOutline_node _ _ hd _ _ _ _ hesv hle' hlt'
  have htake := takePieces_edges hesv hle' hlt'
  have hbv := hesv b (by simp)
  have hasv : ∀ t ∈ as, t.Valid hd.height := fun t ht ↦ hesv t (by simp [ht])
  rw [copyPrefixNode, wp_bind]
  refine wp_asBtree hnode ?_
  rw [Rep.btree_edges, wp_bind]
  refine wp_edgeLengths hes ?_
  rw [Rep.btree_begin, wp_bind, wp_liftM]
  refine ⟨_, hpos', ?_⟩
  rw [List.length_append, List.length_cons] at hcap
  rw [wp_bind]
  refine wp_copyBeginTo ho hr ht fun c h₁ ho₁ hg₁ hc₁ ↦ ?_
  have has₁ : ∀ t ∈ as, t.Held h₁ := fun t ht ↦ (hes t (by simp [ht])).grows hg₁
  by_cases hn : n - (as.map Rep.length).sum = 0
  · -- The cut is between two edges.
    rw [if_pos hn, wp_pure]
    have hne : as ≠ [] := by
      rintro rfl
      rw [List.map_nil, List.sum_nil] at hn
      omega
    obtain ⟨ho₂, hheld, hv₂⟩ := closeNode ho₁ hc₁ (fun t ht ↦ ⟨has₁ t ht, hasv t ht⟩) hne
      (by omega) (by omega)
    refine hQ (.node ⟨c, n, hd.height, hd.begin⟩ as) h₁
      ⟨ho₂, hheld, hv₂, ?_, ho.frame_of_grows hg₁⟩ ?_
    · rw [htake, hn, takePieces_zero hbv.pos_pieces, List.append_nil, RoseTree.leaves_node]
      exact cuts_flatMap as
    · rw [hcrop, if_pos hn, List.append_nil, Rep.windows_shape_node]
  · rw [if_neg hn, wp_bind]
    refine wp_edge ?_
    rw [wp_bind]
    have hreach : Reach h₁ (((as.map Rep.addr : List Addr) : Multiset Addr) + R) b.addr :=
      ((hr.child hnode (by
        simp [Pointers.children, Node.children])).transfer (ho.frame_of_grows hg₁).kept).mono
          (Multiset.le_add_left _ _)
    refine hchild b (by simp) ho₁ hreach ((hes b (by simp)).grows hg₁) (Nat.pos_of_ne_zero hn) hlt'
      fun f h₂ hf hfshape ↦ ?_
    have hc₂ := (hf.frame.opened c List.mem_cons_self).trans hc₁
    have hcZ := (List.nodup_cons.mp ho₁.nodup).1
    rw [wp_bind]
    refine wp_asBtree hc₂ ?_
    rw [wp_bind]
    refine wp_write hf.owned List.mem_cons_self fun h₃ ho₃ hne₃ hc₃ ↦ ?_
    have hf₃ : Frame Z _ h₂ h₃ := hf.owned.frame_of_opened List.mem_cons_self hcZ hne₃
    have hts : ∀ t ∈ as ++ [f], Rep.Held h₃ t ∧ Rep.Valid hd.height t := by
      intro t ht
      rcases List.mem_append.mp ht with ht | ht
      · have hmem : t.addr ∈ ((as.map Rep.addr : List Addr) : Multiset Addr) + R :=
          Multiset.mem_add.mpr (.inl (Multiset.mem_coe.mpr (List.mem_map_of_mem ht)))
        exact ⟨((has₁ t ht).frame hf.frame (.root hmem)).frame hf₃
          (.root (Multiset.mem_cons_of_mem hmem)), hasv t ht⟩
      · obtain rfl := List.mem_singleton.mp ht
        exact ⟨hf.held.frame hf₃ (.root (Multiset.mem_cons_self _ _)), hf.valid⟩
    have hflen := hf.length_eq
    rw [piecesLength_takePieces, hbv.piecesLength_eq, min_eq_left hlt'.le] at hflen
    obtain ⟨ho₄, hheld, hv₄⟩ := closeNode (R := R) (ho₃.congr (by
      rw [List.map_append, ← Multiset.coe_add, List.map_singleton, Multiset.coe_singleton,
        add_right_comm, ← Multiset.singleton_add, add_comm]))
      (by rw [List.map_append]; exact hc₃) hts (by simp)
      (by simp only [List.length_append, List.length_singleton]; omega) (by
        rw [List.map_append, List.sum_append, List.map_singleton, List.sum_singleton]
        change n = _
        omega)
    rw [wp_pure]
    refine hQ (.node ⟨c, n, hd.height, hd.begin⟩ (as ++ [f])) h₃ ⟨ho₄, hheld, hv₄, ?_,
      (ho.frame_of_grows hg₁).trans (((hf.frame.mono (List.subset_cons_self _ _)
        (Multiset.le_add_left _ _))).trans (hf₃.mono (List.Subset.refl _)
          ((Multiset.le_add_left _ _).trans (Multiset.le_cons_self _ _))))⟩ ?_
    · rw [htake, RoseTree.leaves_node, List.flatMap_append, List.flatMap_singleton]
      exact (cuts_flatMap as).append hf.cuts
    · rw [hcrop, if_neg hn, Rep.windows_shape_node, List.map_append, List.map_singleton, hfshape]

/-- A copy of a node of a tree whose last edges are cut off keeps all levels. -/
private theorem wp_copyPrefixDown {n : ℕ} (ho : Owned h Z R) (hr : Reach h R t.addr)
    (ht : t.Held h) (hv : t.Valid (k + 1)) (hpos : 0 < n) (hlt : n < t.length)
    {Q : Addr → Heap Node → Prop}
    (hQ : ∀ s h', Copied h h' Z R (k + 1) (takePieces t.pieces n) s →
      windows s.shape = cropOutline (windows t.shape) n → Q s.addr h') :
    wp (copyPrefixDown k t.addr n) Q h := by
  induction k generalizing h Z R t n Q with
  | zero =>
    obtain ⟨hd, es, rfl⟩ := hv.exists_node
    rw [Rep.pieces_node] at hQ
    refine wp_copyPrefixNode (fun b hb h Z R n Q ho hr hb' hpos hlt hQ ↦ ?_) ho hr ht hv hpos hlt hQ
    obtain ⟨e, rfl, he⟩ := Rep.Valid.zero_iff.mp (hv.edges b hb)
    rw [Rep.length_leaf] at hlt
    rw [wp_bind]
    refine wp_refSubstring ho hr (Rep.held_leaf.mp hb') he hpos (by omega)
      fun e' h' hc ↦ hQ (.leaf e') h' ?_ ?_
    · rwa [Rep.pieces_leaf, takePieces_piece hpos hlt.le]
    · have hlen := hc.length_eq
      rw [piecesLength_cons, piecesLength_nil, Nat.add_zero, Rep.length_leaf] at hlen
      rw [Rep.windows_shape_leaf, Rep.windows_shape_leaf, cropOutline, min_eq_left hlt.le, hlen]
  | succ k ih =>
    obtain ⟨hd, es, rfl⟩ := hv.exists_node
    rw [Rep.pieces_node] at hQ
    refine wp_copyPrefixNode (fun b hb h Z R n Q ho hr hb' hpos hlt hQ ↦ ?_) ho hr ht hv hpos hlt hQ
    exact ih ho hr hb' (hv.edges b hb) hpos hlt hQ

private theorem wp_copyPrefixAt {allow : Bool} {child : Addr → ℕ → HeapM CopyResult} {n : ℕ}
    {Q : CopyResult → Heap Node → Prop}
    (hchild : ∀ {b : Rep} {n}, Reach h R b.addr → b.Held h → b.Valid k → 0 < n → n ≤ b.length →
      (∀ s j h', j ≤ k → Copied h h' Z R j (takePieces b.pieces n) s → Q ⟨s.addr, j⟩ h') →
      wp (child b.addr n) Q h)
    (ho : Owned h Z R) (hr : Reach h R t.addr) (ht : t.Held h) (hv : t.Valid (k + 1))
    (hpos : 0 < n) (hle : n ≤ t.length)
    (hQ : ∀ s j h', j ≤ k + 1 → Copied h h' Z R j (takePieces t.pieces n) s → Q ⟨s.addr, j⟩ h') :
    wp (copyPrefixAt allow k child t.addr n) Q h := by
  obtain ⟨hd, es, rfl⟩ := hv.exists_node
  obtain ⟨hnode, hes⟩ := Rep.held_node.mp ht
  obtain ⟨-, hne, -, -, -⟩ := Rep.Valid.node_iff.mp hv
  have hev := hv.edges
  obtain ⟨cs, b, rfl⟩ : ∃ (cs : List Rep) (b : Rep), es = join false cs [b] :=
    exists_join false hne
  have hplug : plug false ([] ++ [⟨hd, cs⟩]) b = .node hd (join false cs [b]) := rfl
  have hbheld := hes b (by simp)
  have hbv := hev b (by simp)
  rw [copyPrefixAt, wp_bind]
  refine wp_asBtree hnode ?_
  rw [wp_bind]
  refine wp_edgeAt (c := ⟨hd, cs⟩) (hplug ▸ ht) fun _ ↦ ?_
  rw [plug_nil, wp_bind]
  refine wp_read hbheld.node? ?_
  rw [b.root_length, Rep.btree_length]
  by_cases hfold : allow ∧ n ≤ b.length
  · rw [if_pos hfold]
    obtain ⟨-, hfold⟩ := hfold
    refine hchild (hr.child hnode (by simp [Pointers.children, Node.children])) hbheld hbv hpos hfold
      fun s j h' hj hc ↦ hQ s j h' (hj.trans (Nat.le_succ k)) ?_
    rwa [Rep.pieces_node, join, if_neg Bool.false_ne_true, List.singleton_append, List.flatMap_cons,
      takePieces_append_left (hfold.trans_eq hbv.piecesLength_eq.symm)
        (pos_flatMap_pieces fun t ht ↦ hev t (by simp [ht]))]
  · rw [if_neg hfold]
    by_cases hall : hd.length = n
    · rw [if_pos hall, wp_bind]
      refine wp_refTree ho hr ht hv fun h' hc ↦ ?_
      rw [wp_pure]
      exact hQ _ _ h' le_rfl (by rwa [takePieces_of_le (hv.piecesLength_eq.trans hall).le])
    · rw [if_neg hall, wp_bind]
      refine wp_copyPrefixDown ho hr ht hv hpos (lt_of_le_of_ne hle fun h ↦ hall h.symm)
        fun s h' hc _ ↦ ?_
      rw [wp_pure]
      exact hQ s _ h' le_rfl hc

/-- The prefix of a tree is no higher than the tree. -/
theorem wp_copyPrefix {allow : Bool} {n : ℕ} (ho : Owned h Z R) (hr : Reach h R t.addr) (ht : t.Held h)
    (hv : t.Valid (k + 1)) (hpos : 0 < n) (hle : n ≤ t.length) {Q : CopyResult → Heap Node → Prop}
    (hQ : ∀ s j h', j ≤ k + 1 → Copied h h' Z R j (takePieces t.pieces n) s → Q ⟨s.addr, j⟩ h') :
    wp (copyPrefix allow k t.addr n) Q h := by
  induction k generalizing t n Q with
  | zero =>
    refine wp_copyPrefixAt (fun hr hb hv hpos hle hQ ↦ ?_) ho hr ht hv hpos hle hQ
    obtain ⟨e, rfl, he⟩ := Rep.Valid.zero_iff.mp hv
    rw [Rep.length_leaf] at hle
    simp only [wp_bind, wp_pure]
    refine wp_refSubstring ho hr (Rep.held_leaf.mp hb) he hpos (by omega) fun e' h' hc ↦
      hQ (.leaf e') 0 h' le_rfl ?_
    rwa [Rep.pieces_leaf, takePieces_piece hpos hle]
  | succ k ih =>
    exact wp_copyPrefixAt (fun hr hb hv hpos hle hQ ↦ ih hr hb hv hpos hle hQ) ho hr ht hv hpos hle hQ

/-- The prefix of a tree that may not become lower has its windows. -/
theorem wp_copyPrefix_crop {n : ℕ} (ho : Owned h Z R) (hr : Reach h R t.addr) (ht : t.Held h)
    (hv : t.Valid (k + 1)) (hpos : 0 < n) (hlt : n < t.length) {Q : CopyResult → Heap Node → Prop}
    (hQ : ∀ s h', Copied h h' Z R (k + 1) (takePieces t.pieces n) s →
      windows s.shape = cropOutline (windows t.shape) n → Q ⟨s.addr, k + 1⟩ h') :
    wp (copyPrefix false k t.addr n) Q h := by
  have hrun : ∀ child, wp (copyPrefixAt false k child t.addr n) Q h := by
    intro child
    obtain ⟨hd, es, rfl⟩ := hv.exists_node
    obtain ⟨hnode, hes⟩ := Rep.held_node.mp ht
    obtain ⟨-, hne, -⟩ := Rep.Valid.node_iff.mp hv
    obtain ⟨cs, b, rfl⟩ : ∃ (cs : List Rep) (b : Rep), es = join false cs [b] :=
      exists_join false hne
    have hplug : plug false ([] ++ [⟨hd, cs⟩]) b = .node hd (join false cs [b]) := rfl
    rw [copyPrefixAt, wp_bind]
    refine wp_asBtree hnode ?_
    rw [wp_bind]
    refine wp_edgeAt (c := ⟨hd, cs⟩) (hplug ▸ ht) fun _ ↦ ?_
    rw [plug_nil, wp_bind]
    refine wp_read (hes b (by simp)).node? ?_
    rw [if_neg fun hand ↦ Bool.false_ne_true hand.1, Rep.btree_length,
      if_neg (show hd.length ≠ n from hlt.ne'), wp_bind]
    refine wp_copyPrefixDown ho hr ht hv hpos hlt fun s h' hc hshape ↦ ?_
    rw [wp_pure]
    exact hQ s h' hc hshape
  cases k with
  | zero => exact hrun _
  | succ k => exact hrun _

/-! ### Middle parts -/

/-- Nodes with a single edge are put above a tree. -/
private theorem wp_raiseTo {j n : ℕ} (ho : Owned h Z (t.addr ::ₘ R)) (ht : t.Held h)
    (hv : t.Valid j) (hj : j + n ≤ maxDepth + 1) {Q : Addr → Heap Node → Prop}
    (hQ : ∀ (s : Rep) h', Owned h' Z (s.addr ::ₘ R) → s.Held h' → s.Valid (j + n) →
      s.leaves = t.leaves → Frame Z R h h' → Q s.addr h') :
    wp (raiseTo n t.addr) Q h := by
  induction n generalizing h t j with
  | zero => exact (wp_pure _ _ _).mpr (hQ t h ho ht hv rfl (.refl h))
  | succ n ih =>
    rw [raiseTo, wp_bind]
    refine wp_newWith ho ht.node? (hv.root_level.trans_le (by omega)) fun c h₁ ho₁ hg₁ hc₁ ↦ ?_
    rw [t.root_length, hv.root_level] at hc₁
    have hedges : Owned h₁ (c :: Z) ((([t].map Rep.addr : List Addr) : Multiset Addr) + R) :=
      ho₁.congr (by simp)
    obtain ⟨ho₂, hheld, hv₂⟩ := closeNode hedges hc₁
      (by simpa using ⟨ht.grows hg₁, hv⟩) (List.cons_ne_nil _ _) (Nat.le_of_ble_eq_true rfl) (by simp)
    refine ih (t := .node ⟨c, t.length, j, 0⟩ [t]) ho₂ hheld hv₂ (by omega)
      fun s h₃ ho₃ hs₃ hv₃ hleaves hf₃ ↦ ?_
    refine hQ s h₃ ho₃ hs₃ (by rwa [Nat.add_assoc, Nat.add_comm 1 n] at hv₃) ?_
      (((ho.frame_of_grows hg₁).mono (List.Subset.refl _) (Multiset.le_cons_self _ _)).trans hf₃)
    rw [hleaves, RoseTree.leaves_node, List.flatMap_singleton]

/-- A new node above two parts and borrowed edges between them. -/
private theorem wp_composeNode {n : ℕ} {pre suf : Rep} {bs : List Rep}
    (ho : Owned h Z (pre.addr ::ₘ suf.addr ::ₘ R)) (hpre : pre.Held h) (hprev : pre.Valid k)
    (hsuf : suf.Held h) (hsufv : suf.Valid k)
    (hbs : ∀ t ∈ bs, t.Held h ∧ t.Valid k ∧ Reach h R t.addr) (hcap : bs.length + 2 ≤ maxCapacity)
    (hk : k ≤ maxDepth) (hn : n = pre.length + (bs.map Rep.length).sum + suf.length)
    {ps : List Piece} (hcuts : Cuts (pre.leaves ++ (bs.flatMap RoseTree.leaves ++ suf.leaves)) ps)
    {Q : Addr → Heap Node → Prop}
    (hQ : ∀ (s : Rep) h', Copied h h' Z R (k + 1) ps s → Q s.addr h') :
    wp (composeNode k n pre.addr (bs.map Rep.addr) suf.addr) Q h := by
  rw [composeNode, newNode, wp_bind]
  refine wp_allocBtree ho hk fun c h₁ ho₁ hg₁ hc₁ ↦ ?_
  have hcZ := (List.nodup_cons.mp ho₁.nodup).1
  have hsub : R ≤ pre.addr ::ₘ suf.addr ::ₘ R :=
    (Multiset.le_cons_self _ _).trans (Multiset.le_cons_self _ _)
  have hf₁ : Frame Z (pre.addr ::ₘ suf.addr ::ₘ R) h h₁ := ho.frame_of_grows hg₁
  rw [wp_bind]
  refine wp_refAll ho₁ (fun a ha ↦ ?_) fun h₂ ho₂ hn₂ ↦ ?_
  · obtain ⟨t, ht, rfl⟩ := List.mem_map.mp ha
    exact ((hbs t ht).2.2.mono hsub).transfer hf₁.kept
  have hg₂ : Grows h h₂ := hg₁.trans (Grows.of_node?_eq hn₂)
  rw [wp_bind]
  refine wp_write ho₂ List.mem_cons_self fun h₃ ho₃ hne₃ hc₃ ↦ ?_
  have hf₃ : Frame Z _ h₂ h₃ := ho₂.frame_of_opened List.mem_cons_self hcZ hne₃
  have hts : ∀ t ∈ pre :: bs ++ [suf], Rep.Held h₃ t ∧ Rep.Valid k t := by
    have hmem : ∀ t ∈ pre :: bs ++ [suf],
        t.addr ∈ ((bs.map Rep.addr : List Addr) : Multiset Addr) + (pre.addr ::ₘ suf.addr ::ₘ R) := by
      intro t ht
      simp only [List.cons_append, List.mem_cons, List.mem_append, List.not_mem_nil, or_false] at ht
      rcases ht with rfl | ht | rfl
      · simp
      · exact Multiset.mem_add.mpr (.inl (Multiset.mem_coe.mpr (List.mem_map_of_mem ht)))
      · simp
    have hheld : ∀ t ∈ pre :: bs ++ [suf], Rep.Held h t ∧ Rep.Valid k t := by
      intro t ht
      simp only [List.cons_append, List.mem_cons, List.mem_append, List.not_mem_nil, or_false] at ht
      rcases ht with rfl | ht | rfl
      · exact ⟨hpre, hprev⟩
      · exact ⟨(hbs t ht).1, (hbs t ht).2.1⟩
      · exact ⟨hsuf, hsufv⟩
    exact fun t ht ↦ ⟨((hheld t ht).1.grows hg₂).frame hf₃ (.root (hmem t ht)), (hheld t ht).2⟩
  have hrefs : ((((pre :: bs ++ [suf]).map Rep.addr : List Addr) : Multiset Addr) + R) =
      ((bs.map Rep.addr : List Addr) : Multiset Addr) + (pre.addr ::ₘ suf.addr ::ₘ R) := by
    rw [List.map_append, ← Multiset.coe_add, List.map_cons, List.map_singleton,
      Multiset.coe_singleton, ← Multiset.cons_coe, ← Multiset.singleton_add, ← Multiset.singleton_add,
      ← Multiset.singleton_add]
    abel
  obtain ⟨ho₄, hheld, hv₄⟩ := closeNode (R := R) (ho₃.congr hrefs.symm)
    (by simpa using hc₃) hts (by simp) (by simp; omega) (by simp; omega)
  rw [wp_pure]
  refine hQ (.node ⟨c, n, k, 0⟩ (pre :: bs ++ [suf])) h₃ ⟨ho₄, hheld, hv₄, ?_, (hf₁.mono (List.Subset.refl _) hsub).trans
    ((Owned.frame_of_node?_eq hn₂).trans (hf₃.mono (List.Subset.refl _)
      (hsub.trans (Multiset.le_add_left _ _))))⟩
  rwa [RoseTree.leaves_node, List.flatMap_append, List.flatMap_cons, List.flatMap_singleton,
    List.append_assoc]

omit [Target] in
/-- The edges of a node strictly between two of them. -/
private theorem edges_between (hd : BtreeHeader) (as bs cs : List Rep) (b c : Rep) :
    (((as ++ b :: (bs ++ c :: cs)).map Rep.addr).drop (hd.begin + as.length + 1 -
      hd.begin)).take bs.length = bs.map Rep.addr := by
  rw [show hd.begin + as.length + 1 - hd.begin = (as ++ [b]).length by simp; omega,
    show as ++ b :: (bs ++ c :: cs) = (as ++ [b]) ++ (bs ++ c :: cs) by simp, List.map_append,
    List.drop_left' (by simp), List.map_append, List.take_left' (by simp)]

/-- The edges of a node that meet a range, where the range ends behind the edge it starts in. -/
private theorem pieces_edges {as bs cs : List Rep} {b c : Rep} {offset n : ℕ}
    (hes : ∀ t ∈ as ++ b :: (bs ++ c :: cs), t.Valid k) (hlo : (as.map Rep.length).sum ≤ offset)
    (hlt : offset - (as.map Rep.length).sum < b.length)
    (hmid : b.length + (bs.map Rep.length).sum < n + (offset - (as.map Rep.length).sum))
    (hhi : n + (offset - (as.map Rep.length).sum) - (b.length + (bs.map Rep.length).sum) ≤
      c.length) :
    takePieces (dropPieces ((as ++ b :: (bs ++ c :: cs)).flatMap Rep.pieces) offset) n =
      dropPieces b.pieces (offset - (as.map Rep.length).sum) ++ (bs.flatMap Rep.pieces ++
        takePieces c.pieces (n + (offset - (as.map Rep.length).sum) -
          (b.length + (bs.map Rep.length).sum))) := by
  have has : piecesLength (as.flatMap Rep.pieces) = (as.map Rep.length).sum :=
    piecesLength_flatMap fun t ht ↦ hes t (by simp [ht])
  have hbs : piecesLength (bs.flatMap Rep.pieces) = (bs.map Rep.length).sum :=
    piecesLength_flatMap fun t ht ↦ hes t (by simp [ht])
  have hb := (hes b (by simp)).piecesLength_eq
  have hc := (hes c (by simp)).piecesLength_eq
  have hdrop := piecesLength_dropPieces b.pieces (offset - (as.map Rep.length).sum)
  rw [List.flatMap_append, dropPieces_append_of_le (by omega), has, List.flatMap_cons,
    dropPieces_append_of_lt (by omega), takePieces_append_of_le (by omega), List.flatMap_append,
    takePieces_append_of_le (by omega), List.flatMap_cons, takePieces_append_left (by omega)
      (pos_flatMap_pieces fun t ht ↦ hes t (by simp [ht]))]
  congr 3
  omega

/-- The parts of the outer two edges, at a level that both reach. -/
private theorem wp_partialEdges {left right : Rep} {offset n : ℕ} {adjacent : Bool}
    (ho : Owned h Z R) (hl : Reach h R left.addr) (hlheld : left.Held h) (hlv : left.Valid k)
    (hlt : offset < left.length) (hr : Reach h R right.addr) (hrheld : right.Held h)
    (hrv : right.Valid k) (hpos : 0 < n) (hle : n ≤ right.length) (hk : k ≤ maxDepth)
    {Q : ℕ × Addr × Addr → Heap Node → Prop}
    (hQ : ∀ (pre suf : Rep) j h', j ≤ k → (adjacent = false → j = k) →
      Owned h' Z (pre.addr ::ₘ suf.addr ::ₘ R) → pre.Held h' → pre.Valid j → suf.Held h' →
      suf.Valid j → Cuts pre.leaves (dropPieces left.pieces offset) →
      Cuts suf.leaves (takePieces right.pieces n) → Frame Z R h h' →
      Q (j, pre.addr, suf.addr) h') :
    wp (partialEdges k left.addr offset right.addr n adjacent) Q h := by
  cases k with
  | zero =>
    obtain ⟨e, rfl, he⟩ := Rep.Valid.zero_iff.mp hlv
    obtain ⟨u, rfl, hu⟩ := Rep.Valid.zero_iff.mp hrv
    rw [Rep.length_leaf] at hlt hle
    rw [partialEdges]
    simp only [wp_bind]
    refine wp_refSubstringFrom ho hl (Rep.held_leaf.mp hlheld) he hlt fun p h₁ hp ↦ ?_
    refine wp_refSubstring hp.owned ((hr.transfer hp.frame.kept).mono (Multiset.le_cons_self _ _))
      (Rep.held_leaf.mp (hrheld.frame hp.frame hr)) hu hpos (by omega) fun q h₂ hq ↦ ?_
    rw [wp_pure]
    refine hQ (.leaf p) (.leaf q) 0 h₂ le_rfl (fun _ ↦ rfl)
      (hq.owned.congr (Multiset.cons_swap _ _ _))
      (hp.held.frame hq.frame (.root (Multiset.mem_cons_self _ _))) hp.valid hq.held hq.valid ?_ ?_
      (hp.frame.trans (hq.frame.mono (List.Subset.refl _) (Multiset.le_cons_self _ _)))
    · rw [Rep.pieces_leaf, dropPieces_piece hlt]
      exact hp.cuts
    · rw [Rep.pieces_leaf, takePieces_piece hpos hle]
      exact hq.cuts
  | succ k =>
    rw [partialEdges, wp_bind]
    refine wp_copySuffix ho hl hlheld hlv hlt fun p i h₁ hi hp ↦ ?_
    rw [wp_bind]
    refine wp_copyPrefix hp.owned ((hr.transfer hp.frame.kept).mono (Multiset.le_cons_self _ _))
      (hrheld.frame hp.frame hr) hrv hpos hle fun q j h₂ hj hq ↦ ?_
    obtain ⟨level, hlevel⟩ : ∃ level, level = if adjacent then max i j else k + 1 := ⟨_, rfl⟩
    have hil : i ≤ level ∧ j ≤ level ∧ level ≤ k + 1 := by
      rw [hlevel]
      split_ifs <;> omega
    simp only [← hlevel]
    rw [wp_bind]
    refine wp_raiseTo (hq.owned.congr (Multiset.cons_swap _ _ _))
      (hp.held.frame hq.frame (.root (Multiset.mem_cons_self _ _))) hp.valid (by omega)
      fun pre h₃ ho₃ hpre hprev hpreleaves hf₃ ↦ ?_
    rw [wp_bind]
    refine wp_raiseTo (ho₃.congr (Multiset.cons_swap _ _ _))
      (hq.held.frame hf₃ (.root (Multiset.mem_cons_self _ _))) hq.valid (by omega)
      fun suf h₄ ho₄ hsuf hsufv hsufleaves hf₄ ↦ ?_
    rw [wp_pure]
    refine hQ pre suf level h₄ hil.2.2 (fun hadj ↦ by rw [hlevel, hadj]; rfl)
      (ho₄.congr (Multiset.cons_swap _ _ _))
      (hpre.frame hf₄ (.root (Multiset.mem_cons_self _ _)))
      (by rwa [Nat.add_sub_cancel' hil.1] at hprev) hsuf
      (by rwa [Nat.add_sub_cancel' hil.2.1] at hsufv) (hpreleaves ▸ hp.cuts) (hsufleaves ▸ hq.cuts) ?_
    refine hp.frame.trans ((hq.frame.mono (List.Subset.refl _) (Multiset.le_cons_self _ _)).trans
      ((hf₃.mono (List.Subset.refl _) (Multiset.le_cons_self _ _)).trans
        (hf₄.mono (List.Subset.refl _) (Multiset.le_cons_self _ _))))

/-- The part of a node, which is a data edge or has at least two of them. -/
private theorem wp_subTreeNode {inside : Addr → ℕ → ℕ → HeapM Addr} {offset n : ℕ}
    {Q : Addr → Heap Node → Prop}
    (hinside : ∀ {b : Rep} {offset}, Reach h R b.addr → b.Held h → b.Valid k →
      offset + n ≤ b.length →
      (∀ (s : Rep) j h', j ≤ k → (j = 0 ∨ 2 ≤ s.leaves.length) →
        Copied h h' Z R j (takePieces (dropPieces b.pieces offset) n) s → Q s.addr h') →
      wp (inside b.addr offset n) Q h)
    (ho : Owned h Z R) (hr : Reach h R t.addr) (ht : t.Held h) (hv : t.Valid (k + 1))
    (hk : k ≤ maxDepth) (hpos : 0 < n) (hle : offset + n ≤ t.length)
    (hQ : ∀ (s : Rep) j h', j ≤ k + 1 → (j = 0 ∨ 2 ≤ s.leaves.length) →
      Copied h h' Z R j (takePieces (dropPieces t.pieces offset) n) s → Q s.addr h') :
    wp (subTreeNode k inside t.addr offset n) Q h := by
  obtain ⟨hd, es, rfl⟩ := hv.exists_node
  obtain ⟨hnode, hes⟩ := Rep.held_node.mp ht
  obtain ⟨hk', -, hcap, hsum, hesv⟩ := Rep.Valid.node_iff.mp hv
  obtain rfl : k = hd.height := Nat.succ_injective hk'
  rw [Rep.length_node] at hle
  obtain ⟨as, b, cs, rfl, hlo, hlt, hfront⟩ :=
    indexOf_spec Rep.length hd.begin (show offset < (es.map Rep.length).sum by omega)
  have hreach : ∀ t ∈ as ++ b :: cs, Reach h R t.addr := fun t ht ↦
    hr.child hnode (List.mem_map_of_mem ht)
  have has : piecesLength (as.flatMap Rep.pieces) = (as.map Rep.length).sum :=
    piecesLength_flatMap fun t ht ↦ hesv t (by simp [ht])
  have hb := (hesv b (by simp)).piecesLength_eq
  rw [subTreeNode, wp_bind]
  refine wp_asBtree hnode ?_
  rw [Rep.btree_edges, wp_bind]
  refine wp_edgeLengths hes ?_
  rw [Rep.btree_begin, wp_bind, wp_liftM]
  refine ⟨_, hfront, ?_⟩
  rw [wp_bind]
  refine wp_edge ?_
  rw [wp_bind]
  refine wp_read (hes b (by simp)).node? ?_
  rw [b.root_length]
  by_cases hin : offset - (as.map Rep.length).sum + n ≤ b.length
  · rw [if_pos hin]
    refine hinside (hreach b (by simp)) (hes b (by simp)) (hesv b (by simp)) hin
      fun s j h' hj hs hc ↦ hQ s j h' (hj.trans (Nat.le_succ _)) hs ?_
    rw [Rep.pieces_node, List.flatMap_append, dropPieces_append_of_le (by omega), has,
      List.flatMap_cons, dropPieces_append_of_lt (by omega), takePieces_append_left
        (by rw [piecesLength_dropPieces]; omega)
        (pos_flatMap_pieces fun t ht ↦ hesv t (by simp [ht]))]
    exact hc
  · rw [if_neg hin]
    rw [List.map_append, List.sum_append] at hsum
    obtain ⟨bs, c, ds, hbs, hlo', hhi, hback⟩ := @indexBeforeFrom_spec _ Rep.length as _
      (offset - (as.map Rep.length).sum) _ hd.begin hpos (show _ ≤ ((b :: cs).map _).sum by
        omega)
    -- The range goes on behind the edge it starts in.
    cases bs with
    | nil =>
      rw [List.nil_append] at hbs
      obtain ⟨rfl, -⟩ := List.cons.inj hbs
      rw [List.map_nil, List.sum_nil] at hhi
      omega
    | cons b' bs =>
      rw [List.cons_append] at hbs
      obtain ⟨rfl, rfl⟩ := List.cons.inj hbs
      rw [List.map_cons, List.sum_cons] at hlo' hhi hback
      rw [wp_bind, wp_liftM]
      refine ⟨_, hback, ?_⟩
      have hassoc : as ++ b :: (bs ++ c :: ds) = (as ++ b :: bs) ++ c :: ds := by simp
      have hindex : hd.begin + as.length + (b :: bs).length =
          hd.begin + (as ++ b :: bs).length := by simp; omega
      have hbetween := edges_between hd as bs ds b c
      have hpieces := pieces_edges hesv hlo hlt hlo' hhi
      have hcv := hesv c (by simp)
      simp only [List.length_cons] at hindex ⊢
      rw [show hd.begin + as.length + (bs.length + 1) - (hd.begin + as.length + 1) = bs.length by
        omega, hbetween, wp_bind]
      simp only [hindex, hassoc]
      refine wp_edge ?_
      rw [wp_bind]
      refine wp_partialEdges ho (hreach b (by simp)) (hes b (by simp)) (hesv b (by simp)) hlt
        (hreach c (by simp)) (hes c (by simp)) hcv (by omega) hhi hk
        fun pre suf j h₁ hj hadj ho₁ hpre hprev hsuf hsufv hprecuts hsufcuts hf₁ ↦ ?_
      have hprelen := hprev.length_leaves.symm.trans hprecuts.edgesLength_eq
      have hsuflen := hsufv.length_leaves.symm.trans hsufcuts.edgesLength_eq
      rw [piecesLength_dropPieces, hb] at hprelen
      rw [piecesLength_takePieces, hcv.piecesLength_eq] at hsuflen
      have hbsj : ∀ t ∈ bs, t.Held h₁ ∧ Rep.Valid j t ∧ Reach h₁ R t.addr := by
        intro t ht
        have hrt := hreach t (by simp [ht])
        have hj' : j = hd.height := by
          refine hadj (decide_eq_false ?_)
          have := List.length_pos_of_mem ht
          simp only [List.length_append, List.length_cons]
          omega
        exact ⟨(hes t (by simp [ht])).frame hf₁ hrt, hj' ▸ hesv t (by simp [ht]),
          hrt.transfer hf₁.kept⟩
      rw [List.length_append, List.length_cons, List.length_append, List.length_cons] at hcap
      refine wp_composeNode ho₁ hpre hprev hsuf hsufv hbsj (by omega) (hj.trans hk) (by omega)
        (hprecuts.append ((cuts_flatMap bs).append hsufcuts)) fun s h₂ hs ↦ ?_
      refine hQ s (j + 1) h₂ (Nat.succ_le_succ hj) (.inr ?_) ?_
      · rw [hs.cuts.length_eq, List.length_append, List.length_append, ← hprecuts.length_eq,
          ← hsufcuts.length_eq]
        have := hprev.leaves_length_pos
        have := hsufv.leaves_length_pos
        omega
      · rw [Rep.pieces_node, hpieces]
        exact { hs with frame := hf₁.trans hs.frame }

private theorem wp_subTreeDown {offset n : ℕ} (ho : Owned h Z R) (hr : Reach h R t.addr)
    (ht : t.Held h) (hv : t.Valid (k + 1)) (hk : k ≤ maxDepth) (hpos : 0 < n)
    (hle : offset + n ≤ t.length) {Q : Addr → Heap Node → Prop}
    (hQ : ∀ (s : Rep) j h', j ≤ k + 1 → (j = 0 ∨ 2 ≤ s.leaves.length) →
      Copied h h' Z R j (takePieces (dropPieces t.pieces offset) n) s → Q s.addr h') :
    wp (subTreeDown k t.addr offset n) Q h := by
  induction k generalizing t offset Q with
  | zero =>
    refine wp_subTreeNode (fun {b offset} hr hb hv hle hQ ↦ ?_) ho hr ht hv hk hpos hle hQ
    obtain ⟨e, rfl, he⟩ := Rep.Valid.zero_iff.mp hv
    rw [Rep.length_leaf] at hle
    rw [wp_bind]
    refine wp_refSubstring ho hr (Rep.held_leaf.mp hb) he hpos hle fun e' h' hc ↦
      hQ (.leaf e') 0 h' le_rfl (.inl rfl) ?_
    rw [Rep.pieces_leaf, dropPieces_piece (by omega)]
    have htake : takePieces [⟨e, offset, e.length - offset⟩] n = [⟨e, offset, n⟩] := by
      rw [takePieces]
      split_ifs with hall hzero
      · obtain rfl : n = e.length - offset := le_antisymm (by omega) hall
        rfl
      · exact absurd hzero hpos.ne'
      · rfl
    rwa [htake]
  | succ k ih =>
    exact wp_subTreeNode (fun hr hb hv hle hQ ↦ ih hr hb hv ((Nat.le_succ k).trans hk) hle hQ)
      ho hr ht hv hk hpos hle hQ

/-- The part of a tree is a data edge or has at least two of them. -/
theorem wp_subTree {offset n : ℕ} (ho : Owned h Z R) (hr : Reach h R t.addr) (ht : t.Held h)
    (hv : t.Valid (k + 1)) (hk : k ≤ maxDepth) (hpos : 0 < n) (hle : offset + n ≤ t.length)
    {Q : Option Addr → Heap Node → Prop}
    (hQ : ∀ (s : Rep) j h', j ≤ k + 1 → (j = 0 ∨ 2 ≤ s.leaves.length) →
      Copied h h' Z R j (pieces t.leaves offset n) s → Q (some s.addr) h') :
    wp (subTree t.addr offset n) Q h := by
  obtain ⟨hd, es, rfl⟩ := hv.exists_node
  obtain ⟨hnode, -⟩ := Rep.held_node.mp ht
  obtain ⟨hk', -⟩ := Rep.Valid.node_iff.mp hv
  rw [subTree, if_neg hpos.ne', wp_bind]
  refine wp_asBtree hnode ?_
  rw [Rep.btree_height, ← Nat.succ_injective hk', wp_bind]
  refine wp_subTreeDown ho hr ht hv hk hpos hle fun s j h' hj hs hc ↦ ?_
  rw [wp_pure]
  exact hQ s j h' hj hs hc

/-- A part of a tree has the data edges that meet the range, of which only the outer two are cut. It
is a data edge when the range lies within one, and otherwise a tree that is no higher. -/
theorem Btree.sub_tree_shares {offset n : ℕ} (ho : Owned h Z R) (hr : Reach h R t.addr)
    (ht : t.Held h) (hv : t.Valid (k + 1)) (hk : k ≤ maxDepth) (hpos : 0 < n)
    (hle : offset + n ≤ t.length) :
    wp (subTree t.addr offset n) (fun r h' ↦ ∃ (s : Rep) (j : ℕ), r = some s.addr ∧
      Owned h' Z (s.addr ::ₘ R) ∧ s.Held h' ∧ s.Valid j ∧ j ≤ k + 1 ∧
      Extracts t.leaves offset n s.leaves ∧
      (j = 0 ↔ ∃ as e bs, t.leaves = as ++ e :: bs ∧ edgesLength as ≤ offset ∧
        offset + n ≤ edgesLength as + e.length) ∧
      t.Held h' ∧ Frame Z R h h') h := by
  have hlen := hv.length_leaves
  refine wp_subTree ho hr ht hv hk hpos hle fun s j h' hj hs hc ↦ ?_
  refine ⟨s, j, rfl, hc.owned, hc.held, hc.valid, hj,
    hc.cuts.extracts hv.leaves_valid hpos (hlen ▸ hle), ?_, ht.frame hc.frame hr, hc.frame⟩
  have hlength : s.leaves.length = (pieces t.leaves offset n).length :=
    hc.cuts.length_eq
  constructor
  · rintro rfl
    obtain ⟨e, rfl, -⟩ := Rep.Valid.zero_iff.mp hc.valid
    exact exists_within (hlen ▸ hle) (hlength ▸ rfl)
  · rintro ⟨as, e, bs, hsplit, hlo, hhi⟩
    have hbs : ∀ b ∈ bs, b.Valid := fun b hb ↦ hv.leaves_valid b (by simp [hsplit, hb])
    rw [hsplit, pieces_within hbs hlo hhi hpos, List.length_singleton] at hlength
    omega

end Rules

/-- The last byte of one flat and the byte of the next. -/
theorem Btree.sub_tree_shares_pair :
    letI : Target := ⟨64, .inr rfl⟩
    wp (subTree 2 1 2) (fun r h' ↦ ∃ (s : Rep) (j : ℕ), r = some s.addr ∧
      Owned h' [] (s.addr ::ₘ {2, 2}) ∧ s.Held h' ∧ s.Valid j ∧ j ≤ 1 ∧
      Extracts pairTree.leaves 1 2 s.leaves ∧
      (j = 0 ↔ ∃ as e bs, pairTree.leaves = as ++ e :: bs ∧ edgesLength as ≤ 1 ∧
        1 + 2 ≤ edgesLength as + e.length) ∧
      pairTree.Held h' ∧ Frame [] {2, 2} sharedPair h') sharedPair := by
  let _ : Target := ⟨64, .inr rfl⟩
  have ht := holding_sharedPair
  exact sub_tree_shares (t := pairTree) ht.owned (.root (Multiset.mem_cons_self _ _)) ht.held
    ht.valid (by decide) (by decide) (by decide)

end CordRs
