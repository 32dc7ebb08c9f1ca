import CordRs.Btree.Copy

/-!
# Truncating a tree

`removeSuffix` gives up a tree and returns its first bytes. Nodes whose first edge has all of these
are taken off the top. Below, each node keeps its edges up to the one in which the bytes end, and
that edge is cut in the same way: in place as long as nothing else refers to it, by a copy of its
first bytes otherwise. What comes out has the same data edges but for the last one, and the same
shape whichever nodes are shared.

## Main definitions

* `CordRs.cropDown`, `CordRs.removeSuffixDown`, `CordRs.removeSuffix`.
* `CordRs.Truncated`: the first bytes of a list of data edges.

## Main results

* `CordRs.wp_consumeBeginTo`, `CordRs.wp_extractFront`.
* `CordRs.Btree.remove_suffix_truncates`: the data edges and the shape of a truncated tree.
-/

namespace CordRs

open RefHeap LevelTree

/-- Overwrite the edge at a slot. -/
def setEdgePtr (tree : Addr) (index : ℕ) (edge : Addr) : HeapM Unit := do
  let b ← asBtree tree
  write tree (.btree { b with edges := b.edges.set (index - b.begin) edge })

/-- Keep the first `length` bytes of a node. The last edge kept is cut by `cut`, which is told
whether nothing else refers to it and puts what is left of it in its place. -/
def cropNode (cut : Addr → ℕ → Addr → ℕ → Bool → HeapM Unit) (tree : Addr) (length : ℕ) :
    HeapM Addr := do
  let b ← asBtree tree
  let lens ← edgeLengths b.edges
  let pos ← liftM (indexOfLength b.begin lens b.length length)
  let tree ← consumeBeginTo tree (pos.index + 1) length
  let b ← asBtree tree
  let edge ← edge b pos.index
  let node ← read edge
  if pos.n = node.length then
    pure tree
  else
    let edgeIsMutable ← refIsOne edge
    cut tree pos.index edge pos.n edgeIsMutable
    pure tree

/-- Shorten a data edge of a node. -/
def resizeLast (tree : Addr) (index : ℕ) (edge : Addr) (length : ℕ) (edgeIsMutable : Bool) :
    HeapM Unit := do
  let edge ← resizeEdge edge length edgeIsMutable
  setEdgePtr tree index edge

/-- Crop an edge of a node in place, or replace it by a copy of its first bytes. -/
def cropLast (height : ℕ) (crop : Addr → ℕ → HeapM Addr) (tree : Addr) (index : ℕ) (edge : Addr)
    (length : ℕ) (edgeIsMutable : Bool) : HeapM Unit := do
  if edgeIsMutable then
    let _ ← crop edge length
  else
    let copy ← copyPrefix false height edge length
    setEdgePtr tree index copy.edge
    unref edge

/-- Keep the first `length` bytes of a node of the given height. -/
def cropDown : ℕ → Addr → ℕ → HeapM Addr
  | 0 => cropNode resizeLast
  | height + 1 => cropNode (cropLast height (cropDown height))

/-- Keep the first `length` bytes of a node of the given height, by `child` if the first edge has
all of them. -/
def removeSuffixAt (height : ℕ) (child : Addr → ℕ → Bool → HeapM Addr) (tree : Addr) (length : ℕ)
    (isMutable : Bool) : HeapM Addr := do
  let b ← asBtree tree
  let lens ← edgeLengths b.edges
  let pos ← liftM (indexOfLength b.begin lens b.length length)
  if pos.index = b.begin then
    let edge ← extractFront tree
    let one ← refIsOne edge
    child edge length (isMutable && one)
  else
    cropDown height tree length

/-- Keep the first `length` bytes of a tree of the given height. -/
def removeSuffixDown : ℕ → Addr → ℕ → Bool → HeapM Addr
  | 0 => removeSuffixAt 0 resizeEdge
  | height + 1 => removeSuffixAt (height + 1) (removeSuffixDown height)

/-- Remove the last `n` bytes of a tree that is given up, none if there are no others. -/
def removeSuffix (tree : Addr) (n : ℕ) : HeapM (Option Addr) := do
  let b ← asBtree tree
  if n = 0 then
    pure (some tree)
  else if b.length ≤ n then
    unref tree
    pure none
  else
    let isMutable ← refIsOne tree
    let rest ← removeSuffixDown b.height tree (b.length - n) isMutable
    pure (some rest)

/-! ### The first bytes of data edges -/

section Truncated

variable [Target] {h h₁ : Heap Node} {Z : List Addr} {R R₁ : Multiset Addr} {n : ℕ}
  {as bs es us : List Edge}

/-- The data edges `us` are the first `n` bytes of `es`: the same data edges but for the last one,
which was shortened. -/
def Truncated (h : Heap Node) (R : Multiset Addr) (es : List Edge) (n : ℕ) (us : List Edge) : Prop :=
  ∃ as e bs e', es = as ++ e :: bs ∧ us = as ++ [e'] ∧ edgesLength as < n ∧
    n ≤ edgesLength as + e.length ∧ e'.Shortened h R e (n - edgesLength as)

/-- All data edges. -/
theorem truncated_all (h : Heap Node) (R : Multiset Addr) (hes : ∀ e ∈ es, e.Valid) (hne : es ≠ []) :
    Truncated h R es (edgesLength es) es := by
  obtain ⟨as, e, rfl⟩ : ∃ as e, es = as ++ [e] := ⟨_, _, (List.dropLast_append_getLast hne).symm⟩
  have he := hes e (by simp)
  refine ⟨as, e, [], e, rfl, rfl, ?_, ?_, ?_⟩
  · have := he.length_pos
    rw [edgesLength_append, edgesLength_cons]
    omega
  · rw [edgesLength_append, edgesLength_cons, edgesLength_nil, Nat.add_zero]
  · rw [edgesLength_append, edgesLength_cons, edgesLength_nil, Nat.add_zero, Nat.add_sub_cancel_left]
    exact Edge.shortened_self h R he

/-- What comes before stays, and what comes behind goes. -/
theorem Truncated.extend (ht : Truncated h R es n us) (as bs : List Edge) :
    Truncated h R (as ++ (es ++ bs)) (edgesLength as + n) (as ++ us) := by
  obtain ⟨cs, e, ds, e', rfl, rfl, hlo, hhi, hs⟩ := ht
  refine ⟨as ++ cs, e, ds ++ bs, e', by simp, by simp, ?_, ?_, ?_⟩
  · rw [edgesLength_append]
    omega
  · rw [edgesLength_append]
    omega
  · rwa [edgesLength_append, Nat.add_sub_add_left]

theorem Truncated.mono (ht : Truncated h₁ R₁ es n us) (hr : ∀ a, Reach h R a → Reach h₁ R₁ a) :
    Truncated h R es n us := by
  obtain ⟨as, e, bs, e', hes, hus, hlo, hhi, hs⟩ := ht
  exact ⟨as, e, bs, e', hes, hus, hlo, hhi, hs.mono hr⟩

theorem Truncated.edgesLength_eq (ht : Truncated h R es n us) : edgesLength us = n := by
  obtain ⟨as, e, bs, e', -, rfl, hlo, -, hs⟩ := ht
  rw [edgesLength_append, edgesLength_cons, edgesLength_nil, hs.length]
  omega

/-- Truncating does not add data edges. -/
theorem Truncated.length_le (ht : Truncated h R es n us) : us.length ≤ es.length := by
  obtain ⟨as, e, bs, e', rfl, rfl, -⟩ := ht
  simp only [List.length_append, List.length_cons, List.length_nil]
  omega

/-- Truncating keeps the first bytes. -/
theorem Truncated.data (ht : Truncated h R es n us) (hes : ∀ e ∈ es, e.Valid) :
    us.flatMap Edge.data = (es.flatMap Edge.data).take n := by
  obtain ⟨as, e, bs, e', rfl, rfl, hlo, hhi, hs⟩ := ht
  have hlen : (as.flatMap Edge.data).length = edgesLength as := by
    rw [List.length_flatMap, edgesLength]
    exact congrArg _ (List.map_congr_left fun a ha ↦ (hes a (by simp [ha])).length_data)
  have he := (hes e (by simp)).length_data
  rw [List.flatMap_append, List.flatMap_append, List.flatMap_singleton, List.flatMap_cons,
    List.take_append, List.take_of_length_le (by omega), hlen, hs.data,
    List.take_append_of_le_length (by omega)]

/-- Data edges that are the first pieces of others that are still there. -/
theorem Cuts.truncated {h' : Heap Node} (hc : Cuts us (takePieces (es.map Edge.piece) n))
    (hes : ∀ e ∈ es, e.Valid ∧ e.Held h') (hus : ∀ u ∈ us, u.Held h') (hpos : 0 < n)
    (hle : n ≤ edgesLength es) : Truncated h R es n us := by
  obtain ⟨as, e, bs, rfl, hlo, hhi, -⟩ := indexOfLength_spec Edge.length 0 hpos hle
  have hbs : ∀ p ∈ bs.map Edge.piece, 0 < p.length := pos_map fun b hb ↦ (hes b (by simp [hb])).1
  have hlo' : edgesLength as < n := hlo
  have hhi' : n - edgesLength as ≤ e.length := hhi
  rw [List.map_append, takePieces_append_of_le (by rw [piecesLength_map]; omega), piecesLength_map,
    List.map_cons, ← List.singleton_append, takePieces_append_left (by simpa [Edge.piece] using hhi')
      hbs, takePieces_piece (by omega) hhi'] at hc
  obtain ⟨vs, ws, rfl, hvs, hws⟩ := hc.split_append
  obtain ⟨e', ws, he', hnil, rfl⟩ := List.forall₂_cons_right_iff.mp hws
  obtain rfl := hvs.eq_of_map
  obtain rfl := List.forall₂_nil_right_iff.mp hnil
  refine ⟨vs, e, bs, e', rfl, rfl, hlo, by omega, he'.shortened hhi' fun hlt haddr ↦ ?_⟩
  -- The data edge that is cut is still at its address.
  have heq := (hus e' (by simp)).unique (hes e (by simp)).2 haddr
  exact absurd (heq ▸ he'.length : e.length = n - edgesLength vs) hlt.ne'

end Truncated

section Rules

variable [Target] {h h' : Heap Node} {Z : List Addr} {R : Multiset Addr} {k : ℕ} {t : Rep}

/-! ### Keeping and taking edges -/

/-- A node that keeps its first edges is opened, and it is the same one if nothing else referred to
it. -/
theorem wp_consumeBeginTo {hd : BtreeHeader} {as cs : List Rep} {newLength : ℕ}
    (ho : Owned h Z (hd.addr ::ₘ R)) (ht : Rep.Held h (.node hd (as ++ cs)))
    {Q : Addr → Heap Node → Prop}
    (hQ : ∀ c h', Owned h' (c :: Z) (((as.map Rep.addr : List Addr) : Multiset Addr) + R) →
      (∀ t ∈ as, t.Held h') →
      h'.node? c = some (.btree (Rep.btree ⟨c, newLength, hd.height, hd.begin⟩ as)) →
      Frame Z R h h' → (h.rc hd.addr = 1 → c = hd.addr) → Q c h') :
    wp (consumeBeginTo hd.addr (hd.begin + as.length) newLength) Q h := by
  obtain ⟨hnode, hes⟩ := Rep.held_node.mp ht
  have haZ := (ho.of_mem (Multiset.mem_cons_self _ _)).1
  have hmem : ∀ t ∈ as, t.addr ∈ ((as.map Rep.addr : List Addr) : Multiset Addr) + R :=
    fun t ht ↦ Multiset.mem_add.mpr (.inl (Multiset.mem_coe.mpr (List.mem_map_of_mem ht)))
  rw [consumeBeginTo, wp_bind]
  refine wp_refIsOne hnode ?_
  by_cases hone : h.rc hd.addr = 1
  · rw [decide_eq_true hone, if_pos rfl, wp_bind]
    refine wp_asBtree hnode ?_
    have hsplit : ((Rep.btree hd (as ++ cs)).edges.drop (hd.begin + as.length -
        (Rep.btree hd (as ++ cs)).begin)) = cs.map Rep.addr ∧
        ((Rep.btree hd (as ++ cs)).edges.take (hd.begin + as.length -
        (Rep.btree hd (as ++ cs)).begin)) = as.map Rep.addr := by
      simp [Rep.btree]
    rw [hsplit.1, hsplit.2, wp_bind]
    have hopen := ho.openCell hnode hone
    have hrefs : ((Pointers.children (Node.btree (Rep.btree hd (as ++ cs))) : List Addr) :
        Multiset Addr) + R = ((cs.map Rep.addr : List Addr) : Multiset Addr) +
        (((as.map Rep.addr : List Addr) : Multiset Addr) + R) := by
      simp only [Pointers.children, Node.children, Rep.btree_edges, List.map_append,
        ← Multiset.coe_add]
      abel
    refine wp_unrefEdges (hopen.congr hrefs) fun h₁ ho₁ hf₁ ↦ ?_
    rw [wp_bind]
    refine wp_write ho₁ List.mem_cons_self fun h₂ ho₂ hne₂ hc₂ ↦ ?_
    have hf₂ : Frame Z _ h₁ h₂ := ho₁.frame_of_opened List.mem_cons_self haZ hne₂
    rw [wp_pure]
    refine hQ hd.addr h₂ ho₂ (fun t ht ↦ ?_) hc₂
      (((hf₁.mono (List.subset_cons_self _ _) (Multiset.le_add_left _ _))).trans
        (hf₂.mono (List.Subset.refl _) (Multiset.le_add_left _ _))) fun _ ↦ rfl
    exact ((hes t (by simp [ht])).frame hf₁ (.root (hmem t ht))).frame hf₂ (.root (hmem t ht))
  · rw [decide_eq_false hone, if_neg Bool.false_ne_true, wp_bind]
    refine wp_copyBeginTo ho (.root (Multiset.mem_cons_self _ _)) ht fun c h₁ ho₁ hg₁ hc₁ ↦ ?_
    have hf₁ : Frame Z R h h₁ :=
      (ho.frame_of_grows hg₁).mono (List.Subset.refl _) (Multiset.le_cons_self _ _)
    rw [wp_bind]
    refine wp_unref (ho₁.congr (Multiset.add_cons _ _ _)) fun h₂ ho₂ hf₂ ↦ ?_
    rw [wp_pure]
    refine hQ c h₂ ho₂ (fun t ht ↦ ?_) ((hf₂.opened c List.mem_cons_self).trans hc₁)
      (hf₁.trans (hf₂.mono (List.subset_cons_self _ _) (Multiset.le_add_left _ _)))
      fun h ↦ absurd h hone
    exact ((hes t (by simp [ht])).grows hg₁).frame hf₂ (.root (hmem t ht))

/-- The first edge of a node that is given up. -/
theorem wp_extractFront {hd : BtreeHeader} {b : Rep} {cs : List Rep} (ho : Owned h Z (hd.addr ::ₘ R))
    (ht : Rep.Held h (.node hd (b :: cs))) {Q : Addr → Heap Node → Prop}
    (hQ : ∀ h', Owned h' Z (b.addr ::ₘ R) → b.Held h' → Frame Z R h h' → Q b.addr h') :
    wp (extractFront hd.addr) Q h := by
  obtain ⟨hnode, hes⟩ := Rep.held_node.mp ht
  have haZ := (ho.of_mem (Multiset.mem_cons_self _ _)).1
  have hb := hes b List.mem_cons_self
  rw [extractFront, wp_bind]
  refine wp_asBtree hnode ?_
  rw [Rep.btree_edges, List.map_cons]
  simp only [wp_bind]
  refine wp_refIsOne hnode ?_
  by_cases hone : h.rc hd.addr = 1
  · rw [decide_eq_true hone, if_pos rfl]
    simp only [wp_bind]
    have hopen := ho.openCell hnode hone
    have hrefs : ((Pointers.children (Node.btree (Rep.btree hd (b :: cs))) : List Addr) :
        Multiset Addr) + R = ((cs.map Rep.addr : List Addr) : Multiset Addr) + (b.addr ::ₘ R) := by
      simp only [Pointers.children, Node.children, Rep.btree_edges, List.map_cons]
      rw [coe_cons_add, Multiset.add_cons]
    refine wp_unrefEdges (hopen.congr hrefs) fun h₁ ho₁ hf₁ ↦ ?_
    refine wp_free ho₁ fun h₂ ho₂ hne₂ ↦ ?_
    have hf₂ : Frame Z _ h₁ h₂ := ho₁.frame_of_opened List.mem_cons_self haZ hne₂
    rw [wp_pure]
    refine hQ h₂ ho₂ ((hb.frame hf₁ (.root (Multiset.mem_cons_self _ _))).frame hf₂
      (.root (Multiset.mem_cons_self _ _))) ?_
    exact (hf₁.mono (List.subset_cons_self _ _) (Multiset.le_cons_self _ _)).trans
      (hf₂.mono (List.Subset.refl _) (Multiset.le_cons_self _ _))
  · rw [decide_eq_false hone, if_neg Bool.false_ne_true]
    simp only [wp_bind]
    refine wp_refInc ho ((Reach.root (Multiset.mem_cons_self _ _)).child hnode
      (List.mem_map_of_mem List.mem_cons_self)) fun h₁ ho₁ hn₁ ↦ ?_
    refine wp_unref (ho₁.congr (Multiset.cons_swap _ _ _)) fun h₂ ho₂ hf₂ ↦ ?_
    rw [wp_pure]
    refine hQ h₂ ho₂ ((hb.grows (Grows.of_node?_eq hn₁)).frame hf₂
      (.root (Multiset.mem_cons_self _ _))) ?_
    exact (Owned.frame_of_node?_eq hn₁).trans (hf₂.mono (List.Subset.refl _)
      (Multiset.le_cons_self _ _))

/-! ### Cropping in place -/

/-- The last edge of an opened node is replaced. -/
private theorem wp_setEdgePtr {c : Addr} {hd : BtreeHeader} {as : List Rep} {b : Rep} (b' : Rep)
    (ho : Owned h (c :: Z) R) (hc : h.node? c = some (.btree (Rep.btree hd (as ++ [b]))))
    {Q : Unit → Heap Node → Prop}
    (hQ : ∀ h', Owned h' (c :: Z) R → h'.node? c = some (.btree (Rep.btree hd (as ++ [b']))) →
      Frame Z R h h' → Q () h') :
    wp (setEdgePtr c (hd.begin + as.length) b'.addr) Q h := by
  rw [setEdgePtr, wp_bind]
  refine wp_asBtree hc ?_
  refine wp_write ho List.mem_cons_self fun h' ho' hne hc' ↦ hQ h' ho' ?_
    (ho.frame_of_opened List.mem_cons_self (List.nodup_cons.mp ho.nodup).1 hne)
  rw [hc']
  simp [Rep.btree]

/-- A tree with the first `n` bytes of another one, cut without changing what `R` leads to. -/
structure Cropped (h : Heap Node) (R : Multiset Addr) (h' : Heap Node) (k n : ℕ) (t s : Rep) :
    Prop where
  held : s.Held h'
  valid : s.Valid k
  leaves : Truncated h R t.leaves n s.leaves
  shape : windows s.shape = cropOutline (windows t.shape) n

theorem Cropped.length_eq {n : ℕ} {s : Rep} (hs : Cropped h R h' k n t s) : s.length = n :=
  hs.valid.length_leaves.symm.trans hs.leaves.edgesLength_eq

/-- `cut` cuts the last edge of an opened node, where the reference to the edge is handed out. -/
def CutsLast (k : ℕ) (cut : Addr → ℕ → Addr → ℕ → Bool → HeapM Unit) : Prop :=
  ∀ {h : Heap Node} {Z : List Addr} {R : Multiset Addr} {c : Addr} {hd : BtreeHeader}
    {as : List Rep} {b : Rep} {n : ℕ} {Q : Unit → Heap Node → Prop},
    Owned h (c :: Z) (b.addr ::ₘ R) → h.node? c = some (.btree (Rep.btree hd (as ++ [b]))) →
    b.Held h → b.Valid k → 0 < n → n < b.length →
    (∀ (b' : Rep) h', Owned h' (c :: Z) (b'.addr ::ₘ R) → Cropped h R h' k n b b' →
      h'.node? c = some (.btree (Rep.btree hd (as ++ [b']))) → Frame Z R h h' → Q () h') →
    wp (cut c (hd.begin + as.length) b.addr n (decide (h.rc b.addr = 1))) Q h

/-- A node is cropped in place if nothing else refers to it. -/
private theorem wp_cropNode {cut : Addr → ℕ → Addr → ℕ → Bool → HeapM Unit} {n : ℕ}
    (hcut : CutsLast k cut) (ho : Owned h Z (t.addr ::ₘ R)) (ht : t.Held h)
    (hv : t.Valid (k + 1)) (hpos : 0 < n) (hle : n ≤ t.length) {Q : Addr → Heap Node → Prop}
    (hQ : ∀ (s : Rep) h', Owned h' Z (s.addr ::ₘ R) → Cropped h R h' (k + 1) n t s →
      Frame Z R h h' → (h.rc t.addr = 1 → s.addr = t.addr) → Q s.addr h') :
    wp (cropNode cut t.addr n) Q h := by
  obtain ⟨hd, es, rfl⟩ := hv.exists_node
  obtain ⟨hnode, hes⟩ := Rep.held_node.mp ht
  obtain ⟨hk, -, hcap, hsum, hesv⟩ := Rep.Valid.node_iff.mp hv
  obtain rfl : k = hd.height := Nat.succ_injective hk
  rw [Rep.length_node] at hle
  obtain ⟨as, b, cs, rfl, hlo, hhi, hpos'⟩ :=
    indexOfLength_spec Rep.length hd.begin hpos (hsum ▸ hle)
  have hcrop := @cropOutline_node_last _ _ hd _ _ _ _ hesv hlo hhi
  have hbv := hesv b (by simp)
  have hasv : ∀ t ∈ as, t.Valid hd.height := fun t ht ↦ hesv t (by simp [ht])
  have haslen := Rep.edgesLength_leaves hasv
  rw [cropNode, wp_bind]
  refine wp_asBtree hnode ?_
  rw [Rep.btree_edges, wp_bind]
  refine wp_edgeLengths hes ?_
  rw [Rep.btree_begin, Rep.btree_length, hsum, wp_bind, wp_liftM]
  refine ⟨_, hpos', ?_⟩
  have hsplit : as ++ b :: cs = (as ++ [b]) ++ cs := by simp
  have hindex : hd.begin + as.length + 1 = hd.begin + (as ++ [b]).length := by
    simp [add_assoc]
  have ht' : Rep.Held h (.node hd ((as ++ [b]) ++ cs)) := hsplit ▸ ht
  simp only [hindex]
  rw [wp_bind]
  refine wp_consumeBeginTo ho ht' fun c h₁ ho₁ hheld₁ hc₁ hf₁ hin ↦ ?_
  rw [wp_bind]
  refine wp_asBtree hc₁ ?_
  rw [wp_bind]
  refine @wp_edge _ ⟨c, n, hd.height, hd.begin⟩ as [] b _ ?_
  rw [wp_bind]
  refine wp_read (hheld₁ b (by simp)).node? ?_
  rw [b.root_length]
  rw [coe_map_append_singleton] at ho₁
  rw [List.length_append, List.length_cons] at hcap
  -- What the node looks like once its last edge is cut.
  have hclose : ∀ (b' : Rep) h', Owned h' (c :: Z)
      (b'.addr ::ₘ (((as.map Rep.addr : List Addr) : Multiset Addr) + R)) →
      (∀ t ∈ as, t.Held h') → Cropped h R h' hd.height (n - (as.map Rep.length).sum) b b' →
      h'.node? c = some (.btree (Rep.btree ⟨c, n, hd.height, hd.begin⟩ (as ++ [b']))) →
      Frame Z R h h' → Q c h' := by
    intro b' h' ho' has' hb' hc' hf'
    obtain ⟨ho₂, hheld, hv₂⟩ := closeNode (R := R)
      (ho'.congr (coe_map_append_singleton as b' R).symm) hc'
      (by simpa [or_imp, forall_and, hb'.held, hb'.valid] using ⟨has', hasv⟩)
      (by simp) (by simp only [List.length_append, List.length_singleton]; omega)
      (by
        rw [List.map_append, List.sum_append, List.map_singleton, List.sum_singleton, hb'.length_eq]
        exact (Nat.add_sub_cancel' hlo.le).symm)
    refine hQ (.node ⟨c, n, hd.height, hd.begin⟩ (as ++ [b'])) h' ho₂ ⟨hheld, hv₂, ?_, ?_⟩ hf' hin
    · have := hb'.leaves.extend (as.flatMap RoseTree.leaves) (cs.flatMap RoseTree.leaves)
      rw [haslen, Nat.add_sub_cancel' hlo.le] at this
      simpa using this
    · rw [hcrop, Rep.windows_shape_node, List.map_append, List.map_singleton, hb'.shape]
  by_cases hall : n - (as.map Rep.length).sum = b.length
  · rw [if_pos hall, wp_pure]
    refine hclose b h₁ ho₁ (fun t ht ↦ hheld₁ t (by simp [ht])) ⟨hheld₁ b (by simp), hbv, ?_, ?_⟩
      hc₁ hf₁
    · rw [hall, ← hbv.length_leaves]
      exact truncated_all h R hbv.leaves_valid (List.ne_nil_of_length_pos hbv.leaves_length_pos)
    · rw [hall, ← hbv.sum_windows, cropOutline_all]
  · rw [if_neg hall, wp_bind]
    refine wp_refIsOne (hheld₁ b (by simp)).node? ?_
    rw [wp_bind]
    refine @hcut _ _ _ _ ⟨c, n, hd.height, hd.begin⟩ _ _ _ _ ho₁ hc₁ (hheld₁ b (by simp)) hbv (by omega)
      (lt_of_le_of_ne hhi hall) fun b' h₂ ho₂ hb' hc₂ hf₂ ↦ ?_
    rw [wp_pure]
    have hsub : R ≤ ((as.map Rep.addr : List Addr) : Multiset Addr) + R := Multiset.le_add_left _ _
    refine hclose b' h₂ ho₂ (fun t ht ↦ ?_) { hb' with leaves := ?_ } hc₂
      (hf₁.trans (hf₂.mono (List.Subset.refl _) hsub))
    · exact (hheld₁ t (by simp [ht])).frame hf₂ (.root (Multiset.mem_add.mpr
        (.inl (Multiset.mem_coe.mpr (List.mem_map_of_mem ht)))))
    · exact hb'.leaves.mono fun a ha ↦ (ha.transfer hf₁.kept).mono hsub

/-- A data edge is resized. -/
private theorem cutsLast_resizeLast : CutsLast 0 resizeLast := by
  intro h Z R c hd as b n Q ho hc hb hbv hpos hlt hQ
  obtain ⟨e, rfl, he⟩ := Rep.Valid.zero_iff.mp hbv
  rw [Rep.length_leaf] at hlt
  rw [resizeLast, wp_bind]
  refine wp_resizeEdge ho (Rep.held_leaf.mp hb) he hpos hlt.le
    of_decide_eq_true fun e' h₁ he' hs ho₁ hf₁ ↦ ?_
  have hheld : Rep.Held h₁ (.leaf e') := Rep.held_leaf.mpr he'
  obtain ⟨i, hi⟩ := hheld.valid ho₁ (.root (Multiset.mem_cons_self _ _))
  have hc₁ := (hf₁.opened c List.mem_cons_self).trans hc
  refine wp_setEdgePtr (.leaf e') ho₁ hc₁ fun h₂ ho₂ hc₂ hf₂ ↦
    hQ (.leaf e') h₂ ho₂ ⟨hheld.frame hf₂ (.root (Multiset.mem_cons_self _ _)), ?_, ?_, ?_⟩ hc₂
      ((hf₁.mono (List.subset_cons_self _ _) le_rfl).trans
        (hf₂.mono (List.Subset.refl _) (Multiset.le_cons_self _ _)))
  · exact Rep.Valid.leaf_iff.mpr ⟨rfl, (Rep.Valid.leaf_iff.mp hi).2⟩
  · exact ⟨[], e, [], e', rfl, rfl, hpos, by simpa using hlt.le, by simpa using hs⟩
  · rw [Rep.windows_shape_leaf, Rep.windows_shape_leaf, cropOutline, hs.length,
      min_eq_left hlt.le]

/-- A btree node is cropped in place or replaced by a copy of its prefix. -/
private theorem cutsLast_cropLast {height : ℕ} {crop : Addr → ℕ → HeapM Addr}
    (hcrop : ∀ {h Z R} {t : Rep} {n : ℕ} {Q : Addr → Heap Node → Prop}, Owned h Z (t.addr ::ₘ R) →
      t.Held h → t.Valid (height + 1) → 0 < n → n ≤ t.length →
      (∀ (s : Rep) h', Owned h' Z (s.addr ::ₘ R) → Cropped h R h' (height + 1) n t s →
        Frame Z R h h' → (h.rc t.addr = 1 → s.addr = t.addr) → Q s.addr h') →
      wp (crop t.addr n) Q h) :
    CutsLast (height + 1) (cropLast height crop) := by
  intro h Z R c hd as b n Q ho hc hb hbv hpos hlt hQ
  rw [cropLast]
  by_cases hone : h.rc b.addr = 1
  · rw [decide_eq_true hone, if_pos rfl, wp_bind]
    refine hcrop ho hb hbv hpos hlt.le fun s h₁ ho₁ hs hf₁ hin ↦ ?_
    rw [wp_pure]
    refine hQ s h₁ ho₁ hs ?_ (hf₁.mono (List.subset_cons_self _ _) le_rfl)
    rw [hf₁.opened c List.mem_cons_self, hc]
    simp [Rep.btree, hin hone]
  · rw [decide_eq_false hone, if_neg Bool.false_ne_true, wp_bind]
    refine wp_copyPrefix_crop ho (.root (Multiset.mem_cons_self _ _)) hb hbv hpos hlt
      fun s h₁ hs hshape ↦ ?_
    have hb₁ := hb.frame hs.frame (.root (Multiset.mem_cons_self _ _))
    have hc₁ := (hs.frame.opened c List.mem_cons_self).trans hc
    rw [wp_bind]
    refine wp_setEdgePtr s hs.owned hc₁ fun h₂ ho₂ hc₂ hf₂ ↦ ?_
    have hs₂ := hs.held.frame hf₂ (.root (Multiset.mem_cons_self _ _))
    refine wp_unref (ho₂.congr (Multiset.cons_swap _ _ _)) fun h₃ ho₃ hf₃ ↦ ?_
    refine hQ s h₃ ho₃ ⟨hs₂.frame hf₃ (.root (Multiset.mem_cons_self _ _)), hs.valid, ?_, hshape⟩
      ((hf₃.opened c List.mem_cons_self).trans hc₂) ?_
    · exact hs.cuts.truncated (fun e he ↦ ⟨hbv.leaves_valid e he, hb₁.leaves e he⟩)
        (fun e he ↦ hs.held.leaves e he) hpos (hbv.length_leaves ▸ hlt.le)
    · have hsub : R ≤ s.addr ::ₘ b.addr ::ₘ R :=
        (Multiset.le_cons_self _ _).trans (Multiset.le_cons_self _ _)
      exact (hs.frame.mono (List.subset_cons_self _ _) (Multiset.le_cons_self _ _)).trans
        ((hf₂.mono (List.Subset.refl _) hsub).trans
          (hf₃.mono (List.subset_cons_self _ _) (Multiset.le_cons_self _ _)))

/-- A tree is cut down to its first bytes, in place if nothing else refers to it. -/
theorem wp_cropDown {n : ℕ} (ho : Owned h Z (t.addr ::ₘ R)) (ht : t.Held h)
    (hv : t.Valid (k + 1)) (hpos : 0 < n) (hle : n ≤ t.length) {Q : Addr → Heap Node → Prop}
    (hQ : ∀ (s : Rep) h', Owned h' Z (s.addr ::ₘ R) → Cropped h R h' (k + 1) n t s →
      Frame Z R h h' → (h.rc t.addr = 1 → s.addr = t.addr) → Q s.addr h') :
    wp (cropDown k t.addr n) Q h := by
  induction k generalizing h Z R t n Q with
  | zero => exact wp_cropNode cutsLast_resizeLast ho ht hv hpos hle hQ
  | succ k ih =>
    exact wp_cropNode (cutsLast_cropLast fun ho ht hv hpos hle hQ ↦ ih ho ht hv hpos hle hQ) ho ht hv hpos
      hle hQ

/-! ### Taking nodes off the top -/

/-- What is left of a tree: it has the first `n` bytes, and its root has at least two edges. -/
structure Rest (h : Heap Node) (R : Multiset Addr) (h' : Heap Node) (j n : ℕ) (t s : Rep) :
    Prop where
  held : s.Held h'
  valid : s.Valid j
  leaves : Truncated h R t.leaves n s.leaves
  shape : windows s.shape = truncateOutline (windows t.shape) n
  root : ∀ hd es, s = .node hd es → 2 ≤ es.length

omit [Target] in
private theorem truncateOutline_node (hd : BtreeHeader) (b : Rep) (cs : List Rep) (n : ℕ) :
    truncateOutline (windows (Rep.shape (.node hd (b :: cs)))) n =
      if n ≤ (windows b.shape).leaves.sum then truncateOutline (windows b.shape) n
      else cropOutline (windows (Rep.shape (.node hd (b :: cs)))) n := by
  rw [truncateOutline, Rep.windows_shape_node, foldFront, List.map_cons, foldEdges]
  split_ifs <;> rfl

private theorem wp_removeSuffixAt {child : Addr → ℕ → Bool → HeapM Addr} {n : ℕ} {isMutable : Bool}
    {Q : Addr → Heap Node → Prop}
    (hchild : ∀ {h b isMutable} {Q : Addr → Heap Node → Prop}, Owned h Z (b.addr ::ₘ R) →
      Rep.Held h b → b.Valid k → n ≤ b.length → (isMutable = true → h.rc b.addr = 1) →
      (∀ (s : Rep) j h', j ≤ k → Owned h' Z (s.addr ::ₘ R) → Rest h R h' j n b s →
        Frame Z R h h' → Q s.addr h') →
      wp (child b.addr n isMutable) Q h)
    (ho : Owned h Z (t.addr ::ₘ R)) (ht : t.Held h) (hv : t.Valid (k + 1)) (hpos : 0 < n)
    (hle : n ≤ t.length)
    (hQ : ∀ (s : Rep) j h', j ≤ k + 1 → Owned h' Z (s.addr ::ₘ R) → Rest h R h' j n t s →
      Frame Z R h h' → Q s.addr h') :
    wp (removeSuffixAt k child t.addr n isMutable) Q h := by
  obtain ⟨hd, es, rfl⟩ := hv.exists_node
  obtain ⟨hnode, hes⟩ := Rep.held_node.mp ht
  obtain ⟨-, hne, -, hsum, -⟩ := Rep.Valid.node_iff.mp hv
  have hev := hv.edges
  rw [Rep.length_node] at hle
  obtain ⟨as, b, cs, hsplit, hlo, hhi, hpos'⟩ :=
    indexOfLength_spec Rep.length hd.begin hpos (hsum ▸ hle)
  rw [removeSuffixAt, wp_bind]
  refine wp_asBtree hnode ?_
  rw [Rep.btree_edges, wp_bind]
  refine wp_edgeLengths hes ?_
  rw [Rep.btree_begin, Rep.btree_length, hsum, wp_bind, wp_liftM]
  refine ⟨_, hpos', ?_⟩
  cases as with
  | nil =>
    rw [List.nil_append] at hsplit
    subst hsplit
    simp only [List.map_nil, List.sum_nil, Nat.sub_zero] at hhi
    rw [if_pos (by simp), wp_bind]
    refine wp_extractFront ho ht fun h₁ ho₁ hb₁ hf₁ ↦ ?_
    rw [wp_bind]
    refine wp_refIsOne hb₁.node? ?_
    have hbv := hev b List.mem_cons_self
    refine hchild ho₁ hb₁ hbv hhi (fun h ↦ of_decide_eq_true (Bool.and_eq_true_iff.mp h).2)
      fun s j h' hj ho' hs hf ↦ hQ s j h' (hj.trans (Nat.le_succ k)) ho' ?_ (hf₁.trans hf)
    refine { hs with leaves := ?_, shape := ?_ }
    · have := (hs.leaves.mono fun a ha ↦ ha.transfer hf₁.kept).extend []
        (cs.flatMap RoseTree.leaves)
      simpa using this
    · rw [hs.shape, truncateOutline_node, hbv.sum_windows, if_pos hhi]
  | cons a as =>
    rw [List.cons_append] at hsplit
    subst hsplit
    rw [List.map_cons, List.sum_cons] at hlo
    rw [if_neg (by simp)]
    refine wp_cropDown ho ht hv hpos hle fun s h' ho' hs hf _ ↦
      hQ s (k + 1) h' le_rfl ho' ⟨hs.held, hs.valid, hs.leaves, ?_, ?_⟩ hf
    · rw [hs.shape, truncateOutline_node, (hev a List.mem_cons_self).sum_windows,
        if_neg (by omega)]
    · rintro hd' es' rfl
      have hshape := hs.shape
      rw [← List.cons_append, cropOutline_node_last (by simpa using hev)
        (by rw [List.map_cons, List.sum_cons]; exact hlo) hhi, Rep.windows_shape_node] at hshape
      have hlen := congrArg List.length (RoseTree.node.inj hshape).2
      simp only [List.length_map, List.length_append, List.length_cons, List.length_nil] at hlen
      omega

private theorem wp_removeSuffixDown {n : ℕ} {isMutable : Bool} (ho : Owned h Z (t.addr ::ₘ R))
    (ht : t.Held h) (hv : t.Valid (k + 1)) (hpos : 0 < n) (hle : n ≤ t.length)
    {Q : Addr → Heap Node → Prop}
    (hQ : ∀ (s : Rep) j h', j ≤ k + 1 → Owned h' Z (s.addr ::ₘ R) → Rest h R h' j n t s →
      Frame Z R h h' → Q s.addr h') :
    wp (removeSuffixDown k t.addr n isMutable) Q h := by
  induction k generalizing h t isMutable Q with
  | zero =>
    refine wp_removeSuffixAt (fun {h b isMutable Q} ho hb hbv hle hone hQ ↦ ?_) ho ht hv hpos hle hQ
    obtain ⟨e, rfl, he⟩ := Rep.Valid.zero_iff.mp hbv
    refine wp_resizeEdge ho (Rep.held_leaf.mp hb) he hpos hle hone fun e' h' he' hs ho' hf ↦ ?_
    have hheld : Rep.Held h' (.leaf e') := Rep.held_leaf.mpr he'
    obtain ⟨i, hi⟩ := hheld.valid ho' (.root (Multiset.mem_cons_self _ _))
    rw [Rep.length_leaf] at hle
    refine hQ (.leaf e') 0 h' le_rfl ho' ⟨hheld,
      Rep.Valid.leaf_iff.mpr ⟨rfl, (Rep.Valid.leaf_iff.mp hi).2⟩, ?_, ?_, by simp⟩ hf
    · exact ⟨[], e, [], e', rfl, rfl, hpos, by simpa using hle, by simpa using hs⟩
    · rw [Rep.windows_shape_leaf, Rep.windows_shape_leaf, truncateOutline, foldFront, cropOutline,
        hs.length, min_eq_left hle]
  | succ k ih =>
    exact wp_removeSuffixAt (fun ho hb hbv hle _ hQ ↦ ih ho hb hbv hle hQ) ho ht hv hpos hle hQ

/-- What is left of a tree is a tree that is no higher, with the first bytes. -/
theorem wp_removeSuffix {n : ℕ} (ho : Owned h Z (t.addr ::ₘ R)) (ht : t.Held h)
    (hv : t.Valid (k + 1)) (hpos : 0 < n) (hlt : n < t.length) {Q : Option Addr → Heap Node → Prop}
    (hQ : ∀ (s : Rep) j h', j ≤ k + 1 → Owned h' Z (s.addr ::ₘ R) → s.Held h' → s.Valid j →
      s.bytes = t.bytes.take (t.length - n) → s.leaves.length ≤ t.leaves.length →
      Frame Z R h h' → Q (some s.addr) h') :
    wp (removeSuffix t.addr n) Q h := by
  obtain ⟨hd, es, rfl⟩ := hv.exists_node
  obtain ⟨hnode, -⟩ := Rep.held_node.mp ht
  obtain ⟨hk, -⟩ := Rep.Valid.node_iff.mp hv
  rw [Rep.length_node] at hlt
  rw [removeSuffix, wp_bind]
  apply wp_asBtree hnode
  rw [if_neg hpos.ne', Rep.btree_length, if_neg (Nat.not_le_of_lt hlt), wp_bind]
  apply wp_refIsOne hnode
  rw [Rep.btree_height, ← Nat.succ_injective hk, wp_bind]
  apply wp_removeSuffixDown ho ht hv (Nat.sub_pos_of_lt hlt) (Nat.sub_le _ _)
  intro s j h' hj ho' hs hf
  rw [wp_pure]
  exact hQ s j h' hj ho' hs.held hs.valid (hs.leaves.data hv.leaves_valid) hs.leaves.length_le hf

/-- Truncating a tree keeps its first data edges and shortens the last one, in place only where no
other owner sees it. The shape follows from the shape before, whichever nodes are shared, and the
result is a data edge or a tree whose root has at least two edges. -/
theorem Btree.remove_suffix_truncates {n : ℕ} (ho : Owned h Z (t.addr ::ₘ R)) (ht : t.Held h)
    (hv : t.Valid (k + 1)) (hpos : 0 < n) (hlt : n < t.length) :
    wp (removeSuffix t.addr n) (fun r h' ↦ ∃ (s : Rep) (j : ℕ), r = some s.addr ∧
      Owned h' Z (s.addr ::ₘ R) ∧ s.Held h' ∧ s.Valid j ∧ j ≤ k + 1 ∧
      s.bytes = t.bytes.take (t.length - n) ∧
      Truncated h R t.leaves (t.length - n) s.leaves ∧
      s.shape = truncateShape t.shape (t.length - n) ∧
      ((∃ e, s = .leaf e) ∨ ∃ hd es, s = .node hd es ∧ 2 ≤ es.length) ∧
      Frame Z R h h') h := by
  obtain ⟨hd, es, rfl⟩ := hv.exists_node
  obtain ⟨hnode, -⟩ := Rep.held_node.mp ht
  obtain ⟨hk, -⟩ := Rep.Valid.node_iff.mp hv
  have hlt' : n < hd.length := hlt
  rw [removeSuffix, wp_bind]
  refine wp_asBtree hnode ?_
  rw [if_neg hpos.ne', Rep.btree_length, if_neg hlt'.not_ge, wp_bind]
  refine wp_refIsOne hnode ?_
  rw [Rep.btree_height, ← Nat.succ_injective hk, wp_bind]
  refine wp_removeSuffixDown ho ht hv (Nat.sub_pos_of_lt hlt') (Nat.sub_le _ _)
    fun s j h' hj ho' hs hf ↦ ?_
  rw [wp_pure]
  refine ⟨s, j, rfl, ho', hs.held, hs.valid, hj, hs.leaves.data hv.leaves_valid, hs.leaves, ?_, ?_, hf⟩
  · rw [truncateShape, Rep.length_node, ← hs.shape, hs.valid.measure_windows]
  · cases s with
    | leaf e => exact .inl ⟨e, rfl⟩
    | node hd es => exact .inr ⟨hd, es, rfl, hs.root hd es rfl⟩

end Rules

/-- One byte of a tree with a second owner, cut inside its first flat. -/
theorem Btree.remove_suffix_truncates_pair :
    letI : Target := ⟨64, .inr rfl⟩
    wp (removeSuffix 2 2) (fun r h' ↦ ∃ (s : Rep) (j : ℕ), r = some s.addr ∧
      Owned h' [] (s.addr ::ₘ {2}) ∧ s.Held h' ∧ s.Valid j ∧ j ≤ 1 ∧
      s.bytes = pairTree.bytes.take (3 - 2) ∧
      Truncated sharedPair {2} pairTree.leaves (3 - 2) s.leaves ∧
      s.shape = truncateShape pairTree.shape (3 - 2) ∧
      ((∃ e, s = .leaf e) ∨ ∃ hd es, s = .node hd es ∧ 2 ≤ es.length) ∧
      Frame [] {2} sharedPair h') sharedPair := by
  let _ : Target := ⟨64, .inr rfl⟩
  have ht := holding_sharedPair
  exact remove_suffix_truncates (t := pairTree) ht.owned ht.held ht.valid (by decide) (by decide)

end CordRs
