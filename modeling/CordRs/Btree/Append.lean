import CordRs.Btree.Stack

/-!
# Adding data edges and trees

A data edge or a whole tree is added at either end of a tree that is given up. A tree is merged into
the node of its own height when that has room for all its edges, and put beside that node otherwise.
What the tree that comes out looks like depends on the outlines of the two only.

## Main definitions

* `CordRs.addCordRep`, `CordRs.merge`, `CordRs.mergeTrees`.
* `CordRs.append`, `CordRs.prepend`.
* `CordRs.Holding`: a reference to a valid tree that is not too high.

## Main results

* `CordRs.wp_addCordRep`, `CordRs.wp_mergeTrees`: the outline of the tree that comes out.
* `CordRs.Btree.concat_keeps_edges`: the data edges of both sides in order, at most one level more,
  and a shape that does not depend on which nodes are shared.
-/

namespace CordRs

open RefHeap LevelTree

section Target

variable [Target]

/-- Add a data edge at one end of a tree. -/
def addCordRep (back : Bool) (tree rep : Addr) : HeapM Addr := do
  let b ← asBtree tree
  let node ← read rep
  let (leaf, stack, shareDepth) ← buildStack back b.height tree []
  let result ← addEdge back leaf (decide (b.height < shareDepth)) rep node.length
  let (tree, _) ← unwind back tree shareDepth node.length stack result
  pure tree

/-- Give up a node but keep references to its edges. -/
def keepEdges (src : Addr) (edges : List Addr) : HeapM Unit := do
  if ← refIsOne src then
    free src
  else
    refAll edges
    unref src

/-- Add all edges of a tree that is not higher at one end of a tree. -/
def merge (back : Bool) (dst src : Addr) : HeapM Addr := do
  let d ← asBtree dst
  let s ← asBtree src
  let depth := d.height - s.height
  let (mergeNode, stack, shareDepth) ← buildStack back depth dst []
  let m ← asBtree mergeNode
  if m.size + s.size ≤ maxCapacity then
    let result ← toOpResult mergeNode (decide (depth < shareDepth))
    addEdgesFrom back result.tree src
    addLength result.tree s.length
    keepEdges src s.edges
    let (tree, _) ← unwind back dst shareDepth s.length stack result
    pure tree
  else
    let (tree, _) ← unwind back dst shareDepth s.length stack ⟨src, .popped⟩
    pure tree

/-- The concatenation of two trees. -/
def mergeTrees (left right : Addr) : HeapM Addr := do
  let l ← asBtree left
  let r ← asBtree right
  if r.height ≤ l.height then
    merge true left right
  else
    merge false right left

/-- Whether a node is a flat, an external, or a substring of one. -/
def isDataEdge (edge : Addr) : HeapM Bool := do
  match ← read edge with
  | .payload _ => pure true
  | .substring _ _ child => do
    let node ← read child
    pure node.isPayload
  | .btree _ => pure false

/-- Append a data edge or a tree. -/
def append (tree rep : Addr) : HeapM Addr := do
  if ← isDataEdge rep then
    addCordRep true tree rep
  else
    match ← read rep with
    | .btree _ => mergeTrees tree rep
    | _ => throw (.panic "cord-rs: unexpected node type in CordRepBtree::append")

/-- Prepend a data edge or a tree. -/
def prepend (tree rep : Addr) : HeapM Addr := do
  if ← isDataEdge rep then
    addCordRep false tree rep
  else
    match ← read rep with
    | .btree _ => mergeTrees rep tree
    | _ => throw (.panic "cord-rs: unexpected node type in CordRepBtree::prepend")

end Target

section Rules

variable [Target] {back : Bool} {h : Heap Node} {Z : List Addr} {R : Multiset Addr} {k : ℕ}
  {t : Rep}

/-- A reference to a valid tree that is not too high. -/
structure Holding (h : Heap Node) (Z : List Addr) (R : Multiset Addr) (k : ℕ) (t : Rep) :
    Prop where
  owned : Owned h Z (t.addr ::ₘ R)
  held : t.Held h
  valid : t.Valid k
  depth : k ≤ maxDepth

theorem Leg.exists_holding {j : ℕ} {cs : List Crumb} {f : Rep} (hl : Leg back h Z R j cs f)
    (hd : j + cs.length ≤ maxDepth) (hpos : 0 < j + cs.length) :
    ∃ k, Holding h Z R (k + 1) (plug back cs f) := by
  obtain ⟨k, hk⟩ := Nat.exists_eq_succ_of_ne_zero hpos.ne'
  exact ⟨k, hl.close, hl.held, by simpa [hk] using hl.valid, by simpa [hk] using hd⟩

/-- Adding a data edge puts it at the end. -/
theorem wp_addCordRep {e : Edge} (ht : Holding h Z (e.addr ::ₘ R) (k + 1) t) (he : e.Held h)
    (hv : e.Valid) (hlen : t.length + e.length ≤ usizeMax)
    (hcount : t.leaves.length + 1 ≤ maxCapacity ^ maxDepth) {Q : Addr → Heap Node → Prop}
    (hQ : ∀ t' k' h', Holding h' Z R (k' + 1) t' → t'.outline = addEdgeOutline back t.outline e →
      Frame Z R h h' → Q t'.addr h') :
    wp (addCordRep back t.addr e.addr) Q h := by
  obtain ⟨hd, ts, hroot⟩ := ht.valid.exists_node
  have hheight : k = hd.height := Nat.succ_injective (Rep.Valid.node_iff.mp (hroot ▸ ht.valid)).1
  have hnode := ht.held.node?
  rw [congrArg Rep.root hroot] at hnode
  obtain ⟨cs, e₀, rfl, hcs⟩ := exists_spine back ht.valid
  have houtline : addEdgeOutline back (plug back cs (.leaf e₀)).outline e =
      attachOutline back (spineOutline cs) (.leaf e₀) [] (.leaf e) := by
    rw [addEdgeOutline, unplug_outline (ht.valid.depth_outline.trans hcs.symm), Rep.outline_leaf]
  obtain ⟨c, cs, rfl⟩ := List.exists_cons_of_ne_nil (List.ne_nil_of_length_eq_add_one hcs)
  rw [List.length_cons, Nat.add_right_cancel_iff] at hcs
  have hvalid := ht.valid
  rw [← hcs, ← List.length_cons, ← Nat.zero_add (List.length _), plug_valid] at hvalid
  rw [addCordRep, wp_bind]
  refine wp_asBtree hnode ?_
  rw [wp_bind]
  refine wp_read he.1 ?_
  rw [wp_bind, Rep.btree_height, ← hheight, ← hcs]
  refine wp_buildStack (s := .node c.hd (join back c.rest [.leaf e₀])) ht.held
    fun lower up n hsplit hone hor ↦ ?_
  -- The leaf is the first node on the way up.
  obtain ⟨lower, up, hsplit', hone', hn⟩ : ∃ lower' up', c :: cs = lower' ++ up' ∧
      (∀ a ∈ spineAddrs up', h.rc a = 1) ∧ (n = up'.length ∨ lower' = [] ∧ up'.length ≤ n) := by
    rcases hor with hn | ⟨hn, rfl, hc⟩
    · exact ⟨c :: lower, up, by rw [hsplit]; rfl, hone, .inl hn⟩
    · refine ⟨[], c :: up, by rw [hsplit]; rfl, ?_, .inr ⟨rfl, by rw [hn]; rfl⟩⟩
      simpa using ⟨hc, hone⟩
  have hunwind : wp (unwind back (plug back (c :: cs) (.leaf e₀)).addr n e.length
      (spineAddrs (c :: cs)) ⟨e.addr, .popped⟩) (fun p h' ↦ Q p.1 h') h := by
    have ho := ht.owned
    have hheld := ht.held
    rw [hsplit'] at ho hheld hvalid hlen hcount houtline ⊢
    refine wp_unwind_popped [] lower up (.leaf e) (.leaf e₀) (Leg.start ho hheld hone'
      (Rep.held_leaf.mpr he) (Rep.Valid.leaf_iff.mpr ⟨rfl, hv⟩)) hheld hvalid.1 hvalid.2 rfl hlen
      hn rfl ?_ ?_ (by simpa using hcount) fun ds g i stack h' hi hl hd hout hf ↦ ?_
    · rw [← hsplit', List.length_cons]
      omega
    · rw [← hsplit', List.length_cons, hcs]
      simpa using ht.depth
    · have hpos : 0 < i + ds.length := by
        refine hl.valid.level_pos ?_
        have := ht.valid.leaves_length_pos
        rw [hsplit', ← Rep.leaves_outline, outline_plug] at this
        rw [← Rep.leaves_outline, hout, leaves_attachOutline, length_join]
        exact Nat.lt_add_of_pos_left this
      obtain ⟨k', hk'⟩ := hl.exists_holding hd hpos
      exact hQ _ k' h' hk' (hsplit' ▸ hout.trans houtline.symm) hf
  rw [spineAddrs_cons, unwind, length_spineAddrs, wp_bind] at hunwind
  rw [wp_bind, e.node_length]
  refine wp_mono hunwind fun r h₁ hr ↦ ?_
  rw [wp_bind] at hr ⊢
  refine wp_mono hr fun p h₂ hp ↦ ?_
  simpa using hp

theorem wp_keepEdges {a : Addr} {b : Btree} (ho : Owned h Z (a ::ₘ R))
    (ha : h.node? a = some (.btree b)) {Q : Unit → Heap Node → Prop}
    (hQ : ∀ h', Owned h' Z ((b.edges : Multiset Addr) + R) →
      Frame Z ((b.edges : Multiset Addr) + R) h h' → Q () h') :
    wp (keepEdges a b.edges) Q h := by
  have haZ := (ho.of_mem (Multiset.mem_cons_self _ _)).1
  rw [keepEdges, wp_bind]
  refine wp_refIsOne ha ?_
  by_cases hone : h.rc a = 1
  · simp only [hone, decide_true, if_true]
    have hopen := ho.openCell ha hone
    exact wp_free hopen fun h₁ ho₁ hne₁ ↦
      hQ h₁ ho₁ (hopen.frame_of_opened List.mem_cons_self haZ hne₁)
  · simp only [hone, decide_false, Bool.false_eq_true, if_false, wp_bind]
    refine wp_refAll ho (fun e he ↦ Reach.child (.root (Multiset.mem_cons_self _ _)) ha he)
      fun h₁ ho₁ hn₁ ↦ ?_
    exact wp_unref (ho₁.congr (Multiset.add_cons _ _ _)) fun h₂ ho₂ hf₂ ↦
      hQ h₂ ho₂ ((Owned.frame_of_node?_eq hn₁).trans hf₂)

/-- All edges of a tree are added to an opened node of its height. -/
private theorem wp_mergeEdges {a : Addr} {hm hs : BtreeHeader} {ms ss : List Rep}
    (ho : Owned h (a :: Z) (((ms.map Rep.addr : List Addr) : Multiset Addr) + (hs.addr ::ₘ R)))
    (ha : h.node? a = some (.btree (Rep.btree hm ms))) (hms : ∀ t ∈ ms, t.Held h)
    (hmv : Rep.Valid (k + 1) (.node hm ms)) (hsh : Rep.Held h (.node hs ss))
    (hsv : Rep.Valid (k + 1) (.node hs ss)) (hroom : ms.length + ss.length ≤ maxCapacity)
    (hlen : hm.length + hs.length ≤ usizeMax) {Q : Unit → Heap Node → Prop}
    (hQ : ∀ (m : Rep) h', m.addr = a → Owned h' Z (m.addr ::ₘ R) → m.Held h' → m.Valid (k + 1) →
      m.length = hm.length + hs.length → m.outline =
        .node (alignedBegin back (ms.length + ss.length))
          (join back (ms.map Rep.outline) (ss.map Rep.outline)) →
      Frame Z R h h' → Q () h') :
    wp (addEdgesFrom back a hs.addr) (fun _ h₁ ↦ wp (addLength a hs.length)
      (fun _ h₂ ↦ wp (keepEdges hs.addr (ss.map Rep.addr)) Q h₂) h₁) h := by
  have haZ := (List.nodup_cons.mp ho.nodup).1
  obtain ⟨hnode, hss⟩ := Rep.held_node.mp hsh
  obtain ⟨hk, hne, -, hsum, hmsv⟩ := Rep.Valid.node_iff.mp hmv
  obtain ⟨hk', -, -, hsum', hssv⟩ := Rep.Valid.node_iff.mp hsv
  rw [addEdgesFrom, wp_bind]
  refine wp_asBtree hnode ?_
  refine wp_addEdges ho List.mem_cons_self ha (by simpa using hroom) fun h₁ ho₁ hne₁ ha₁ ↦ ?_
  refine wp_addLength ho₁ List.mem_cons_self ha₁ hlen fun h₂ ho₂ hne₂ ha₂ ↦ ?_
  have hf₂ : Frame Z _ h h₂ := ho.frame_of_opened List.mem_cons_self haZ fun x hx ↦
    (hne₂ x hx).trans (hne₁ x hx)
  have hroot : hs.addr ∈ ((ms.map Rep.addr : List Addr) : Multiset Addr) + (hs.addr ::ₘ R) := by
    simp
  have hsh₂ := hsh.frame hf₂ (.root hroot)
  obtain ⟨hnode₂, hss₂⟩ := Rep.held_node.mp hsh₂
  refine wp_keepEdges (ho₂.congr (Multiset.add_cons _ _ _)) hnode₂ fun h₃ ho₃ hf₃ ↦ ?_
  rw [Rep.btree_edges] at ho₃ hf₃
  have hheld : Rep.Held h₃ (.node ⟨a, hm.length + hs.length, hm.height,
      alignedBegin back (ms.length + ss.length)⟩ (join back ms ss)) := by
    refine Rep.held_node.mpr ⟨?_, fun t ht ↦ ?_⟩
    · rw [hf₃.opened a List.mem_cons_self, ha₂]
      simp [Rep.btree, Btree.size]
    · rcases mem_join.mp ht with ht | ht
      · refine ((hms t ht).frame hf₂ (.root ?_)).frame hf₃ (.root ?_)
        · exact Multiset.mem_add.mpr (.inl (Multiset.mem_coe.mpr (List.mem_map_of_mem ht)))
        · exact Multiset.mem_add.mpr (.inr (Multiset.mem_add.mpr
            (.inl (Multiset.mem_coe.mpr (List.mem_map_of_mem ht)))))
      · exact (hss₂ t ht).frame hf₃ (.root (Multiset.mem_add.mpr
          (.inl (Multiset.mem_coe.mpr (List.mem_map_of_mem ht)))))
  have hvalid : Rep.Valid (k + 1) (.node ⟨a, hm.length + hs.length, hm.height,
      alignedBegin back (ms.length + ss.length)⟩ (join back ms ss)) := by
    refine Rep.Valid.node_iff.mpr ⟨hk, fun hnil ↦ ?_, ?_, ?_, fun t ht ↦ ?_⟩
    · have := congrArg List.length hnil
      rw [length_join, List.length_nil] at this
      exact hne (List.eq_nil_of_length_eq_zero (by omega))
    · cases back <;> simp [alignedBegin] <;> omega
    · simp [hsum, hsum']
    · rcases mem_join.mp ht with ht | ht
      · exact hmsv t ht
      · have : hm.height = hs.height := by omega
        exact this ▸ hssv t ht
  have hclose := ho₃.closeCell (R := R) hheld.node? (hvalid.fitsIn hheld) (by
    simp only [Rep.root, Pointers.children, Node.children, Rep.btree_edges, map_join, coe_join]
    abel)
  refine hQ (.node ⟨a, _, _, _⟩ _) h₃ rfl hclose hheld hvalid rfl (by simp) ((hf₂.mono (List.Subset.refl _) ?_).trans
    (hf₃.mono (List.subset_cons_self _ _) ?_))
  · exact (Multiset.le_cons_self _ _).trans (Multiset.le_add_left _ _)
  · exact (Multiset.le_add_left _ _).trans (Multiset.le_add_left _ _)

/-- Merging concatenates the data edges. -/
theorem wp_merge {j : ℕ} {s : Rep} (ht : Holding h Z (s.addr ::ₘ R) (k + 1) t) (hs : s.Held h)
    (hsv : s.Valid (j + 1)) (hle : j ≤ k) (hlen : t.length + s.length ≤ usizeMax)
    (hcount : t.leaves.length + s.leaves.length ≤ maxCapacity ^ maxDepth)
    {Q : Addr → Heap Node → Prop}
    (hQ : ∀ t' k' h', Holding h' Z R (k' + 1) t' →
      t'.outline = mergeOutline back t.outline s.outline → Frame Z R h h' → Q t'.addr h') :
    wp (merge back t.addr s.addr) Q h := by
  obtain ⟨hd, ts, hroot⟩ := ht.valid.exists_node
  have hheight : k = hd.height := Nat.succ_injective (Rep.Valid.node_iff.mp (hroot ▸ ht.valid)).1
  have hnode := ht.held.node?
  rw [congrArg Rep.root hroot] at hnode
  obtain ⟨hs', ss, rfl⟩ := hsv.exists_node
  have hj : j = hs'.height := Nat.succ_injective (Rep.Valid.node_iff.mp hsv).1
  obtain ⟨n, rfl⟩ := Nat.exists_eq_add_of_le hle
  have htv : t.Valid (j + 1 + n) := by
    simpa [show j + 1 + n = j + n + 1 by omega] using ht.valid
  obtain ⟨cs, m, rfl, hcs, hm, hspine⟩ := exists_plug back n htv
  obtain ⟨hm', ms, rfl⟩ := hm.exists_node
  obtain ⟨hnodem, hms⟩ := Rep.held_node.mp (plug_held.mp ht.held).1
  rw [merge, wp_bind]
  refine wp_asBtree hnode ?_
  rw [wp_bind]
  refine wp_asBtree hs.node? ?_
  simp only [Rep.btree_height, Rep.btree_edges, ← hheight, ← hj, Nat.add_sub_cancel_left]
  rw [wp_bind, ← hcs]
  refine wp_buildStack ht.held fun lower up d hsplit hone hor ↦ ?_
  have ho := ht.owned
  have hheld := ht.held
  have hdepth := ht.depth
  subst hsplit
  rw [wp_bind]
  refine wp_asBtree hnodem ?_
  simp only [Rep.btree_size]
  have hlevels : j + 1 + (lower ++ up).length ≤ maxDepth := by
    omega
  have hmerge : mergeOutline back (plug back (lower ++ up) (.node hm' ms)).outline
      (Rep.outline (.node hs' ss)) = mergeNodeOutline back (spineOutline (lower ++ up))
        (Rep.outline (.node hm' ms)) (Rep.outline (.node hs' ss)) := by
    rw [mergeOutline, unplug_outline]
    rw [htv.depth_outline, hsv.depth_outline, hcs, Nat.add_sub_cancel_left]
  have hdone : ∀ {ds g i h'}, Leg back h' Z R i ds g → i + ds.length ≤ maxDepth →
      (plug back ds g).outline = mergeNodeOutline back (spineOutline (lower ++ up))
        (Rep.outline (.node hm' ms)) (Rep.outline (.node hs' ss)) →
      Frame Z R h h' → Q (plug back ds g).addr h' := by
    intro ds g i h' hl hd hout hf
    rw [← hmerge] at hout
    obtain ⟨k', hk'⟩ := hl.exists_holding hd (hl.valid.level_pos (by
      rw [← Rep.leaves_outline, hout, leaves_mergeOutline, length_join, Rep.leaves_outline,
        Rep.leaves_outline]
      exact Nat.add_le_add ht.valid.leaves_length_pos hsv.leaves_length_pos))
    exact hQ _ k' h' hk' hout hf
  -- The merge node has room, and what is above it keeps its windows.
  have houtline : ∀ {m : Rep} {cs}, ms.length + ss.length ≤ maxCapacity → m.outline =
      .node (alignedBegin back (ms.length + ss.length))
        (join back (ms.map Rep.outline) (ss.map Rep.outline)) →
      cs.map Crumb.window = (lower ++ up).map Crumb.window → (plug back cs m).outline =
        mergeNodeOutline back (spineOutline (lower ++ up)) (Rep.outline (.node hm' ms))
          (Rep.outline (.node hs' ss)) := by
    intro m cs hroom hm hcs
    rw [outline_plug, hm, spineOutline_congr hcs, Rep.outline_node, Rep.outline_node,
      mergeNodeOutline, List.length_map, List.length_map, if_pos hroom]
  have hmlen : hm'.length + hs'.length ≤ usizeMax := by
    have hle := (hspine.le_rootLength).1
    rw [← @length_plug back] at hle
    exact (Nat.add_le_add_right hle _).trans hlen
  by_cases hroom : ms.length + ss.length ≤ maxCapacity
  · rw [if_pos hroom]
    rcases hor with hd' | ⟨hd', rfl, hone'⟩
    · have hshared : ¬ (lower ++ up).length < d := by
        rw [List.length_append]
        omega
      have hl : Leg back h _ _ _ [] (.node hs' ss) := Leg.start ho hheld hone hs hsv
      have hr : Reach h (hs'.addr ::ₘ ((plug back lower (.node hm' ms)).addr ::ₘ
          ((sideRefs up : Multiset Addr) + R))) hm'.addr :=
        reach_plug (s := .node hm' ms) (plug_held.mp (plug_append lower up _ ▸ hheld)).1
          (.root (by simp))
      simp only [decide_eq_false hshared, toOpResult, Bool.false_eq_true, if_false, wp_bind, wp_pure]
      refine wp_copy (by simpa using hl.owned) hnodem hr fun c h₁ ho₁ hg₁ hc₁ ↦ ?_
      refine wp_mergeEdges ho₁ hc₁ (fun t ht ↦ (hms t ht).grows hg₁) hm
        (hs.grows hg₁) hsv hroom hmlen fun m h₂ hmc ho₂ hheld₂ hv₂ hlen₂ hout₂ hf₂ ↦ ?_
      rw [← hmc]
      have hl₂ : Leg back h₂ _ _ (j + 1) [] m := ⟨by simpa using ho₂, hheld₂, hv₂, trivial⟩
      refine wp_unwind_copied (.node hm' ms) hl₂ ?_ hspine hlen₂ hlen (.inl hd') rfl
        fun ds h₃ hds hl₃ hf₃ ↦ ?_
      · exact held_frame_append lower (hheld.grows hg₁) hf₂ (List.subset_append_left _ _) (by simp)
          fun b hb ↦ by simp [hb]
      · have hlen' : ds.length = (lower ++ up).length := by
          simpa using congrArg List.length hds
        refine hdone hl₃ (by simpa [hlen'] using hlevels) (houtline hroom hout₂ hds) ?_
        refine ((hl.frame_of_grows hg₁).trans hf₂).mono (List.subset_append_right _ _)
          ((Multiset.le_add_left _ _).trans (Multiset.le_cons_self _ _)) |>.trans hf₃
    · have howned : ([] ++ up).length < d := by
        rw [List.nil_append]
        omega
      simp only [decide_eq_true howned, toOpResult, if_true, wp_bind, wp_pure]
      have hup : Owned h (spineAddrs up ++ Z) _ := openSpine ho hheld hone
      have hspineh : SpineHeld back h up hm'.addr := (plug_held.mp hheld).2
      have hm₀ : Owned h (hm'.addr :: (spineAddrs up ++ Z))
          (((ms.map Rep.addr : List Addr) : Multiset Addr) +
            (hs'.addr ::ₘ ((sideRefs up : Multiset Addr) + R))) := by
        refine (hup.openCell hnodem hone').congr ?_
        simp only [Pointers.children, Node.children, Rep.btree_edges, Rep.addr_node,
          ← Multiset.singleton_add]
        abel
      refine wp_mergeEdges hm₀ hnodem hms hm hs hsv hroom hmlen
        fun m h₂ hmc ho₂ hheld₂ hv₂ hlen₂ hout₂ hf₂ ↦ ?_
      rw [Rep.addr_node, ← hmc]
      have hl₂ : Leg back h₂ _ _ (j + 1) [] m := ⟨by simpa using ho₂, hheld₂, hv₂, trivial⟩
      refine wp_unwind_inPlace hm'.length hl₂ ?_ hspine hlen₂ (by rwa [length_plug] at hlen)
        fun h₃ hl₃ hf₃ ↦ ?_
      · rw [plug_nil, hmc]
        exact hspineh.frame hf₂ (List.subset_append_left _ _) fun b hb ↦ by simp [hb]
      · refine hdone hl₃ (by simpa using hlevels) (houtline hroom hout₂ ?_)
          ((hf₂.mono (List.subset_append_right _ _) (Multiset.le_add_left _ _)).trans hf₃)
        simp [growSpine, Crumb.window, Function.comp_def]
  · rw [if_neg hroom, wp_bind]
    refine wp_unwind_popped [] lower up (.node hs' ss) (.node hm' ms) (Leg.start ho hheld hone hs hsv)
      hheld hm hspine rfl hlen ?_ rfl (by simp) hlevels hcount fun ds g i stack h' hi hl hd hout hf ↦
        (wp_pure _ _ _).mpr (hdone hl hd ?_ hf)
    · rcases hor with hd | ⟨hd, hnil, -⟩
      · exact .inl hd
      · exact .inr ⟨hnil, by omega⟩
    · rw [hout, Rep.outline_node, Rep.outline_node, mergeNodeOutline, List.length_map,
        List.length_map, if_neg hroom, spineOutline_nil]

/-! ### Concatenation -/

/-- Merging two trees adds the lower one to the higher one. -/
theorem wp_mergeTrees {j : ℕ} {s : Rep} (ht : Holding h Z (s.addr ::ₘ R) (k + 1) t)
    (hs : s.Held h) (hsv : s.Valid (j + 1)) (hj : j + 1 ≤ maxDepth)
    (hlen : t.length + s.length ≤ usizeMax)
    (hcount : t.leaves.length + s.leaves.length ≤ maxCapacity ^ maxDepth)
    {Q : Addr → Heap Node → Prop}
    (hQ : ∀ t' k' h', Holding h' Z R (k' + 1) t' →
      t'.outline = mergeTreesOutline t.outline s.outline → Frame Z R h h' → Q t'.addr h') :
    wp (mergeTrees t.addr s.addr) Q h := by
  have hmerge : mergeTreesOutline t.outline s.outline =
      if j ≤ k then mergeOutline true t.outline s.outline
      else mergeOutline false s.outline t.outline := by
    rw [mergeTreesOutline, ht.valid.depth_outline, hsv.depth_outline]
    simp only [Nat.add_le_add_iff_right]
  obtain ⟨hd, ts, rfl⟩ := ht.valid.exists_node
  have hk : k = hd.height := Nat.succ_injective (Rep.Valid.node_iff.mp ht.valid).1
  obtain ⟨hs', ss, rfl⟩ := hsv.exists_node
  have hj' : j = hs'.height := Nat.succ_injective (Rep.Valid.node_iff.mp hsv).1
  rw [mergeTrees, wp_bind]
  refine wp_asBtree ht.held.node? ?_
  rw [wp_bind]
  refine wp_asBtree hs.node? ?_
  rw [Rep.btree_height, Rep.btree_height, ← hk, ← hj']
  by_cases hle : j ≤ k
  · rw [if_pos hle] at hmerge ⊢
    exact wp_merge ht hs hsv hle hlen hcount fun t' k' h' ht' hout hf ↦
      hQ t' k' h' ht' (hout.trans hmerge.symm) hf
  · rw [if_neg hle] at hmerge ⊢
    have hs' : Holding h Z _ (j + 1) (.node hs' ss) :=
      ⟨ht.owned.congr (Multiset.cons_swap _ _ _), hs, hsv, hj⟩
    exact wp_merge hs' ht.held ht.valid (by omega) (Nat.add_comm _ _ ▸ hlen)
      (Nat.add_comm _ _ ▸ hcount) fun t' k' h' ht' hout hf ↦
        hQ t' k' h' ht' (hout.trans hmerge.symm) hf

omit [Target] in
theorem wp_isDataEdge (ht : t.Held h) {Q : Bool → Heap Node → Prop}
    (hQ : Q (!t.root.isBtree) h) : wp (isDataEdge t.addr) Q h := by
  rw [isDataEdge, wp_bind]
  refine wp_read ht.node? ?_
  cases t with
  | leaf e =>
    cases e with
    | whole a p => exact (wp_pure _ _ _).mpr hQ
    | part a length start child p =>
      simp only [Rep.root, Edge.node, wp_bind]
      exact wp_read (Rep.held_leaf.mp ht).2 ((wp_pure _ _ _).mpr hQ)
  | node hd ts => exact (wp_pure _ _ _).mpr hQ

/-- Appending puts a data edge or a tree behind a tree. -/
theorem wp_append {j : ℕ} {s : Rep} (ht : Holding h Z (s.addr ::ₘ R) (k + 1) t) (hs : s.Held h)
    (hsv : s.Valid j) (hj : j ≤ maxDepth) (hlen : t.length + s.length ≤ usizeMax)
    (hcount : t.leaves.length + s.leaves.length ≤ maxCapacity ^ maxDepth)
    {Q : Addr → Heap Node → Prop}
    (hQ : ∀ t' k' h', Holding h' Z R (k' + 1) t' →
      t'.outline = appendOutline t.outline s.outline → Frame Z R h h' → Q t'.addr h') :
    wp (append t.addr s.addr) Q h := by
  rw [append, wp_bind]
  refine wp_isDataEdge hs ?_
  cases s with
  | leaf e =>
    rw [if_pos (by cases e <;> rfl)]
    refine wp_addCordRep ht (Rep.held_leaf.mp hs) (Rep.Valid.leaf_iff.mp hsv).2 hlen
      (by simpa using hcount) fun t' k' h' ht' hout hf ↦ hQ t' k' h' ht' ?_ hf
    rw [hout, Rep.outline_leaf, appendOutline]
  | node hd ts =>
    rw [if_neg (by simp [Rep.root, Node.isBtree]), wp_bind]
    refine wp_read hs.node? ?_
    obtain ⟨hj', -⟩ := Rep.Valid.node_iff.mp hsv
    subst hj'
    refine wp_mergeTrees ht hs hsv hj hlen hcount fun t' k' h' ht' hout hf ↦ hQ t' k' h' ht' ?_ hf
    rw [hout, Rep.outline_node, appendOutline]

/-- Prepending puts a data edge or a tree in front of a tree. -/
theorem wp_prepend {j : ℕ} {s : Rep} (ht : Holding h Z (s.addr ::ₘ R) (k + 1) t) (hs : s.Held h)
    (hsv : s.Valid j) (hj : j ≤ maxDepth) (hlen : t.length + s.length ≤ usizeMax)
    (hcount : t.leaves.length + s.leaves.length ≤ maxCapacity ^ maxDepth)
    {Q : Addr → Heap Node → Prop}
    (hQ : ∀ t' k' h', Holding h' Z R (k' + 1) t' →
      t'.outline = prependOutline t.outline s.outline → Frame Z R h h' → Q t'.addr h') :
    wp (prepend t.addr s.addr) Q h := by
  rw [prepend, wp_bind]
  refine wp_isDataEdge hs ?_
  cases s with
  | leaf e =>
    rw [if_pos (by cases e <;> rfl)]
    refine wp_addCordRep ht (Rep.held_leaf.mp hs) (Rep.Valid.leaf_iff.mp hsv).2 hlen
      (by simpa using hcount) fun t' k' h' ht' hout hf ↦ hQ t' k' h' ht' ?_ hf
    rw [hout, Rep.outline_leaf, prependOutline]
  | node hd ts =>
    rw [if_neg (by simp [Rep.root, Node.isBtree]), wp_bind]
    refine wp_read hs.node? ?_
    obtain ⟨hj', -⟩ := Rep.Valid.node_iff.mp hsv
    subst hj'
    have hs' : Holding h Z _ (hd.height + 1) (.node hd ts) :=
      ⟨ht.owned.congr (Multiset.cons_swap _ _ _), hs, hsv, hj⟩
    refine wp_mergeTrees hs' ht.held ht.valid ht.depth (Nat.add_comm _ _ ▸ hlen)
      (Nat.add_comm _ _ ▸ hcount) fun t' k' h' ht' hout hf ↦ hQ t' k' h' ht' ?_ hf
    rw [hout, Rep.outline_node, prependOutline]

/-! ### The tree that comes out -/

/-- A program returned a reference to a valid tree with the given data edges and shape, which is at
most `height` high, and left alone what others hold. -/
def Concatenated (h : Heap Node) (Z : List Addr) (R : Multiset Addr) (edges : List Edge)
    (height : ℕ) (shape : RoseTree NodeShape ℕ) (a : Addr) (h' : Heap Node) : Prop :=
  ∃ t' k', t'.addr = a ∧ Holding h' Z R (k' + 1) t' ∧ t'.leaves = edges ∧ k' ≤ height ∧
    k' ≤ maxHeight ∧ t'.shape = shape ∧ Frame Z R h h'

private theorem Holding.concatenated (height : ℕ) {h' : Heap Node} {t' : Rep} {k' : ℕ}
    {u : RoseTree ℕ Edge} (ht' : Holding h' Z R (k' + 1) t') (hout : t'.outline = u)
    (hheight : u.depth ≤ maxDepth → u.depth ≤ height + 1) (hf : Frame Z R h h') :
    Concatenated h Z R u.leaves height (measure (u.map id Edge.length)) t'.addr h' := by
  subst hout
  rw [ht'.valid.depth_outline] at hheight
  exact ⟨t', k', rfl, ht', by simp, Nat.le_of_succ_le_succ (hheight ht'.depth),
    Nat.le_of_succ_le_succ ht'.depth, ht'.valid.shape_eq, hf⟩

/-- A tree of height `k` and a tree or a data edge put behind or in front of it: the data edges are
those of both sides in order, there is at most one level more, and the shape follows from the two
shapes, whichever nodes are shared. -/
theorem Btree.concat_keeps_edges {j : ℕ} {s : Rep} (ht : Holding h Z (s.addr ::ₘ R) (k + 1) t)
    (hs : s.Held h) (hsv : s.Valid j) (hj : j ≤ maxDepth) (hlen : t.length + s.length ≤ usizeMax)
    (hcount : t.leaves.length + s.leaves.length ≤ maxCapacity ^ maxDepth) :
    (0 < j → wp (mergeTrees t.addr s.addr) (Concatenated h Z R (t.leaves ++ s.leaves)
      (max k (j - 1) + 1) (mergeTreesShape t.shape s.shape)) h) ∧
    wp (append t.addr s.addr) (Concatenated h Z R (t.leaves ++ s.leaves)
      (max k (j - 1) + 1) (appendShape t.shape s.shape)) h ∧
    wp (prepend t.addr s.addr) (Concatenated h Z R (s.leaves ++ t.leaves)
      (max k (j - 1) + 1) (prependShape t.shape s.shape)) h := by
  have hheight : max (k + 1) j + 1 = max k (j - 1) + 1 + 1 := by omega
  refine ⟨fun hpos ↦ ?_, ?_, ?_⟩
  · obtain ⟨j, rfl⟩ := Nat.exists_eq_succ_of_ne_zero hpos.ne'
    refine wp_mergeTrees ht hs hsv hj hlen hcount fun t' k' h' ht' hout hf ↦ ?_
    have := ht'.concatenated (max k j + 1) hout (fun hd ↦ ?_) hf
    · rw [map_mergeTreesOutline, leaves_mergeTreesOutline, Rep.leaves_outline, Rep.leaves_outline,
        ← Rep.windows_shape, ← Rep.windows_shape] at this
      exact this
    · refine (depth_mergeTreesOutline_le ht.valid.leveled hsv.leveled (Nat.succ_pos k) hpos hd).trans
        hheight.le
  · refine wp_append ht hs hsv hj hlen hcount fun t' k' h' ht' hout hf ↦ ?_
    have := ht'.concatenated (max k (j - 1) + 1) hout (fun hd ↦ ?_) hf
    · rw [map_appendOutline, leaves_appendOutline, Rep.leaves_outline, Rep.leaves_outline,
        ← Rep.windows_shape, ← Rep.windows_shape] at this
      exact this
    · exact (depth_appendOutline_le ht.valid.leveled hsv.leveled (Nat.succ_pos k) hd).trans
        hheight.le
  · refine wp_prepend ht hs hsv hj hlen hcount fun t' k' h' ht' hout hf ↦ ?_
    have := ht'.concatenated (max k (j - 1) + 1) hout (fun hd ↦ ?_) hf
    · rw [map_prependOutline, leaves_prependOutline, Rep.leaves_outline, Rep.leaves_outline,
        ← Rep.windows_shape, ← Rep.windows_shape] at this
      exact this
    · exact (depth_prependOutline_le ht.valid.leveled hsv.leveled (Nat.succ_pos k) hd).trans
        hheight.le

end Rules

/-! ### A tree behind itself -/

/-- Two flats below a node that two references lead to. -/
def sharedPair : Heap Node where
  cells := [some ⟨1, .payload (.flat 6 [1, 2])⟩, some ⟨1, .payload (.flat 6 [3])⟩,
    some ⟨2, .btree ⟨3, 0, 0, [0, 1]⟩⟩]

/-- The tree of the two flats. -/
def pairTree : Rep :=
  .node ⟨2, 3, 0, 0⟩ [.leaf (.whole 0 (.flat 6 [1, 2])), .leaf (.whole 1 (.flat 6 [3]))]

theorem holding_sharedPair :
    let _ : Target := ⟨64, .inr rfl⟩
    Holding sharedPair [] {2} 1 pairTree := by
  let _ : Target := ⟨64, .inr rfl⟩
  refine ⟨?_, ?_, ?_, by decide⟩
  · refine Owned.of_lt_size (by decide) (by decide) (by decide +kernel) fun x n hn ↦ ?_
    obtain _ | _ | _ | x := x
    · obtain rfl := Option.some.inj hn
      exact ⟨[], rfl, ⟨by decide, by decide, by decide, by decide⟩, rfl⟩
    · obtain rfl := Option.some.inj hn
      exact ⟨[], rfl, ⟨by decide, by decide, by decide, by decide⟩, rfl⟩
    · obtain rfl := Option.some.inj hn
      exact ⟨[_, _], rfl, ⟨by decide, by decide, by decide, by decide⟩, rfl⟩
    · cases hn
  · refine Rep.held_node.mpr ⟨rfl, fun t ht ↦ ?_⟩
    rcases List.mem_pair.mp ht with rfl | rfl <;> exact Rep.held_leaf.mpr ⟨rfl, rfl⟩
  · refine Rep.Valid.node_iff.mpr ⟨rfl, by decide, by decide, rfl, fun t ht ↦ ?_⟩
    rcases List.mem_pair.mp ht with rfl | rfl <;>
      exact Rep.Valid.leaf_iff.mpr ⟨rfl, by decide, by decide, by decide, by decide⟩

/-- A tree that is merged with itself through a second reference. -/
theorem Btree.concat_keeps_edges_self :
    letI : Target := ⟨64, .inr rfl⟩
    wp (mergeTrees 2 2) (Concatenated sharedPair [] 0 (pairTree.leaves ++ pairTree.leaves) 1
      (mergeTreesShape pairTree.shape pairTree.shape)) sharedPair := by
  let _ : Target := ⟨64, .inr rfl⟩
  have ht := holding_sharedPair
  exact (concat_keeps_edges (R := 0) ht ht.held ht.valid ht.depth (by decide) (by decide)).1
    Nat.one_pos

end CordRs
