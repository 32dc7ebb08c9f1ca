import CordRs.Btree.Rebuild

/-!
# Going down to a node and back up

An operation at the first or last edge of some level goes down from the root, remembers the nodes
it passes and up to which depth the caller owns them alone, changes the node it arrives at and
goes back up. An owned node is changed in place and a shared one is copied; a node made beside a
full one is added one level up, in the last resort under a new root.

A leg is an opened spine: the nodes passed that are owned, and those made on the way up.

## Main definitions

* `CordRs.buildStack`, `CordRs.buildOwnedStack`, `CordRs.unwind`, `CordRs.finalize`.
* `CordRs.Leg`.

## Main results

* `CordRs.wp_buildStack`: the nodes passed, and which of them are owned.
* `CordRs.wp_unwind_replaced`, `CordRs.wp_unwind_popped`: the tree after a node was replaced, or
  after another one was put beside it.
-/

namespace CordRs

open RefHeap LevelTree

/-- The outermost edge of a node. -/
def edgeAt (back : Bool) (tree : Addr) : HeapM Addr := do
  let b ← asBtree tree
  match unjoin back b.edges with
  | some (_, edge) => pure edge
  | none => throw .window

/-- Go down `depth` edges and put the nodes passed on the stack. -/
def pushStack (back : Bool) : ℕ → Addr → List Addr → HeapM (Addr × List Addr)
  | 0, tree, stack => pure (tree, stack)
  | depth + 1, tree, stack => do
    let edge ← edgeAt back tree
    pushStack back depth edge (tree :: stack)

/-- The node `depth` edges down, the nodes passed from the bottom, and the number of nodes from the
root on that nothing else refers to. -/
def buildStack (back : Bool) : ℕ → Addr → List Addr → HeapM (Addr × List Addr × ℕ)
  | depth, tree, stack => do
    if ← refIsOne tree then
      match depth with
      | 0 => pure (tree, stack, stack.length + 1)
      | depth + 1 => do
        let edge ← edgeAt back tree
        buildStack back depth edge (tree :: stack)
    else
      let (leaf, full) ← pushStack back depth tree stack
      pure (leaf, full, stack.length)

/-- The nodes passed on the way down a tree whose outermost nodes are owned. That they are is the
assertion of a debug build. -/
def buildOwnedStack (back : Bool) : ℕ → Addr → List Addr → HeapM (List Addr × ℕ)
  | height, tree, stack => do
    if ← refIsOne tree then
      match height with
      | 0 => pure (stack, stack.length + 1)
      | height + 1 => do
        let edge ← edgeAt back tree
        buildOwnedStack back height edge (tree :: stack)
    else
      throw (.panic "assertion failed: tree.as_rep().ref_is_one()")

section Target

variable [Target]

/-- The root after the topmost node was changed. -/
def finalize (back : Bool) (tree : Addr) (result : OpResult) : HeapM Addr := do
  match result.action with
  | .popped =>
    let pair ← if back then newPair tree result.tree else newPair result.tree tree
    let b ← asBtree pair
    if maxHeight < b.height then
      let tree ← rebuild pair
      let b ← asBtree tree
      if maxHeight < b.height then
        throw .abort
      else
        pure tree
    else
      pure pair
  | .copied =>
    unref tree
    pure result.tree
  | .inPlace => pure result.tree

/-- Go up a stack with the result of an operation at its bottom. The stack that comes back has the
copies of the nodes that were copied, as the propagating variant leaves it; other callers drop
it. -/
def unwind (back : Bool) (tree : Addr) (shareDepth length : ℕ) :
    List Addr → OpResult → HeapM (Addr × List Addr)
  | [], result => do
    let tree ← finalize back tree result
    pure (tree, [])
  | node :: above, result => do
    let owned := decide (above.length < shareDepth)
    match result.action with
    | .popped => do
      let result ← addEdge back node owned result.tree length
      let (tree, stack) ← unwind back tree shareDepth length above result
      pure (tree, node :: stack)
    | .copied => do
      let result ← setEdge back node owned result.tree length
      let (tree, stack) ← unwind back tree shareDepth length above result
      pure (tree, result.tree :: stack)
    | .inPlace => do
      addLengths (node :: above) length
      pure (above.getLastD node, node :: above)

end Target

/-! ### Legs -/

section Legs

variable [Target] {back : Bool} {h h' : Heap Node} {Z Z' : List Addr} {R S : Multiset Addr}
  {j k : ℕ} {cs ds : List Crumb} {f : Rep}

/-- An opened spine above a valid tree. -/
structure Leg (back : Bool) (h : Heap Node) (Z : List Addr) (R : Multiset Addr) (j : ℕ)
    (cs : List Crumb) (f : Rep) : Prop where
  owned : Owned h (spineAddrs cs ++ Z) (f.addr ::ₘ ((sideRefs cs : Multiset Addr) + R))
  held : (plug back cs f).Held h
  focus : f.Valid j
  spine : SpineValid j cs f.length

namespace Leg

theorem congr (hl : Leg back h Z R j cs f) (hR : R = S) : Leg back h Z S j cs f := hR ▸ hl

theorem valid (hl : Leg back h Z R j cs f) : (plug back cs f).Valid (j + cs.length) :=
  plug_valid.mpr ⟨hl.focus, hl.spine⟩

theorem close (hl : Leg back h Z R j cs f) : Owned h Z ((plug back cs f).addr ::ₘ R) :=
  closeSpine hl.owned hl.held hl.valid

/-- A leg stays one while the rest of the heap changes. -/
theorem frame (hl : Leg back h Z R j cs f)
    (ho : Owned h' (spineAddrs cs ++ Z') (f.addr ::ₘ ((sideRefs cs : Multiset Addr) + S)))
    (hf : Frame (spineAddrs cs) (f.addr ::ₘ (sideRefs cs : Multiset Addr)) h h') :
    Leg back h' Z' S j cs f := by
  refine ⟨ho, ?_, hl.focus, hl.spine⟩
  obtain ⟨hheld, hspine⟩ := plug_held.mp hl.held
  refine plug_held.mpr ⟨hheld.frame hf (.root (Multiset.mem_cons_self _ _)),
    hspine.frame hf (List.Subset.refl _) fun b hb ↦ ?_⟩
  exact Multiset.mem_cons_of_mem (Multiset.mem_coe.mpr hb)

/-- A leg with a spine of opened nodes above it. -/
theorem append (hl : Leg back h (spineAddrs ds ++ Z) ((sideRefs ds : Multiset Addr) + R) j cs f)
    (hds : SpineHeld back h ds (plug back cs f).addr)
    (hv : SpineValid (j + cs.length) ds (plug back cs f).length) :
    Leg back h Z R j (cs ++ ds) f := by
  refine ⟨(hl.owned.perm ?_).congr ?_, ?_, hl.focus, ?_⟩
  · rw [spineAddrs_append, List.append_assoc]
  · rw [sideRefs_append, ← Multiset.coe_add, add_assoc]
  · rw [plug_append]
    exact plug_held.mpr ⟨hl.held, hds⟩
  · rw [spineValid_append, ← @length_plug back]
    exact ⟨hl.spine, hv⟩

theorem frame_of_grows (hl : Leg back h Z R j cs f) (hg : Grows h h') : Frame Z R h h' :=
  (hl.owned.frame_of_grows hg).mono (List.subset_append_right _ _)
    ((Multiset.le_add_left _ _).trans (Multiset.le_cons_self _ _))

/-- Close the lowest node of a leg. -/
theorem raise {c : Crumb} (hl : Leg back h Z R j (c :: cs) f) :
    Leg back h Z R (j + 1) cs (.node c.hd (join back c.rest [f])) := by
  obtain ⟨hheld, hspine⟩ := plug_held.mp hl.held
  obtain ⟨hc, hrest, -⟩ := spineHeld_cons.mp hspine
  have hnode : Rep.Held h (.node c.hd (join back c.rest [f])) :=
    (@plug_held back [c] _ _).mpr ⟨hheld, spineHeld_cons.mpr ⟨hc, hrest, trivial, by simp⟩⟩
  obtain ⟨hk, hcap, hlen, hrestv, hcs⟩ := hl.spine
  have hv : Rep.Valid (j + 1) (.node c.hd (join back c.rest [f])) :=
    (@plug_valid back [c] _ _ _).mpr ⟨hl.focus, hk, hcap, hlen, hrestv, trivial⟩
  refine ⟨hl.owned.closeCell hnode.node? (hv.fitsIn hnode) ?_, hl.held, hv, hcs⟩
  simp only [Rep.root, Pointers.children, Node.children, Rep.btree_edges, map_join, coe_join,
    sideRefs_cons, ← Multiset.coe_add, List.map_cons, List.map_nil, Multiset.coe_singleton,
    ← Multiset.singleton_add]
  abel

/-- Open the owned nodes above a node of a tree, next to another tree. -/
theorem start {lower up : List Crumb} {cur : Rep}
    (ho : Owned h Z ((plug back (lower ++ up) cur).addr ::ₘ (f.addr ::ₘ R)))
    (ht : (plug back (lower ++ up) cur).Held h) (hone : ∀ a ∈ spineAddrs up, h.rc a = 1)
    (hf : f.Held h) (hv : f.Valid j) :
    Leg back h (spineAddrs up ++ Z)
      ((plug back lower cur).addr ::ₘ ((sideRefs up : Multiset Addr) + R)) j [] f := by
  rw [plug_append] at ho ht
  refine ⟨(openSpine ho ht hone).congr ?_, hf, hv, trivial⟩
  simp only [sideRefs_nil, Multiset.coe_nil, zero_add, ← Multiset.singleton_add]
  abel

end Leg

/-- Every valid tree is a data edge below a spine. -/
theorem exists_spine (back : Bool) {t : Rep} (hv : t.Valid k) :
    ∃ cs e, t = plug back cs (.leaf e) ∧ cs.length = k := by
  induction k generalizing t with
  | zero =>
    obtain ⟨e, rfl, -⟩ := Rep.Valid.zero_iff.mp hv
    exact ⟨[], e, rfl, rfl⟩
  | succ k ih =>
    obtain ⟨hd, ts, rfl⟩ := hv.exists_node
    obtain ⟨hhd, hne, -, -, hts⟩ := Rep.Valid.node_iff.mp hv
    obtain ⟨rest, t, rfl⟩ := exists_join back hne
    obtain ⟨cs, e, rfl, hlen⟩ := ih (Nat.succ_injective hhd ▸ hts t (by simp))
    refine ⟨cs ++ [⟨hd, rest⟩], e, by rw [plug_append]; rfl, by simp [hlen]⟩

/-- The spine above a node some levels up in a valid tree. -/
theorem exists_plug (back : Bool) {t : Rep} (n : ℕ) (hv : t.Valid (k + n)) :
    ∃ cs s, t = plug back cs s ∧ cs.length = n ∧ s.Valid k ∧ SpineValid k cs s.length := by
  obtain ⟨cs, e, rfl, hcs⟩ := exists_spine back hv
  have hlen : (cs.drop k).length = n := by
    rw [List.length_drop]
    omega
  have hplug : plug back cs (.leaf e) = plug back (cs.drop k) (plug back (cs.take k) (.leaf e)) := by
    rw [← plug_append, List.take_append_drop]
  refine ⟨cs.drop k, _, hplug, hlen, ?_⟩
  rw [hplug, ← hlen] at hv
  exact plug_valid.mp hv

end Legs

/-! ### Going down -/

section Down

variable {back : Bool} {h : Heap Node} {cs us : List Crumb} {s : Rep} {c : Crumb}

theorem wp_edgeAt (hc : (plug back (cs ++ [c]) s).Held h) {Q : Addr → Heap Node → Prop}
    (hQ : (plug back cs s).Held h → Q (plug back cs s).addr h) :
    wp (edgeAt back c.hd.addr) Q h := by
  rw [plug_append] at hc
  obtain ⟨hnode, hes⟩ := Rep.held_node.mp hc
  rw [edgeAt, wp_bind]
  refine wp_asBtree hnode ?_
  simp only [Rep.btree_edges, map_join, List.map_cons, List.map_nil, unjoin_join, wp_pure]
  exact hQ (hes _ (by simp))

theorem addr_plug_concat : (plug back (cs ++ [c]) s).addr = c.hd.addr := by
  rw [plug_append]
  rfl

theorem wp_pushStack {stack : List Addr} (ht : (plug back cs s).Held h)
    {Q : Addr × List Addr → Heap Node → Prop} (hQ : Q (s.addr, spineAddrs cs ++ stack) h) :
    wp (pushStack back cs.length (plug back cs s).addr stack) Q h := by
  induction cs using List.reverseRecOn generalizing stack with
  | nil => exact (wp_pure _ _ _).mpr hQ
  | append_singleton cs c ih =>
    rw [addr_plug_concat, List.length_append, List.length_singleton, pushStack, wp_bind]
    refine wp_edgeAt ht fun ht' ↦ ih ht' ?_
    simpa using hQ

private theorem wp_buildStack_aux (us : List Crumb) (hus : ∀ a ∈ spineAddrs us, h.rc a = 1)
    (ht : (plug back cs s).Held h) {Q : Addr × List Addr × ℕ → Heap Node → Prop}
    (hQ : ∀ lower up n, cs ++ us = lower ++ up → (∀ a ∈ spineAddrs up, h.rc a = 1) →
      (n = up.length ∨ n = up.length + 1 ∧ lower = [] ∧ h.rc s.addr = 1) →
      Q (s.addr, spineAddrs (cs ++ us), n) h) :
    wp (buildStack back cs.length (plug back cs s).addr (spineAddrs us)) Q h := by
  have hlen : (spineAddrs us).length = us.length := List.length_map _
  induction cs using List.reverseRecOn generalizing us with
  | nil =>
    rw [plug_nil] at ht ⊢
    rw [List.length_nil, buildStack, wp_bind]
    refine wp_refIsOne ht.node? ?_
    by_cases hone : h.rc s.addr = 1
    · simp only [hone, decide_true, if_true, wp_pure, hlen]
      exact hQ [] us _ rfl hus (.inr ⟨rfl, rfl, hone⟩)
    · simp only [hone, decide_false, Bool.false_eq_true, if_false, pushStack, pure_bind, wp_pure,
        hlen]
      exact hQ [] us _ rfl hus (.inl rfl)
  | append_singleton cs c ih =>
    rw [buildStack.eq_def, wp_bind, addr_plug_concat]
    refine wp_refIsOne (addr_plug_concat ▸ ht.node?) ?_
    by_cases hone : h.rc c.hd.addr = 1
    · simp only [hone, decide_true, if_true, List.length_append, List.length_singleton, wp_bind]
      refine wp_edgeAt ht fun ht' ↦ ih (c :: us) ?_ ht' (fun lower up n hn hup hor ↦ ?_)
        (by simp [hlen])
      · simpa using ⟨hone, hus⟩
      · rw [List.append_assoc, List.singleton_append] at hQ
        exact hQ lower up n hn hup hor
    · simp only [hone, decide_false, Bool.false_eq_true, if_false, wp_bind]
      rw [← @addr_plug_concat back cs s c]
      refine wp_pushStack ht ?_
      rw [wp_pure, hlen, ← spineAddrs_append]
      exact hQ (cs ++ [c]) us _ rfl hus (.inl rfl)

/-- The nodes passed on the way down, split into those that nothing else refers to, from the root
on, and the others below them. -/
theorem wp_buildStack (ht : (plug back cs s).Held h) {Q : Addr × List Addr × ℕ → Heap Node → Prop}
    (hQ : ∀ lower up n, cs = lower ++ up → (∀ a ∈ spineAddrs up, h.rc a = 1) →
      (n = up.length ∨ n = up.length + 1 ∧ lower = [] ∧ h.rc s.addr = 1) →
      Q (s.addr, spineAddrs cs, n) h) :
    wp (buildStack back cs.length (plug back cs s).addr []) Q h := by
  refine wp_buildStack_aux [] (by simp) ht fun lower up n hn hup hor ↦ ?_
  rw [List.append_nil] at hn ⊢
  exact hQ lower up n hn hup hor

/-- Nothing else refers to the nodes passed. -/
theorem wp_buildOwnedStack {stack : List Addr} (ht : (plug back cs s).Held h)
    (hcs : ∀ a ∈ spineAddrs cs, h.rc a = 1) (hs : h.rc s.addr = 1)
    {Q : List Addr × ℕ → Heap Node → Prop}
    (hQ : Q (spineAddrs cs ++ stack, cs.length + stack.length + 1) h) :
    wp (buildOwnedStack back cs.length (plug back cs s).addr stack) Q h := by
  induction cs using List.reverseRecOn generalizing stack with
  | nil =>
    rw [List.length_nil, buildOwnedStack, wp_bind]
    refine wp_refIsOne ht.node? ?_
    rw [plug_nil, hs]
    simpa using hQ
  | append_singleton cs c ih =>
    rw [List.length_append, List.length_singleton, buildOwnedStack, wp_bind]
    refine wp_refIsOne ht.node? ?_
    rw [addr_plug_concat, hcs c.hd.addr (by simp)]
    simp only [decide_true, if_true, wp_bind]
    refine wp_edgeAt ht fun ht' ↦ ih ht' (fun a ha ↦ hcs a (by simp [ha])) ?_
    have hlen : cs.length + (c.hd.addr :: stack).length + 1 =
        (cs ++ [c]).length + stack.length + 1 := by
      simp only [List.length_append, List.length_cons, List.length_nil]
      omega
    rw [hlen]
    simpa using hQ

end Down

/-! ### Going up -/

section Up

variable [Target] {back : Bool} {h : Heap Node} {Z : List Addr} {R : Multiset Addr}
  {j k n delta : ℕ} {ns lower up : List Crumb} {f cur : Rep} {tree : Addr}

/-- The lengths along an opened spine go up with that of the tree below it. -/
theorem wp_growLengths (oldLength : ℕ)
    (hl : Leg back h (spineAddrs up ++ Z) ((sideRefs up : Multiset Addr) + R) j ns f)
    (hup : SpineHeld back h up (plug back ns f).addr)
    (hv : SpineValid (j + ns.length) up oldLength)
    (hnew : (plug back ns f).length = oldLength + delta)
    (hlen : rootLength up oldLength + delta ≤ usizeMax) {Q : Unit → Heap Node → Prop}
    (hQ : ∀ h', Leg back h' Z R j (ns ++ growSpine delta up) f → Frame Z R h h' → Q () h') :
    wp (addLengths (spineAddrs up) delta) Q h := by
  have hnd : (spineAddrs up).Nodup :=
    (List.nodup_append.mp (List.nodup_append.mp hl.owned.nodup).2.1).1
  obtain ⟨-, hall⟩ := hv.le_rootLength
  have hmem : spineAddrs up ⊆ spineAddrs ns ++ (spineAddrs up ++ Z) :=
    fun b hb ↦ List.mem_append_right _ (List.mem_append_left _ hb)
  refine wp_addLengths hl.owned hmem hnd hup.1
    (fun d hd ↦ (Nat.add_le_add_right (hall d hd) _).trans hlen) fun h₁ ho₁ hne₁ hup₁ ↦ ?_
  have hf : Frame (spineAddrs ns ++ Z) (f.addr ::ₘ ((sideRefs ns : Multiset Addr) +
      ((sideRefs up : Multiset Addr) + R))) h h₁ := by
    refine hl.owned.frame_of_outside (U := spineAddrs up) ?_ hne₁
    rw [← List.append_assoc, ← List.append_assoc]
    exact List.perm_append_comm.append_right _
  have hl₁ : Leg back h₁ (spineAddrs (growSpine delta up) ++ Z)
      ((sideRefs (growSpine delta up) : Multiset Addr) + R) j ns f := by
    refine hl.frame (by simpa using ho₁) (hf.mono (List.subset_append_left _ _) ?_)
    exact Multiset.cons_le_cons _ (Multiset.le_add_right _ _)
  refine hQ h₁ (hl₁.append ⟨hup₁, fun d hd t ht ↦ ?_⟩ (hnew ▸ hv.grow delta)) (hf.mono
    (List.subset_append_right _ _) ?_)
  · obtain ⟨d, hd', rfl⟩ := List.mem_map.mp hd
    refine (hup.2 d hd' t ht).frame hf (.root ?_)
    have : t.addr ∈ sideRefs up := List.mem_flatMap.mpr ⟨d, hd', List.mem_map_of_mem ht⟩
    simp only [Multiset.mem_cons, Multiset.mem_add, Multiset.mem_coe]
    exact .inr (.inr (.inl this))
  · refine le_trans ?_ (Multiset.le_cons_self _ _)
    rw [← add_assoc]
    exact Multiset.le_add_left _ _

/-- Above a node changed in place only lengths change. -/
theorem wp_unwind_inPlace (oldLength : ℕ)
    (hl : Leg back h (spineAddrs up ++ Z) ((sideRefs up : Multiset Addr) + R) j ns f)
    (hup : SpineHeld back h up (plug back ns f).addr)
    (hv : SpineValid (j + ns.length) up oldLength)
    (hnew : (plug back ns f).length = oldLength + delta)
    (hlen : rootLength up oldLength + delta ≤ usizeMax)
    {Q : Addr × List Addr → Heap Node → Prop}
    (hQ : ∀ h', Leg back h' Z R j (ns ++ growSpine delta up) f → Frame Z R h h' →
      Q ((plug back (ns ++ growSpine delta up) f).addr, spineAddrs up) h') :
    wp (unwind back tree n delta (spineAddrs up) ⟨(plug back ns f).addr, .inPlace⟩) Q h := by
  cases up with
  | nil =>
    simp only [spineAddrs_nil, unwind, finalize, pure_bind, wp_pure]
    have := hQ h (by simpa [growSpine] using hl) (.refl h)
    simpa [growSpine] using this
  | cons c up =>
    have hplug : (plug back (ns ++ growSpine delta (c :: up)) f).addr =
        (spineAddrs up).getLastD c.hd.addr := by
      rw [addr_plug, rootAddr_eq_getLastD, spineAddrs_append, spineAddrs_growSpine, spineAddrs_cons]
      simp [List.getLastD_eq_getLast?, List.getLast?_append, List.getLast?_cons]
    rw [spineAddrs_cons, unwind, wp_bind, ← spineAddrs_cons]
    refine wp_growLengths oldLength hl hup hv hnew hlen fun h₁ hl₁ hf₁ ↦ ?_
    rw [wp_pure, ← hplug]
    exact hQ h₁ hl₁ hf₁

/-- Above a copied node, shared nodes are copied and owned ones changed in place. -/
theorem wp_unwind_copied (cur : Rep)
    (hl : Leg back h (spineAddrs up ++ Z)
      ((plug back lower cur).addr ::ₘ ((sideRefs up : Multiset Addr) + R)) j ns f)
    (hold : (plug back (lower ++ up) cur).Held h)
    (hv : SpineValid (j + ns.length) (lower ++ up) cur.length)
    (hnew : (plug back ns f).length = cur.length + delta)
    (hlen : (plug back (lower ++ up) cur).length + delta ≤ usizeMax)
    (hn : n = up.length ∨ lower = [] ∧ up.length ≤ n)
    (htree : tree = (plug back (lower ++ up) cur).addr) {Q : Addr × List Addr → Heap Node → Prop}
    (hQ : ∀ ds h', ds.map Crumb.window = (lower ++ up).map Crumb.window →
      Leg back h' Z R j (ns ++ ds) f → Frame Z R h h' →
      Q ((plug back (ns ++ ds) f).addr, spineAddrs ds) h') :
    wp (unwind back tree n delta (spineAddrs (lower ++ up)) ⟨(plug back ns f).addr, .copied⟩) Q h := by
  induction lower generalizing h ns cur Q with
  | nil =>
    rw [List.nil_append] at hold hv hlen htree hQ ⊢
    obtain ⟨-, hspine⟩ := plug_held.mp hold
    obtain ⟨-, hall⟩ := hv.le_rootLength
    rw [← @length_plug back] at hall
    have ho := hl.owned.congr (S := cur.addr ::ₘ (f.addr ::ₘ ((sideRefs ns : Multiset Addr) +
        ((sideRefs up : Multiset Addr) + R)))) (by
      simp only [plug_nil, ← Multiset.singleton_add]
      abel)
    cases up with
    | nil =>
      subst htree
      simp only [spineAddrs_nil, unwind, finalize, wp_bind, wp_pure]
      refine wp_unref ho fun h₁ ho₁ hf₁ ↦ ?_
      have := hQ [] h₁ rfl ?_ (hf₁.mono (List.subset_append_right _ _) ?_)
      · simpa using this
      · rw [List.append_nil]
        refine hl.frame (by simpa using ho₁) (hf₁.mono (List.subset_append_left _ _) ?_)
        exact Multiset.cons_le_cons _ (Multiset.le_add_right _ _)
      · simpa using (Multiset.le_add_left R _).trans (Multiset.le_cons_self _ f.addr)
    | cons c up =>
      obtain ⟨hc, hrest, hspine'⟩ := spineHeld_cons.mp hspine
      have hmem : c.hd.addr ∈ spineAddrs ns ++ (spineAddrs (c :: up) ++ Z) := by simp
      have hown : (spineAddrs up).length < n := by
        have hup : (spineAddrs up).length = up.length := List.length_map _
        rw [List.length_cons] at hn
        omega
      have hnot : c.hd.addr ∉ spineAddrs ns ++ (spineAddrs up ++ Z) := by
        have := (ho.perm List.perm_middle).nodup
        exact (List.nodup_cons.mp this).1
      simp only [spineAddrs_cons, unwind, hown, decide_true, wp_bind]
      refine wp_setEdge_owned ho hmem hc rfl
        ((Nat.add_le_add_right (hall c List.mem_cons_self) _).trans hlen) fun h₁ ho₁ hf₁ hc₁ ↦ ?_
      have hf := hf₁ (spineAddrs ns ++ (spineAddrs up ++ Z)) (fun b hb ↦ by
        simp only [spineAddrs_cons, List.mem_append, List.mem_cons] at hb ⊢
        tauto) hnot
      have hl₁ : Leg back h₁ (spineAddrs [c.regrow c.hd.addr delta] ++ (spineAddrs up ++ Z))
          ((sideRefs [c.regrow c.hd.addr delta] : Multiset Addr) +
            ((sideRefs up : Multiset Addr) + R)) j ns f := by
        refine hl.frame ((ho₁.perm ?_).congr ?_) (hf.mono (List.subset_append_left _ _) ?_)
        · simp [Crumb.regrow]
        · simp [Crumb.regrow, sideRefs, ← Multiset.coe_add, add_assoc]
        · exact Multiset.cons_le_cons _ (Multiset.le_add_right _ _)
      have hside : ∀ d ∈ c :: up, ∀ t ∈ d.rest, t.Held h₁ := by
        intro d hd t ht
        refine (hspine.2 d hd t ht).frame hf (.root ?_)
        have : t.addr ∈ sideRefs (c :: up) := List.mem_flatMap.mpr ⟨d, hd, List.mem_map_of_mem ht⟩
        simp only [Multiset.mem_cons, Multiset.mem_add, Multiset.mem_coe]
        exact .inr (.inr (.inl this))
      have hl₂ := hl₁.append
        (spineHeld_cons.mpr ⟨hc₁, hside c List.mem_cons_self, trivial, by simp⟩)
        (hnew ▸ hv.regrow c.hd.addr delta)
      have hplug : (plug back (ns ++ [c.regrow c.hd.addr delta]) f).addr = c.hd.addr :=
        addr_plug_concat
      rw [← hplug]
      refine wp_unwind_inPlace c.hd.length hl₂ ⟨?_, fun d hd ↦
        hside d (List.mem_cons_of_mem _ hd)⟩ ?_ ?_ ?_ fun h₂ hl₃ hf₂ ↦ ?_
      · rw [hplug]
        exact hspine'.1.congr fun b hb ↦ hf.opened b (by simp [hb])
      · simpa [add_assoc] using hv.2.2.2.2
      · rw [plug_append]
        rfl
      · rwa [length_plug] at hlen
      · rw [wp_pure, hplug]
        rw [List.append_assoc, List.singleton_append] at hl₃ ⊢
        rw [show c.hd.addr :: spineAddrs up =
          spineAddrs (c.regrow c.hd.addr delta :: growSpine delta up) by simp]
        refine hQ _ h₂ ?_ hl₃ ((hf.mono (fun b hb ↦ by simp [hb]) ?_).trans hf₂)
        · simp [growSpine, Crumb.window]
        · refine le_trans ?_ (Multiset.le_cons_self _ _)
          rw [← add_assoc]
          exact Multiset.le_add_left _ _
  | cons c lower ih =>
    obtain ⟨hlow, -⟩ := plug_held.mp (plug_append (c :: lower) up cur ▸ hold)
    have hnode : Rep.Held h (.node c.hd (join back c.rest [cur])) :=
      (plug_held.mp (show (plug back lower _).Held h from hlow)).1
    obtain ⟨hc, hrest⟩ := Rep.held_node.mp hnode
    obtain ⟨-, hall⟩ := hv.le_rootLength
    rw [← @length_plug back] at hall
    have hshared : ¬ (spineAddrs (lower ++ up)).length < n := by
      have hlen' : (spineAddrs (lower ++ up)).length = lower.length + up.length := by
        simp [spineAddrs]
      rcases hn with hn | hn
      · omega
      · exact absurd hn.1 (List.cons_ne_nil _ _)
    have hreach : Reach h (f.addr ::ₘ ((sideRefs ns : Multiset Addr) +
        ((plug back (c :: lower) cur).addr ::ₘ ((sideRefs up : Multiset Addr) + R)))) c.hd.addr :=
      reach_plug (s := .node c.hd (join back c.rest [cur])) hlow (.root (by simp [plug]))
    rw [List.cons_append, spineAddrs_cons, unwind, decide_eq_false hshared]
    simp only [wp_bind]
    have hedges : (Rep.btree c.hd (join back c.rest [cur])).edges =
        join back (c.rest.map Rep.addr) [cur.addr] := by simp
    refine wp_setEdge_shared hl.owned hc hreach hedges ?_ fun d h₁ ho₁ hf₁ hd₁ ↦ ?_
    · exact (Nat.add_le_add_right (hall c List.mem_cons_self) _).trans hlen
    have hl₁ : Leg back h₁ (spineAddrs [c.regrow d delta] ++ (spineAddrs up ++ Z))
        ((sideRefs [c.regrow d delta] : Multiset Addr) +
          ((plug back (c :: lower) cur).addr ::ₘ ((sideRefs up : Multiset Addr) + R))) j ns f := by
      refine hl.frame ((ho₁.perm ?_).congr ?_) (hf₁.mono (List.subset_append_left _ _) ?_)
      · exact List.perm_middle.symm
      · simp only [sideRefs, List.flatMap_cons, List.flatMap_nil, List.append_nil, Crumb.regrow,
          ← Multiset.singleton_add]
        abel
      · exact Multiset.cons_le_cons _ (Multiset.le_add_right _ _)
    have hl₂ := hl₁.append (spineHeld_cons.mpr ⟨hd₁, fun t ht ↦ ?_, trivial, by simp⟩)
      (hnew ▸ hv.regrow d delta)
    · have hplug : (plug back (ns ++ [c.regrow d delta]) f).addr = d := addr_plug_concat
      have hdelta : (plug back (ns ++ [c.regrow d delta]) f).length = c.hd.length + delta := by
        rw [plug_append]
        rfl
      rw [← hplug]
      refine ih (.node c.hd (join back c.rest [cur])) hl₂ ?_ ?_ hdelta hlen ?_ htree
        fun ds h₂ hds hl₃ hf₂ ↦ ?_
      · refine held_frame_append lower hold hf₁ (fun b hb ↦ by simp [hb]) (by simp [plug])
          fun b hb ↦ ?_
        simp only [Multiset.mem_cons, Multiset.mem_add, Multiset.mem_coe]
        exact .inr (.inr (.inr (.inl hb)))
      · simpa [add_assoc] using hv.2.2.2.2
      · exact .inl (hn.resolve_right fun hn ↦ List.cons_ne_nil _ _ hn.1)
      · rw [wp_pure, hplug]
        rw [List.append_assoc, List.singleton_append] at hl₃ ⊢
        refine hQ _ h₂ ?_ hl₃ ((hf₁.mono (fun b hb ↦ by simp [hb]) ?_).trans hf₂)
        · simp [hds]
        · refine le_trans ?_ (Multiset.le_cons_self _ _)
          refine le_trans ?_ (Multiset.le_add_left _ _)
          exact (Multiset.le_add_left _ _).trans (Multiset.le_cons_self _ _)
    · have hmem : t ∈ join back c.rest [cur] := mem_join.mpr (.inl ht)
      exact (hrest t hmem).frame hf₁ (hreach.child hc (List.mem_map_of_mem hmem))

/-- A tree and another one beside it get a root, and are rebuilt if that is too high. -/
theorem wp_finalize_popped (hl : Leg back h Z (cur.addr ::ₘ R) j ns f) (hcur : cur.Held h)
    (hv : cur.Valid (j + ns.length)) (hk : 0 < j + ns.length) (hdepth : j + ns.length ≤ maxDepth)
    (hlen : cur.length + (plug back ns f).length ≤ usizeMax)
    (hcount : cur.leaves.length + (plug back ns f).leaves.length ≤ maxCapacity ^ maxDepth)
    {Q : Addr → Heap Node → Prop}
    (hQ : ∀ ds g i h', i ≤ j → Leg back h' Z R i ds g → i + ds.length ≤ maxDepth →
      (plug back ds g).outline =
        attachOutline back [] cur.outline (spineOutline ns) f.outline → Frame Z R h h' →
      Q (plug back ds g).addr h') :
    wp (finalize back cur.addr ⟨(plug back ns f).addr, .popped⟩) Q h := by
  obtain ⟨k, hk⟩ := Nat.exists_eq_succ_of_ne_zero hk.ne'
  have hnew := hl.valid
  rw [hk] at hv hnew
  obtain ⟨hd, ts, rfl⟩ := hv.exists_node
  obtain ⟨hd', ts', hplug⟩ := hnew.exists_node
  have hh : k = hd.height := Nat.succ_injective (Rep.Valid.node_iff.mp hv).1
  have hh' : k = hd'.height := Nat.succ_injective (Rep.Valid.node_iff.mp (hplug ▸ hnew)).1
  have hheld' := hplug ▸ hl.held
  have hfr : ∀ {h'}, Grows h h' → Frame Z R h h' := fun hg ↦
    (hl.frame_of_grows hg).mono (List.Subset.refl _) (Multiset.le_cons_self _ _)
  -- Once the pair is there.
  have hpair : ∀ a h₁, Owned h₁ (a :: (spineAddrs ns ++ Z))
      (f.addr ::ₘ ((sideRefs ns : Multiset Addr) + (hd.addr ::ₘ R))) → Grows h h₁ →
      h₁.node? a = some (.btree ⟨hd.length + hd'.length, k + 1, 0,
        join back [hd.addr] [hd'.addr]⟩) → wp (do
          let b ← asBtree a
          if maxHeight < b.height then
            let tree ← rebuild a
            let b ← asBtree tree
            if maxHeight < b.height then throw .abort else pure tree
          else pure a) Q h₁ := by
    intro a h₁ ho₁ hg₁ ha₁
    obtain ⟨p, hp⟩ : ∃ p : Crumb, p = ⟨⟨a, hd.length + hd'.length, k + 1, 0⟩, [.node hd ts]⟩ :=
      ⟨_, rfl⟩
    have hl₁ : Leg back h₁ (spineAddrs [p] ++ Z) ((sideRefs [p] : Multiset Addr) + R) j ns f := by
      refine hl.frame ((ho₁.perm ?_).congr ?_) ((hl.owned.frame_of_grows hg₁).mono
        (List.subset_append_left _ _) (Multiset.cons_le_cons _ (Multiset.le_add_right _ _)))
      · rw [hp]
        exact List.perm_middle.symm
      · simp [hp, sideRefs]
    have hl₂ : Leg back h₁ Z R j (ns ++ [p]) f := by
      refine hl₁.append (spineHeld_cons.mpr ⟨?_, fun t ht ↦ ?_, trivial, by simp⟩) ?_
      · simpa [hp, hplug] using ha₁
      · rw [hp] at ht
        exact List.mem_singleton.mp ht ▸ hcur.grows hg₁
      · refine ⟨by rw [hp, hk], by simp [hp, maxCapacity], by simp [hp, hplug], fun t ht ↦ ?_,
          trivial⟩
        rw [hp] at ht
        exact hk ▸ List.mem_singleton.mp ht ▸ hv
    have hleaves : (plug back (ns ++ [p]) f).leaves =
        join back (RoseTree.node hd ts).leaves (plug back ns f).leaves := by
      rw [plug_append, hp]
      simp [plug]
    have houtline : (plug back (ns ++ [p]) f).outline = LevelTree.plug back
        (attach maxCapacity windowLabels back [] (Rep.outline (.node hd ts))
          (spineOutline ns)) f.outline := by
      rw [outline_plug, spineOutline_append, attach, hp]
      simp
    have haddr : (plug back (ns ++ [p]) f).addr = a := by
      rw [addr_plug_concat, hp]
    have hlevel : j + (ns ++ [p]).length = k + 1 + 1 := by
      rw [List.length_append, List.length_singleton, ← add_assoc, hk]
    rw [wp_bind]
    refine wp_asBtree ha₁ ?_
    by_cases hhigh : maxHeight < k + 1
    · have htree := hl₂.valid
      rw [hlevel] at htree
      rw [if_pos hhigh, wp_bind, ← haddr]
      refine wp_rebuild hl₂.close hl₂.held htree ?_ ?_ fun t i h₂ ho₂ ht hvt hi houtline' hf₂ ↦ ?_
      · rw [hleaves, length_join]
        exact hcount
      · rw [plug_append, hp]
        simpa [hplug, plug] using hlen
      · obtain ⟨cs, e, rfl, hcs⟩ := exists_spine back hvt
        have hvt' := hvt
        rw [← hcs, ← Nat.zero_add cs.length, plug_valid] at hvt'
        obtain ⟨hd'', ts'', hroot⟩ := hvt.exists_node
        have hh'' : i = hd''.height := Nat.succ_injective (Rep.Valid.node_iff.mp (hroot ▸ hvt)).1
        have hnode := ht.node?
        rw [congrArg Rep.root hroot] at hnode
        rw [wp_bind]
        refine wp_asBtree hnode ?_
        rw [if_neg (by simp only [Rep.btree_height, maxHeight]; omega), wp_pure]
        refine hQ cs (.leaf e) 0 h₂ (Nat.zero_le _) ⟨closeSides ho₂ ht hvt, ht, hvt'.1, hvt'.2⟩
          (by omega) ?_ ((hfr hg₁).trans hf₂)
        rw [houtline', attachOutline, ← houtline, settleOutline, htree.depth_outline,
          Rep.leaves_outline, if_pos (by simp only [maxHeight, maxDepth] at hhigh ⊢; omega)]
    · rw [if_neg hhigh, wp_pure, ← haddr]
      have hdepth₂ : k + 1 + 1 ≤ maxDepth := by
        simp only [maxHeight, maxDepth] at hhigh ⊢
        omega
      have htree := hl₂.valid
      rw [hlevel] at htree
      refine hQ _ f j h₁ le_rfl hl₂ (hlevel ▸ hdepth₂) ?_ (hfr hg₁)
      rw [attachOutline, ← houtline, settleOutline, htree.depth_outline, if_neg hdepth₂.not_gt]
  have hcur' : h.node? hd.addr = _ := hcur.node?
  have hnew' : h.node? (plug back ns f).addr = _ := hl.held.node?
  simp only [hplug] at hlen hnew'
  simp only [finalize, Rep.addr_node]
  cases back with
  | true =>
    simp only [if_true, wp_bind]
    rw [hplug]
    refine wp_newPair hl.owned hcur' hnew' (by simp only [Rep.btree_height]; omega) hlen
      fun a h₁ ho₁ hg₁ ha₁ ↦ ?_
    have := hpair a h₁ ho₁ hg₁ (by rw [ha₁, hh]; simp [join])
    simpa only [wp_bind] using this
  | false =>
    simp only [Bool.false_eq_true, if_false, wp_bind]
    rw [hplug]
    refine wp_newPair hl.owned hnew' hcur' (by simp only [Rep.btree_height]; omega)
      (add_comm hd.length _ ▸ hlen) fun a h₁ ho₁ hg₁ ha₁ ↦ ?_
    have := hpair a h₁ ho₁ hg₁ (by rw [ha₁, hh']; simp [join, add_comm])
    simpa only [wp_bind] using this

/-- A tree beside a full node gets a node of its own. -/
private theorem wp_addEdge_popped {a : Addr} {b : Btree} {owned : Bool} (hl : Leg back h Z R j ns f)
    (ha : h.node? a = some (.btree b)) (hcap : b.size = maxCapacity)
    (hk : j + ns.length ≤ maxDepth) {Q : OpResult → Heap Node → Prop}
    (hQ : ∀ d h', Leg back h' Z R j
        (ns ++ [Crumb.single d (plug back ns f).length (j + ns.length)]) f → Grows h h' →
      Q ⟨(plug back (ns ++ [Crumb.single d (plug back ns f).length (j + ns.length)]) f).addr,
        .popped⟩ h') :
    wp (addEdge back a owned (plug back ns f).addr delta) Q h := by
  have hlevel := hl.valid.root_level
  refine wp_addEdge_full hl.owned ha hcap hl.held.node? (hlevel ▸ hk) fun d h₁ ho₁ hg₁ hd₁ ↦ ?_
  rw [(plug back ns f).root_length, hlevel] at hd₁
  have hl₁ : Leg back h₁ (d :: Z) R j ns f :=
    hl.frame (ho₁.perm List.perm_middle.symm) ((hl.owned.frame_of_grows hg₁).mono
      (List.subset_append_left _ _) (Multiset.cons_le_cons _ (Multiset.le_add_right _ _)))
  have := hQ d h₁ ((hl₁.congr (by simp)).append
    (spineHeld_cons.mpr ⟨by simpa [Crumb.single] using hd₁, by simp, trivial, by simp⟩)
    (spineValid_single _ _ _)) hg₁
  rwa [addr_plug_concat] at this

/-- A tree is added beside the outermost edge of an opened node. -/
private theorem wp_addEdge_leg_owned {c : Crumb} {up : List Crumb}
    (hl : Leg back h (c.hd.addr :: Z)
      (cur.addr ::ₘ (((c.rest.map Rep.addr : List Addr) : Multiset Addr) + R)) j ns f)
    (hc : Rep.Held h (.node c.hd (join back c.rest [cur]))) (hcur : cur.Valid (j + ns.length))
    (hv : SpineValid (j + ns.length) (c :: up) cur.length)
    (hdelta : (plug back ns f).length = delta) (hroom : c.rest.length + 1 < maxCapacity)
    (hlen : c.hd.length + delta ≤ usizeMax) {Q : OpResult → Heap Node → Prop}
    (hQ : ∀ h', Leg back h' Z R j (ns ++ [c.extend back c.hd.addr cur delta]) f → Frame Z R h h' →
      Q ⟨c.hd.addr, .inPlace⟩ h') :
    wp (addEdge back c.hd.addr true (plug back ns f).addr delta) Q h := by
  obtain ⟨hnode, hes⟩ := Rep.held_node.mp hc
  have ho := hl.owned.perm List.perm_middle
  have hnot := (List.nodup_cons.mp ho.nodup).1
  refine wp_addEdge_owned ho List.mem_cons_self hnode (by simpa using hroom) hlen
    fun h₁ ho₁ hne₁ hc₁ ↦ ?_
  have hf := ho.frame_of_opened List.mem_cons_self hnot hne₁
  have hmem : ∀ t ∈ join back c.rest [cur], t.addr ∈ f.addr ::ₘ ((sideRefs ns : Multiset Addr) +
      (cur.addr ::ₘ (((c.rest.map Rep.addr : List Addr) : Multiset Addr) + R))) := by
    intro t ht
    simp only [Multiset.mem_cons, Multiset.mem_add, Multiset.mem_coe]
    rcases mem_join.mp ht with ht | ht
    · exact .inr (.inr (.inr (.inl (List.mem_map_of_mem ht))))
    · exact .inr (.inr (.inl (by rw [List.mem_singleton.mp ht])))
  refine hQ h₁ (Leg.append (hl.frame ((ho₁.perm List.perm_middle.symm).congr ?_) (hf.mono
    (List.subset_append_left _ _) (Multiset.cons_le_cons _ (Multiset.le_add_right _ _))))
    (spineHeld_cons.mpr ⟨?_, fun t ht ↦ ?_, trivial, by simp⟩) ?_) (hf.mono
      (List.subset_append_right _ _) ?_)
  · simp only [sideRefs, List.flatMap_cons, List.flatMap_nil, List.append_nil, Crumb.extend,
      map_join, coe_join, List.map_cons, List.map_nil, Multiset.coe_singleton,
      ← Multiset.singleton_add]
    abel
  · simpa [Crumb.extend] using hc₁
  · exact (hes t ht).frame hf (.root (hmem t ht))
  · rw [hdelta]
    refine (hv.extend back c.hd.addr hcur hroom).imp_right ?_
    rintro ⟨h₁, h₂, h₃, -⟩
    exact ⟨h₁, h₂, h₃, trivial⟩
  · refine le_trans ?_ (Multiset.le_cons_self _ _)
    refine le_trans ?_ (Multiset.le_add_left _ _)
    exact (Multiset.le_add_left _ _).trans (Multiset.le_cons_self _ _)

/-- A tree is added beside the outermost edge of a copy of a shared node. -/
private theorem wp_addEdge_leg_shared {c : Crumb} {up : List Crumb} (hl : Leg back h Z R j ns f)
    (hr : Reach h R c.hd.addr) (hc : Rep.Held h (.node c.hd (join back c.rest [cur])))
    (hcur : cur.Valid (j + ns.length)) (hv : SpineValid (j + ns.length) (c :: up) cur.length)
    (hdelta : (plug back ns f).length = delta) (hroom : c.rest.length + 1 < maxCapacity)
    (hlen : c.hd.length + delta ≤ usizeMax) {Q : OpResult → Heap Node → Prop}
    (hQ : ∀ d h', Leg back h' Z R j (ns ++ [c.extend back d cur delta]) f → Frame Z R h h' →
      Q ⟨(plug back (ns ++ [c.extend back d cur delta]) f).addr, .copied⟩ h') :
    wp (addEdge back c.hd.addr false (plug back ns f).addr delta) Q h := by
  obtain ⟨hnode, hes⟩ := Rep.held_node.mp hc
  have hle : R ≤ f.addr ::ₘ ((sideRefs ns : Multiset Addr) + R) :=
    (Multiset.le_add_left _ _).trans (Multiset.le_cons_self _ _)
  refine wp_addEdge_shared hl.owned hnode (hr.mono hle) (by simpa using hroom) hlen
    fun d h₁ ho₁ hf hd₁ ↦ ?_
  have := hQ d h₁ (Leg.append (hl.frame ((ho₁.perm List.perm_middle.symm).congr ?_) (hf.mono
    (List.subset_append_left _ _) (Multiset.cons_le_cons _ (Multiset.le_add_right _ _))))
    (spineHeld_cons.mpr ⟨?_, fun t ht ↦ ?_, trivial, by simp⟩) ?_)
    (hf.mono (List.subset_append_right _ _) hle)
  · rwa [addr_plug_concat] at this
  · simp only [sideRefs, List.flatMap_cons, List.flatMap_nil, List.append_nil, Crumb.extend,
      Rep.btree_edges, map_join, coe_join, List.map_cons, List.map_nil, Multiset.coe_singleton,
      ← Multiset.singleton_add]
    abel
  · simpa [Crumb.extend] using hd₁
  · exact (hes t ht).frame hf ((hr.mono hle).child hnode (List.mem_map_of_mem ht))
  · rw [hdelta]
    refine (hv.extend back d hcur hroom).imp_right ?_
    rintro ⟨h₁, h₂, h₃, -⟩
    exact ⟨h₁, h₂, h₃, trivial⟩

private theorem wp_unwind_popped_owned (cur : Rep)
    (hl : Leg back h (spineAddrs up ++ Z) (cur.addr ::ₘ ((sideRefs up : Multiset Addr) + R)) j ns f)
    (hold : (plug back up cur).Held h) (hcur : cur.Valid (j + ns.length))
    (hv : SpineValid (j + ns.length) up cur.length) (hdelta : (plug back ns f).length = delta)
    (hlen : (plug back up cur).length + delta ≤ usizeMax) (hn : up.length ≤ n)
    (htree : tree = (plug back up cur).addr) (hk : 0 < j + ns.length + up.length)
    (hdepth : j + ns.length + up.length ≤ maxDepth)
    (hcount : (plug back up cur).leaves.length + (plug back ns f).leaves.length ≤
      maxCapacity ^ maxDepth) {Q : Addr × List Addr → Heap Node → Prop}
    (hQ : ∀ ds g i stack h', i ≤ j → Leg back h' Z R i ds g → i + ds.length ≤ maxDepth →
      (plug back ds g).outline =
        attachOutline back (spineOutline up) cur.outline (spineOutline ns) f.outline →
      Frame Z R h h' → Q ((plug back ds g).addr, stack) h') :
    wp (unwind back tree n delta (spineAddrs up) ⟨(plug back ns f).addr, .popped⟩) Q h := by
  induction up generalizing h ns cur Q with
  | nil =>
    subst htree
    rw [spineAddrs_nil, unwind, wp_bind]
    refine wp_finalize_popped (R := R) (hl.congr (by simp)) hold hcur hk (by simpa using hdepth)
      (by simpa [hdelta] using hlen) hcount fun ds g i h' hi hl' hd houtline hf ↦ ?_
    exact (wp_pure _ _ _).mpr (hQ ds g i [] h' hi hl' hd houtline hf)
  | cons c up ih =>
    obtain ⟨hcheld, hspine⟩ := plug_held.mp hold
    obtain ⟨hc, hrest, hspine'⟩ := spineHeld_cons.mp hspine
    have hcnode : Rep.Held h (.node c.hd (join back c.rest [cur])) :=
      (@plug_held back [c] _ _).mpr ⟨hcheld, spineHeld_cons.mpr ⟨hc, hrest, trivial, by simp⟩⟩
    have hcv : Rep.Valid (j + ns.length + 1) (.node c.hd (join back c.rest [cur])) :=
      (@plug_valid back [c] _ _ _).mpr ⟨hcur, hv.1, hv.2.1, hv.2.2.1, hv.2.2.2.1, trivial⟩
    obtain ⟨-, hall⟩ := hv.le_rootLength
    rw [← @length_plug back] at hall
    have hclen := (Nat.add_le_add_right (hall c List.mem_cons_self) delta).trans hlen
    rw [List.length_cons] at hn hdepth
    rw [spineAddrs_cons, unwind, decide_eq_true (by simpa using hn), wp_bind]
    by_cases hroom : c.rest.length + 1 < maxCapacity
    · refine wp_addEdge_leg_owned (Z := spineAddrs up ++ Z) (R := (sideRefs up : Multiset Addr) + R)
        (hl.congr ?_) hcnode hcur hv hdelta hroom hclen fun h₁ hl₁ hf₁ ↦ ?_
      · rw [sideRefs_cons, ← Multiset.coe_add, add_assoc]
      have hplug : (plug back (ns ++ [c.extend back c.hd.addr cur delta]) f).addr = c.hd.addr :=
        addr_plug_concat
      rw [wp_bind, ← hplug]
      refine wp_unwind_inPlace c.hd.length hl₁ ?_ ?_ ?_ ?_ fun h₂ hl₂ hf₂ ↦ ?_
      · rw [hplug]
        exact hspine'.frame hf₁ (List.subset_append_left _ _) fun b hb ↦ by simp [hb]
      · simpa [add_assoc] using hv.2.2.2.2
      · rw [plug_append]
        rfl
      · rwa [length_plug] at hlen
      · rw [List.append_assoc, List.singleton_append] at hl₂ ⊢
        have hdepth₂ : j + (ns ++ c.extend back c.hd.addr cur delta :: growSpine delta up).length ≤
            maxDepth := by
          simp
          omega
        refine (wp_pure _ _ _).mpr (hQ _ f j _ h₂ le_rfl hl₂ hdepth₂ ?_ ((hf₁.mono
          (List.subset_append_right _ _) (Multiset.le_add_left _ _)).trans hf₂))
        exact attachOutline_room hroom c.hd.addr delta (by simp [growSpine, Crumb.window]) hl₂.valid
          hdepth₂
    · have hcap : c.rest.length + 1 = maxCapacity :=
        le_antisymm ((Nat.le_add_left _ _).trans hv.2.1) (by omega)
      have hl' : Leg back h (spineAddrs up ++ Z) (c.hd.addr ::ₘ ((sideRefs up : Multiset Addr) + R))
          j ns f := by
        refine hl.frame ?_ (.refl h)
        refine ((hl.owned.perm List.perm_middle).closeCell hcnode.node? (hcv.fitsIn hcnode)
          (R := f.addr ::ₘ ((sideRefs ns : Multiset Addr) + ((sideRefs up : Multiset Addr) + R)))
          ?_).congr ?_
        · simp only [Rep.root, Pointers.children, Node.children, Rep.btree_edges, map_join, coe_join,
            sideRefs_cons, ← Multiset.coe_add, List.map_cons, List.map_nil, Multiset.coe_singleton,
            ← Multiset.singleton_add]
          abel
        · simp only [← Multiset.singleton_add]
          abel
      refine wp_addEdge_popped hl' hc (by simpa [Btree.size] using hcap) (by omega)
        fun d h₁ hl₁ hg₁ ↦ ?_
      rw [wp_bind]
      have hplug : plug back (ns ++ [Crumb.single d (plug back ns f).length (j + ns.length)]) f =
          .node ⟨d, (plug back ns f).length, j + ns.length, 0⟩ [plug back ns f] := by
        rw [plug_append]
        simp [plug, Crumb.single]
      have hleaves : (plug back (ns ++ [Crumb.single d (plug back ns f).length (j + ns.length)])
          f).leaves = (plug back ns f).leaves := by
        rw [hplug]
        simp
      refine ih (.node c.hd (join back c.rest [cur])) hl₁ (hold.grows hg₁) ?_ ?_ ?_ hlen
        (by omega) htree ?_ ?_ ?_
        fun ds g i stack h₂ hi hl₂ hd houtline₂ hf₂ ↦ ?_
      · simpa [← add_assoc] using hcv
      · simpa [← add_assoc] using hv.2.2.2.2
      · rw [hplug]
        exact hdelta
      · simp only [List.length_append, List.length_singleton]
        omega
      · simp only [List.length_append, List.length_singleton]
        omega
      · rw [hleaves]
        exact hcount
      · rw [← attachOutline_full hroom] at houtline₂
        refine (wp_pure _ _ _).mpr (hQ ds g i _ h₂ hi hl₂ hd houtline₂ (.trans ?_ hf₂))
        exact (hl.frame_of_grows hg₁).mono (List.subset_append_right _ _)
          ((Multiset.le_add_left _ _).trans (Multiset.le_cons_self _ _))

/-- Above a tree put beside a node, the next node with room takes it, or a new root does. -/
theorem wp_unwind_popped (ns lower up : List Crumb) (f cur : Rep)
    (hl : Leg back h (spineAddrs up ++ Z)
      ((plug back lower cur).addr ::ₘ ((sideRefs up : Multiset Addr) + R)) j ns f)
    (hold : (plug back (lower ++ up) cur).Held h) (hcur : cur.Valid (j + ns.length))
    (hv : SpineValid (j + ns.length) (lower ++ up) cur.length)
    (hdelta : (plug back ns f).length = delta)
    (hlen : (plug back (lower ++ up) cur).length + delta ≤ usizeMax)
    (hn : n = up.length ∨ lower = [] ∧ up.length ≤ n)
    (htree : tree = (plug back (lower ++ up) cur).addr)
    (hk : 0 < j + ns.length + (lower ++ up).length)
    (hdepth : j + ns.length + (lower ++ up).length ≤ maxDepth)
    (hcount : (plug back (lower ++ up) cur).leaves.length + (plug back ns f).leaves.length ≤
      maxCapacity ^ maxDepth) {Q : Addr × List Addr → Heap Node → Prop}
    (hQ : ∀ ds g i stack h', i ≤ j → Leg back h' Z R i ds g → i + ds.length ≤ maxDepth →
      (plug back ds g).outline =
        attachOutline back (spineOutline (lower ++ up)) cur.outline (spineOutline ns) f.outline →
      Frame Z R h h' → Q ((plug back ds g).addr, stack) h') :
    wp (unwind back tree n delta (spineAddrs (lower ++ up)) ⟨(plug back ns f).addr, .popped⟩) Q h := by
  induction lower generalizing h ns cur Q with
  | nil =>
    have hn' : up.length ≤ n := by omega
    exact wp_unwind_popped_owned cur hl hold hcur hv hdelta hlen hn' htree hk hdepth hcount hQ
  | cons c lower ih =>
    obtain ⟨hlow, -⟩ := plug_held.mp (plug_append (c :: lower) up cur ▸ hold)
    have hnode : Rep.Held h (.node c.hd (join back c.rest [cur])) :=
      (plug_held.mp (show (plug back lower _).Held h from hlow)).1
    have hcv : Rep.Valid (j + ns.length + 1) (.node c.hd (join back c.rest [cur])) :=
      (@plug_valid back [c] _ _ _).mpr ⟨hcur, hv.1, hv.2.1, hv.2.2.1, hv.2.2.2.1, trivial⟩
    obtain ⟨-, hall⟩ := hv.le_rootLength
    rw [← @length_plug back] at hall
    have hn' : n = up.length := hn.resolve_right fun hn ↦ List.cons_ne_nil _ _ hn.1
    have hshared : ¬ (spineAddrs (lower ++ up)).length < n := by
      rw [length_spineAddrs, List.length_append]
      omega
    rw [List.cons_append, List.length_cons] at hdepth
    rw [List.cons_append, spineAddrs_cons, unwind, decide_eq_false hshared]
    simp only [wp_bind]
    by_cases hroom : c.rest.length + 1 < maxCapacity
    · refine wp_addEdge_leg_shared hl (reach_plug (s := .node c.hd (join back c.rest [cur])) hlow
        (.root (by simp [plug]))) hnode hcur hv hdelta hroom
        ((Nat.add_le_add_right (hall c List.mem_cons_self) _).trans hlen) fun d h₁ hl₁ hf₁ ↦ ?_
      refine wp_unwind_copied (.node c.hd (join back c.rest [cur])) hl₁ ?_ ?_ ?_ hlen
        (.inl hn') htree fun ds h₂ hds hl₂ hf₂ ↦ ?_
      · exact held_frame_append lower hold hf₁ (List.subset_append_left _ _)
          (by simp [plug]) fun b hb ↦ by simp [hb]
      · simpa [← add_assoc] using hv.2.2.2.2
      · rw [plug_append]
        rfl
      · rw [wp_pure]
        rw [List.append_assoc, List.singleton_append] at hl₂ ⊢
        have hdepth₂ : j + (ns ++ c.extend back d cur delta :: ds).length ≤ maxDepth := by
          have := congrArg List.length hds
          simp only [List.length_map] at this
          rw [List.length_append, List.length_cons, this]
          omega
        exact hQ _ f j _ h₂ le_rfl hl₂ hdepth₂ (attachOutline_room hroom d delta hds hl₂.valid hdepth₂)
          ((hf₁.mono (List.subset_append_right _ _) ((Multiset.le_add_left _ _).trans
            (Multiset.le_cons_self _ _))).trans hf₂)
    · have hcap : c.rest.length + 1 = maxCapacity :=
        le_antisymm ((Nat.le_add_left _ _).trans hv.2.1) (by omega)
      refine wp_addEdge_popped hl hnode.node? (by simpa using hcap) (by omega) fun d h₁ hl₁ hg₁ ↦ ?_
      have hplug : plug back (ns ++ [Crumb.single d (plug back ns f).length (j + ns.length)]) f =
          .node ⟨d, (plug back ns f).length, j + ns.length, 0⟩ [plug back ns f] := by
        rw [plug_append]
        simp [plug, Crumb.single]
      have hleaves : (plug back (ns ++ [Crumb.single d (plug back ns f).length (j + ns.length)])
          f).leaves = (plug back ns f).leaves := by
        rw [hplug]
        simp
      refine ih _ (.node c.hd (join back c.rest [cur])) hl₁ (hold.grows hg₁) ?_ ?_ ?_ hlen
        (.inl hn') htree ?_ ?_ ?_ fun ds g i stack h₂ hi hl₂ hd houtline₂ hf₂ ↦ ?_
      · simpa [← add_assoc] using hcv
      · simpa [← add_assoc] using hv.2.2.2.2
      · rw [hplug]
        exact hdelta
      · simp only [List.length_append, List.length_singleton]
        omega
      · simp only [List.length_append, List.length_singleton] at hdepth ⊢
        omega
      · rw [hleaves]
        exact hcount
      · rw [← attachOutline_full hroom] at houtline₂
        refine (wp_pure _ _ _).mpr (hQ ds g i _ h₂ hi hl₂ hd houtline₂ (.trans ?_ hf₂))
        exact (hl.frame_of_grows hg₁).mono (List.subset_append_right _ _)
          ((Multiset.le_add_left _ _).trans (Multiset.le_cons_self _ _))

end Up

end CordRs
