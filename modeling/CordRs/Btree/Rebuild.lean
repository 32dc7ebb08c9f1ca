import CordRs.Btree.Outline

/-!
# Rebuilding a tree

A tree that got too high is rebuilt: its data edges are added one by one to an empty node. The
nodes on the last edges of the tree that is built are on a stack, from the bottom. An owned node of
the old tree hands its references over; the edges of a shared one are referenced anew.

While it is built no node of the new tree is shared, so all of them stay opened.

## Main definitions

* `CordRs.rebuildUp`, `CordRs.rebuildInto`, `CordRs.rebuild`.

## Main results

* `CordRs.wp_rebuild`: the tree built has the outline `LevelTree.ofLeaves` gives to the data edges.
* `CordRs.Btree.rebuild_dense`: the tree built is full but for its last edges, and no node of another
  owner changes.
-/

namespace CordRs

open RefHeap LevelTree

section Target

variable [Target]

/-- Add an edge to the lowest node of a stack, and a node of its own to the next one while there is
no room. -/
def rebuildUp (length : ℕ) : ℕ → List Addr → Addr → HeapM (List Addr)
  | _, [], _ => throw (.panic "cord-rs: rebuild stack root missing")
  | height, node :: above, edge => do
    let result ← addEdge true node true edge length
    match result.action with
    | .popped =>
      if maxDepth ≤ height + 1 then
        throw .abort
      else
        match above with
        | [] => do
          let pair ← newPair node result.tree
          pure [result.tree, pair]
        | _ :: _ => do
          let above ← rebuildUp length (height + 1) above result.tree
          pure (result.tree :: above)
    | _ =>
      addLengths above length
      pure (node :: above)

/-- Add data edges one by one. -/
def rebuildEdges (owned : Bool) : List Addr → List Addr → HeapM (List Addr)
  | stack, [] => pure stack
  | stack, edge :: edges => do
    let edge ← if owned then pure edge else refRep edge
    let node ← read edge
    let stack ← rebuildUp node.length 0 stack edge
    rebuildEdges owned stack edges

/-- Run a step on each tree of a list with the stack the step before left. -/
def rebuildTrees (step : List Addr → Addr → HeapM (List Addr)) :
    List Addr → List Addr → HeapM (List Addr)
  | stack, [] => pure stack
  | stack, tree :: trees => do
    let stack ← step stack tree
    rebuildTrees step stack trees

/-- Add all data edges of a tree, which is given up if `consume`. The fuel bounds its height. -/
def rebuildInto : ℕ → List Addr → Addr → Bool → HeapM (List Addr)
  | 0, _, _, _ => throw .unreachable
  | fuel + 1, stack, tree, consume => do
    let unique ← refIsOne tree
    let owned := consume && unique
    let b ← asBtree tree
    let stack ←
      if b.height = 0 then
        rebuildEdges owned stack b.edges
      else
        rebuildTrees (fun stack tree ↦ rebuildInto fuel stack tree owned) stack b.edges
    if consume then
      if owned then
        free tree
      else
        unref tree
    pure stack

/-- Rebuild a tree that is given up. -/
def rebuild (tree : Addr) : HeapM Addr := do
  let node ← newNode 0
  let b ← asBtree tree
  let stack ← rebuildInto (b.height + 1) [node] tree true
  if stack.length ≤ maxDepth then
    pure (stack.getLastD node)
  else
    throw (.panic "internal error: entered unreachable code: cord-rs: rebuild stack not null terminated")

end Target

section Rules

variable [Target] {h : Heap Node} {Z : List Addr} {R : Multiset Addr} {k delta : ℕ}

theorem wp_rebuildUp (cs ns : List Crumb) (cur f : Rep) (hcs₀ : cs ≠ [])
    (ho : Owned h (nodeAddrs (plug true cs cur) ++ (nodeAddrs (plug true ns f) ++ Z))
      ((leafAddrs (plug true cs cur) : Multiset Addr) +
        ((leafAddrs (plug true ns f) : Multiset Addr) + R)))
    (hold : (plug true cs cur).Held h) (hnew : (plug true ns f).Held h)
    (hcur : cur.Valid k) (hcs : SpineValid k cs cur.length) (hf : f.Valid 0) (hns : ns.length = k)
    (hp : SpineValid 0 ns f.length) (hdelta : (plug true ns f).length = delta)
    (hlen : (plug true cs cur).length + delta ≤ usizeMax)
    (hdepth : (attach maxCapacity windowLabels true (spineOutline cs) cur.outline (spineOutline ns)).length ≤ maxDepth)
    {Q : List Addr → Heap Node → Prop}
    (hQ : ∀ ds h', Owned h' (nodeAddrs (plug true (ns ++ ds) f) ++ Z)
        ((leafAddrs (plug true (ns ++ ds) f) : Multiset Addr) + R) →
      (plug true (ns ++ ds) f).Held h' → SpineValid 0 (ns ++ ds) f.length →
      (plug true (ns ++ ds) f).length = (plug true cs cur).length + delta →
      spineOutline (ns ++ ds) = attach maxCapacity windowLabels true (spineOutline cs) cur.outline (spineOutline ns) →
      Frame Z R h h' → Q (spineAddrs ds) h') :
    wp (rebuildUp delta k (spineAddrs cs) (plug true ns f).addr) Q h := by
  induction cs generalizing h ns cur k Q with
  | nil => exact absurd rfl hcs₀
  | cons c cs ih =>
    have hparts := plug_held.mp hold
    obtain ⟨hc, hrestc, hside⟩ := spineHeld_cons.mp hparts.2
    obtain ⟨hle, hall⟩ := hcs.le_rootLength
    rw [← @length_plug true _ cur] at hall
    -- The opened nodes, those of the spine first.
    obtain ⟨W, hW⟩ : ∃ W, W = sideNodes (c :: cs) ++
      (nodeAddrs cur ++ (nodeAddrs (plug true ns f) ++ Z)) := ⟨_, rfl⟩
    have hperm : (nodeAddrs (plug true (c :: cs) cur) ++ (nodeAddrs (plug true ns f) ++ Z)).Perm
        (spineAddrs (c :: cs) ++ W) := by
      rw [← Multiset.coe_eq_coe, ← Multiset.coe_add, coe_nodeAddrs_plug, hW]
      simp only [← Multiset.coe_add]
      abel
    have ho' := ho.perm hperm
    have hnd : (spineAddrs (c :: cs)).Nodup := (List.nodup_append.mp ho'.nodup).1
    obtain ⟨hnot, hnd'⟩ := List.nodup_cons.mp hnd
    have hmem : ∀ {b}, b ∈ spineAddrs (c :: cs) → b ∈ spineAddrs (c :: cs) ++ W :=
      fun h ↦ List.mem_append_left _ h
    rw [spineAddrs_cons, rebuildUp, wp_bind]
    by_cases hroom : c.rest.length + 1 < maxCapacity
    · refine wp_addEdge_owned ho' (hmem List.mem_cons_self) hc (by simpa [Btree.size] using hroom)
        ((Nat.add_le_add_right (hall c List.mem_cons_self) _).trans hlen) fun h₁ ho₁ hne₁ hc₁ ↦ ?_
      have hside₁ : SpineNodes true h₁ cs c.hd.addr :=
        hside.1.congr fun b hb ↦ hne₁ b fun hbc ↦ hnot (hbc ▸ hb)
      simp only [wp_bind]
      refine wp_addLengths ho₁ (fun b hb ↦ hmem (List.mem_cons_of_mem _ hb)) hnd' hside₁
        (fun d hd ↦ (Nat.add_le_add_right (hall d (List.mem_cons_of_mem _ hd)) _).trans hlen)
        fun h₂ ho₂ hne₂ hcs₂ ↦ ?_
      have hfr : Frame W ((leafAddrs (plug true (c :: cs) cur) : Multiset Addr) +
          ((leafAddrs (plug true ns f) : Multiset Addr) + R)) h h₂ := by
        refine ho'.frame_of_outside (.refl _) fun x hx ↦ ?_
        rw [spineAddrs_cons, List.mem_cons, not_or] at hx
        exact (hne₂ x hx.2).trans (hne₁ x hx.1)
      have hW' : ∀ {b}, b ∈ sideNodes (c :: cs) ∨ b ∈ nodeAddrs cur ∨
          b ∈ nodeAddrs (plug true ns f) ∨ b ∈ Z → b ∈ W := by
        intro b hb
        rw [hW, List.mem_append, List.mem_append, List.mem_append]
        exact hb
      have hE : ∀ {b}, b ∈ sideEdges (c :: cs) ∨ b ∈ leafAddrs cur →
          b ∈ (leafAddrs (plug true (c :: cs) cur) : Multiset Addr) +
            ((leafAddrs (plug true ns f) : Multiset Addr) + R) :=
        fun hb ↦ Multiset.mem_add.mpr (.inl (Multiset.mem_coe.mpr (mem_leafAddrs_plug.mpr hb)))
      rw [wp_pure]
      have hds : spineAddrs (c.extend true c.hd.addr cur delta :: growSpine delta cs) =
          c.hd.addr :: spineAddrs cs := by
        simp [Crumb.extend]
      rw [← hds]
      have hnew₂ := hnew.frame_opened hfr (fun b hb ↦ hW' (.inr (.inr (.inl hb)))) fun b hb ↦
        Multiset.mem_add.mpr (.inr (Multiset.mem_add.mpr (.inl (Multiset.mem_coe.mpr hb))))
      have hcur₂ := hparts.1.frame_opened hfr (fun b hb ↦ hW' (.inr (.inl hb)))
        fun b hb ↦ hE (.inr hb)
      have hrest₂ : ∀ d ∈ c :: cs, ∀ t ∈ d.rest, t.Held h₂ := fun d hd t ht ↦
        (hparts.2.2 d hd t ht).frame_opened hfr (fun b hb ↦ hW' (.inl (mem_sideNodes hd ht hb)))
          fun b hb ↦ hE (.inl (mem_sideEdges hd ht hb))
      refine hQ _ h₂ ?_ ?_ ?_ ?_ ?_ ?_
      · refine (ho₂.perm ?_).congr ?_
        · rw [← Multiset.coe_eq_coe, hW]
          simp only [← Multiset.coe_add, coe_nodeAddrs_plug, spineAddrs_append, sideNodes_append,
            spineAddrs_growSpine, sideNodes_cons, sideNodes_growSpine, Crumb.extend, flatMap_join,
            coe_join, List.flatMap_cons, List.flatMap_nil, List.append_nil, spineAddrs_cons]
          abel
        · simp only [← Multiset.coe_add, coe_leafAddrs_plug, sideEdges_append, sideEdges_cons,
            sideEdges_growSpine, Crumb.extend, flatMap_join, coe_join, List.flatMap_cons,
            List.flatMap_nil, List.append_nil]
          abel
      · rw [plug_append, plug_held, spineHeld_cons]
        refine ⟨hnew₂, ?_, fun t ht ↦ ?_, hcs₂, fun d hd t ht ↦ ?_⟩
        · simpa [Crumb.extend, Btree.size] using (hne₂ _ hnot).trans hc₁
        · rcases mem_join.mp (show t ∈ join true c.rest [cur] from ht) with ht | ht
          · exact hrest₂ c List.mem_cons_self t ht
          · exact List.mem_singleton.mp ht ▸ hcur₂
        · obtain ⟨d', hd', rfl⟩ := List.mem_map.mp hd
          exact hrest₂ d' (List.mem_cons_of_mem _ hd') t ht
      · rw [spineValid_append, Nat.zero_add, hns, ← @length_plug true, hdelta]
        exact ⟨hp, hcs.extend true _ hcur hroom⟩
      · rw [plug_append, length_plug, length_plug (c :: cs)]
        exact rootLength_growSpine delta cs _
      · simp [attach, hroom, Crumb.extend]
      · exact hfr.mono (fun b hb ↦ hW' (.inr (.inr (.inr hb))))
          (add_assoc _ _ R ▸ Multiset.le_add_left _ _)
    · have hfull : c.rest.length + 1 = maxCapacity :=
        le_antisymm ((Nat.le_add_left _ _).trans hcs.2.1) (by omega)
      have hnewv : (plug true ns f).Valid k := by
        simpa [hns] using (@plug_valid true _ _ _ 0).mpr ⟨hf, hp⟩
      have hlevel : (plug true ns f).root.level = k := hnewv.root_level
      have hcurv : Rep.Valid (k + 1) (.node c.hd (join true c.rest [cur])) :=
        (@plug_valid true [c] _ _ _).mpr ⟨hcur, hcs.1, hcs.2.1, hcs.2.2.1, hcs.2.2.2.1, trivial⟩
      rw [spineOutline_cons, attach, List.length_map, if_neg hroom] at hdepth
      have hbelow : k + 1 < maxDepth := by
        refine Nat.lt_of_succ_le (le_trans ?_ hdepth)
        cases cs with
        | nil => simp [attach, hns]
        | cons c' cs =>
          refine le_trans ?_ (length_attach _ _ _).1
          simp [hns]
      refine wp_addEdge_full ho' hc (by simpa [Btree.size] using hfull) hnew.node? (by omega)
        fun d h₁ ho₁ hg₁ hd₁ ↦ ?_
      rw [(plug true ns f).root_length, hdelta, hlevel] at hd₁
      have hplug : plug true (ns ++ [Crumb.single d delta k]) f =
          .node ⟨d, delta, k, 0⟩ [plug true ns f] := by
        rw [plug_append]
        simp [plug, Crumb.single]
      have hnew₁ : (plug true (ns ++ [Crumb.single d delta k]) f).Held h₁ := by
        rw [hplug, Rep.held_node]
        exact ⟨hd₁, by simpa using hnew.grows hg₁⟩
      have hp₁ : SpineValid 0 (ns ++ [Crumb.single d delta k]) f.length := by
        rw [spineValid_append, Nat.zero_add, hns, ← @length_plug true, hdelta]
        exact ⟨hp, spineValid_single d delta k⟩
      have hperm₁ : (d :: (spineAddrs (c :: cs) ++ W)).Perm
          (nodeAddrs (plug true (c :: cs) cur) ++
            (nodeAddrs (plug true (ns ++ [Crumb.single d delta k]) f) ++ Z)) := by
        rw [hplug]
        refine (hperm.symm.cons d).trans ?_
        simpa using List.perm_middle.symm
      have hleaf₁ : leafAddrs (plug true (ns ++ [Crumb.single d delta k]) f) =
          leafAddrs (plug true ns f) := by
        simp [hplug]
      have ho₂ := ho₁.perm hperm₁
      have hfr₁ := (ho.frame_of_grows hg₁).mono (Z := Z) (R := R)
        (fun b hb ↦ by simp [hb]) ((add_assoc _ _ R).symm ▸ Multiset.le_add_left R _)
      simp only [if_neg hbelow.not_ge]
      cases cs with
      | nil =>
        obtain ⟨hk, -, -, -⟩ := hcs
        have hroot : (plug true [c] cur).length = c.hd.length := rfl
        simp only [spineAddrs_nil, wp_bind]
        refine wp_newPair ho₂ (hg₁ _ _ hc) hd₁ (by change c.hd.height + 1 ≤ _; omega)
          ((Nat.add_le_add_right (hall c List.mem_cons_self) _).trans hlen) fun e h₂ ho₃ hg₂ he₂ ↦ ?_
        rw [wp_pure]
        have hplug₂ : plug true (ns ++ [Crumb.single d delta k,
            ⟨⟨e, c.hd.length + delta, k + 1, 0⟩, [plug true [c] cur]⟩]) f =
            .node ⟨e, c.hd.length + delta, k + 1, 0⟩
              [plug true [c] cur, plug true (ns ++ [Crumb.single d delta k]) f] := by
          rw [hplug, plug_append]
          simp [plug, Crumb.single, join]
        refine hQ [Crumb.single d delta k, ⟨⟨e, c.hd.length + delta, k + 1, 0⟩, [plug true [c] cur]⟩]
          h₂ ?_ ?_ ?_ ?_ ?_ ?_
        · refine (ho₃.perm ?_).congr ?_
          · rw [hplug₂]
            simp
          · rw [hplug₂]
            simp only [leafAddrs_node, List.flatMap_cons, List.flatMap_nil, List.append_nil, hleaf₁,
              ← Multiset.coe_add, add_assoc]
        · rw [hplug₂, Rep.held_node]
          refine ⟨?_, fun t ht ↦ ?_⟩
          · simpa [hplug, plug, hk, Rep.btree] using he₂
          rcases List.mem_cons.mp ht with rfl | ht
          · exact (hold.grows hg₁).grows hg₂
          · exact List.mem_singleton.mp ht ▸ hnew₁.grows hg₂
        · rw [← List.singleton_append, ← List.append_assoc, spineValid_append]
          refine ⟨hp₁, by simp [hns], by simp [maxCapacity], ?_, ?_, trivial⟩
          · rw [← @length_plug true, hplug]
            simp [plug]
          · simpa [hns, plug] using hcurv
        · rw [hplug₂]
          rfl
        · simp [attach, plug, hroom]
        · exact hfr₁.trans ((ho₂.frame_of_grows hg₂).mono (fun b hb ↦ by simp [hb])
            ((add_assoc _ _ R).symm ▸ Multiset.le_add_left R _))
      | cons c' cs =>
        have hd : d = (plug true (ns ++ [Crumb.single d delta k]) f).addr := by
          rw [hplug, Rep.addr_node]
        rw [← hleaf₁] at ho₂
        simp only [spineAddrs_cons, wp_bind]
        rw [← spineAddrs_cons, hd]
        refine ih _ (.node c.hd (join true c.rest [cur])) (List.cons_ne_nil _ _) ho₂
          (hold.grows hg₁) hnew₁ hcurv hcs.2.2.2.2 (by simp [hns]) hp₁ (by rw [hplug]; rfl) hlen
          ?_ fun ds h₂ ho₃ hheld₃ hp₃ hlen₃ houtline₃ hfr₃ ↦ ?_
        · simpa using hdepth
        · rw [wp_pure, ← hd]
          rw [List.append_assoc, List.singleton_append] at ho₃ hheld₃ hp₃ hlen₃ houtline₃
          refine hQ _ h₂ ho₃ hheld₃ hp₃ hlen₃ (houtline₃.trans ?_) (hfr₁.trans hfr₃)
          rw [spineOutline_cons c, attach, List.length_map, if_neg hroom]
          simp

/-- The nodes on a stack are the last ones of an opened tree built from data edges, or the single
one of a tree without any. -/
def Rebuilding (h : Heap Node) (Z : List Addr) (R : Multiset Addr) (stack : List Addr) :
    List Edge → Prop
  | [] => ∃ a, stack = [a] ∧ Owned h (a :: Z) R ∧ h.node? a = some (.btree ⟨0, 0, 0, []⟩)
  | e :: es => ∃ cs f, stack = spineAddrs cs ∧
      Owned h (nodeAddrs (plug true cs f) ++ Z) ((leafAddrs (plug true cs f) : Multiset Addr) + R) ∧
      (plug true cs f).Held h ∧ f.Valid 0 ∧ SpineValid 0 cs f.length ∧
      (spineOutline cs, f.outline) = build maxCapacity windowLabels e es

theorem Rebuilding.congr {S : Multiset Addr} {stack : List Addr} {es : List Edge}
    (hs : Rebuilding h Z R stack es) (hR : R = S) : Rebuilding h Z S stack es := hR ▸ hs

private theorem wp_rebuildUp_first {stack : List Addr} {e : Edge}
    (hs : Rebuilding h Z (e.addr ::ₘ R) stack []) (he : e.Held h) (hv : e.Valid)
    (hlen : e.length ≤ usizeMax) {Q : List Addr → Heap Node → Prop}
    (hQ : ∀ stack' h', Rebuilding h' Z R stack' [e] → Frame Z R h h' → Q stack' h') :
    wp (rebuildUp e.length 0 stack e.addr) Q h := by
  obtain ⟨a, rfl, ho, ha⟩ := hs
  have haZ : a ∉ Z := (List.nodup_cons.mp ho.nodup).1
  rw [rebuildUp, wp_bind]
  refine wp_addEdge_owned ho List.mem_cons_self ha (by decide) (by simpa using hlen)
    fun h₁ ho₁ hne₁ ha₁ ↦ ?_
  have hfr : Frame Z (e.addr ::ₘ R) h h₁ := ho.frame_of_opened List.mem_cons_self haZ hne₁
  simp only [addLengths, wp_bind, wp_pure]
  refine hQ [a] h₁ ⟨[⟨⟨a, e.length, 0, 0⟩, []⟩], .leaf e, rfl, ?_, ?_, ?_, ?_, ?_⟩
    (hfr.mono (List.Subset.refl _) (Multiset.le_cons_self _ _))
  · refine (ho₁.perm ?_).congr ?_
    · simp [plug]
    · simp [plug]
  · have he₁ : Rep.Held h (.leaf e) := Rep.held_leaf.mpr he
    rw [plug_held, spineHeld_cons]
    refine ⟨he₁.frame hfr (.root (Multiset.mem_cons_self _ _)), ?_, by simp, trivial, by simp⟩
    simpa [Btree.size, alignedBegin] using ha₁
  · exact Rep.Valid.leaf_iff.mpr ⟨rfl, hv⟩
  · exact ⟨rfl, by simp [maxCapacity], by simp, by simp, trivial⟩
  · simp [build, pushAll, alignedBegin]

private theorem wp_rebuildUp_next {stack : List Addr} {e : Edge} {es : List Edge}
    (hs : Rebuilding h Z (e.addr ::ₘ R) stack es) (he : e.Held h) (hv : e.Valid)
    (hcount : es.length + 1 ≤ maxCapacity ^ maxDepth) (hlen : edgesLength es + e.length ≤ usizeMax)
    {Q : List Addr → Heap Node → Prop}
    (hQ : ∀ stack' h', Rebuilding h' Z R stack' (es ++ [e]) → Frame Z R h h' → Q stack' h') :
    wp (rebuildUp e.length 0 stack e.addr) Q h := by
  cases es with
  | nil => exact wp_rebuildUp_first hs he hv (by simpa using hlen) hQ
  | cons e₀ es =>
    obtain ⟨cs, f, rfl, ho, hheld, hf, hcs, houtline⟩ := hs
    have hvalid : (plug true cs f).Valid (0 + cs.length) := plug_valid.mpr ⟨hf, hcs⟩
    have hleaves : (plug true cs f).leaves = e₀ :: es := by
      rw [← Rep.leaves_outline, outline_plug, show spineOutline cs = _ from congrArg Prod.fst houtline,
        show f.outline = _ from congrArg Prod.snd houtline]
      exact leaves_build (by decide) e₀ es
    have hbuild := build_append (M := maxCapacity) (L := windowLabels) e₀ e es
    rw [← houtline] at hbuild
    have hne : cs ≠ [] := by
      rintro rfl
      have hnone : (build maxCapacity windowLabels e₀ es).1 = [] := (congrArg Prod.fst houtline).symm
      exact build_ne_nil (by decide) e₀ es hnone
    refine wp_rebuildUp (R := R) cs [] f (.leaf e) hne (ho.congr ?_) hheld (Rep.held_leaf.mpr he)
      hf hcs (Rep.Valid.leaf_iff.mpr ⟨rfl, hv⟩) rfl trivial rfl ?_ ?_
      fun ds h' ho' hheld' hds _ houtline' hfr ↦ ?_
    · simp [← Multiset.singleton_add]
    · rw [← hvalid.length_leaves, hleaves]
      exact hlen
    · have hle := length_build_le (M := maxCapacity) (L := windowLabels) (by decide) e₀ (es ++ [e]) (n := maxDepth)
        (by decide) (by simpa using hcount)
      rwa [hbuild] at hle
    · refine hQ _ h' ⟨ds, .leaf e, rfl, ho', hheld', Rep.Valid.leaf_iff.mpr ⟨rfl, hv⟩, hds, ?_⟩ hfr
      change _ = build maxCapacity windowLabels e₀ (es ++ [e])
      rw [hbuild]
      exact congrArg (·, _) (by simpa using houtline')

/-- What a rebuild has opened and holds, and that it goes on with the same stack after a step that
keeps these. -/
private theorem Rebuilding.exists_opened {stack : List Addr} {es : List Edge}
    (hs : Rebuilding h Z R stack es) : ∃ Z' R', Owned h (Z' ++ Z) (R' + R) ∧
      ∀ h' W S, Owned h' (Z' ++ W) (R' + S) → Frame Z' R' h h' →
        Rebuilding h' W S stack es := by
  cases es with
  | nil =>
    obtain ⟨a, rfl, ho, ha⟩ := hs
    refine ⟨[a], 0, by simpa using ho, fun h' W S ho' hf ↦ ⟨a, rfl, by simpa using ho', ?_⟩⟩
    exact (hf.opened a (List.mem_singleton_self a)).trans ha
  | cons e es =>
    obtain ⟨cs, f, rfl, ho, hheld, hf, hcs, houtline⟩ := hs
    refine ⟨_, _, ho, fun h' W S ho' hfr ↦ ⟨cs, f, rfl, ho', ?_, hf, hcs, houtline⟩⟩
    exact hheld.frame_opened hfr (fun _ h ↦ h) fun _ h ↦ Multiset.mem_coe.mpr h

/-- The references an owned node hands over when its edges are added. -/
private def handed (owned : Bool) (as : List Addr) : Multiset Addr := if owned then as else 0

omit [Target] in
private theorem handed_cons (owned : Bool) (a : Addr) (as : List Addr) :
    handed owned (a :: as) = handed owned [a] + handed owned as := by
  cases owned
  · simp [handed]
  · simp [handed, ← Multiset.singleton_add, ← Multiset.cons_coe]

private theorem wp_rebuildEdges {owned : Bool} {stack : List Addr} {es us : List Edge}
    (hs : Rebuilding h Z (handed owned (us.map Edge.addr) + R) stack es)
    (hus : ∀ e ∈ us, e.Held h ∧ e.Valid) (hr : owned = false → ∀ e ∈ us, Reach h R e.addr)
    (hcount : es.length + us.length ≤ maxCapacity ^ maxDepth)
    (hlen : edgesLength es + edgesLength us ≤ usizeMax) {Q : List Addr → Heap Node → Prop}
    (hQ : ∀ stack' h', Rebuilding h' Z R stack' (es ++ us) → Frame Z R h h' → Q stack' h') :
    wp (rebuildEdges owned stack (us.map Edge.addr)) Q h := by
  induction us generalizing h stack es with
  | nil => exact (wp_pure _ _ _).mpr (hQ stack h (by simpa [handed] using hs) (.refl h))
  | cons e us ih =>
    obtain ⟨he, hus⟩ := List.forall_mem_cons.mp hus
    -- Once a reference to the edge is held.
    have hpush : ∀ h₁, Rebuilding h₁ Z (e.addr ::ₘ (handed owned (us.map Edge.addr) + R)) stack es →
        (∀ x, h₁.node? x = h.node? x) → wp (do
          let node ← read e.addr
          let stack ← rebuildUp node.length 0 stack e.addr
          rebuildEdges owned stack (us.map Edge.addr)) Q h₁ := by
      intro h₁ hs₁ hn₁
      have he₁ : e.Held h₁ := ⟨(hn₁ _).trans he.1.1, (hn₁ _).trans he.1.2⟩
      rw [wp_bind]
      refine wp_read he₁.1 ?_
      rw [e.node_length, wp_bind]
      simp only [List.length_cons, edgesLength_cons] at hcount hlen
      refine wp_rebuildUp_next hs₁ he₁ he.2 (by omega) (by omega) fun stack₂ h₂ hs₂ hf₂ ↦ ?_
      have hreach : ∀ u ∈ us, Reach h₁ (handed owned (us.map Edge.addr) + R) u.addr := by
        intro u hu
        cases owned with
        | true => exact .root (Multiset.mem_add.mpr (.inl (Multiset.mem_coe.mpr (List.mem_map_of_mem hu))))
        | false =>
          exact ((hr rfl u (List.mem_cons_of_mem _ hu)).transfer fun x _ ↦ hn₁ x).mono
            (Multiset.le_add_left _ _)
      refine ih hs₂ (fun u hu ↦ ?_) (fun ho u hu ↦ ?_) (by simp; omega) (by simp; omega)
        fun stack₃ h₃ hs₃ hf₃ ↦ ?_
      · have hu₁ : Rep.Held h₁ (.leaf u) :=
          Rep.held_leaf.mpr ⟨(hn₁ _).trans (hus u hu).1.1, (hn₁ _).trans (hus u hu).1.2⟩
        exact ⟨Rep.held_leaf.mp (hu₁.frame hf₂ (hreach u hu)), (hus u hu).2⟩
      · exact (((hr ho u (List.mem_cons_of_mem _ hu)).transfer fun x _ ↦ hn₁ x)).transfer
          fun x hx ↦ hf₂.kept x (hx.mono (Multiset.le_add_left _ _))
      · rw [List.append_assoc] at hs₃
        exact hQ stack₃ h₃ hs₃ ((Owned.frame_of_node?_eq hn₁).trans
          ((hf₂.mono (List.Subset.refl _) (Multiset.le_add_left _ _)).trans hf₃))
    rw [List.map_cons, rebuildEdges]
    rw [List.map_cons, handed_cons, add_assoc] at hs
    cases owned with
    | true =>
      rw [if_pos rfl, wp_bind, wp_pure]
      exact hpush h (hs.congr (by simp [handed])) fun _ ↦ rfl
    | false =>
      simp only [handed, Bool.false_eq_true, if_false, zero_add] at hs hpush ⊢
      obtain ⟨Z', R', ho, hnext⟩ := hs.exists_opened
      rw [wp_bind]
      refine wp_refRep ho ((hr rfl e List.mem_cons_self).mono (Multiset.le_add_left _ _))
        fun h₁ ho₁ hn₁ ↦ hpush h₁ (hnext h₁ _ _ (ho₁.congr ?_) (Owned.frame_of_node?_eq hn₁)) hn₁
      rw [Multiset.add_cons]

private theorem wp_rebuildTrees {step : List Addr → Addr → HeapM (List Addr)} {owned : Bool}
    {ts : List Rep}
    (hstep : ∀ t ∈ ts, ∀ {h Z R stack es} {Q : List Addr → Heap Node → Prop},
      Rebuilding h Z (handed owned [t.addr] + R) stack es → t.Held h →
      (owned = false → Reach h R t.addr) →
      es.length + t.leaves.length ≤ maxCapacity ^ maxDepth →
      edgesLength es + edgesLength t.leaves ≤ usizeMax →
      (∀ stack' h', Rebuilding h' Z R stack' (es ++ t.leaves) → Frame Z R h h' → Q stack' h') →
      wp (step stack t.addr) Q h)
    {stack : List Addr} {es : List Edge}
    (hs : Rebuilding h Z (handed owned (ts.map Rep.addr) + R) stack es)
    (hts : ∀ t ∈ ts, t.Held h) (hr : owned = false → ∀ t ∈ ts, Reach h R t.addr)
    (hcount : es.length + (ts.flatMap RoseTree.leaves).length ≤ maxCapacity ^ maxDepth)
    (hlen : edgesLength es + edgesLength (ts.flatMap RoseTree.leaves) ≤ usizeMax)
    {Q : List Addr → Heap Node → Prop}
    (hQ : ∀ stack' h', Rebuilding h' Z R stack' (es ++ ts.flatMap RoseTree.leaves) →
      Frame Z R h h' → Q stack' h') :
    wp (rebuildTrees step stack (ts.map Rep.addr)) Q h := by
  induction ts generalizing h stack es with
  | nil => exact (wp_pure _ _ _).mpr (hQ stack h (by simpa [handed] using hs) (.refl h))
  | cons t ts ih =>
    rw [List.map_cons, handed_cons, add_assoc] at hs
    rw [List.flatMap_cons, List.length_append] at hcount
    rw [List.flatMap_cons, edgesLength_append] at hlen
    rw [List.map_cons, rebuildTrees, wp_bind]
    refine hstep t List.mem_cons_self hs (hts t List.mem_cons_self)
      (fun ho ↦ (hr ho t List.mem_cons_self).mono (Multiset.le_add_left _ _)) (by omega) (by omega)
      fun stack₁ h₁ hs₁ hf₁ ↦ ?_
    have hreach : ∀ u ∈ ts, Reach h (handed owned (ts.map Rep.addr) + R) u.addr := by
      intro u hu
      cases owned with
      | true =>
        exact .root (Multiset.mem_add.mpr (.inl (Multiset.mem_coe.mpr (List.mem_map_of_mem hu))))
      | false => exact (hr rfl u (List.mem_cons_of_mem _ hu)).mono (Multiset.le_add_left _ _)
    refine ih (fun u hu ↦ hstep u (List.mem_cons_of_mem _ hu)) hs₁
      (fun u hu ↦ (hts u (List.mem_cons_of_mem _ hu)).frame hf₁ (hreach u hu))
      (fun ho u hu ↦ (hr ho u (List.mem_cons_of_mem _ hu)).transfer
        fun x hx ↦ hf₁.kept x (hx.mono (Multiset.le_add_left _ _)))
      (by rw [List.length_append]; omega) (by rw [edgesLength_append]; omega)
      fun stack₂ h₂ hs₂ hf₂ ↦ ?_
    rw [List.append_assoc, ← List.flatMap_cons] at hs₂
    exact hQ stack₂ h₂ hs₂ ((hf₁.mono (List.Subset.refl _) (Multiset.le_add_left _ _)).trans hf₂)

private theorem wp_rebuildInto {fuel : ℕ} {stack : List Addr} {es : List Edge} {t : Rep}
    {consume : Bool} (hs : Rebuilding h Z (handed consume [t.addr] + R) stack es) (ht : t.Held h)
    (hv : t.Valid (k + 1)) (hk : k < fuel) (hr : consume = false → Reach h R t.addr)
    (hcount : es.length + t.leaves.length ≤ maxCapacity ^ maxDepth)
    (hlen : edgesLength es + edgesLength t.leaves ≤ usizeMax)
    {Q : List Addr → Heap Node → Prop}
    (hQ : ∀ stack' h', Rebuilding h' Z R stack' (es ++ t.leaves) → Frame Z R h h' → Q stack' h') :
    wp (rebuildInto fuel stack t.addr consume) Q h := by
  induction fuel generalizing h Z R stack es t consume k Q with
  | zero => omega
  | succ fuel ih =>
    obtain ⟨hd, ts, rfl⟩ := hv.exists_node
    obtain ⟨hhd, -, -, -, hts⟩ := Rep.Valid.node_iff.mp hv
    obtain rfl : k = hd.height := Nat.succ_injective hhd
    obtain ⟨hnode, hheld⟩ := Rep.held_node.mp ht
    rw [RoseTree.leaves_node] at hcount hlen hQ
    -- The edges, once the references to them are handed over or known to stay.
    have hedges : ∀ (owned : Bool) {Z₁ R₁} {next : List Addr → HeapM (List Addr)},
        Rebuilding h Z₁ (handed owned (ts.map Rep.addr) + R₁) stack es →
        (owned = false → ∀ t ∈ ts, Reach h R₁ (Rep.addr t)) →
        (∀ stack' h', Rebuilding h' Z₁ R₁ stack' (es ++ ts.flatMap RoseTree.leaves) →
          Frame Z₁ R₁ h h' → wp (next stack') Q h') →
        wp (if hd.height = 0 then do
            let stack ← rebuildEdges owned stack (ts.map Rep.addr)
            next stack
          else do
            let stack ← rebuildTrees (fun stack tree ↦ rebuildInto fuel stack tree owned) stack
              (ts.map Rep.addr)
            next stack) Q h := by
      intro owned Z₁ R₁ next hs₁ hr₁ hQ₁
      by_cases hzero : hd.height = 0
      · rw [if_pos hzero, wp_bind]
        rw [hzero] at hts
        obtain ⟨us, rfl, hus⟩ := Rep.exists_map_leaf hts
        simp only [List.map_map, Function.comp_def, Rep.addr_leaf] at hs₁ ⊢
        rw [Rep.leaves_map_leaf] at hcount hlen hQ₁
        exact wp_rebuildEdges hs₁
          (fun e he ↦ ⟨Rep.held_leaf.mp (hheld _ (List.mem_map_of_mem he)), hus e he⟩)
          (fun ho e he ↦ hr₁ ho _ (List.mem_map_of_mem he)) hcount hlen hQ₁
      · rw [if_neg hzero, wp_bind]
        obtain ⟨j, hj⟩ := Nat.exists_eq_succ_of_ne_zero hzero
        refine wp_rebuildTrees (fun t ht h Z R stack es Q hs ht' hr hc hl hQ ↦ ?_) hs₁ hheld hr₁
          hcount hlen hQ₁
        exact ih hs ht' (hj ▸ hts t ht) (by omega) hr hc hl hQ
    rw [Rep.addr_node] at hs hr ⊢
    rw [rebuildInto, wp_bind]
    refine wp_refIsOne hnode ?_
    rw [wp_bind]
    refine wp_asBtree hnode ?_
    simp only [Rep.btree_height, Rep.btree_edges]
    have hchild : ∀ {S}, Reach h S hd.addr → ∀ t ∈ ts, Reach h S (Rep.addr t) :=
      fun hS t ht ↦ hS.child hnode (List.mem_map_of_mem ht)
    cases consume with
    | false =>
      simp only [Bool.false_and, Bool.false_eq_true, if_false]
      exact hedges false (by simpa [handed] using hs) (fun _ ↦ hchild (hr rfl))
        fun stack₁ h₁ hs₁ hf₁ ↦ (wp_pure _ _ _).mpr (hQ stack₁ h₁ hs₁ hf₁)
    | true =>
      have hs' : Rebuilding h Z (hd.addr ::ₘ R) stack es := hs.congr (by simp [handed])
      simp only [Bool.true_and, if_true]
      obtain ⟨Z', R', ho, hnext⟩ := hs'.exists_opened
      have hmem : hd.addr ∈ R' + (hd.addr ::ₘ R) := by simp
      by_cases hone : h.rc hd.addr = 1
      · simp only [hone, decide_true, if_true]
        have hopen := (ho.congr (Multiset.add_cons _ _ _)).openCell hnode hone
        have hs₁ : Rebuilding h (hd.addr :: Z) (handed true (ts.map Rep.addr) + R) stack es := by
          refine hnext h _ _ ((hopen.perm List.perm_middle.symm).congr ?_) (.refl h)
          simp only [Pointers.children, Node.children, Rep.btree_edges, handed, if_true]
          abel
        refine hedges true hs₁ (fun h ↦ absurd h (by decide)) fun stack₁ h₁ hs₂ hf₁ ↦ ?_
        obtain ⟨Z'', R'', ho₁, hnext₁⟩ := hs₂.exists_opened
        have ho₂ := ho₁.perm List.perm_middle
        have hnot := (List.nodup_cons.mp ho₂.nodup).1
        rw [List.mem_append, not_or] at hnot
        rw [wp_bind]
        refine wp_free ho₂ fun h₂ ho₃ hne ↦ (wp_pure _ _ _).mpr (hQ stack₁ h₂ ?_ ?_)
        · exact hnext₁ h₂ _ _ ho₃ ((ho₂.frame_of_opened List.mem_cons_self hnot.1 hne).mono
            (List.Subset.refl _) (Multiset.le_add_right _ _))
        · exact (hf₁.mono (List.subset_cons_self _ _) le_rfl).trans
            ((ho₂.frame_of_opened List.mem_cons_self hnot.2 hne).mono
              (List.Subset.refl _) (Multiset.le_add_left _ _))
      · simp only [hone, decide_false, Bool.false_eq_true, if_false]
        refine hedges false (by simpa [handed] using hs')
          (fun _ ↦ hchild (.root (Multiset.mem_cons_self _ _))) fun stack₁ h₁ hs₂ hf₁ ↦ ?_
        obtain ⟨Z'', R'', ho₁, hnext₁⟩ := hs₂.exists_opened
        rw [wp_bind]
        refine wp_unref (ho₁.congr (Multiset.add_cons _ _ _)) fun h₂ ho₂ hf₂ ↦
          (wp_pure _ _ _).mpr (hQ stack₁ h₂ ?_ ?_)
        · exact hnext₁ h₂ _ _ ho₂ (hf₂.mono (List.subset_append_left _ _)
            (Multiset.le_add_right _ _))
        · exact (hf₁.mono (List.Subset.refl _) (Multiset.le_cons_self _ _)).trans
            (hf₂.mono (List.subset_append_right _ _) (Multiset.le_add_left _ _))

/-- A tree that is given up is rebuilt from its data edges; all nodes of the tree built are handed
out opened. -/
theorem wp_rebuild {t : Rep} (ho : Owned h Z (t.addr ::ₘ R)) (ht : t.Held h) (hv : t.Valid (k + 1))
    (hcount : t.leaves.length ≤ maxCapacity ^ maxDepth) (hlen : t.length ≤ usizeMax)
    {Q : Addr → Heap Node → Prop}
    (hQ : ∀ (t' : Rep) j h', Owned h' (nodeAddrs t' ++ Z) ((leafAddrs t' : Multiset Addr) + R) →
      t'.Held h' → t'.Valid (j + 1) → j + 1 ≤ maxDepth →
      t'.outline = ofLeaves maxCapacity windowLabels t.leaves → Frame Z R h h' → Q t'.addr h') :
    wp (rebuild t.addr) Q h := by
  obtain ⟨hd, ts, rfl⟩ := hv.exists_node
  obtain ⟨hhd, -⟩ := Rep.Valid.node_iff.mp hv
  rw [rebuild, wp_bind]
  refine wp_allocBtree ho (Nat.zero_le _) fun a h₁ ho₁ hg₁ ha₁ ↦ ?_
  have ht₁ := ht.grows hg₁
  rw [wp_bind, Rep.addr_node]
  refine wp_asBtree ht₁.node? ?_
  rw [wp_bind]
  have hs₁ : Rebuilding h₁ Z (handed true [hd.addr] + R) [a] [] :=
    ⟨a, rfl, ho₁.congr (by simp [handed]), ha₁⟩
  refine wp_rebuildInto (t := .node hd ts) hs₁ ht₁ hv ?_ (fun h ↦ absurd h (by decide))
    (by simpa using hcount) (by rw [hv.length_leaves]; simpa using hlen) fun stack h₂ hs₂ hf₂ ↦ ?_
  · rw [Nat.succ_injective hhd]
    exact Nat.lt_succ_self _
  obtain ⟨e, es, hes⟩ : ∃ e es, (RoseTree.node hd ts : Rep).leaves = e :: es := by
    refine List.exists_cons_of_ne_nil fun hnil ↦ hv.bytes_ne_nil ?_
    rw [Rep.bytes, hnil, List.flatMap_nil]
  rw [List.nil_append, hes] at hs₂
  obtain ⟨cs, f, rfl, ho₂, hheld, hf, hcs, houtline⟩ := hs₂
  have hne : cs ≠ [] := by
    rintro rfl
    exact build_ne_nil (M := maxCapacity) (by decide) e es (congrArg Prod.fst houtline).symm
  have hlevels : cs.length ≤ maxDepth := by
    rw [← length_spineOutline, show spineOutline cs = _ from congrArg Prod.fst houtline]
    exact length_build_le (by decide) e es (by decide) (by simpa [hes] using hcount)
  obtain ⟨j, hj⟩ := Nat.exists_eq_succ_of_ne_zero (List.length_pos_iff.mpr hne).ne'
  rw [if_pos (by simpa [spineAddrs] using hlevels), wp_pure,
    show (spineAddrs cs).getLastD a = (plug true cs f).addr by
      obtain ⟨c, cs', rfl⟩ := List.exists_cons_of_ne_nil hne
      rw [addr_plug, rootAddr_eq_getLastD, spineAddrs_cons, List.getLastD_cons, List.getLastD_cons]]
  have hvalid : (plug true cs f).Valid (0 + cs.length) := plug_valid.mpr ⟨hf, hcs⟩
  refine hQ _ j h₂ ho₂ hheld (by rwa [Nat.zero_add, hj] at hvalid) (hj.ge.trans hlevels) ?_
    (((ho.frame_of_grows hg₁).mono (List.Subset.refl _) (Multiset.le_cons_self _ _)).trans hf₂)
  rw [outline_plug, show spineOutline cs = _ from congrArg Prod.fst houtline,
    show f.outline = _ from congrArg Prod.snd houtline, hes]
  rfl

/-- A tree is rebuilt from the same data edges as one that is full but for its last edges and as low
as they allow. -/
theorem Btree.rebuild_dense {t : Rep} (ho : Owned h Z (t.addr ::ₘ R)) (ht : t.Held h)
    (hv : t.Valid (k + 1)) (hcount : t.leaves.length ≤ maxCapacity ^ maxDepth)
    (hlen : t.length ≤ usizeMax) :
    wp (rebuild t.addr) (fun r h' ↦ ∃ (t' : Rep) (j : ℕ), r = t'.addr ∧
      Owned h' Z (t'.addr ::ₘ R) ∧ t'.Held h' ∧ t'.Valid (j + 1) ∧ t'.leaves = t.leaves ∧
      RightDense maxCapacity (j + 1) t' ∧ t.leaves.length ≤ maxCapacity ^ (j + 1) ∧
      (∀ i, t.leaves.length ≤ maxCapacity ^ (i + 1) → j ≤ i) ∧ j ≤ maxHeight ∧
      Frame Z R h h') h := by
  refine wp_rebuild ho ht hv hcount hlen fun t' j h' ho' ht' hv' hj houtline hf ↦ ?_
  have hleaves : t'.leaves = t.leaves := by
    rw [← Rep.leaves_outline, houtline, leaves_ofLeaves (by decide)]
  have hdepth : (ofLeaves maxCapacity windowLabels t.leaves).depth = j + 1 := by
    rw [← houtline, hv'.depth_outline]
  have hne : t.leaves ≠ [] := List.ne_nil_of_length_pos hv.leaves_length_pos
  obtain ⟨hdense, hleast⟩ := @rightDense_ofLeaves _ _ windowLabels maxCapacity (by decide) _ hne
  rw [hdepth] at hdense hleast
  refine ⟨t', j, rfl, closeTree ho' ht' hv', ht', hv', hleaves, ?_, ?_,
    fun i hi ↦ Nat.le_of_succ_le_succ (hleast (i + 1) (Nat.succ_pos i) hi),
    Nat.le_of_succ_le_succ hj, hf⟩
  · rw [← houtline, Rep.outline, rightDense_map] at hdense
    exact hdense
  · rw [← hleaves, ← Rep.leaves_outline]
    exact hv'.leveled.length_leaves_le

end Rules

/-- A node of height one with the same leaf node as both of its edges. -/
def twiceLeaf : Heap Node where
  cells := [some ⟨1, .payload (.flat 6 [1])⟩, some ⟨2, .btree ⟨1, 0, 0, [0]⟩⟩,
    some ⟨1, .btree ⟨2, 1, 0, [1, 1]⟩⟩]

/-- The leaf node of `twiceLeaf`. -/
def leafNode : Rep := .node ⟨1, 1, 0, 0⟩ [.leaf (.whole 0 (.flat 6 [1]))]

/-- A subtree that occurs twice is copied at its first visit and given up at the second. -/
theorem Btree.rebuild_dense_twice :
    letI : Target := ⟨64, .inr rfl⟩
    wp (rebuild 2) (fun r h' ↦ ∃ t' : Rep, r = t'.addr ∧ Owned h' [] {t'.addr} ∧
      t'.leaves = leafNode.leaves ++ leafNode.leaves ∧ RightDense maxCapacity 1 t') twiceLeaf := by
  let _ : Target := ⟨64, .inr rfl⟩
  have ho : Owned twiceLeaf [] (2 ::ₘ 0) := by
    refine Owned.of_lt_size (by decide) (by decide) (by decide +kernel) fun x n hn ↦ ?_
    obtain _ | _ | _ | x := x
    · obtain rfl := Option.some.inj hn
      exact ⟨[], rfl, ⟨by decide, by decide, by decide, by decide⟩, rfl⟩
    · obtain rfl := Option.some.inj hn
      exact ⟨[_], rfl, ⟨by decide, by decide, by decide, by decide⟩, rfl⟩
    · obtain rfl := Option.some.inj hn
      exact ⟨[_, _], rfl, ⟨by decide, by decide, by decide, by decide⟩, rfl⟩
    · cases hn
  have hleaf : leafNode.Held twiceLeaf := by
    refine Rep.held_node.mpr ⟨rfl, fun t ht ↦ ?_⟩
    obtain rfl := List.mem_singleton.mp ht
    exact Rep.held_leaf.mpr ⟨rfl, rfl⟩
  have hvalid : leafNode.Valid 1 := by
    refine Rep.Valid.node_iff.mpr ⟨rfl, by decide, by decide, rfl, fun t ht ↦ ?_⟩
    obtain rfl := List.mem_singleton.mp ht
    exact Rep.Valid.leaf_iff.mpr ⟨rfl, by decide, by decide, by decide, by decide⟩
  have ht : Rep.Held twiceLeaf (.node ⟨2, 2, 1, 0⟩ [leafNode, leafNode]) := by
    refine Rep.held_node.mpr ⟨rfl, fun t ht ↦ ?_⟩
    rcases List.mem_pair.mp ht with rfl | rfl <;> exact hleaf
  have hv : Rep.Valid 2 (.node ⟨2, 2, 1, 0⟩ [leafNode, leafNode]) := by
    refine Rep.Valid.node_iff.mpr ⟨rfl, by decide, by decide, rfl, fun t ht ↦ ?_⟩
    rcases List.mem_pair.mp ht with rfl | rfl <;> exact hvalid
  refine wp_mono (rebuild_dense (t := .node ⟨2, 2, 1, 0⟩ [leafNode, leafNode]) ho ht hv (by decide)
    (by decide)) fun r h' hr ↦ ?_
  obtain ⟨t', j, rfl, ho', -, -, hleaves, hdense, -, hleast, -⟩ := hr
  obtain rfl : j = 0 := Nat.le_zero.mp (hleast 0 (by decide))
  exact ⟨t', rfl, ho', hleaves, hdense⟩

end CordRs
