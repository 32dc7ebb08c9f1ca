import CordRs.Btree.Node

/-!
# Outlines of trees

The outline of a tree is what is left when its nodes have no addresses: the first slot of each
window and the data edges. What an operation does to it does not depend on which nodes are shared,
so a pure function says what the tree that comes out looks like.

The shape of a tree has the length, the height and the first slot of each node and the lengths of
the data edges; that of a valid tree is computed from its outline.

## Main definitions

* `CordRs.attachOutline`, `CordRs.addEdgeOutline`, `CordRs.mergeTreesOutline`,
  `CordRs.addDataOutline`.
* `CordRs.Rep.shape`, `CordRs.measure`.

## Main results

* `CordRs.leaves_attachOutline`: the data edges after a tree was put beside another one.
* `CordRs.map_attachOutline`: what becomes of a tree does not depend on what is at its leaves.
* `CordRs.Rep.Valid.shape_eq`: the shape of a valid tree is computed from its outline.
-/

namespace CordRs

open RefHeap LevelTree

variable {α : Type} {back : Bool}

/-- A tree that got too high is built anew from its leaves. -/
def settleOutline (t : RoseTree ℕ α) : RoseTree ℕ α :=
  if maxDepth < t.depth then ofLeaves maxCapacity windowLabels t.leaves else t

/-- The tree after the one with spine `pc` and focus `x` was put beside `t`, the focus of `ctx`. -/
def attachOutline (back : Bool) (ctx : Spine ℕ α) (t : RoseTree ℕ α) (pc : Spine ℕ α)
    (x : RoseTree ℕ α) : RoseTree ℕ α :=
  settleOutline (LevelTree.plug back (attach maxCapacity windowLabels back ctx t pc) x)

@[simp] theorem leaves_settleOutline (t : RoseTree ℕ α) :
    (settleOutline t).leaves = t.leaves := by
  rw [settleOutline]
  split_ifs
  · exact leaves_ofLeaves (by decide) _
  · rfl

@[simp] theorem leaves_attachOutline (ctx : Spine ℕ α) (t : RoseTree ℕ α) (pc : Spine ℕ α)
    (x : RoseTree ℕ α) : (attachOutline back ctx t pc x).leaves =
      join back (LevelTree.plug back ctx t).leaves (LevelTree.plug back pc x).leaves := by
  rw [attachOutline, leaves_settleOutline, leaves_attach]

theorem attachOutline_eq (ctx : Spine ℕ α) (t : RoseTree ℕ α) (pc : Spine ℕ α)
    (x : RoseTree ℕ α) : attachOutline back ctx t pc x =
      attachOutline back ctx t [] (LevelTree.plug back pc x) := by
  have := @attach_append ℕ α windowLabels back maxCapacity ctx t pc []
  rw [List.append_nil] at this
  rw [attachOutline, attachOutline, this, LevelTree.plug_append]

/-- A leaf is added at one end. -/
def addEdgeOutline (back : Bool) (t : RoseTree ℕ α) (x : α) : RoseTree ℕ α :=
  attachOutline back (unplug back t.depth t).1 (unplug back t.depth t).2 [] (.leaf x)

/-- A node takes the edges of `s` if it has room for them, or `s` is put beside it. -/
def mergeNodeOutline (back : Bool) (ctx : Spine ℕ α) (m s : RoseTree ℕ α) : RoseTree ℕ α :=
  match m, s with
  | .node _ ms, .node _ ss =>
    if ms.length + ss.length ≤ maxCapacity then
      LevelTree.plug back ctx (.node (alignedBegin back (ms.length + ss.length)) (join back ms ss))
    else
      attachOutline back ctx m [] s
  | _, _ => attachOutline back ctx m [] s

/-- A tree that is not higher is added at one end. -/
def mergeOutline (back : Bool) (t s : RoseTree ℕ α) : RoseTree ℕ α :=
  mergeNodeOutline back (unplug back (t.depth - s.depth) t).1
    (unplug back (t.depth - s.depth) t).2 s

/-- The concatenation of two trees. -/
def mergeTreesOutline (l r : RoseTree ℕ α) : RoseTree ℕ α :=
  if r.depth ≤ l.depth then mergeOutline true l r else mergeOutline false r l

/-- A data edge or a tree behind a tree. -/
def appendOutline (t s : RoseTree ℕ α) : RoseTree ℕ α :=
  match s with
  | .leaf x => addEdgeOutline true t x
  | .node _ _ => mergeTreesOutline t s

/-- A data edge or a tree in front of a tree. -/
def prependOutline (t s : RoseTree ℕ α) : RoseTree ℕ α :=
  match s with
  | .leaf x => addEdgeOutline false t x
  | .node _ _ => mergeTreesOutline s t

/-- A node of leaves that takes other ones. -/
def fillOutline (back : Bool) (ms : List (RoseTree ℕ α)) (xs : List α) : RoseTree ℕ α :=
  .node (alignedBegin back (ms.length + xs.length)) (join back ms (outward back (xs.map .leaf)))

/-- Leaves are added in new nodes, as many as they take in each. -/
def addLeavesOutline (back : Bool) (t : RoseTree ℕ α) (xs : List α) : RoseTree ℕ α :=
  if h : xs = [] then t
  else
    addLeavesOutline back (attachOutline back (unplug back (t.depth - 1) t).1
      (unplug back (t.depth - 1) t).2 [] (fillOutline back [] (xs.take maxCapacity)))
      (xs.drop maxCapacity)
termination_by xs.length
decreasing_by
  have hpos := List.length_pos_iff.mpr h
  rw [List.length_drop]
  exact Nat.sub_lt hpos (by decide)

/-- A node of leaves is filled if it has room, and the other leaves are added in new nodes. -/
def addDataNodeOutline (back : Bool) (ctx : Spine ℕ α) (m : RoseTree ℕ α) (xs : List α) :
    RoseTree ℕ α :=
  match m with
  | .leaf _ => addLeavesOutline back (LevelTree.plug back ctx m) xs
  | .node _ ms =>
    if ms.length < maxCapacity then
      addLeavesOutline back
        (LevelTree.plug back ctx (fillOutline back ms (xs.take (maxCapacity - ms.length))))
        (xs.drop (maxCapacity - ms.length))
    else
      addLeavesOutline back (LevelTree.plug back ctx m) xs

/-- Leaves are added at one end. -/
def addDataOutline (back : Bool) (t : RoseTree ℕ α) (xs : List α) : RoseTree ℕ α :=
  match xs with
  | [] => t
  | _ :: _ => addDataNodeOutline back (unplug back (t.depth - 1) t).1
      (unplug back (t.depth - 1) t).2 xs

@[simp] theorem leaves_addEdgeOutline (t : RoseTree ℕ α) (x : α) :
    (addEdgeOutline back t x).leaves = join back t.leaves [x] := by
  rw [addEdgeOutline, leaves_attachOutline, plug_unplug]
  simp [LevelTree.plug]

@[simp] theorem leaves_mergeNodeOutline (ctx : Spine ℕ α) (m s : RoseTree ℕ α) :
    (mergeNodeOutline back ctx m s).leaves =
      join back (LevelTree.plug back ctx m).leaves s.leaves := by
  unfold mergeNodeOutline
  split
  · split_ifs
    · simp [LevelTree.leaves_plug, join_assoc]
    · simp [LevelTree.plug]
  · simp [LevelTree.plug]

@[simp] theorem leaves_mergeOutline (t s : RoseTree ℕ α) :
    (mergeOutline back t s).leaves = join back t.leaves s.leaves := by
  rw [mergeOutline, leaves_mergeNodeOutline, plug_unplug]

@[simp] theorem leaves_mergeTreesOutline (l r : RoseTree ℕ α) :
    (mergeTreesOutline l r).leaves = l.leaves ++ r.leaves := by
  rw [mergeTreesOutline]
  split_ifs <;> simp [join]

@[simp] theorem leaves_appendOutline (t s : RoseTree ℕ α) :
    (appendOutline t s).leaves = t.leaves ++ s.leaves := by
  cases s with
  | leaf x => simp [appendOutline, join]
  | node u ss => exact leaves_mergeTreesOutline t _

@[simp] theorem leaves_prependOutline (t s : RoseTree ℕ α) :
    (prependOutline t s).leaves = s.leaves ++ t.leaves := by
  cases s with
  | leaf x => simp [prependOutline, join]
  | node u ss => exact leaves_mergeTreesOutline _ t

theorem leaves_fillOutline (ms : List (RoseTree ℕ α)) (xs : List α) :
    (fillOutline back ms xs).leaves = join back (ms.flatMap RoseTree.leaves) (outward back xs) := by
  rw [fillOutline, RoseTree.leaves_node, flatMap_join, ← map_outward, List.flatMap_map]
  simp

theorem addLeavesOutline_nil (t : RoseTree ℕ α) : addLeavesOutline back t [] = t := by
  rw [addLeavesOutline, dif_pos rfl]

theorem addLeavesOutline_of_ne_nil (t : RoseTree ℕ α) {xs : List α} (h : xs ≠ []) :
    addLeavesOutline back t xs =
      addLeavesOutline back (attachOutline back (unplug back (t.depth - 1) t).1
        (unplug back (t.depth - 1) t).2 [] (fillOutline back [] (xs.take maxCapacity)))
        (xs.drop maxCapacity) := by
  rw [addLeavesOutline, dif_neg h]

@[simp] theorem leaves_addLeavesOutline (t : RoseTree ℕ α) (xs : List α) :
    (addLeavesOutline back t xs).leaves = join back t.leaves (outward back xs) := by
  induction t, xs using addLeavesOutline.induct back with
  | case1 t => simp [addLeavesOutline_nil]
  | case2 t xs h ih =>
    rw [addLeavesOutline_of_ne_nil t h, ih, leaves_attachOutline, plug_unplug, LevelTree.plug,
      leaves_fillOutline, List.flatMap_nil, nil_join, join_assoc, ← outward_append,
      List.take_append_drop]

@[simp] theorem leaves_addDataNodeOutline (ctx : Spine ℕ α) (m : RoseTree ℕ α) (xs : List α) :
    (addDataNodeOutline back ctx m xs).leaves =
      join back (LevelTree.plug back ctx m).leaves (outward back xs) := by
  cases m with
  | leaf x => exact leaves_addLeavesOutline _ xs
  | node u ms =>
    rw [addDataNodeOutline]
    split_ifs
    · rw [leaves_addLeavesOutline, LevelTree.leaves_plug, leaves_fillOutline, LevelTree.leaves_plug,
        RoseTree.leaves_node, ← join_assoc, join_assoc, ← outward_append, List.take_append_drop]
    · exact leaves_addLeavesOutline _ xs

@[simp] theorem leaves_addDataOutline (t : RoseTree ℕ α) (xs : List α) :
    (addDataOutline back t xs).leaves = join back t.leaves (outward back xs) := by
  cases xs with
  | nil => simp [addDataOutline]
  | cons x xs => rw [addDataOutline, leaves_addDataNodeOutline, plug_unplug]

/-! ### Levels -/

section Depth

variable {j k : ℕ} {ctx : Spine ℕ α} {m s t : RoseTree ℕ α}

theorem depth_settleOutline_le (h : (settleOutline t).depth ≤ maxDepth) :
    (settleOutline t).depth ≤ t.depth := by
  rw [settleOutline] at h ⊢
  split_ifs with hd
  · rw [if_pos hd] at h
    exact h.trans hd.le
  · exact le_rfl

/-- A tree put beside another one of its level adds at most one level. -/
theorem depth_attachOutline_le (hctx : SpineLeveled maxCapacity j ctx)
    (hm : Leveled maxCapacity j m) (hs : Leveled maxCapacity j s)
    (h : (attachOutline back ctx m [] s).depth ≤ maxDepth) :
    (attachOutline back ctx m [] s).depth ≤ j + ctx.length + 1 := by
  have hspine : SpineLeveled maxCapacity j (attach maxCapacity windowLabels back ctx m []) :=
    hctx.attach (by decide) hm trivial rfl
  have hlen := (@length_attach ℕ α windowLabels back maxCapacity ctx m []).2
  have hle := depth_settleOutline_le h
  rw [(leveled_plug.mpr ⟨hs, hspine⟩).depth_eq] at hle
  rw [List.length_nil] at hlen
  rw [attachOutline]
  omega

theorem depth_addEdgeOutline_le (ht : Leveled maxCapacity k t) {x : α}
    (h : (addEdgeOutline back t x).depth ≤ maxDepth) :
    (addEdgeOutline back t x).depth ≤ k + 1 := by
  rw [← zero_add k] at ht
  rw [addEdgeOutline, ht.depth_eq.trans (zero_add k)] at h ⊢
  obtain ⟨hm, hctx⟩ := ht.unplug back
  have := depth_attachOutline_le hctx hm (s := .leaf x) (leveled_leaf.mpr rfl) h
  rwa [ht.length_unplug back, zero_add] at this

/-- A merge adds at most one level. -/
theorem depth_mergeOutline_le (ht : Leveled maxCapacity k t) (hs : Leveled maxCapacity j s)
    (hj : 0 < j) (hle : j ≤ k) (h : (mergeOutline back t s).depth ≤ maxDepth) :
    (mergeOutline back t s).depth ≤ k + 1 := by
  obtain ⟨n, rfl⟩ := Nat.exists_eq_add_of_le hle
  rw [mergeOutline, ht.depth_eq, hs.depth_eq, Nat.add_sub_cancel_left] at h ⊢
  obtain ⟨hm, hctx⟩ := ht.unplug back
  have hlen := ht.length_unplug back
  revert h
  generalize (unplug back n t).2 = m at *
  generalize (unplug back n t).1 = ctx at *
  intro h
  cases m with
  | leaf x => exact absurd (leveled_leaf.mp hm) hj.ne'
  | node u ms =>
    cases s with
    | leaf x => exact absurd (leveled_leaf.mp hs) hj.ne'
    | node v ss =>
      obtain ⟨i, rfl, hne, hml, hms⟩ := leveled_node.mp hm
      obtain ⟨i', hi, -, hsl, hss⟩ := leveled_node.mp hs
      obtain rfl := Nat.succ_injective hi
      rw [mergeNodeOutline] at h ⊢
      split_ifs at h ⊢ with hroom
      · have : Leveled maxCapacity (i + 1)
            (.node (alignedBegin back (ms.length + ss.length)) (join back ms ss)) := by
          refine leveled_node.mpr ⟨i, rfl, fun hnil ↦ hne ?_, by simpa using hroom, fun t ht ↦ ?_⟩
          · have := congrArg List.length hnil
            rw [length_join, List.length_nil] at this
            exact List.eq_nil_of_length_eq_zero (by omega)
          · rcases mem_join.mp ht with ht | ht
            · exact hms t ht
            · exact hss t ht
        rw [(leveled_plug.mpr ⟨this, hctx⟩).depth_eq, hlen]
        exact Nat.le_succ _
      · rw [← hlen]
        exact depth_attachOutline_le hctx hm hs h

theorem depth_mergeTreesOutline_le (ht : Leveled maxCapacity k t) (hs : Leveled maxCapacity j s)
    (hk : 0 < k) (hj : 0 < j) (h : (mergeTreesOutline t s).depth ≤ maxDepth) :
    (mergeTreesOutline t s).depth ≤ max k j + 1 := by
  rw [mergeTreesOutline, ht.depth_eq, hs.depth_eq] at h ⊢
  split_ifs at h ⊢ with hle
  · rw [max_eq_left hle]
    exact depth_mergeOutline_le ht hs hj hle h
  · rw [max_eq_right (by omega)]
    exact depth_mergeOutline_le hs ht hk (by omega) h

theorem depth_appendOutline_le (ht : Leveled maxCapacity k t) (hs : Leveled maxCapacity j s)
    (hk : 0 < k) (h : (appendOutline t s).depth ≤ maxDepth) :
    (appendOutline t s).depth ≤ max k j + 1 := by
  cases s with
  | leaf x => exact (depth_addEdgeOutline_le ht h).trans (Nat.succ_le_succ (le_max_left _ _))
  | node u ss =>
    obtain ⟨i, rfl, -⟩ := leveled_node.mp hs
    exact depth_mergeTreesOutline_le ht hs hk (Nat.succ_pos i) h

theorem depth_prependOutline_le (ht : Leveled maxCapacity k t) (hs : Leveled maxCapacity j s)
    (hk : 0 < k) (h : (prependOutline t s).depth ≤ maxDepth) :
    (prependOutline t s).depth ≤ max k j + 1 := by
  cases s with
  | leaf x => exact (depth_addEdgeOutline_le ht h).trans (Nat.succ_le_succ (le_max_left _ _))
  | node u ss =>
    obtain ⟨i, rfl, -⟩ := leveled_node.mp hs
    rw [max_comm]
    exact depth_mergeTreesOutline_le hs ht (Nat.succ_pos i) hk h

end Depth

/-! ### Other leaves -/

section Map

variable {β : Type} (g : α → β)

theorem map_settleOutline (t : RoseTree ℕ α) :
    (settleOutline t).map id g = settleOutline (t.map id g) := by
  rw [settleOutline, settleOutline, RoseTree.depth_map, RoseTree.leaves_map]
  split_ifs
  · exact map_ofLeaves g _
  · rfl

/-- What becomes of a tree does not depend on what is at its leaves. -/
theorem map_attachOutline (ctx : Spine ℕ α) (t : RoseTree ℕ α) (pc : Spine ℕ α)
    (x : RoseTree ℕ α) : (attachOutline back ctx t pc x).map id g =
      attachOutline back (mapSpine g ctx) (t.map id g) (mapSpine g pc) (x.map id g) := by
  rw [attachOutline, map_settleOutline, map_plug, mapSpine_attach, attachOutline]

theorem map_addEdgeOutline (t : RoseTree ℕ α) (x : α) :
    (addEdgeOutline back t x).map id g = addEdgeOutline back (t.map id g) (g x) := by
  rw [addEdgeOutline, map_attachOutline, addEdgeOutline, RoseTree.depth_map, map_unplug,
    mapSpine_nil, RoseTree.map_leaf]

theorem map_mergeNodeOutline (ctx : Spine ℕ α) (m s : RoseTree ℕ α) :
    (mergeNodeOutline back ctx m s).map id g =
      mergeNodeOutline back (mapSpine g ctx) (m.map id g) (s.map id g) := by
  cases m with
  | leaf x => simp [mergeNodeOutline, map_attachOutline]
  | node u ms =>
    cases s with
    | leaf x => simp [mergeNodeOutline, map_attachOutline]
    | node v ss =>
      simp only [mergeNodeOutline, RoseTree.map_node, List.length_map]
      split_ifs
      · simp [map_plug]
      · simp [map_attachOutline]

theorem map_mergeOutline (t s : RoseTree ℕ α) :
    (mergeOutline back t s).map id g = mergeOutline back (t.map id g) (s.map id g) := by
  rw [mergeOutline, map_mergeNodeOutline, mergeOutline, RoseTree.depth_map, RoseTree.depth_map,
    map_unplug]

theorem map_mergeTreesOutline (l r : RoseTree ℕ α) :
    (mergeTreesOutline l r).map id g = mergeTreesOutline (l.map id g) (r.map id g) := by
  simp only [mergeTreesOutline, RoseTree.depth_map]
  split_ifs
  · exact map_mergeOutline g l r
  · exact map_mergeOutline g r l

theorem map_appendOutline (t s : RoseTree ℕ α) :
    (appendOutline t s).map id g = appendOutline (t.map id g) (s.map id g) := by
  cases s with
  | leaf x => simp [appendOutline, map_addEdgeOutline]
  | node u ss =>
    rw [appendOutline, map_mergeTreesOutline]
    simp [appendOutline]

theorem map_prependOutline (t s : RoseTree ℕ α) :
    (prependOutline t s).map id g = prependOutline (t.map id g) (s.map id g) := by
  cases s with
  | leaf x => simp [prependOutline, map_addEdgeOutline]
  | node u ss =>
    rw [prependOutline, map_mergeTreesOutline]
    simp [prependOutline]

theorem map_fillOutline (ms : List (RoseTree ℕ α)) (xs : List α) :
    (fillOutline back ms xs).map id g =
      fillOutline back (ms.map (RoseTree.map id g)) (xs.map g) := by
  simp [fillOutline, Function.comp_def]

theorem map_addLeavesOutline (t : RoseTree ℕ α) (xs : List α) :
    (addLeavesOutline back t xs).map id g = addLeavesOutline back (t.map id g) (xs.map g) := by
  induction t, xs using addLeavesOutline.induct back with
  | case1 t => rw [addLeavesOutline_nil, List.map_nil, addLeavesOutline_nil]
  | case2 t xs h ih =>
    have h' : xs.map g ≠ [] := fun hnil ↦ h (List.map_eq_nil_iff.mp hnil)
    rw [addLeavesOutline_of_ne_nil t h, addLeavesOutline_of_ne_nil _ h', ih, map_attachOutline,
      map_fillOutline, RoseTree.depth_map, map_unplug, List.map_take, List.map_drop, mapSpine_nil,
      List.map_nil]

theorem map_addDataNodeOutline (ctx : Spine ℕ α) (m : RoseTree ℕ α) (xs : List α) :
    (addDataNodeOutline back ctx m xs).map id g =
      addDataNodeOutline back (mapSpine g ctx) (m.map id g) (xs.map g) := by
  cases m with
  | leaf x => simp [addDataNodeOutline, map_addLeavesOutline, map_plug]
  | node u ms =>
    simp only [addDataNodeOutline, RoseTree.map_node, List.length_map]
    split_ifs
    · rw [map_addLeavesOutline, map_plug, map_fillOutline, List.map_take, List.map_drop]
    · rw [map_addLeavesOutline, map_plug, RoseTree.map_node]

/-- Where leaves are added does not depend on what is at them. -/
theorem map_addDataOutline (t : RoseTree ℕ α) (xs : List α) :
    (addDataOutline back t xs).map id g = addDataOutline back (t.map id g) (xs.map g) := by
  cases xs with
  | nil => rfl
  | cons x xs =>
    rw [addDataOutline, map_addDataNodeOutline, List.map_cons, addDataOutline, RoseTree.depth_map,
      map_unplug]

end Map

/-! ### Shapes -/

mutual
/-- The first `n` bytes of a tree with lengths at its leaves: the last node of each level is cut. -/
def cropOutline : RoseTree ℕ ℕ → ℕ → RoseTree ℕ ℕ
  | .leaf l, n => .leaf (min n l)
  | .node b ts, n => .node b (cropEdges ts n)
/-- The first `n` bytes of a list of trees. -/
def cropEdges : List (RoseTree ℕ ℕ) → ℕ → List (RoseTree ℕ ℕ)
  | [], _ => []
  | t :: ts, n =>
    if t.leaves.sum ≤ n then t :: cropEdges ts (n - t.leaves.sum)
    else if n = 0 then [] else [cropOutline t n]
end

/-- The edges before the cut stay as they are. -/
theorem cropEdges_append_of_le {as cs : List (RoseTree ℕ ℕ)} {n : ℕ}
    (hle : (as.map fun t ↦ t.leaves.sum).sum ≤ n) :
    cropEdges (as ++ cs) n = as ++ cropEdges cs (n - (as.map fun t ↦ t.leaves.sum).sum) := by
  induction as generalizing n with
  | nil => rfl
  | cons a as ih =>
    simp only [List.map_cons, List.sum_cons] at hle ⊢
    rw [List.cons_append, cropEdges, if_pos (by omega), ih (by omega), Nat.sub_sub,
      List.cons_append]

/-- Nothing is left of the edges behind the cut. -/
theorem cropEdges_zero {cs : List (RoseTree ℕ ℕ)} (hcs : ∀ t ∈ cs, 0 < t.leaves.sum) :
    cropEdges cs 0 = [] := by
  cases cs with
  | nil => rfl
  | cons t cs =>
    have := hcs t List.mem_cons_self
    rw [cropEdges, if_neg (by omega), if_pos rfl]

theorem cropOutline_all (t : RoseTree ℕ ℕ) : cropOutline t t.leaves.sum = t := by
  cases t with
  | leaf l => simp [cropOutline]
  | node b ts =>
    have hsum : (ts.map fun t ↦ t.leaves.sum).sum = (RoseTree.node b ts).leaves.sum := by
      rw [RoseTree.leaves_node, List.flatMap_def, List.sum_flatten, List.map_map]
      rfl
    have hall := @cropEdges_append_of_le _ [] _ hsum.le
    rw [List.append_nil, cropEdges, List.append_nil] at hall
    rw [cropOutline, hall]

/-- The edges before a cut in front of or inside an edge, and the part of that edge. -/
theorem cropEdges_append {as cs : List (RoseTree ℕ ℕ)} {b : RoseTree ℕ ℕ} {n : ℕ}
    (hle : (as.map fun t ↦ t.leaves.sum).sum ≤ n)
    (hlt : n - (as.map fun t ↦ t.leaves.sum).sum < b.leaves.sum) :
    cropEdges (as ++ b :: cs) n = as ++
      if n - (as.map fun t ↦ t.leaves.sum).sum = 0 then []
      else [cropOutline b (n - (as.map fun t ↦ t.leaves.sum).sum)] := by
  rw [cropEdges_append_of_le hle, cropEdges, if_neg hlt.not_ge]

/-- The edges before a cut inside or behind an edge, and the part of that edge. -/
theorem cropEdges_append_last {as cs : List (RoseTree ℕ ℕ)} {b : RoseTree ℕ ℕ} {n : ℕ}
    (hlt : (as.map fun t ↦ t.leaves.sum).sum < n)
    (hle : n - (as.map fun t ↦ t.leaves.sum).sum ≤ b.leaves.sum)
    (hcs : ∀ t ∈ cs, 0 < t.leaves.sum) :
    cropEdges (as ++ b :: cs) n =
      as ++ [cropOutline b (n - (as.map fun t ↦ t.leaves.sum).sum)] := by
  rcases hle.eq_or_lt with heq | hlt'
  · rw [cropEdges_append_of_le hlt.le, cropEdges, if_pos heq.ge, heq, Nat.sub_self,
      cropEdges_zero hcs, cropOutline_all]
  · rw [cropEdges_append hlt.le hlt', if_neg (by omega)]

mutual
/-- A tree without the nodes above the first edge that has the first `n` bytes. -/
def foldFront : RoseTree ℕ ℕ → ℕ → RoseTree ℕ ℕ
  | .leaf l, _ => .leaf l
  | .node b ts, n => foldEdges b ts n
/-- A node without those above the first edge that has the first `n` bytes. -/
def foldEdges (b : ℕ) : List (RoseTree ℕ ℕ) → ℕ → RoseTree ℕ ℕ
  | [], _ => .node b []
  | t :: ts, n => if n ≤ t.leaves.sum then foldFront t n else .node b (t :: ts)
end

/-- The first `n` bytes of a tree that becomes as low as it can be. -/
def truncateOutline (t : RoseTree ℕ ℕ) (n : ℕ) : RoseTree ℕ ℕ := cropOutline (foldFront t n) n

/-- What a node looks like without its address: the sum of its lengths, its height and its
window. -/
structure NodeShape where
  length : ℕ
  height : ℕ
  begin : ℕ

/-- A tree without the addresses of its nodes and the bytes of its data edges. -/
def Rep.shape (t : Rep) : RoseTree NodeShape ℕ :=
  t.map (fun hd ↦ ⟨hd.length, hd.height, hd.begin⟩) Edge.length

/-- The length of a shape. -/
def shapeLength : RoseTree NodeShape ℕ → ℕ
  | .leaf n => n
  | .node s _ => s.length

/-- The number of levels of a shape. -/
def shapeLevel : RoseTree NodeShape ℕ → ℕ
  | .leaf _ => 0
  | .node s _ => s.height + 1

/-- The shape with the given windows and lengths of data edges. -/
def measure : RoseTree ℕ ℕ → RoseTree NodeShape ℕ :=
  RoseTree.annotate fun begin es ↦
    ⟨(es.map shapeLength).sum, (es.head?.map shapeLevel).getD 0, begin⟩

/-- The windows of a shape and the lengths of its data edges. -/
def windows (t : RoseTree NodeShape ℕ) : RoseTree ℕ ℕ := t.map NodeShape.begin id

/-- The shape of the concatenation of two trees. -/
def mergeTreesShape (l r : RoseTree NodeShape ℕ) : RoseTree NodeShape ℕ :=
  measure (mergeTreesOutline (windows l) (windows r))

/-- The shape of a tree with another one behind it. -/
def appendShape (t s : RoseTree NodeShape ℕ) : RoseTree NodeShape ℕ :=
  measure (appendOutline (windows t) (windows s))

/-- The shape of a tree with another one in front of it. -/
def prependShape (t s : RoseTree NodeShape ℕ) : RoseTree NodeShape ℕ :=
  measure (prependOutline (windows t) (windows s))

/-- The shape of the first `n` bytes of a tree. -/
def truncateShape (t : RoseTree NodeShape ℕ) (n : ℕ) : RoseTree NodeShape ℕ :=
  measure (truncateOutline (windows t) n)

/-- The shape of a tree after data edges of the given lengths were added at one end. -/
def addDataShape (back : Bool) (t : RoseTree NodeShape ℕ) (lengths : List ℕ) :
    RoseTree NodeShape ℕ :=
  measure (addDataOutline back (windows t) lengths)

theorem Rep.sum_leaves_windows (t : Rep) :
    (t.outline.map id Edge.length).leaves.sum = edgesLength t.leaves := by
  rw [RoseTree.leaves_map, Rep.leaves_outline]
  rfl

theorem Rep.windows_shape (t : Rep) : windows t.shape = t.outline.map id Edge.length := by
  rw [windows, shape, outline, RoseTree.map_map, RoseTree.map_map]
  rfl

theorem Rep.windows_shape_leaf (e : Edge) : windows (Rep.shape (.leaf e)) = .leaf e.length := by
  rw [Rep.windows_shape, Rep.outline_leaf, RoseTree.map_leaf]

theorem Rep.windows_shape_node (hd : BtreeHeader) (es : List Rep) :
    windows (Rep.shape (.node hd es)) = .node hd.begin (es.map fun t ↦ windows t.shape) := by
  rw [Rep.windows_shape, Rep.outline_node, RoseTree.map_node, List.map_map]
  exact congrArg _ (List.map_congr_left fun t _ ↦ t.windows_shape.symm)

/-- A node without room is passed. -/
theorem attachOutline_full {c : Crumb} (hfull : ¬ c.rest.length + 1 < maxCapacity) (d : Addr)
    (len k : ℕ) (cs ns : List Crumb) (cur : Rep) (x : RoseTree ℕ Edge) :
    attachOutline back (spineOutline (c :: cs)) cur.outline (spineOutline ns) x =
      attachOutline back (spineOutline cs) (Rep.outline (.node c.hd (join back c.rest [cur])))
        (spineOutline (ns ++ [Crumb.single d len k])) x := by
  rw [spineOutline_cons, attachOutline, attach, List.length_map, if_neg hfull]
  simp [attachOutline]

section Target

variable [Target] {k : ℕ}

theorem Rep.Valid.depth_outline {t : Rep} (ht : t.Valid k) : t.outline.depth = k :=
  ht.leveled.depth_eq

omit [Target] in
theorem Rep.shapeLength_shape (t : Rep) : shapeLength t.shape = t.length := by
  cases t <;> simp [shape, shapeLength]

theorem Rep.Valid.shapeLevel_shape {t : Rep} (ht : t.Valid k) : shapeLevel t.shape = k := by
  cases t with
  | leaf e => simpa [shape, shapeLevel] using (Rep.Valid.leaf_iff.mp ht).1.symm
  | node hd ts => simpa [shape, shapeLevel] using (Rep.Valid.node_iff.mp ht).1.symm

/-- The shape of a valid tree is computed from its windows and its data edges. -/
theorem Rep.Valid.shape_eq {t : Rep} (ht : t.Valid k) :
    t.shape = measure (t.outline.map id Edge.length) := by
  induction t using RoseTree.induction generalizing k with
  | hleaf e => simp [shape, measure]
  | hnode hd ts ih =>
    obtain ⟨rfl, hne, -, hsum, hts⟩ := Rep.Valid.node_iff.mp ht
    have hmap : ((ts.map Rep.outline).map (RoseTree.map id Edge.length)).map measure =
        ts.map Rep.shape := by
      rw [List.map_map, List.map_map]
      exact List.map_congr_left fun t ht ↦ (ih t ht (hts t ht)).symm
    have hlength : ((ts.map Rep.shape).map shapeLength).sum = hd.length := by
      rw [List.map_map, hsum]
      exact congrArg _ (List.map_congr_left fun t _ ↦ t.shapeLength_shape)
    have hheight : ((ts.map Rep.shape).head?.map shapeLevel).getD 0 = hd.height := by
      obtain ⟨t, ts, rfl⟩ := List.exists_cons_of_ne_nil hne
      simpa using (hts t List.mem_cons_self).shapeLevel_shape
    rw [Rep.outline_node, RoseTree.map_node, measure, RoseTree.annotate_node, ← measure, hmap,
      hlength, hheight, shape, RoseTree.map_node]
    rfl

theorem Rep.Valid.sum_windows {t : Rep} (ht : t.Valid k) :
    (windows t.shape).leaves.sum = t.length := by
  rw [Rep.windows_shape, Rep.sum_leaves_windows, ht.length_leaves]

/-- The shape of a valid tree is computed from its windows. -/
theorem Rep.Valid.measure_windows {t : Rep} (ht : t.Valid k) : measure (windows t.shape) = t.shape := by
  rw [Rep.windows_shape, ← ht.shape_eq]

theorem sum_map_windows {as : List Rep} (has : ∀ t ∈ as, t.Valid k) :
    ((as.map fun t ↦ windows t.shape).map fun t ↦ t.leaves.sum).sum =
      (as.map Rep.length).sum := by
  rw [List.map_map]
  exact congrArg _ (List.map_congr_left fun t ht ↦ (has t ht).sum_windows)

/-- The windows of a node that is cut in or before the edge `b`. -/
theorem cropOutline_node {hd : BtreeHeader} {as cs : List Rep} {b : Rep} {n : ℕ}
    (hes : ∀ t ∈ as ++ b :: cs, t.Valid k) (hle : (as.map Rep.length).sum ≤ n)
    (hlt : n - (as.map Rep.length).sum < b.length) :
    cropOutline (windows (Rep.shape (.node hd (as ++ b :: cs)))) n =
      .node hd.begin ((as.map fun t ↦ windows t.shape) ++
        if n - (as.map Rep.length).sum = 0 then []
        else [cropOutline (windows b.shape) (n - (as.map Rep.length).sum)]) := by
  have hsum := @sum_map_windows _ _ as fun t ht ↦ hes t (by simp [ht])
  have hb := (hes b (by simp)).sum_windows
  rw [Rep.windows_shape_node, cropOutline, List.map_append, List.map_cons,
    cropEdges_append (hsum ▸ hle) (by rwa [hsum, hb]), hsum]

/-- The windows of a node that is cut in or behind the edge `b`. -/
theorem cropOutline_node_last {hd : BtreeHeader} {as cs : List Rep} {b : Rep} {n : ℕ}
    (hes : ∀ t ∈ as ++ b :: cs, t.Valid k) (hlt : (as.map Rep.length).sum < n)
    (hle : n - (as.map Rep.length).sum ≤ b.length) :
    cropOutline (windows (Rep.shape (.node hd (as ++ b :: cs)))) n =
      .node hd.begin ((as.map fun t ↦ windows t.shape) ++
        [cropOutline (windows b.shape) (n - (as.map Rep.length).sum)]) := by
  have hsum := @sum_map_windows _ _ as fun t ht ↦ hes t (by simp [ht])
  have hb := (hes b (by simp)).sum_windows
  have hcs : ∀ t ∈ cs.map fun t ↦ windows t.shape, 0 < t.leaves.sum := by
    intro t ht
    obtain ⟨c, hc, rfl⟩ := List.mem_map.mp ht
    have hcv := hes c (by simp [hc])
    exact hcv.length_pos.trans_eq hcv.sum_windows.symm
  rw [Rep.windows_shape_node, cropOutline, List.map_append, List.map_cons,
    cropEdges_append_last (hsum ▸ hlt) (by rwa [hsum, hb]) hcs, hsum]

/-- A node with room takes the other tree, and nothing above it changes. -/
theorem attachOutline_room {c : Crumb} {cs : List Crumb} (hroom : c.rest.length + 1 < maxCapacity)
    (a : Addr) (delta : ℕ) {ds ns : List Crumb} {cur f : Rep}
    (hds : ds.map Crumb.window = cs.map Crumb.window)
    (hv : (plug back (ns ++ c.extend back a cur delta :: ds) f).Valid k) (hk : k ≤ maxDepth) :
    (plug back (ns ++ c.extend back a cur delta :: ds) f).outline =
      attachOutline back (spineOutline (c :: cs)) cur.outline (spineOutline ns) f.outline := by
  have hplug : (plug back (ns ++ c.extend back a cur delta :: ds) f).outline =
      LevelTree.plug back (attach maxCapacity windowLabels back (spineOutline (c :: cs)) cur.outline
        (spineOutline ns)) f.outline := by
    rw [outline_plug, spineOutline_append, spineOutline_cons, spineOutline_congr hds,
      spineOutline_cons, attach, List.length_map, if_pos hroom]
    simp [Crumb.extend]
  rw [attachOutline, ← hplug, settleOutline, hv.depth_outline, if_neg hk.not_gt]

end Target

end CordRs
