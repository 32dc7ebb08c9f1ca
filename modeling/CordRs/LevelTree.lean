import CordRs.RoseTree
import Mathlib.Algebra.Order.BigOperators.Group.List
import Mathlib.Algebra.Order.Ring.Nat
import Mathlib.Data.List.Induction
import Mathlib.Data.Multiset.AddSub

/-!
# Trees with all leaves at one level

Trees whose leaves all have the same depth and whose nodes have between one and `M` edges, grown
at one end. Nodes carry labels: one for a node that is made, and one by the number of its edges for
a node that got another edge. A tree is handled as a spine, the siblings along its first or last edges, with a
focus at the end of the spine. `attach` adds a tree next to the focus of a spine: it goes up past
full nodes and becomes the outermost edge of the first node with room, or of a new root.

Everything is stated for both ends at once; `join back xs ys` puts `ys` behind `xs`, or in front
of it.

## Main definitions

* `LevelTree.join`, `LevelTree.outward`, `LevelTree.Leveled`, `LevelTree.plug`, `LevelTree.unplug`, `LevelTree.attach`.
* `LevelTree.build`, `LevelTree.ofLeaves`: add leaves one by one at the back.
* `LevelTree.Complete`, `LevelTree.Dense`, `LevelTree.RightDense`.

## Main results

* `LevelTree.leaves_attach`, `LevelTree.SpineLeveled.attach`: attaching keeps leaves and levels.
* `LevelTree.leaves_build`, `LevelTree.length_build_le`: building keeps the leaves and makes a tree
  no higher than needed.
* `LevelTree.rightDense_ofLeaves`: the tree built is full but for its last edges.
* `LevelTree.mapSpine_attach`, `LevelTree.map_ofLeaves`: attaching and building do not look at the
  leaves.
-/

namespace LevelTree

/-! ### Joining at either end -/

section Join

variable {α β : Type*} {back : Bool}

/-- Put `ys` behind `xs`, or in front of it. -/
def join (back : Bool) (xs ys : List α) : List α := if back then xs ++ ys else ys ++ xs

@[simp] theorem join_nil (xs : List α) : join back xs [] = xs := by cases back <;> simp [join]

@[simp] theorem nil_join (xs : List α) : join back [] xs = xs := by cases back <;> simp [join]

theorem join_assoc (xs ys zs : List α) :
    join back (join back xs ys) zs = join back xs (join back ys zs) := by
  cases back <;> simp [join]

@[simp] theorem length_join (xs ys : List α) : (join back xs ys).length = xs.length + ys.length := by
  cases back <;> simp [join, Nat.add_comm]

@[simp] theorem mem_join {xs ys : List α} {x : α} : x ∈ join back xs ys ↔ x ∈ xs ∨ x ∈ ys := by
  cases back <;> simp [join, or_comm]

@[simp] theorem map_join (f : α → β) (xs ys : List α) :
    (join back xs ys).map f = join back (xs.map f) (ys.map f) := by
  cases back <;> simp [join]

@[simp] theorem flatMap_join (f : α → List β) (xs ys : List α) :
    (join back xs ys).flatMap f = join back (xs.flatMap f) (ys.flatMap f) := by
  cases back <;> simp [join]

@[simp] theorem flatten_join (xs ys : List (List α)) :
    (join back xs ys).flatten = join back xs.flatten ys.flatten := by
  cases back <;> simp [join]

@[simp] theorem sum_join (xs ys : List ℕ) : (join back xs ys).sum = xs.sum + ys.sum := by
  cases back <;> simp [join, Nat.add_comm]

@[simp] theorem coe_join (xs ys : List α) :
    ((join back xs ys : List α) : Multiset α) = (xs : Multiset α) + ys := by
  cases back with
  | true => rfl
  | false => exact (Multiset.coe_add ys xs).symm.trans (Multiset.add_comm _ _)

theorem join_inj {xs ys : List α} {x y : α} (h : join back xs [x] = join back ys [y]) :
    xs = ys ∧ x = y := by
  cases back with
  | true => simpa [join] using h
  | false => simpa [join, and_comm] using h

/-- A list that is not empty has an outermost entry. -/
theorem exists_join (back : Bool) {xs : List α} (h : xs ≠ []) : ∃ ys y, xs = join back ys [y] := by
  cases back with
  | true => exact ⟨xs.dropLast, xs.getLast h, (List.dropLast_append_getLast h).symm⟩
  | false => exact ⟨xs.tail, xs.head h, (List.cons_head_tail h).symm⟩

/-- The outermost entry of a list, with the others. -/
def unjoin (back : Bool) (xs : List α) : Option (List α × α) :=
  if back then xs.getLast?.map fun x ↦ (xs.dropLast, x) else xs.head?.map fun x ↦ (xs.tail, x)

@[simp] theorem unjoin_join (xs : List α) (x : α) : unjoin back (join back xs [x]) = some (xs, x) := by
  cases back <;> simp [unjoin, join]

theorem unjoin_eq_some {xs ys : List α} {x : α} (h : unjoin back xs = some (ys, x)) :
    xs = join back ys [x] := by
  have hne : xs ≠ [] := by
    rintro rfl
    cases back <;> simp [unjoin] at h
  obtain ⟨zs, z, rfl⟩ := exists_join back hne
  rw [unjoin_join] at h
  cases h
  rfl

@[simp] theorem unjoin_eq_none {xs : List α} : unjoin back xs = none ↔ xs = [] := by
  cases back <;> simp [unjoin]

/-- A list in the order in which it stands when its entries are added one by one at one end. -/
def outward (back : Bool) (xs : List α) : List α := if back then xs else xs.reverse

@[simp] theorem outward_nil : outward back ([] : List α) = [] := by cases back <;> rfl

@[simp] theorem length_outward (xs : List α) : (outward back xs).length = xs.length := by
  cases back <;> simp [outward]

@[simp] theorem mem_outward {xs : List α} {x : α} : x ∈ outward back xs ↔ x ∈ xs := by
  cases back <;> simp [outward]

@[simp] theorem map_outward (f : α → β) (xs : List α) :
    (outward back xs).map f = outward back (xs.map f) := by
  cases back <;> simp [outward]

@[simp] theorem sum_outward (xs : List ℕ) : (outward back xs).sum = xs.sum := by
  cases back <;> simp [outward]

theorem outward_append (xs ys : List α) :
    outward back (xs ++ ys) = join back (outward back xs) (outward back ys) := by
  cases back <;> simp [outward, join]

theorem outward_cons (x : α) (xs : List α) :
    outward back (x :: xs) = join back [x] (outward back xs) := by
  cases back <;> simp [outward, join]

@[simp] theorem coe_outward (xs : List α) :
    ((outward back xs : List α) : Multiset α) = (xs : Multiset α) := by
  cases back <;> simp [outward]

end Join

/-! ### Levels -/

/-- The labels and the siblings along the outermost edges of a tree, from the bottom. -/
abbrev Spine (ν α : Type) := List (ν × List (RoseTree ν α))

/-- The labels of nodes: of a new one, and of one that has a number of edges after another was added
at an end. -/
structure Labels (ν : Type) where
  fresh : ν
  grown : Bool → ℕ → ν

section Levels

variable {ν α : Type} {L : Labels ν} {back : Bool} {M j k : ℕ} {t x : RoseTree ν α}
  {ctx pc : Spine ν α}

/-- All leaves are `k` edges below the root and nodes have between one and `M` edges. -/
def Leveled (M : ℕ) : ℕ → RoseTree ν α → Prop
  | 0, .leaf _ => True
  | k + 1, .node _ ts => ts ≠ [] ∧ ts.length ≤ M ∧ ∀ t ∈ ts, Leveled M k t
  | _, _ => False

@[simp] theorem leveled_leaf {e : α} : Leveled M k (.leaf e : RoseTree ν α) ↔ k = 0 := by
  cases k <;> simp [Leveled]

@[simp] theorem leveled_node {u : ν} {ts : List (RoseTree ν α)} : Leveled M k (.node u ts) ↔
    ∃ j, k = j + 1 ∧ ts ≠ [] ∧ ts.length ≤ M ∧ ∀ t ∈ ts, Leveled M j t := by
  cases k <;> simp [Leveled]

theorem Leveled.depth_eq (ht : Leveled M k t) : t.depth = k := by
  induction k generalizing t with
  | zero =>
    cases t with
    | leaf e => simp
    | node u ts => simp at ht
  | succ k ih =>
    cases t with
    | leaf e => simp at ht
    | node u ts =>
      obtain ⟨j, hj, hne, -, hts⟩ := leveled_node.mp ht
      obtain rfl : k = j := Nat.succ_injective hj
      obtain ⟨s, ss, rfl⟩ := List.exists_cons_of_ne_nil hne
      rw [RoseTree.depth_node_cons, ih (hts s List.mem_cons_self)]

/-- A tree of level `k` has at most `M ^ k` leaves. -/
theorem Leveled.length_leaves_le (ht : Leveled M k t) : t.leaves.length ≤ M ^ k := by
  induction k generalizing t with
  | zero =>
    cases t with
    | leaf e => simp
    | node u ts => simp at ht
  | succ k ih =>
    cases t with
    | leaf e => simp at ht
    | node u ts =>
      obtain ⟨j, hj, -, hlen, hts⟩ := leveled_node.mp ht
      obtain rfl : k = j := Nat.succ_injective hj
      rw [RoseTree.leaves_node, List.length_flatMap, pow_succ, mul_comm]
      calc (ts.map fun t ↦ t.leaves.length).sum
          ≤ (ts.map fun t ↦ t.leaves.length).length • M ^ k :=
            List.sum_le_card_nsmul _ _ (by simpa using fun t ht ↦ ih (hts t ht))
        _ ≤ M * M ^ k := by simpa using Nat.mul_le_mul_right _ hlen

/-- The tree with a spine and a focus. -/
def plug (back : Bool) : Spine ν α → RoseTree ν α → RoseTree ν α
  | [], t => t
  | (u, ts) :: ctx, t => plug back ctx (.node u (join back ts [t]))

theorem plug_append (ctx pc : Spine ν α) (t : RoseTree ν α) :
    plug back (pc ++ ctx) t = plug back ctx (plug back pc t) := by
  induction pc generalizing t with
  | nil => rfl
  | cons ts pc ih => exact ih _

/-- The leaves beside a spine. -/
def sideLeaves (back : Bool) : Spine ν α → List α
  | [] => []
  | (_, ts) :: ctx => join back (sideLeaves back ctx) (ts.flatMap RoseTree.leaves)

theorem leaves_plug (ctx : Spine ν α) (t : RoseTree ν α) :
    (plug back ctx t).leaves = join back (sideLeaves back ctx) t.leaves := by
  induction ctx generalizing t with
  | nil => simp [plug, sideLeaves]
  | cons ts ctx ih => simp [plug, sideLeaves, ih, join_assoc]

/-- A spine above a focus of level `k`. -/
def SpineLeveled (M : ℕ) : ℕ → Spine ν α → Prop
  | _, [] => True
  | k, (_, ts) :: ctx => ts.length + 1 ≤ M ∧ (∀ t ∈ ts, Leveled M k t) ∧ SpineLeveled M (k + 1) ctx

theorem leveled_plug : Leveled M (k + ctx.length) (plug back ctx t) ↔
    Leveled M k t ∧ SpineLeveled M k ctx := by
  induction ctx generalizing k t with
  | nil => simp [plug, SpineLeveled]
  | cons ts ctx ih =>
    rw [plug, List.length_cons, show k + (ctx.length + 1) = k + 1 + ctx.length by omega, ih,
      leveled_node, SpineLeveled]
    constructor
    · rintro ⟨⟨j, hj, -, hlen, hts⟩, hctx⟩
      obtain rfl : k = j := Nat.succ_injective hj
      simp only [length_join, List.length_singleton] at hlen
      exact ⟨hts t (by simp), hlen, fun s hs ↦ hts s (by simp [hs]), hctx⟩
    · rintro ⟨ht, hlen, hts, hctx⟩
      refine ⟨⟨k, rfl, fun hnil ↦ ?_, by simpa using hlen, ?_⟩, hctx⟩
      · simpa using congrArg List.length hnil
      · intro s hs
        rcases mem_join.mp hs with hs | hs
        · exact hts s hs
        · rwa [List.mem_singleton.mp hs]

theorem spineLeveled_append : SpineLeveled M j (pc ++ ctx) ↔
    SpineLeveled M j pc ∧ SpineLeveled M (j + pc.length) ctx := by
  induction pc generalizing j with
  | nil => simp [SpineLeveled]
  | cons ts pc ih =>
    rw [List.cons_append, SpineLeveled, ih, SpineLeveled, List.length_cons,
      show j + 1 + pc.length = j + (pc.length + 1) by omega]
    tauto

/-- The spine and the focus `n` edges down a tree. -/
def unplug (back : Bool) : ℕ → RoseTree ν α → Spine ν α × RoseTree ν α
  | 0, t => ([], t)
  | _ + 1, .leaf e => ([], .leaf e)
  | n + 1, .node u ts =>
    match unjoin back ts with
    | none => ([], .node u ts)
    | some (rest, t) => ((unplug back n t).1 ++ [(u, rest)], (unplug back n t).2)

@[simp] theorem unplug_plug (ctx : Spine ν α) (t : RoseTree ν α) :
    unplug back ctx.length (plug back ctx t) = (ctx, t) := by
  induction ctx using List.reverseRecOn generalizing t with
  | nil => rfl
  | append_singleton ctx c ih =>
    obtain ⟨u, ts⟩ := c
    rw [plug_append, List.length_append, List.length_singleton]
    simp only [plug, unplug, unjoin_join, ih]

theorem plug_unplug (n : ℕ) (t : RoseTree ν α) :
    plug back (unplug back n t).1 (unplug back n t).2 = t := by
  induction n generalizing t with
  | zero => rfl
  | succ n ih =>
    cases t with
    | leaf e => rfl
    | node u ts =>
      cases hts : unjoin back ts with
      | none => simp [unplug, hts, plug]
      | some p =>
        obtain ⟨rest, t⟩ := p
        simp [unplug, plug_append, plug, ih, unjoin_eq_some hts]

theorem Leveled.length_unplug (back : Bool) {n : ℕ} (ht : Leveled M (k + n) t) :
    (unplug back n t).1.length = n := by
  induction n generalizing t with
  | zero => rfl
  | succ n ih =>
    cases t with
    | leaf e => simp at ht
    | node u ts =>
      obtain ⟨j, hj, hne, -, hts⟩ := leveled_node.mp ht
      obtain rfl : k + n = j := by omega
      obtain ⟨rest, t, rfl⟩ := exists_join back hne
      simp [unplug, ih (hts t (by simp))]

/-- The spine above a node of a leveled tree, and the node. -/
theorem Leveled.unplug (back : Bool) {n : ℕ} (ht : Leveled M (k + n) t) :
    Leveled M k (unplug back n t).2 ∧ SpineLeveled M k (unplug back n t).1 := by
  rw [← leveled_plug, plug_unplug, ht.length_unplug back]
  exact ht

/-! ### Attaching -/

/-- The spine after a tree with spine `pc` was added next to `t`, the focus of the spine `ctx`. -/
def attach (M : ℕ) (L : Labels ν) (back : Bool) :
    Spine ν α → RoseTree ν α → Spine ν α → Spine ν α
  | [], t, pc => pc ++ [(L.fresh, [t])]
  | (u, ts) :: ctx, t, pc =>
    if ts.length + 1 < M then
      pc ++ (L.grown back (ts.length + 2), join back ts [t]) :: ctx
    else
      attach M L back ctx (.node u (join back ts [t])) (pc ++ [(L.fresh, [])])

/-- The new tree is attached as a whole. -/
theorem attach_append (ctx : Spine ν α) (t : RoseTree ν α) (pc ps : Spine ν α) :
    attach M L back ctx t (pc ++ ps) = pc ++ attach M L back ctx t ps := by
  induction ctx generalizing t ps with
  | nil => simp [attach]
  | cons ts ctx ih =>
    rw [attach, attach]
    split_ifs
    · rw [List.append_assoc]
    · rw [List.append_assoc, ih]

/-- Attaching puts the leaves of the new tree at the end. -/
theorem leaves_attach (ctx : Spine ν α) (t : RoseTree ν α) (pc : Spine ν α) (x : RoseTree ν α) :
    (plug back (attach M L back ctx t pc) x).leaves =
      join back (plug back ctx t).leaves (plug back pc x).leaves := by
  induction ctx generalizing t pc with
  | nil => simp [attach, plug_append, plug]
  | cons ts ctx ih =>
    rw [attach]
    split_ifs with hlt
    · simp [plug_append, plug, leaves_plug, join_assoc]
    · rw [ih]
      simp [plug_append, plug]

/-- Attaching a tree of the level of the focus keeps the spine leveled. -/
theorem SpineLeveled.attach (hM : 2 ≤ M) (hctx : SpineLeveled M k ctx) (ht : Leveled M k t)
    (hpc : SpineLeveled M j pc) (hk : j + pc.length = k) :
    SpineLeveled M j (attach M L back ctx t pc) := by
  induction ctx generalizing k t pc with
  | nil => simpa [LevelTree.attach, spineLeveled_append, hk, SpineLeveled, hpc, ht] using hM
  | cons ts ctx ih =>
    obtain ⟨hlen, hts, hrest⟩ := hctx
    rw [LevelTree.attach]
    split_ifs with hlt
    · refine spineLeveled_append.mpr ⟨hpc, ?_, ?_, hk ▸ hrest⟩
      · simpa using Nat.succ_le_of_lt hlt
      · intro s hs
        rcases mem_join.mp hs with hs | hs
        · exact hk ▸ hts s hs
        · exact hk ▸ List.mem_singleton.mp hs ▸ ht
    · refine ih hrest ?_ (spineLeveled_append.mpr ⟨hpc, ?_, ?_, trivial⟩) (by simp; omega)
      · refine leveled_node.mpr ⟨k, rfl, fun hnil ↦ ?_, by simpa using hlen, ?_⟩
        · simpa using congrArg List.length hnil
        · intro s hs
          rcases mem_join.mp hs with hs | hs
          · exact hts s hs
          · exact List.mem_singleton.mp hs ▸ ht
      · simpa using Nat.le_of_succ_le hM
      · exact fun s hs ↦ absurd hs List.not_mem_nil

/-- Attaching adds at most one level. -/
theorem length_attach (ctx : Spine ν α) (t : RoseTree ν α) (pc : Spine ν α) :
    pc.length + ctx.length ≤ (attach M L back ctx t pc).length ∧
      (attach M L back ctx t pc).length ≤ pc.length + ctx.length + 1 := by
  induction ctx generalizing t pc with
  | nil => simp [attach]
  | cons ts ctx ih =>
    rw [attach]
    split_ifs with hlt
    · simp
    · have := ih (.node ts.1 (join back ts.2 [t])) (pc ++ [(L.fresh, [])])
      simp only [List.length_append, List.length_cons, List.length_nil] at this ⊢
      omega

end Levels

/-! ### Building from leaves -/

section Build

variable {ν α : Type} {L : Labels ν} {M j k : ℕ} {t x : RoseTree ν α} {ctx pc : Spine ν α}

/-- Add leaves one by one at the back. -/
def pushAll (M : ℕ) (L : Labels ν) : Spine ν α → RoseTree ν α → List α → Spine ν α × RoseTree ν α
  | ctx, t, [] => (ctx, t)
  | ctx, t, e :: es => pushAll M L (attach M L true ctx t []) (.leaf e) es

/-- The spine and focus of the tree made by adding the leaves `e :: es` to an empty node. -/
def build (M : ℕ) (L : Labels ν) (e : α) (es : List α) : Spine ν α × RoseTree ν α :=
  pushAll M L [(L.grown true 1, [])] (.leaf e) es

/-- The tree made by adding leaves to an empty node. -/
def ofLeaves (M : ℕ) (L : Labels ν) : List α → RoseTree ν α
  | [] => .node (L.grown true 0) []
  | e :: es => plug true (build M L e es).1 (build M L e es).2

theorem build_append (e e' : α) (es : List α) : build M L e (es ++ [e']) =
    (attach M L true (build M L e es).1 (build M L e es).2 [], .leaf e') := by
  have hpush : ∀ (es : List α) (ctx t), pushAll M L ctx t (es ++ [e']) =
      (attach M L true (pushAll M L ctx t es).1 (pushAll M L ctx t es).2 [], .leaf e') := by
    intro es
    induction es with
    | nil => exact fun ctx t ↦ rfl
    | cons e es ih => exact fun ctx t ↦ ih _ _
  exact hpush es _ _

/-- All leaves are `k` edges below the root and nodes have exactly `M` edges. -/
def Complete (M : ℕ) : ℕ → RoseTree ν α → Prop
  | 0, .leaf _ => True
  | k + 1, .node _ ts => ts.length = M ∧ ∀ t ∈ ts, Complete M k t
  | _, _ => False

/-- The trees beside a spine above level `k` are complete. -/
def Dense (M : ℕ) : ℕ → Spine ν α → Prop
  | _, [] => True
  | k, (_, ts) :: ctx => ts.length < M ∧ (∀ t ∈ ts, Complete M k t) ∧ Dense M (k + 1) ctx

theorem Complete.length_leaves (ht : Complete M k t) : t.leaves.length = M ^ k := by
  induction k generalizing t with
  | zero =>
    cases t with
    | leaf e => simp
    | node u ts => simp [Complete] at ht
  | succ k ih =>
    cases t with
    | leaf e => simp [Complete] at ht
    | node u ts =>
      obtain ⟨hlen, hts⟩ := ht
      have hmap : ts.map (fun t ↦ t.leaves.length) = List.replicate ts.length (M ^ k) :=
        List.map_eq_replicate_iff.mpr fun t ht ↦ ih (hts t ht)
      rw [RoseTree.leaves_node, List.length_flatMap, hmap, List.sum_replicate_nat, hlen, pow_succ,
        mul_comm]

theorem dense_append : Dense M j (pc ++ ctx) ↔ Dense M j pc ∧ Dense M (j + pc.length) ctx := by
  induction pc generalizing j with
  | nil => simp [Dense]
  | cons ts pc ih =>
    rw [List.cons_append, Dense, ih, Dense, List.length_cons,
      show j + 1 + pc.length = j + (pc.length + 1) by omega]
    tauto

/-- Attaching next to a complete focus keeps the spine dense, and its root has another edge unless
the spine has a single node. -/
theorem Dense.attach (hM : 2 ≤ M) (hctx : Dense M k ctx) (ht : Complete M k t)
    (hpc : Dense M j pc) (hk : j + pc.length = k)
    (hroot : ∀ ts init, ctx = init ++ [ts] → ts.2 = [] → init = []) :
    Dense M j (attach M L true ctx t pc) ∧
      ∀ ts init, attach M L true ctx t pc = init ++ [ts] → ts.2 ≠ [] := by
  induction ctx generalizing k t pc with
  | nil =>
    refine ⟨dense_append.mpr ⟨hpc, ?_, ?_, trivial⟩, ?_⟩
    · simpa using Nat.lt_of_succ_le hM
    · intro s hs
      exact hk ▸ List.mem_singleton.mp hs ▸ ht
    · intro ts init heq
      obtain ⟨-, rfl⟩ := List.append_inj' heq rfl |>.imp_right List.singleton_inj.mp
      simp
  | cons ts ctx ih =>
    obtain ⟨hlen, hts, hrest⟩ := hctx
    rw [LevelTree.attach]
    split_ifs with hlt
    · refine ⟨dense_append.mpr ⟨hpc, by simpa using hlt, ?_, hk ▸ hrest⟩, ?_⟩
      · intro s hs
        rcases mem_join.mp hs with hs | hs
        · exact hk ▸ hts s hs
        · exact hk ▸ List.mem_singleton.mp hs ▸ ht
      · intro us init heq
        rcases List.eq_nil_or_concat ctx with rfl | ⟨ctx', vs, rfl⟩
        · obtain ⟨-, rfl⟩ := List.append_inj' heq rfl |>.imp_right List.singleton_inj.mp
          simp [join]
        · rw [List.concat_eq_append, ← List.cons_append, ← List.append_assoc] at heq
          obtain ⟨-, rfl⟩ := List.append_inj' heq rfl |>.imp_right List.singleton_inj.mp
          intro hus
          simpa using hroot vs (ts :: ctx') (by simp) hus
    · refine ih hrest ⟨by simp; omega, ?_⟩ (dense_append.mpr ⟨hpc, by simp; omega, ?_, trivial⟩)
        (by simp; omega) ?_
      · intro s hs
        rcases mem_join.mp hs with hs | hs
        · exact hts s hs
        · exact List.mem_singleton.mp hs ▸ ht
      · exact fun s hs ↦ absurd hs List.not_mem_nil
      · intro us init heq hus
        have := hroot us (ts :: init) (by rw [heq, List.cons_append]) hus
        simp at this

private theorem pushAll_spec (hM : 2 ≤ M) (hctx : Dense M 0 ctx) (ht : Complete M 0 t)
    (hroot : ∀ ts init, ctx = init ++ [ts] → ts.2 = [] → init = []) (hne : ctx ≠ []) (es : List α) :
    (plug true (pushAll M L ctx t es).1 (pushAll M L ctx t es).2).leaves =
        (plug true ctx t).leaves ++ es ∧
      Dense M 0 (pushAll M L ctx t es).1 ∧ Complete M 0 (pushAll M L ctx t es).2 ∧
      (pushAll M L ctx t es).1 ≠ [] ∧
      ∀ ts init, (pushAll M L ctx t es).1 = init ++ [ts] → ts.2 = [] → init = [] := by
  induction es generalizing ctx t with
  | nil => exact ⟨by simp [pushAll], hctx, ht, hne, hroot⟩
  | cons e es ih =>
    have hnil : Dense M 0 ([] : Spine ν α) := trivial
    obtain ⟨hdense, hroot'⟩ := hctx.attach hM ht hnil rfl hroot
    have hlen := (@length_attach ν α L true M ctx t []).1
    obtain ⟨h₁, h₂⟩ := ih hdense (t := .leaf e) trivial
      (fun ts init heq hts ↦ absurd hts (hroot' ts init heq)) fun hnil ↦ by
        rw [hnil] at hlen
        exact hne (List.eq_nil_of_length_eq_zero (by simpa using hlen))
    refine ⟨?_, h₂⟩
    rw [pushAll, h₁, leaves_attach]
    simp [join, plug]

private theorem build_spec (hM : 2 ≤ M) (e : α) (es : List α) :
    (plug true (build M L e es).1 (build M L e es).2).leaves = e :: es ∧
      Dense M 0 (build M L e es).1 ∧ Complete M 0 (build M L e es).2 ∧ (build M L e es).1 ≠ [] ∧
      ∀ ts init, (build M L e es).1 = init ++ [ts] → ts.2 = [] → init = [] := by
  have hdense : Dense M 0 ([(L.grown true 1, [])] : Spine ν α) :=
    ⟨by simp; omega, fun s hs ↦ absurd hs List.not_mem_nil, trivial⟩
  have hleaf : Complete M 0 (.leaf e : RoseTree ν α) := trivial
  obtain ⟨hleaves, hrest⟩ := pushAll_spec hM hdense hleaf
    (by simp [List.singleton_eq_append_iff]) (by simp) es
  refine ⟨?_, hrest⟩
  rw [build, hleaves]
  simp [plug, join]

/-- Building keeps the leaves in order. -/
theorem leaves_build (hM : 2 ≤ M) (e : α) (es : List α) :
    (plug true (build M L e es).1 (build M L e es).2).leaves = e :: es := (build_spec hM e es).1

theorem leaves_ofLeaves (hM : 2 ≤ M) (es : List α) : (ofLeaves M L es).leaves = es := by
  cases es with
  | nil => simp [ofLeaves]
  | cons e es => exact leaves_build hM e es

theorem build_ne_nil (hM : 2 ≤ M) (e : α) (es : List α) : (build M L e es).1 ≠ [] :=
  (build_spec hM e es).2.2.2.1

theorem Complete.leveled (hM : 2 ≤ M) (ht : Complete M k t) : Leveled M k t := by
  induction k generalizing t with
  | zero =>
    cases t with
    | leaf e => trivial
    | node u ts => simp [Complete] at ht
  | succ k ih =>
    cases t with
    | leaf e => simp [Complete] at ht
    | node u ts =>
      refine leveled_node.mpr ⟨k, rfl, ?_, ht.1.le, fun t hts ↦ ih (ht.2 t hts)⟩
      rintro rfl
      have : 0 = M := ht.1
      omega

theorem Dense.leveled (hM : 2 ≤ M) (hctx : Dense M k ctx) : SpineLeveled M k ctx := by
  induction ctx generalizing k with
  | nil => trivial
  | cons ts ctx ih =>
    exact ⟨hctx.1, fun t ht ↦ (hctx.2.1 t ht).leveled hM, ih hctx.2.2⟩

theorem leveled_build (hM : 2 ≤ M) (e : α) (es : List α) :
    Leveled M 0 (build M L e es).2 ∧ SpineLeveled M 0 (build M L e es).1 := by
  obtain ⟨-, hdense, hfocus, -⟩ := build_spec hM e es
  exact ⟨hfocus.leveled hM, hdense.leveled hM⟩

/-- A built tree has as few levels as its leaves need. -/
theorem length_build_le (hM : 2 ≤ M) (e : α) (es : List α) {n : ℕ} (hn : 0 < n)
    (hle : es.length + 1 ≤ M ^ n) : (build M L e es).1.length ≤ n := by
  obtain ⟨hleaves, hdense, hfocus, hne, hroot⟩ := build_spec hM e es
  rcases List.eq_nil_or_concat (build M L e es).1 with hnil | ⟨init, ts, heq⟩
  · exact absurd hnil hne
  rw [List.concat_eq_append] at heq
  rw [heq] at hdense hleaves ⊢
  obtain ⟨u, ts⟩ := ts
  by_cases hts : ts = []
  · rw [hroot (u, ts) init heq hts]
    simpa using Nat.succ_le_of_lt hn
  -- The root has a complete subtree beside the spine.
  obtain ⟨s, ss, rfl⟩ := List.exists_cons_of_ne_nil hts
  have hs := ((dense_append.mp hdense).2.2.1 s List.mem_cons_self).length_leaves
  rw [Nat.zero_add] at hs
  have hlt : M ^ init.length < M ^ n := by
    have hlen := congrArg List.length hleaves
    rw [plug_append, plug, plug, RoseTree.leaves_node, List.length_cons] at hlen
    simp only [flatMap_join, length_join, List.flatMap_cons, List.length_append, hs,
      List.flatMap_nil, List.append_nil, leaves_plug] at hlen
    have hone := hfocus.length_leaves
    rw [pow_zero] at hone
    omega
  simpa using Nat.succ_le_of_lt ((Nat.pow_lt_pow_iff_right (by omega)).mp hlt)

/-- All leaves are `k` edges below the root, and every node that is not on the last edges has exactly
`M` edges. -/
def RightDense (M : ℕ) : ℕ → RoseTree ν α → Prop
  | 0, .leaf _ => True
  | k + 1, .node _ ts =>
    ∃ rest t, ts = rest ++ [t] ∧ (∀ s ∈ rest, Complete M k s) ∧ RightDense M k t
  | _, _ => False

theorem Dense.rightDense (hctx : Dense M k ctx) (ht : RightDense M k t) :
    RightDense M (k + ctx.length) (plug true ctx t) := by
  induction ctx generalizing k t with
  | nil => exact ht
  | cons c ctx ih =>
    obtain ⟨-, hrest, hctx⟩ := hctx
    rw [List.length_cons, ← Nat.add_assoc, Nat.add_right_comm]
    exact ih hctx ⟨c.2, t, rfl, hrest, ht⟩

/-- A built tree is dense, and it has as few levels as its leaves need. -/
theorem rightDense_ofLeaves (hM : 2 ≤ M) {es : List α} (hes : es ≠ []) :
    RightDense M (ofLeaves M L es).depth (ofLeaves M L es) ∧
      ∀ m, 0 < m → es.length ≤ M ^ m → (ofLeaves M L es).depth ≤ m := by
  obtain ⟨e, es, rfl⟩ := List.exists_cons_of_ne_nil hes
  obtain ⟨-, hdense, hfocus, -⟩ := @build_spec _ _ L _ hM e es
  have hdepth : (ofLeaves M L (e :: es)).depth = (build M L e es).1.length := by
    rw [← Nat.zero_add (build M L e es).1.length]
    exact (leveled_plug.mpr (leveled_build hM e es)).depth_eq
  rw [hdepth]
  refine ⟨?_, fun m hm hle ↦ length_build_le hM e es hm hle⟩
  have hplug := @Dense.rightDense _ _ _ _ (build M L e es).2 _ hdense ?_
  · rwa [Nat.zero_add] at hplug
  · cases hf : (build M L e es).2 with
    | leaf e => trivial
    | node u ts => rw [hf] at hfocus; exact hfocus.elim

end Build

/-! ### Other leaves -/

section Map

variable {ν α β : Type} {L : Labels ν} {back : Bool} {M : ℕ} (g : α → β)

/-- A spine with other leaves. -/
def mapSpine (g : α → β) (ctx : Spine ν α) : Spine ν β :=
  ctx.map fun c ↦ (c.1, c.2.map (RoseTree.map id g))

@[simp] theorem mapSpine_nil : mapSpine g ([] : Spine ν α) = [] := rfl

@[simp] theorem mapSpine_cons (c : ν × List (RoseTree ν α)) (ctx : Spine ν α) :
    mapSpine g (c :: ctx) = (c.1, c.2.map (RoseTree.map id g)) :: mapSpine g ctx := rfl

@[simp] theorem mapSpine_append (ctx pc : Spine ν α) :
    mapSpine g (ctx ++ pc) = mapSpine g ctx ++ mapSpine g pc := List.map_append

theorem map_plug (ctx : Spine ν α) (t : RoseTree ν α) :
    (plug back ctx t).map id g = plug back (mapSpine g ctx) (t.map id g) := by
  induction ctx generalizing t with
  | nil => rfl
  | cons c ctx ih => simp [plug, ih]

/-- Attaching does not look at the leaves. -/
theorem mapSpine_attach (ctx : Spine ν α) (t : RoseTree ν α) (pc : Spine ν α) :
    mapSpine g (attach M L back ctx t pc) =
      attach M L back (mapSpine g ctx) (t.map id g) (mapSpine g pc) := by
  induction ctx generalizing t pc with
  | nil => simp [attach]
  | cons c ctx ih =>
    simp only [mapSpine_cons, attach, List.length_map]
    split_ifs
    · simp
    · simp [ih]

theorem map_unplug (n : ℕ) (t : RoseTree ν α) :
    unplug back n (t.map id g) = (mapSpine g (unplug back n t).1, (unplug back n t).2.map id g) := by
  induction n generalizing t with
  | zero => rfl
  | succ n ih =>
    cases t with
    | leaf e => simp [unplug]
    | node u ts =>
      by_cases hts : ts = []
      · subst hts
        cases back <;> simp [unplug, unjoin]
      · obtain ⟨rest, s, rfl⟩ := exists_join back hts
        simp [unplug, ih]

private theorem map_pushAll (ctx : Spine ν α) (t : RoseTree ν α) (es : List α) :
    pushAll M L (mapSpine g ctx) (t.map id g) (es.map g) =
      (mapSpine g (pushAll M L ctx t es).1, (pushAll M L ctx t es).2.map id g) := by
  induction es generalizing ctx t with
  | nil => rfl
  | cons e es ih =>
    rw [List.map_cons, pushAll, pushAll, ← ih, mapSpine_attach, RoseTree.map_leaf, mapSpine_nil]

/-- Building does not look at the leaves. -/
theorem map_ofLeaves (es : List α) :
    (ofLeaves M L es).map id g = ofLeaves M L (es.map g) := by
  cases es with
  | nil => simp [ofLeaves]
  | cons e es =>
    have hbuild := map_pushAll (M := M) (L := L) g [(L.grown true 1, [])] (.leaf e) es
    simp only [mapSpine_cons, mapSpine_nil, List.map_nil, RoseTree.map_leaf] at hbuild
    simp only [ofLeaves, List.map_cons, build, hbuild, map_plug]

theorem complete_map {μ : Type} (f : ν → μ) {k : ℕ} {t : RoseTree ν α} :
    Complete M k (t.map f g) ↔ Complete M k t := by
  induction t using RoseTree.induction generalizing k with
  | hleaf e => cases k <;> simp [Complete]
  | hnode u ts ih =>
    cases k with
    | zero => simp [Complete]
    | succ k =>
      rw [RoseTree.map_node, Complete, Complete, List.length_map, List.forall_mem_map]
      exact and_congr_right fun _ ↦ forall₂_congr fun t ht ↦ ih t ht

/-- Being dense does not depend on labels and leaves. -/
theorem rightDense_map {μ : Type} (f : ν → μ) {k : ℕ} {t : RoseTree ν α} :
    RightDense M k (t.map f g) ↔ RightDense M k t := by
  induction k generalizing t with
  | zero => cases t <;> simp [RightDense]
  | succ k ih =>
    cases t with
    | leaf e => simp [RightDense]
    | node u ts =>
      rw [RoseTree.map_node, RightDense, RightDense]
      constructor
      · rintro ⟨rest, t, heq, hrest, ht⟩
        obtain ⟨rest, us, rfl, rfl, hus⟩ := List.map_eq_append_iff.mp heq
        obtain ⟨t, rfl, rfl⟩ := List.map_eq_singleton_iff.mp hus
        exact ⟨rest, t, rfl, fun s hs ↦ (complete_map g f).mp (hrest _ (List.mem_map_of_mem hs)),
          ih.mp ht⟩
      · rintro ⟨rest, t, rfl, hrest, ht⟩
        refine ⟨rest.map (RoseTree.map f g), t.map f g, by simp, fun s hs ↦ ?_, ih.mpr ht⟩
        obtain ⟨u, hu, rfl⟩ := List.mem_map.mp hs
        exact (complete_map g f).mpr (hrest u hu)

end Map

end LevelTree
