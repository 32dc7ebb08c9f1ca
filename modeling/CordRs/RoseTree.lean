import Mathlib.Data.List.Basic

/-!
# Trees with labelled nodes and data at the leaves

A tree is a leaf with a value or a node with a label and a list of subtrees. `RoseTree.leaves` is
the in-order list of values, `RoseTree.map` changes labels and values, `RoseTree.annotate` computes
labels from below, and `RoseTree.All` says that a property of leaves and a property of nodes hold
everywhere.

## Main definitions

* `RoseTree`, `RoseTree.leaves`, `RoseTree.depth`, `RoseTree.map`, `RoseTree.annotate`,
  `RoseTree.All`.

## Main results

* `RoseTree.induction`: induction with a hypothesis for every subtree.
* `RoseTree.leaves_map`: the leaves of a changed tree.
-/

/-- A leaf with a value, or a node with a label and subtrees. -/
inductive RoseTree (ν α : Type) where
  | leaf (e : α)
  | node (n : ν) (edges : List (RoseTree ν α))
  deriving Repr

namespace RoseTree

variable {ν α : Type}

/-- Induction over a tree with a hypothesis for every subtree of a node. -/
theorem induction {P : RoseTree ν α → Prop} (hleaf : ∀ e, P (leaf e))
    (hnode : ∀ n es, (∀ t ∈ es, P t) → P (node n es)) (t : RoseTree ν α) : P t := by
  refine @RoseTree.rec ν α P (fun es ↦ ∀ s ∈ es, P s) hleaf hnode ?_ ?_ t
  · exact fun s hs ↦ absurd hs List.not_mem_nil
  · intro t es iht ihes s hs
    rcases List.mem_cons.mp hs with rfl | hs
    · exact iht
    · exact ihes s hs

/-! ### Leaves -/

mutual
/-- The values at the leaves, in order. -/
def leaves : RoseTree ν α → List α
  | leaf e => [e]
  | node _ es => leavesAux es
/-- The leaves of a list of trees. -/
def leavesAux : List (RoseTree ν α) → List α
  | [] => []
  | t :: ts => leaves t ++ leavesAux ts
end

private theorem leavesAux_eq (es : List (RoseTree ν α)) : leavesAux es = es.flatMap leaves := by
  induction es with
  | nil => rfl
  | cons t ts ih => rw [leavesAux, ih, List.flatMap_cons]

@[simp] theorem leaves_leaf (e : α) : (leaf e : RoseTree ν α).leaves = [e] := by rw [leaves]

@[simp] theorem leaves_node (n : ν) (es : List (RoseTree ν α)) :
    (node n es).leaves = es.flatMap leaves := by rw [leaves, leavesAux_eq]

/-! ### Labels -/

mutual
/-- The labels of the nodes, a node before those below it. -/
def labels : RoseTree ν α → List ν
  | leaf _ => []
  | node n es => n :: labelsAux es
/-- The labels of a list of trees. -/
def labelsAux : List (RoseTree ν α) → List ν
  | [] => []
  | t :: ts => labels t ++ labelsAux ts
end

private theorem labelsAux_eq (es : List (RoseTree ν α)) : labelsAux es = es.flatMap labels := by
  induction es with
  | nil => rfl
  | cons t ts ih => rw [labelsAux, ih, List.flatMap_cons]

@[simp] theorem labels_leaf (e : α) : (leaf e : RoseTree ν α).labels = [] := by rw [labels]

@[simp] theorem labels_node (n : ν) (es : List (RoseTree ν α)) :
    (node n es).labels = n :: es.flatMap labels := by rw [labels, labelsAux_eq]

/-! ### Depth -/

mutual
/-- The number of edges down the first branch. -/
def depth : RoseTree ν α → ℕ
  | leaf _ => 0
  | node _ es => depthAux es + 1
/-- The depth of the first tree of a list. -/
def depthAux : List (RoseTree ν α) → ℕ
  | [] => 0
  | t :: _ => depth t
end

@[simp] theorem depth_leaf (e : α) : (leaf e : RoseTree ν α).depth = 0 := by rw [depth]

@[simp] theorem depth_node_cons (n : ν) (t : RoseTree ν α) (ts : List (RoseTree ν α)) :
    (node n (t :: ts)).depth = t.depth + 1 := by rw [depth, depthAux]

/-! ### Changing labels and values -/

section Map

variable {μ β : Type} (f : ν → μ) (g : α → β)

mutual
/-- The tree with other labels and values. -/
def map (f : ν → μ) (g : α → β) : RoseTree ν α → RoseTree μ β
  | leaf e => leaf (g e)
  | node n es => node (f n) (mapAux f g es)
/-- A list of trees with other labels and values. -/
def mapAux (f : ν → μ) (g : α → β) : List (RoseTree ν α) → List (RoseTree μ β)
  | [] => []
  | t :: ts => map f g t :: mapAux f g ts
end

private theorem mapAux_eq (es : List (RoseTree ν α)) : mapAux f g es = es.map (map f g) := by
  induction es with
  | nil => rfl
  | cons t ts ih => rw [mapAux, ih, List.map_cons]

@[simp] theorem map_leaf (e : α) : map f g (leaf e) = leaf (g e) := by rw [map]

@[simp] theorem map_node (n : ν) (es : List (RoseTree ν α)) :
    map f g (node n es) = node (f n) (es.map (map f g)) := by rw [map, mapAux_eq]

@[simp] theorem leaves_map (t : RoseTree ν α) : (map f g t).leaves = t.leaves.map g := by
  induction t using RoseTree.induction with
  | hleaf e => simp
  | hnode n es ih =>
    rw [map_node, leaves_node, leaves_node, List.flatMap_map, List.map_flatMap]
    exact List.flatMap_congr fun t ht ↦ ih t ht

@[simp] theorem depth_map (t : RoseTree ν α) : (map f g t).depth = t.depth := by
  induction t using RoseTree.induction with
  | hleaf e => simp
  | hnode n es ih =>
    cases es with
    | nil => simp [depth, depthAux]
    | cons t ts => simp [ih t List.mem_cons_self]

theorem map_map {ρ γ : Type} (f' : μ → ρ) (g' : β → γ) (t : RoseTree ν α) :
    map f' g' (map f g t) = map (f' ∘ f) (g' ∘ g) t := by
  induction t using RoseTree.induction with
  | hleaf e => simp
  | hnode n es ih =>
    simp only [map_node, List.map_map, Function.comp_apply]
    exact congrArg _ (List.map_congr_left fun t ht ↦ ih t ht)

end Map

/-! ### Labels computed from below -/

section Annotate

variable {μ β : Type} (f : ν → List (RoseTree μ β) → μ)

mutual
/-- The tree with the labels `f` computes from the old ones and the trees below. -/
def annotate (f : ν → List (RoseTree μ β) → μ) : RoseTree ν β → RoseTree μ β
  | leaf e => leaf e
  | node n es => node (f n (annotateAux f es)) (annotateAux f es)
/-- A list of trees with other labels. -/
def annotateAux (f : ν → List (RoseTree μ β) → μ) : List (RoseTree ν β) → List (RoseTree μ β)
  | [] => []
  | t :: ts => annotate f t :: annotateAux f ts
end

private theorem annotateAux_eq (es : List (RoseTree ν β)) :
    annotateAux f es = es.map (annotate f) := by
  induction es with
  | nil => rfl
  | cons t ts ih => rw [annotateAux, ih, List.map_cons]

@[simp] theorem annotate_leaf (e : β) : annotate f (leaf e : RoseTree ν β) = leaf e := by
  rw [annotate]

@[simp] theorem annotate_node (n : ν) (es : List (RoseTree ν β)) :
    annotate f (node n es) = node (f n (es.map (annotate f))) (es.map (annotate f)) := by
  rw [annotate, annotateAux_eq]

end Annotate

/-! ### Properties that hold everywhere in a tree -/

section All

variable {p p' : α → Prop} {q q' : ν → List (RoseTree ν α) → Prop}

mutual
/-- Every leaf satisfies `p`, every node with its subtrees satisfies `q`. -/
def All (p : α → Prop) (q : ν → List (RoseTree ν α) → Prop) : RoseTree ν α → Prop
  | leaf e => p e
  | node n es => q n es ∧ AllAux p q es
/-- All trees of a list satisfy `All p q`. -/
def AllAux (p : α → Prop) (q : ν → List (RoseTree ν α) → Prop) : List (RoseTree ν α) → Prop
  | [] => True
  | t :: ts => All p q t ∧ AllAux p q ts
end

private theorem allAux_iff (es : List (RoseTree ν α)) :
    AllAux p q es ↔ ∀ t ∈ es, All p q t := by
  induction es with
  | nil => simp [AllAux]
  | cons t ts ih => simp [AllAux, ih]

@[simp] theorem all_leaf (e : α) : All p q (leaf e) ↔ p e := by rw [All]

@[simp] theorem all_node (n : ν) (es : List (RoseTree ν α)) :
    All p q (node n es) ↔ q n es ∧ ∀ t ∈ es, All p q t := by rw [All, allAux_iff]

end All

end RoseTree
