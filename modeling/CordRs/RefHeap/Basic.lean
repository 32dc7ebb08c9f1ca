import Mathlib.Data.Multiset.Count
import Mathlib.Algebra.BigOperators.Group.Finset.Basic
import Mathlib.Algebra.BigOperators.Intervals

/-!
# Heaps of reference counted cells

A heap is a list of cells, the address of a cell being its index. A cell holds a reference count
and a node; a released address keeps an empty cell and is never handed out again. A node type
says, through `Pointers`, which addresses a node refers to and how often, and when a node is well
formed above the nodes it refers to.

The counts are not tied to the references here: `RefHeap.Heap.inDegree` counts the references
that live cells hold to an address, leaving out the cells of a list `Z`, and
`CordRs.RefHeap.Owned` relates it to the counts.

## Main definitions

* `RefHeap.Heap`, `RefHeap.Heap.get?`, `RefHeap.Heap.node?`, `RefHeap.Heap.rc`.
* `RefHeap.Heap.put`, `RefHeap.Heap.push`: overwrite a cell, allocate a cell.
* `RefHeap.Heap.inDegree`: the references held by the cells outside a list.

## Main results

* `RefHeap.Heap.inDegree_congr`: only the cells outside the list matter.
* `RefHeap.Heap.inDegree_cons`: leaving out one more cell removes its references.
-/

namespace RefHeap

/-- The address of a cell. -/
abbrev Addr := ℕ

/-- A node type whose values refer to addresses, each as often as it is listed. `Fits n ms` says
that `n` is well formed above the nodes `ms` its references lead to; references go down in
`rank`, so that well formed cells never form a cycle. -/
class Pointers (N : Type*) where
  /-- The addresses a node refers to. -/
  children : N → List Addr
  /-- The node is well formed when its references lead to the nodes listed. -/
  Fits : N → List N → Prop
  /-- A measure that goes down along references. -/
  rank : N → ℕ
  rank_lt {n : N} {ms : List N} : Fits n ms → ∀ m ∈ ms, rank m < rank n

/-- A live cell: its reference count and its node. -/
structure Cell (N : Type*) where
  refcount : ℕ
  node : N

/-- A heap of cells; `none` marks a released address. -/
structure Heap (N : Type*) where
  cells : List (Option (Cell N))

namespace Heap

variable {N : Type*} (h : Heap N)

/-- The heap without any cell. -/
def empty : Heap N := ⟨[]⟩

/-- The number of addresses handed out so far. -/
def size : ℕ := h.cells.length

/-- The live cell at an address. -/
def get? (a : Addr) : Option (Cell N) := (h.cells[a]?).join

/-- The node of the live cell at an address. -/
def node? (a : Addr) : Option N := (h.get? a).map Cell.node

/-- The reference count at an address, zero once it is released. -/
def rc (a : Addr) : ℕ := ((h.get? a).map Cell.refcount).getD 0

/-- Overwrite the cell at an address. -/
def put (a : Addr) (c : Option (Cell N)) : Heap N := ⟨h.cells.set a c⟩

/-- Add a cell at the fresh address `h.size`. -/
def push (c : Cell N) : Heap N := ⟨h.cells ++ [some c]⟩

variable {h}

theorem lt_size_of_get? {a : Addr} {c : Cell N} (ha : h.get? a = some c) : a < h.size := by
  by_contra hlt
  rw [get?, List.getElem?_eq_none (not_lt.mp hlt)] at ha
  simp at ha

theorem get?_size : h.get? h.size = none := by
  cases hs : h.get? h.size with
  | none => rfl
  | some c => exact absurd (lt_size_of_get? hs) (lt_irrefl _)

theorem get?_put_self {a : Addr} (ha : a < h.size) (c : Option (Cell N)) :
    (h.put a c).get? a = c := by
  simp only [get?, put, List.getElem?_set_self ha, Option.join_some]

theorem get?_put_ne {a b : Addr} (hab : b ≠ a) (c : Option (Cell N)) :
    (h.put a c).get? b = h.get? b := by
  simp only [get?, put, List.getElem?_set_ne (Ne.symm hab)]

@[simp] theorem size_put (a : Addr) (c : Option (Cell N)) : (h.put a c).size = h.size := by
  simp only [size, put, List.length_set]

@[simp] theorem size_push (c : Cell N) : (h.push c).size = h.size + 1 := by
  simp only [size, push, List.length_append, List.length_singleton]

theorem get?_push_self (c : Cell N) : (h.push c).get? h.size = some c := by
  simp only [get?, push, size, List.getElem?_concat_length, Option.join_some]

theorem get?_push_ne {a : Addr} (ha : a ≠ h.size) (c : Cell N) :
    (h.push c).get? a = h.get? a := by
  rcases lt_or_gt_of_ne ha with hlt | hgt
  · simp only [get?, push, List.getElem?_append_left (show a < h.cells.length from hlt)]
  · rw [get?, get?, push, List.getElem?_eq_none, List.getElem?_eq_none]
    · exact le_of_lt hgt
    · rw [List.length_append, List.length_singleton]
      exact Nat.succ_le_of_lt hgt

theorem get?_push_of_some {a : Addr} {c d : Cell N} (ha : h.get? a = some c) :
    (h.push d).get? a = some c := by
  rw [get?_push_ne (ne_of_lt (lt_size_of_get? ha)), ha]

theorem node?_of_get? {a : Addr} {c : Cell N} (ha : h.get? a = some c) :
    h.node? a = some c.node := by rw [node?, ha, Option.map_some]

theorem rc_of_get? {a : Addr} {c : Cell N} (ha : h.get? a = some c) : h.rc a = c.refcount := by
  rw [rc, ha, Option.map_some, Option.getD_some]

theorem exists_get?_of_node? {a : Addr} {n : N} (ha : h.node? a = some n) :
    ∃ r, h.get? a = some ⟨r, n⟩ := by
  obtain ⟨⟨r, m⟩, hc, rfl⟩ := Option.map_eq_some_iff.mp ha
  exact ⟨r, hc⟩

theorem node?_eq_of_get?_eq {h' : Heap N} {a : Addr} (ha : h'.get? a = h.get? a) :
    h'.node? a = h.node? a := by rw [node?, node?, ha]

theorem rc_eq_of_get?_eq {h' : Heap N} {a : Addr} (ha : h'.get? a = h.get? a) :
    h'.rc a = h.rc a := by rw [rc, rc, ha]

/-- Changing the count of a cell keeps all nodes. -/
theorem node?_put_same {a : Addr} {n : N} {r k : ℕ} (ha : h.get? a = some ⟨r, n⟩) (x : Addr) :
    (h.put a (some ⟨k, n⟩)).node? x = h.node? x := by
  by_cases hxa : x = a
  · rw [hxa, node?_of_get? ha, node?_of_get? (get?_put_self (lt_size_of_get? ha) _)]
  · exact node?_eq_of_get?_eq (get?_put_ne hxa _)

private theorem node?_of_size_le {i : Addr} (hi : h.size ≤ i) : h.node? i = none := by
  cases hc : h.get? i with
  | none => rw [node?, hc, Option.map_none]
  | some c => exact absurd (lt_size_of_get? hc) (not_lt.mpr hi)

/-! ### References held by the cells outside a list -/

section InDegree

variable [Pointers N]

/-- The references the live cell at `i` holds, none if `i` is in `Z`. -/
def slotsOutside (h : Heap N) (Z : List Addr) (i : Addr) : List Addr :=
  if i ∈ Z then [] else ((h.node? i).map Pointers.children).getD []

/-- The number of references to `x` held by live cells outside `Z`. -/
def inDegree (h : Heap N) (Z : List Addr) (x : Addr) : ℕ :=
  ∑ i ∈ Finset.range h.size, (h.slotsOutside Z i).count x

private theorem inDegree_eq_sum_range (Z : List Addr) (x : Addr) {m : ℕ} (hm : h.size ≤ m) :
    h.inDegree Z x = ∑ i ∈ Finset.range m, (h.slotsOutside Z i).count x := by
  rw [inDegree]
  apply Finset.sum_subset (Finset.range_mono hm)
  intro i _ hi
  rw [Finset.mem_range, not_lt] at hi
  rw [slotsOutside, node?_of_size_le hi]
  split_ifs <;> rfl

/-- The references counted depend on the nodes outside `Z` only. -/
theorem inDegree_congr {h' : Heap N} {Z : List Addr} (hZ : ∀ i ∉ Z, h'.node? i = h.node? i)
    (x : Addr) : h'.inDegree Z x = h.inDegree Z x := by
  rw [inDegree_eq_sum_range Z x (le_max_left h'.size h.size),
    inDegree_eq_sum_range Z x (le_max_right h'.size h.size)]
  refine Finset.sum_congr rfl fun i _ ↦ ?_
  by_cases hi : i ∈ Z
  · simp only [slotsOutside, if_pos hi]
  · simp only [slotsOutside, if_neg hi, hZ i hi]

/-- Leaving out one more live cell takes away exactly the references it holds. -/
theorem inDegree_cons {Z : List Addr} {a : Addr} {n : N} (haZ : a ∉ Z)
    (ha : h.node? a = some n) (x : Addr) :
    h.inDegree Z x = (Pointers.children n).count x + h.inDegree (a :: Z) x := by
  obtain ⟨r, hc⟩ := exists_get?_of_node? ha
  have hmem : a ∈ Finset.range h.size := Finset.mem_range.mpr (lt_size_of_get? hc)
  rw [inDegree, inDegree, ← Finset.add_sum_erase _ _ hmem, ← Finset.add_sum_erase _ _ hmem]
  have hself : h.slotsOutside (a :: Z) a = [] := by simp [slotsOutside]
  have hfull : h.slotsOutside Z a = Pointers.children n := by simp [slotsOutside, haZ, ha]
  rw [hself, hfull, List.count_nil, zero_add]
  congr 1
  refine Finset.sum_congr rfl fun i hi ↦ ?_
  have hia : i ≠ a := Finset.ne_of_mem_erase hi
  simp only [slotsOutside, List.mem_cons, hia, false_or]

theorem inDegree_cons_of_none {Z : List Addr} {a : Addr} (ha : h.node? a = none) (x : Addr) :
    h.inDegree Z x = h.inDegree (a :: Z) x := by
  rw [inDegree, inDegree]
  refine Finset.sum_congr rfl fun i _ ↦ ?_
  by_cases hia : i = a
  · subst hia
    simp [slotsOutside, ha]
  · simp only [slotsOutside, List.mem_cons, hia, false_or]

theorem inDegree_append_of_none {U Z : List Addr} (hU : ∀ a ∈ U, h.node? a = none) (x : Addr) :
    h.inDegree Z x = h.inDegree (U ++ Z) x := by
  induction U with
  | nil => rfl
  | cons a U ih =>
    rw [ih fun b hb ↦ hU b (List.mem_cons_of_mem _ hb), List.cons_append,
      inDegree_cons_of_none (hU a List.mem_cons_self)]

theorem inDegree_perm {Z Z' : List Addr} (hp : Z.Perm Z') (x : Addr) :
    h.inDegree Z x = h.inDegree Z' x := by
  simp only [inDegree, slotsOutside, hp.mem_iff]

theorem count_le_inDegree {Z : List Addr} {a : Addr} {n : N} (haZ : a ∉ Z)
    (ha : h.node? a = some n) (x : Addr) : (Pointers.children n).count x ≤ h.inDegree Z x := by
  rw [inDegree_cons haZ ha]
  exact Nat.le_add_right _ _

end InDegree

end Heap

end RefHeap
