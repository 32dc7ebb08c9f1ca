import CordRs.RefHeap.Program
import Mathlib.Algebra.BigOperators.Group.Finset.Basic
import Mathlib.Algebra.Order.BigOperators.Group.Finset

/-!
# Families of holders

The references and the opened cells that the members of a finite family hold add up. A program takes
a member out of the family, works on what it holds while the others stand by, and puts it back.

## Main definitions

* `RefHeap.refsAll`, `RefHeap.cellsAll`: what all members of a family hold.
* `RefHeap.Kept`: the nodes reachable from some references are the same.

## Main results

* `RefHeap.refsAll_update`, `RefHeap.cellsAll_update`: taking a member out and putting it back.
* `RefHeap.Frame.kept'`: a program that leaves some references alone keeps what they reach.
-/

namespace RefHeap

open scoped BigOperators

variable {ι V : Type} [Fintype ι]

/-- The references that the members of a family hold. -/
def refsAll (refs : V → Multiset Addr) (vals : ι → V) : Multiset Addr := ∑ i, refs (vals i)

/-- The opened cells that the members of a family hold. -/
noncomputable def cellsAll (cells : V → List Addr) (vals : ι → V) : List Addr :=
  (refsAll (fun v ↦ (cells v : Multiset Addr)) vals).toList

variable {refs : V → Multiset Addr} {cells : V → List Addr} {vals : ι → V}

theorem refs_le_refsAll (i : ι) : refs (vals i) ≤ refsAll refs vals :=
  Finset.single_le_sum (f := fun i ↦ refs (vals i)) (fun _ _ ↦ Multiset.zero_le _)
    (Finset.mem_univ i)

theorem coe_cellsAll : (cellsAll cells vals : Multiset Addr) =
    refsAll (fun v ↦ (cells v : Multiset Addr)) vals := Multiset.coe_toList _

theorem cells_subset_cellsAll (i : ι) : cells (vals i) ⊆ cellsAll cells vals := by
  have hle : (cells (vals i) : Multiset Addr) ≤
      refsAll (fun v ↦ (cells v : Multiset Addr)) vals := refs_le_refsAll i
  intro a ha
  rw [← Multiset.mem_coe, coe_cellsAll]
  exact Multiset.mem_of_le hle (Multiset.mem_coe.mpr ha)

theorem refsAll_eq_zero (hvals : ∀ i, refs (vals i) = 0) : refsAll refs vals = 0 :=
  Finset.sum_eq_zero fun i _ ↦ hvals i

theorem cellsAll_eq_nil (hvals : ∀ i, cells (vals i) = []) : cellsAll cells vals = [] := by
  rw [cellsAll, refsAll_eq_zero, Multiset.toList_zero]
  intro i
  rw [hvals i]
  rfl

section Update

variable [DecidableEq ι]

/-- A member that is replaced hands over what it held. -/
theorem refsAll_update (i : ι) (v : V) :
    refs (vals i) + refsAll refs (Function.update vals i v) = refs v + refsAll refs vals := by
  have hrest : ∑ j ∈ Finset.univ.erase i, refs (Function.update vals i v j) =
      ∑ j ∈ Finset.univ.erase i, refs (vals j) := by
    apply Finset.sum_congr rfl
    intro j hj
    rw [Function.update_of_ne (Finset.ne_of_mem_erase hj)]
  rw [refsAll, refsAll, ← Finset.add_sum_erase _ _ (Finset.mem_univ i),
    ← Finset.add_sum_erase _ (fun j ↦ refs (vals j)) (Finset.mem_univ i), hrest,
    Function.update_self, add_left_comm]

theorem cellsAll_update (i : ι) (v : V) :
    (cells (vals i) ++ cellsAll cells (Function.update vals i v)).Perm
      (cells v ++ cellsAll cells vals) := by
  rw [← Multiset.coe_eq_coe, ← Multiset.coe_add, ← Multiset.coe_add, coe_cellsAll, coe_cellsAll]
  exact refsAll_update i v

end Update

/-! ### Members that stand by -/

variable {N : Type} [Pointers N] {h h' h'' : Heap N} {Z : List Addr} {R S : Multiset Addr}

/-- The nodes reachable from the references `R` are the same. -/
def Kept (R : Multiset Addr) (h h' : Heap N) : Prop :=
  ∀ a, Reach h R a → h'.node? a = h.node? a

theorem Kept.refl (R : Multiset Addr) (h : Heap N) : Kept R h h := fun _ _ ↦ rfl

theorem Kept.trans (h₁ : Kept R h h') (h₂ : Kept R h' h'') : Kept R h h'' :=
  fun a ha ↦ (h₂ a (ha.transfer h₁)).trans (h₁ a ha)

theorem Frame.kept' (hf : Frame Z S h h') (hR : R ≤ S) : Kept R h h' :=
  fun a ha ↦ hf.kept a (ha.mono hR)

/-- What the members of a family reach together, one of them reaches. -/
theorem exists_reach_of_refsAll {a : Addr} (ha : Reach h (refsAll refs vals) a) :
    ∃ i, Reach h (refs (vals i)) a := by
  induction ha with
  | root ha =>
    obtain ⟨i, -, hi⟩ := Multiset.mem_sum.mp ha
    exact ⟨i, .root hi⟩
  | child _ hn hc ih =>
    obtain ⟨i, hi⟩ := ih
    exact ⟨i, hi.child hn hc⟩

end RefHeap
