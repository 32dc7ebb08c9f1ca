import CordRs.RefHeap.Owned
import Mathlib.Algebra.BigOperators.Field
import Mathlib.Algebra.Order.BigOperators.Group.Finset
import Mathlib.Algebra.Order.Field.Rat
import Mathlib.Tactic.FieldSimp
import Mathlib.Tactic.Linarith
import Mathlib.Tactic.Ring

/-!
# Sharing the weight of a heap among its references

Let every node have a weight, and let the *load* of a node be its own weight and, for each of its
references, the load of the node it leads to divided by the count of that node. When the counts are
exact the loads of the references from outside, each divided by its count, add up to the weight of
the heap: what a node passes on is divided among exactly as many references as it has.

A single reference carries at most the weight of what is reachable from it.

## Main definitions

* `RefHeap.Heap.weight`, `RefHeap.IsLoad`.

## Main results

* `RefHeap.Owned.sum_load`: the references from outside carry the weight of the heap.
* `RefHeap.Owned.load_le`: a reference carries no more than what is reachable from it.
-/

namespace RefHeap

open scoped BigOperators

variable {N : Type*} {h : Heap N} {w : N → ℚ} {load : Addr → ℚ}

/-- The weight of the live node at an address, zero if there is none. -/
def Heap.weight (h : Heap N) (w : N → ℚ) (a : Addr) : ℚ := ((h.node? a).map w).getD 0

theorem Heap.weight_of_node? {a : Addr} {n : N} (ha : h.node? a = some n) :
    h.weight w a = w n := by simp [weight, ha]

variable [Pointers N]

/-- The load of a live node: its weight and its part of the loads of its references. -/
def IsLoad (h : Heap N) (w : N → ℚ) (load : Addr → ℚ) : Prop :=
  ∀ a n, h.node? a = some n →
    load a = w n + ((Pointers.children n).map fun c ↦ load c / h.rc c).sum

/-- A sum over a list, by how often every number below a bound occurs in it. -/
private theorem sum_map_eq_sum_count (f : Addr → ℚ) {as : List Addr} {S : Finset Addr}
    (hS : ∀ a ∈ as, a ∈ S) : (as.map f).sum = ∑ c ∈ S, as.count c * f c := by
  rw [Finset.sum_list_map_count]
  refine (Finset.sum_subset (fun a ha ↦ hS a (List.mem_toFinset.mp ha)) fun c _ hc ↦ ?_).trans
    (Finset.sum_congr rfl fun c _ ↦ nsmul_eq_mul _ _)
  rw [List.count_eq_zero.mpr fun h ↦ hc (List.mem_toFinset.mpr h), zero_nsmul]

/-- The weight of a set of live nodes that is closed under references, in terms of their loads and
the references between them. -/
private theorem sum_weight (hload : IsLoad h w load) {S : Finset Addr}
    (hlive : ∀ a ∈ S, ∃ n, h.node? a = some n)
    (hclosed : ∀ a ∈ S, ∀ n, h.node? a = some n → ∀ c ∈ Pointers.children n, c ∈ S) :
    ∑ a ∈ S, h.weight w a =
      ∑ c ∈ S, (load c - (∑ a ∈ S, (h.slotsOutside [] a).count c : ℕ) * (load c / h.rc c)) := by
  have hone : ∀ a ∈ S, h.weight w a =
      load a - ∑ c ∈ S, ((h.slotsOutside [] a).count c : ℚ) * (load c / h.rc c) := by
    intro a ha
    obtain ⟨n, hn⟩ := hlive a ha
    have hslots : h.slotsOutside [] a = Pointers.children n := by simp [Heap.slotsOutside, hn]
    rw [Heap.weight_of_node? hn, hload a n hn, hslots,
      sum_map_eq_sum_count _ (hclosed a ha n hn), add_sub_cancel_right]
  rw [Finset.sum_congr rfl hone, Finset.sum_sub_distrib, Finset.sum_comm, Finset.sum_sub_distrib]
  congr 1
  refine Finset.sum_congr rfl fun c _ ↦ ?_
  push_cast
  rw [Finset.sum_mul]

namespace Owned

variable {R : Multiset Addr} {a : Addr}

private theorem rc_eq (ho : Owned h [] R) (x : Addr) : h.rc x = h.inDegree [] x + R.count x := by
  simpa using ho.count x

private theorem rc_pos (ho : Owned h [] R) {n : N} (ha : h.node? a = some n) : 0 < h.rc a := by
  obtain ⟨r, hr⟩ := Heap.exists_get?_of_node? ha
  rw [Heap.rc_of_get? hr]
  exact ho.pos a _ hr

omit [Pointers N] in
private theorem lt_size {n : N} (ha : h.node? a = some n) : a < h.size := by
  obtain ⟨r, hr⟩ := Heap.exists_get?_of_node? ha
  exact Heap.lt_size_of_get? hr

private theorem child_live (ho : Owned h [] R) {n : N} (ha : h.node? a = some n) :
    ∀ c ∈ Pointers.children n, ∃ m, h.node? c = some m := by
  intro c hc
  have hr := ho.reach_of_live List.not_mem_nil ha
  exact (ho.of_reach (hr.child ha hc)).2

/-- The loads of the references from outside, each divided by its count, are the weight of the
heap. -/
theorem sum_load (ho : Owned h [] R) (hload : IsLoad h w load) :
    (R.map fun a ↦ load a / h.rc a).sum = ∑ a ∈ Finset.range h.size, h.weight w a := by
  classical
  set S := (Finset.range h.size).filter fun a ↦ ∃ n, h.node? a = some n with hS
  have hmem : ∀ {a n}, h.node? a = some n → a ∈ S := fun ha ↦
    Finset.mem_filter.mpr ⟨Finset.mem_range.mpr (lt_size ha), _, ha⟩
  have hlive : ∀ a ∈ S, ∃ n, h.node? a = some n := fun a ha ↦ (Finset.mem_filter.mp ha).2
  have hrange : ∑ a ∈ Finset.range h.size, h.weight w a = ∑ a ∈ S, h.weight w a := by
    refine (Finset.sum_subset (Finset.filter_subset _ _) fun a ha hna ↦ ?_).symm
    have hnone : h.node? a = none := by
      by_contra hne
      obtain ⟨n, hn⟩ := Option.ne_none_iff_exists'.mp hne
      exact hna (hmem hn)
    simp [Heap.weight, hnone]
  have hR : (R.map fun a ↦ load a / h.rc a).sum = ∑ c ∈ S, R.count c * (load c / h.rc c) := by
    rw [Finset.sum_multiset_map_count]
    refine (Finset.sum_subset (fun a ha ↦ ?_) fun c _ hc ↦ ?_).trans
      (Finset.sum_congr rfl fun c _ ↦ nsmul_eq_mul _ _)
    · obtain ⟨-, n, hn⟩ := ho.of_mem (Multiset.mem_toFinset.mp ha)
      exact hmem hn
    · rw [Multiset.count_eq_zero.mpr fun h ↦ hc (Multiset.mem_toFinset.mpr h), zero_nsmul]
  rw [hrange, hR, sum_weight hload hlive fun a _ n hn c hc ↦
    hmem (child_live ho hn c hc).choose_spec]
  refine Finset.sum_congr rfl fun c hc ↦ ?_
  obtain ⟨n, hn⟩ := hlive c hc
  have hdeg : ∑ a ∈ S, (h.slotsOutside [] a).count c = h.inDegree [] c := by
    refine Finset.sum_subset (Finset.filter_subset _ _) fun a _ hna ↦ ?_
    have hnone : h.node? a = none := by
      by_contra hne
      obtain ⟨m, hm⟩ := Option.ne_none_iff_exists'.mp hne
      exact hna (hmem hm)
    simp [Heap.slotsOutside, hnone]
  have hpos : (0 : ℚ) < h.rc c := by exact_mod_cast rc_pos ho hn
  have hrc : (h.rc c : ℚ) = h.inDegree [] c + R.count c := by exact_mod_cast rc_eq ho c
  rw [hdeg]
  field_simp
  rw [hrc]
  ring

/-- A reference carries at most the weight of what is reachable from it. -/
theorem load_le [DecidablePred (Reach h {a})] (ho : Owned h [] R) (hload : IsLoad h w load)
    (hpos : ∀ a, 0 ≤ load a) (ha : a ∈ R) :
    load a / h.rc a ≤ ∑ x ∈ (Finset.range h.size).filter (Reach h {a}), h.weight w x := by
  set S := (Finset.range h.size).filter (Reach h {a}) with hS
  have hreach : ∀ {x}, Reach h {a} x → Reach h R x := fun hx ↦
    hx.mono (Multiset.singleton_le.mpr ha)
  have hmem : ∀ {x}, Reach h {a} x → x ∈ S := fun hx ↦ by
    obtain ⟨-, n, hn⟩ := ho.of_reach (hreach hx)
    exact Finset.mem_filter.mpr ⟨Finset.mem_range.mpr (lt_size hn), hx⟩
  have hlive : ∀ x ∈ S, ∃ n, h.node? x = some n := fun x hx ↦
    (ho.of_reach (hreach (Finset.mem_filter.mp hx).2)).2
  have hterm : ∀ x ∈ S, (R.count x : ℚ) * (load x / h.rc x) ≤
      load x - (∑ y ∈ S, (h.slotsOutside [] y).count x : ℕ) * (load x / h.rc x) := by
    intro x hx
    obtain ⟨n, hn⟩ := hlive x hx
    have hdeg : ∑ y ∈ S, (h.slotsOutside [] y).count x ≤ h.inDegree [] x :=
      Finset.sum_le_sum_of_subset (Finset.filter_subset _ _)
    have hrcpos : (0 : ℚ) < h.rc x := by exact_mod_cast rc_pos ho hn
    have hrc : (∑ y ∈ S, (h.slotsOutside [] y).count x : ℕ) + (R.count x : ℚ) ≤ h.rc x := by
      have hle : ∑ y ∈ S, (h.slotsOutside [] y).count x + R.count x ≤ h.rc x := by
        rw [rc_eq ho x]
        omega
      exact_mod_cast hle
    have hshare : 0 ≤ load x / h.rc x := div_nonneg (hpos x) hrcpos.le
    have hwhole : (h.rc x : ℚ) * (load x / h.rc x) = load x := mul_div_cancel₀ _ hrcpos.ne'
    have hmul := mul_le_mul_of_nonneg_right hrc hshare
    rw [add_mul, hwhole] at hmul
    linarith
  have hnonneg : ∀ x ∈ S, 0 ≤ (R.count x : ℚ) * (load x / h.rc x) := fun x _ ↦
    mul_nonneg (Nat.cast_nonneg _) (div_nonneg (hpos x) (Nat.cast_nonneg _))
  have hself : load a / h.rc a ≤ (R.count a : ℚ) * (load a / h.rc a) := by
    have hone : (1 : ℚ) ≤ R.count a := by exact_mod_cast Multiset.one_le_count_iff_mem.mpr ha
    exact le_mul_of_one_le_left (div_nonneg (hpos a) (Nat.cast_nonneg _)) hone
  rw [sum_weight hload hlive fun x hx n hn c hc ↦
    hmem ((Finset.mem_filter.mp hx).2.child hn hc)]
  have hroot : a ∈ S := hmem (.root (Multiset.mem_singleton_self a))
  exact hself.trans ((Finset.single_le_sum hnonneg hroot).trans
    (Finset.sum_le_sum hterm))

end Owned

end RefHeap
