import CordRs.Btree.RemoveSuffix
import CordRs.Rep.Navigator

/-!
# Lookups in a btree

The lookups of a node walk over its edges without a bound of their own, and run off its window
exactly if they are called outside their preconditions. The operations that look up edges do not
fail on a valid tree, so each of their calls is within the preconditions: what a call hands down to
the next node is an offset or a length in the edge found.

## Main results

* `CordRs.Btree.lookups_exact`: the lookups of a valid node, and the operations that call them.
-/

namespace CordRs

open RefHeap

section Rules

variable [Target] {h : Heap Node} {Z : List Addr} {R : Multiset Addr} {k j : ℕ} {t : Rep}
  {hd : BtreeHeader} {es : List Rep}

/-- Truncating by anything up to the whole tree. -/
private theorem wp_removeSuffix_of_le {n : ℕ} (ho : Owned h Z (t.addr ::ₘ R)) (ht : t.Held h)
    (hv : t.Valid (k + 1)) (hle : n ≤ t.length) :
    wp (removeSuffix t.addr n) (fun _ _ ↦ True) h := by
  obtain ⟨hd, es, rfl⟩ := hv.exists_node
  obtain ⟨hnode, -⟩ := Rep.held_node.mp ht
  rw [Rep.length_node] at hle
  obtain rfl | hpos := Nat.eq_zero_or_pos n
  · rw [removeSuffix, wp_bind]
    refine wp_asBtree hnode ?_
    rw [if_pos rfl, wp_pure]
    trivial
  · obtain hlt | rfl := Nat.lt_or_eq_of_le hle
    · exact wp_mono (Btree.remove_suffix_truncates ho ht hv hpos hlt) fun _ _ _ ↦ trivial
    · rw [removeSuffix, wp_bind]
      refine wp_asBtree hnode ?_
      rw [if_neg hpos.ne', Rep.btree_length, if_pos le_rfl, wp_bind]
      refine wp_unref ho fun h' _ _ ↦ ?_
      rw [wp_pure]
      trivial

/-- The lookups of a valid node find the only position with the bytes they describe, and fail
exactly outside their preconditions. No lookup fails in the operations on a tree, and a part of no
bytes is returned without any. -/
theorem Btree.lookups_exact (hnode : Rep.Valid (j + 1) (.node hd es))
    (ho : Owned h Z (t.addr ::ₘ R)) (ht : t.Held h) (hv : t.Valid (k + 1)) (hk : k ≤ maxDepth) :
    ((∀ offset, Locates (indexOf hd.begin (es.map Rep.length) offset) (offset < hd.length)
        (·.ContainsByte hd.begin (es.map Rep.length) offset)) ∧
      (∀ offset n front, indexOf hd.begin (es.map Rep.length) offset = .ok front → 0 < n →
        Locates (indexBeforeFrom hd.begin (es.map Rep.length) front n) (n ≤ hd.length - offset)
          (·.EndsAt hd.begin (es.map Rep.length) (offset + n))) ∧
      (∀ n, Locates (indexOfLength hd.begin (es.map Rep.length) hd.length n)
        (0 < n ∧ n ≤ hd.length) (·.EndsAt hd.begin (es.map Rep.length) n)) ∧
      (∀ offset, Locates (indexBeyond hd.begin (es.map Rep.length) offset) (offset ≤ hd.length)
        (·.StartsFrom hd.begin (es.map Rep.length) offset))) ∧
    (∀ offset, subTree t.addr offset 0 h = .ok (none, h)) ∧
    (∀ offset n, 0 < n → offset + n ≤ t.length →
      wp (subTree t.addr offset n) (fun _ _ ↦ True) h) ∧
    (∀ offset < t.length, wp (copySuffix k t.addr offset) (fun _ _ ↦ True) h) ∧
    (∀ allow n, 0 < n → n ≤ t.length → wp (copyPrefix allow k t.addr n) (fun _ _ ↦ True) h) ∧
    (∀ n ≤ t.length, wp (removeSuffix t.addr n) (fun _ _ ↦ True) h) ∧
    ∀ (nav : Navigator) offset, nav.btree = some t → nav.path.length = k + 1 →
      ∃ r, nav.seek offset = .ok r := by
  have hr : Reach h (t.addr ::ₘ R) t.addr := .root (Multiset.mem_cons_self _ _)
  refine ⟨⟨?_, ?_, ?_, ?_⟩, fun _ ↦ rfl, ?_, ?_, ?_, ?_, ?_⟩
  · intro offset
    rw [(Rep.Valid.node_iff.mp hnode).2.2.2.1]
    exact indexOf_locates _ _ _
  · intro offset n front hfront hn
    rw [(Rep.Valid.node_iff.mp hnode).2.2.2.1]
    exact indexBeforeFrom_locates (((indexOf_locates _ _ _).2 front).mp hfront) hn
  · intro n
    rw [(Rep.Valid.node_iff.mp hnode).2.2.2.1]
    exact indexOfLength_locates _ _ _
  · intro offset
    rw [(Rep.Valid.node_iff.mp hnode).2.2.2.1]
    exact indexBeyond_locates _ _ _
  · exact fun offset n hpos hle ↦ wp_subTree ho hr ht hv hk hpos hle fun _ _ _ _ _ _ ↦ trivial
  · exact fun offset hlt ↦ wp_copySuffix ho hr ht hv hlt fun _ _ _ _ _ ↦ trivial
  · exact fun allow n hpos hle ↦ wp_copyPrefix ho hr ht hv hpos hle fun _ _ _ _ _ ↦ trivial
  · exact fun n hle ↦ wp_removeSuffix_of_le ho ht hv hle
  · intro nav offset hb hlen
    obtain ⟨-, hrun⟩ | ⟨_, _, _, hrun, -⟩ := Navigator.seek_spec offset hb (hlen ▸ hv)
    · exact ⟨_, hrun⟩
    · exact ⟨_, hrun⟩

end Rules

/-- The lookups of the tree of two flats. -/
theorem Btree.lookups_exact_pair :
    letI : Target := ⟨64, .inr rfl⟩
    Locates (indexOf 0 [2, 1] 1) (1 < 3) (·.ContainsByte 0 [2, 1] 1) ∧
      wp (subTree 2 1 2) (fun _ _ ↦ True) sharedPair := by
  let _ : Target := ⟨64, .inr rfl⟩
  have ht := holding_sharedPair
  have hexact := lookups_exact (t := pairTree) ht.valid ht.owned ht.held ht.valid (by decide)
  exact ⟨hexact.1.1 1, hexact.2.2.1 1 2 (by decide) (by decide)⟩

end CordRs
