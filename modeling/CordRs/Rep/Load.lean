import CordRs.Rep.View

/-!
# Unfolding the heap

Code that only reads takes the tree of a cord as a value. `CordRs.loadRep` reads that value off the
heap, node by node, and leaves the heap alone.

## Main definitions

* `CordRs.loadRep`: the tree below an address.

## Main results

* `CordRs.wp_loadRep`: what is loaded is the tree the heap holds.
-/

namespace CordRs

open RefHeap

/-- Unfold the nodes below a list of addresses with `load`. -/
def loadAll (load : Addr → HeapM Rep) : List Addr → HeapM (List Rep)
  | [] => pure []
  | rep :: reps => do
    let tree ← load rep
    let trees ← loadAll load reps
    pure (tree :: trees)

/-- Unfold the nodes below an address, of which there are fewer levels than the fuel. -/
def loadRep : ℕ → Addr → HeapM Rep
  | 0, _ => throw .unreachable
  | fuel + 1, rep => do
    match ← read rep with
    | .payload p => pure (.leaf (.whole rep p))
    | .substring length start child =>
      match ← read child with
      | .payload p => pure (.leaf (.part rep length start child p))
      | _ => throw .unreachable
    | .btree b =>
      let edges ← loadAll (loadRep fuel) b.edges
      pure (.node ⟨rep, b.length, b.height, b.begin⟩ edges)

section Load

variable {h : Heap Node}

private theorem wp_loadAll {load : Addr → HeapM Rep} {ts : List Rep}
    (hload : ∀ t ∈ ts, ∀ Q : Rep → Heap Node → Prop, Q t h → wp (load t.addr) Q h)
    {Q : List Rep → Heap Node → Prop} (hQ : Q ts h) : wp (loadAll load (ts.map Rep.addr)) Q h := by
  induction ts generalizing Q with
  | nil =>
    rw [List.map_nil, loadAll, wp_pure]
    exact hQ
  | cons t ts ih =>
    rw [List.map_cons, loadAll, wp_bind]
    apply hload t List.mem_cons_self
    rw [wp_bind]
    apply ih fun s hs ↦ hload s (List.mem_cons_of_mem _ hs)
    rw [wp_pure]
    exact hQ

variable [Target] {k : ℕ} {t : Rep}

/-- What is loaded is the tree the heap holds. -/
theorem wp_loadRep (ht : t.Held h) (hv : t.Valid k) {fuel : ℕ} (hfuel : k < fuel)
    {Q : Rep → Heap Node → Prop} (hQ : Q t h) : wp (loadRep fuel t.addr) Q h := by
  induction k generalizing t fuel Q with
  | zero =>
    obtain ⟨fuel, rfl⟩ := Nat.exists_eq_succ_of_ne_zero hfuel.ne'
    obtain ⟨e, rfl, he⟩ := Rep.Valid.zero_iff.mp hv
    obtain ⟨hnode, hbase⟩ := Rep.held_leaf.mp ht
    rw [loadRep, wp_bind]
    apply wp_read hnode
    cases e with
    | whole a p => exact (wp_pure _ _ _).mpr hQ
    | part a length start child p =>
      change wp (read child >>= _) Q h
      rw [wp_bind]
      apply wp_read hbase
      exact (wp_pure _ _ _).mpr hQ
  | succ k ih =>
    obtain ⟨fuel, rfl⟩ := Nat.exists_eq_succ_of_ne_zero (Nat.ne_of_gt (Nat.zero_lt_of_lt hfuel))
    obtain ⟨hd, es, rfl⟩ := hv.exists_node
    obtain ⟨hnode, hes⟩ := Rep.held_node.mp ht
    rw [loadRep, wp_bind]
    apply wp_read hnode
    change wp (loadAll (loadRep fuel) (es.map Rep.addr) >>= _) Q h
    rw [wp_bind]
    apply wp_loadAll fun s hs P hP ↦ ih (hes s hs) (hv.edges s hs) (Nat.lt_of_succ_lt_succ hfuel) hP
    rw [wp_pure]
    exact hQ

end Load

end CordRs
