import CordRs.Btree.Append
import CordRs.Cord.Read

/-!
# Checking a tree

`CordRepBtree::check_valid` walks over a tree and names the first condition that fails. The checks
of a node look at its header and at the nodes of its edges; unless the walk is shallow, the nodes
below are checked in the same way. The checks say nothing about the data edges themselves, and a
node may be empty for them.

## Main definitions

* `CordRs.checkValid`, `CordRs.Cord.validate`.

## Main results

* `CordRs.Cord.validate_iff`: the walk finds nothing exactly in the valid trees.
-/

namespace CordRs

section Checks

variable [Target]

/-- A condition of the walk, which names it when it fails. -/
def check (condition : Bool) (text : String) : Except String Unit :=
  if condition then .ok () else .error ("CordRepBtree::check_valid() FAILED: " ++ text)

/-- The stored height of a btree node. -/
def Rep.height : Rep → ℕ
  | .leaf _ => 0
  | .node hd _ => hd.height

/-- Check an edge of a node with the given height. -/
def checkEdge (height : ℕ) (edge : Rep) : Except String Unit := do
  if 0 < height then
    check edge.root.isBtree "edge.is_btree()"
    check (edge.height = height - 1) "as_btree(edge).height() == tree.height() - 1"
  else
    check (!edge.root.isBtree) "is_data_edge(edge)"

/-- Check the edges of a node, and add up their lengths. -/
def checkEdges (height : ℕ) : List Rep → ℕ → Except String ℕ
  | [], childLength => pure childLength
  | edge :: edges, childLength => do
    checkEdge height edge
    checkEdges height edges (addUsize childLength edge.length)

/-- Check a node and the nodes of its edges. -/
def checkNode (hd : BtreeHeader) (es : List Rep) : Except String Unit := do
  check (hd.height ≤ maxHeight) "tree.height() <= MAX_HEIGHT"
  check (hd.begin < maxCapacity) "tree.begin() < tree.capacity()"
  check (hd.begin + es.length ≤ maxCapacity) "tree.end() <= tree.capacity()"
  check (hd.begin ≤ hd.begin + es.length) "tree.begin() <= tree.end()"
  let childLength ← checkEdges hd.height es 0
  check (childLength = hd.length)
    s!"child_length != tree.length ({childLength} vs {hd.length})"

mutual
/-- Check a tree: its root, and the nodes below it unless the walk is shallow. -/
def checkValid (shallow exhaustive : Bool) : Rep → Except String Unit
  | .leaf _ => check false "tree.as_rep().is_btree()"
  | .node hd es => do
    checkNode hd es
    if (!shallow || exhaustive) ∧ 0 < hd.height then
      checkValidAll shallow exhaustive es
/-- Check a list of trees. -/
def checkValidAll (shallow exhaustive : Bool) : List Rep → Except String Unit
  | [] => pure ()
  | edge :: edges => do
    checkValid shallow exhaustive edge
    checkValidAll shallow exhaustive edges
end

/-- Check the tree of a cord. -/
def Cord.validate (exhaustive : Bool) : Cord Rep → Except String Unit
  | .inline _ => pure ()
  | .tree t => if t.root.isBtree then checkValid false exhaustive t else pure ()

end Checks

section Results

variable {ε α β : Type}

private theorem check_ok_iff {condition : Bool} {text : String} :
    check condition text = .ok () ↔ condition = true := by
  cases condition with
  | false => simp [check]
  | true => simp [check]

private theorem bind_ok_iff {p : Except ε α} {f : α → Except ε β} {b : β} :
    (p >>= f) = .ok b ↔ ∃ a, p = .ok a ∧ f a = .ok b := by
  cases p with
  | error e => simp [bind, Except.bind]
  | ok a => simp [bind, Except.bind]

private theorem check_bind_ok_iff {condition : Bool} {text : String}
    {f : Unit → Except String β} {b : β} :
    (check condition text >>= f) = .ok b ↔ condition = true ∧ f () = .ok b := by
  rw [bind_ok_iff]
  constructor
  · rintro ⟨_, hcheck, hf⟩
    exact ⟨check_ok_iff.mp hcheck, hf⟩
  · rintro ⟨hcheck, hf⟩
    exact ⟨(), check_ok_iff.mpr hcheck, hf⟩

variable [Target] {exhaustive : Bool} {hd : BtreeHeader} {edge : Rep} {es : List Rep} {t : Rep}
  {n m height : ℕ}

omit [Target] in
private theorem checkEdge_ok_iff : checkEdge height edge = .ok () ↔ edge.root.level = height := by
  have hkind : edge.root.isBtree = true ∧ edge.root.level = edge.height + 1 ∨
      edge.root.isBtree = false ∧ edge.root.level = 0 := by
    cases edge with
    | leaf e => exact .inr ⟨by cases e <;> rfl, e.node_level⟩
    | node hd es => exact .inl ⟨rfl, rfl⟩
  rw [checkEdge]
  by_cases hpos : 0 < height
  · simp only [if_pos hpos, check_bind_ok_iff, check_ok_iff, decide_eq_true_eq]
    rcases hkind with ⟨hbtree, hlevel⟩ | ⟨hbtree, hlevel⟩
    · simp only [hbtree, hlevel, true_and]
      omega
    · simp only [hbtree, hlevel, Bool.false_eq_true, false_and, false_iff]
      omega
  · simp only [if_neg hpos, check_ok_iff]
    rcases hkind with ⟨hbtree, hlevel⟩ | ⟨hbtree, hlevel⟩
    · simp only [hbtree, hlevel, Bool.not_true, Bool.false_eq_true, false_iff]
      omega
    · simp only [hbtree, hlevel, Bool.not_false, true_iff]
      omega

private theorem checkEdges_ok_iff (hsum : n + (es.map Rep.length).sum ≤ usizeMax) :
    checkEdges height es n = .ok m ↔
      (∀ t ∈ es, t.root.level = height) ∧ m = n + (es.map Rep.length).sum := by
  induction es generalizing n with
  | nil =>
    rw [checkEdges]
    simp [pure, Except.pure, eq_comm]
  | cons t es ih =>
    rw [List.map_cons, List.sum_cons] at hsum
    rw [checkEdges, bind_ok_iff, addUsize_of_le (by omega)]
    rw [ih (by omega), List.map_cons, List.sum_cons, List.forall_mem_cons, Nat.add_assoc]
    constructor
    · rintro ⟨_, hedge, hes, rfl⟩
      exact ⟨⟨checkEdge_ok_iff.mp hedge, hes⟩, rfl⟩
    · rintro ⟨⟨hedge, hes⟩, rfl⟩
      exact ⟨(), checkEdge_ok_iff.mpr hedge, hes, rfl⟩

private theorem checkNode_ok_iff (hne : es ≠ []) (hsum : (es.map Rep.length).sum ≤ usizeMax) :
    checkNode hd es = .ok () ↔ hd.height ≤ maxHeight ∧ hd.begin + es.length ≤ maxCapacity ∧
      (∀ t ∈ es, t.root.level = hd.height) ∧ hd.length = (es.map Rep.length).sum := by
  have hpos := List.length_pos_iff.mpr hne
  have hsum' : 0 + (es.map Rep.length).sum ≤ usizeMax := by rwa [Nat.zero_add]
  simp only [checkNode, check_bind_ok_iff, decide_eq_true_eq]
  rw [bind_ok_iff]
  simp only [checkEdges_ok_iff hsum', check_ok_iff, decide_eq_true_eq, Nat.zero_add]
  constructor
  · rintro ⟨hheight, _, hend, _, _, ⟨hlevels, rfl⟩, hlength⟩
    exact ⟨hheight, hend, hlevels, hlength.symm⟩
  · rintro ⟨hheight, hend, hlevels, hlength⟩
    exact ⟨hheight, by omega, hend, Nat.le_add_right _ _, _, ⟨hlevels, rfl⟩, hlength.symm⟩

private theorem checkValidAll_ok_iff {shallow : Bool} :
    checkValidAll shallow exhaustive es = .ok () ↔
      ∀ t ∈ es, checkValid shallow exhaustive t = .ok () := by
  induction es with
  | nil => simp [checkValidAll, pure, Except.pure]
  | cons t es ih =>
    rw [checkValidAll, bind_ok_iff, List.forall_mem_cons, ih]
    constructor
    · rintro ⟨_, ht, hes⟩
      exact ⟨ht, hes⟩
    · rintro ⟨ht, hes⟩
      exact ⟨(), ht, hes⟩

open Rep.Valid in
/-- The walk over a whole tree finds nothing exactly when the tree is valid, if its data edges are
and its nodes are not empty. -/
theorem Rep.checkValid_ok_iff (hedges : ∀ e ∈ t.leaves, e.Valid)
    (hnodes : t.All (fun _ ↦ True) fun _ es ↦ es ≠ [] ∧ (es.map Rep.length).sum ≤ usizeMax) :
    checkValid false exhaustive t = .ok () ↔ ∃ k ≤ maxHeight, t.Valid (k + 1) := by
  induction t using RoseTree.induction with
  | hleaf e =>
    rw [checkValid, check_ok_iff]
    simp
  | hnode hd es ih =>
    obtain ⟨⟨hne, hsum⟩, hbelow⟩ := (RoseTree.all_node hd es).mp hnodes
    have hedges' : ∀ t ∈ es, ∀ e ∈ t.leaves, e.Valid := by
      intro t ht e he
      apply hedges
      rw [RoseTree.leaves_node]
      exact List.mem_flatMap_of_mem ht he
    have hchildren : ∀ t ∈ es, (checkValid false exhaustive t = .ok () ↔
        ∃ k ≤ maxHeight, Rep.Valid (k + 1) t) :=
      fun t ht ↦ ih t ht (hedges' t ht) (hbelow t ht)
    rw [checkValid, bind_ok_iff]
    constructor
    · rintro ⟨_, hnode, hrest⟩
      obtain ⟨hheight, hend, hlevels, hlength⟩ := (checkNode_ok_iff hne hsum).mp hnode
      refine ⟨hd.height, hheight, node_iff.mpr ⟨rfl, hne, hend, hlength, fun t ht ↦ ?_⟩⟩
      have hlevel := hlevels t ht
      by_cases hpos : 0 < hd.height
      · rw [if_pos ⟨rfl, hpos⟩, checkValidAll_ok_iff] at hrest
        obtain ⟨k, _, hvalid⟩ := (hchildren t ht).mp (hrest t ht)
        rw [← hlevel, hvalid.root_level]
        exact hvalid
      · have hzero : hd.height = 0 := Nat.eq_zero_of_not_pos hpos
        rw [hzero] at hlevel ⊢
        cases t with
        | leaf e => exact zero_iff.mpr ⟨e, rfl, hedges' _ ht e (by simp)⟩
        | node hd' es' => simp [Rep.root, Node.level] at hlevel
    · rintro ⟨k, hk, hvalid⟩
      obtain ⟨heq, -, hend, hlength, hes⟩ := node_iff.mp hvalid
      obtain rfl : k = hd.height := Nat.succ.inj heq
      have hlevels : ∀ t ∈ es, (Rep.root t).level = hd.height :=
        fun t ht ↦ (hes t ht).root_level
      refine ⟨(), (checkNode_ok_iff hne hsum).mpr ⟨hk, hend, hlevels, hlength⟩, ?_⟩
      by_cases hpos : 0 < hd.height
      · rw [if_pos ⟨rfl, hpos⟩, checkValidAll_ok_iff]
        intro t ht
        obtain ⟨k, hheight⟩ := Nat.exists_eq_add_of_lt hpos
        have hvalid := hes t ht
        rw [hheight, Nat.zero_add] at hvalid
        exact (hchildren t ht).mpr ⟨k, by omega, hvalid⟩
      · rw [if_neg fun hif ↦ hpos hif.2]
        rfl

/-- A valid tree has what the walk takes for granted. -/
private theorem Rep.Valid.all_plain {k : ℕ} (ht : t.Valid k) (hlen : t.length ≤ usizeMax) :
    t.All (fun _ ↦ True) fun _ es ↦ es ≠ [] ∧ (es.map Rep.length).sum ≤ usizeMax := by
  induction t using RoseTree.induction generalizing k with
  | hleaf e => exact (RoseTree.all_leaf e).mpr trivial
  | hnode hd es ih =>
    obtain ⟨-, hne, -, hlength, hes⟩ := node_iff.mp ht
    rw [Rep.length_node, hlength] at hlen
    refine (RoseTree.all_node hd es).mpr ⟨⟨hne, hlen⟩, fun t ht ↦ ih t ht (hes t ht) ?_⟩
    exact (List.single_le_sum (by simp) _ (List.mem_map_of_mem ht)).trans hlen

/-- The walk finds nothing in a valid cord. -/
theorem Cord.validate_eq_ok {c : Cord Rep} (hc : c.Valid) (hlen : c.len ≤ usizeMax) :
    c.validate exhaustive = .ok () := by
  cases c with
  | inline d => rfl
  | tree t =>
    obtain ⟨k, hk, ht⟩ := hc
    cases t with
    | leaf e => cases e <;> rfl
    | node hd es =>
      have hnodes := ht.all_plain hlen
      obtain ⟨rfl, -⟩ := Rep.Valid.node_iff.mp ht
      have hbtree : (Rep.root (.node hd es)).isBtree = true := rfl
      rw [Cord.validate, if_pos hbtree]
      exact (Rep.checkValid_ok_iff ht.leaves_valid hnodes).mpr ⟨hd.height, Nat.le_sub_one_of_lt hk, ht⟩

/-- A cord whose data edges are valid, and whose nodes are not empty, is valid exactly when the walk
finds nothing. -/
theorem Cord.validate_iff (hedges : ∀ e ∈ t.leaves, e.Valid)
    (hnodes : t.All (fun _ ↦ True) fun _ es ↦ es ≠ [] ∧ (es.map Rep.length).sum ≤ usizeMax) :
    (Cord.tree t).validate exhaustive = .ok () ↔ (Cord.tree t).Valid := by
  cases t with
  | leaf e =>
    have hvalid : (Cord.tree (.leaf e)).Valid :=
      ⟨0, Nat.zero_le _, Rep.Valid.zero_iff.mpr ⟨e, rfl, hedges e (by simp)⟩⟩
    cases e <;> exact iff_of_true rfl hvalid
  | node hd es =>
    have hbtree : (Rep.root (.node hd es)).isBtree = true := rfl
    rw [validate, if_pos hbtree, Rep.checkValid_ok_iff hedges hnodes]
    constructor
    · rintro ⟨k, hk, hvalid⟩
      exact ⟨k + 1, Nat.succ_le_of_lt (Nat.lt_of_le_of_lt hk (by decide)), hvalid⟩
    · rintro ⟨k, hk, hvalid⟩
      obtain ⟨rfl, -⟩ := Rep.Valid.node_iff.mp hvalid
      exact ⟨hd.height, Nat.le_sub_one_of_lt hk, hvalid⟩

/-- The tree of two flats with a length that is not theirs. -/
def longPair : Rep :=
  .node ⟨2, 4, 0, 0⟩ [.leaf (.whole 0 (.flat 6 [1, 2])), .leaf (.whole 1 (.flat 6 [3]))]

omit [Target] in
/-- The walk finds a node whose length is not that of its edges. -/
theorem Cord.validate_iff_longPair :
    letI : Target := ⟨64, .inr rfl⟩
    (Cord.tree longPair).validate false =
      .error "CordRepBtree::check_valid() FAILED: child_length != tree.length (3 vs 4)" ∧
    ¬(Cord.tree longPair).Valid := by
  let _ : Target := ⟨64, .inr rfl⟩
  have hedges : ∀ e ∈ longPair.leaves, e.Valid := holding_sharedPair.valid.leaves_valid
  have hnodes : longPair.All (fun _ ↦ True) fun _ es ↦ es ≠ [] ∧
      (es.map Rep.length).sum ≤ usizeMax := by
    simp [longPair]
    decide
  refine ⟨by decide, fun hvalid ↦ ?_⟩
  have hok : (Cord.tree longPair).validate false = .ok () :=
    (Cord.validate_iff hedges hnodes).mpr hvalid
  cases hok

end Results

end CordRs
