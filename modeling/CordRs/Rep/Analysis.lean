import CordRs.RefHeap.Share
import CordRs.Rep.View

/-!
# Memory accounting

The memory of a cord is counted in three ways over the nodes its tree leads to: every path to a node
counts it, every distinct node counts once, or every path counts a node with the product of the
inverse reference counts along it. The total is a rational number here; the source keeps it in
floating point and truncates it at the end.

## Main definitions

* `CordRs.Analysis`, `CordRs.Analysis.run`.
* `CordRs.Node.allocatedSize`: the size of a node.

## Main results

* `CordRs.Analysis.analyzeBtree_eq`: an analysis adds up the visits of a tree.
* `CordRs.Analysis.conserves_memory`: the fair shares of all cords add up to the memory in use.
-/

namespace CordRs

open RefHeap
open scoped BigOperators

section Sizes

variable [Target]

/-- The size of the header of a node. -/
def repSize : ℕ := Target.bits / 8 + 8

/-- The size of a substring: a header, an offset and a pointer. -/
def substringSize : ℕ := repSize + 2 * (Target.bits / 8)

/-- The size of a btree node: a header and the pointers to its edges. -/
def btreeSize : ℕ := repSize + maxCapacity * (Target.bits / 8)

/-- The size counted for an external besides its bytes. -/
def externalRepSize : ℕ := repSize + 3 * (Target.bits / 8)

/-- The size of a flat with its capacity, or of an external with the allocation it keeps. -/
def Payload.allocatedSize : Payload → ℕ
  | flat tag _ => tagToAllocatedSize tag
  | external data allocation => allocation.getD data.length + externalRepSize

/-- The size of a node. -/
def Node.allocatedSize : Node → ℕ
  | payload p => p.allocatedSize
  | substring _ _ _ => substringSize
  | btree _ => btreeSize

end Sizes

/-- How shared nodes are counted. -/
inductive Mode where
  | total
  | totalMorePrecise
  | fairShare
  deriving Repr, DecidableEq

/-- The sum so far, and the addresses counted when every node counts once. -/
structure Analysis where
  mode : Mode
  total : ℚ
  counted : Finset Addr

namespace Analysis

/-- The fraction of a node below one with the fraction `frac`. -/
def fraction (mode : Mode) (refcount : Addr → ℕ) (rep : Addr) (frac : ℚ) : ℚ :=
  if mode = .fairShare then
    if refcount rep = 1 then frac else frac / refcount rep
  else
    1

/-- Count a node. -/
def add (s : Analysis) (size : ℕ) (rep : Addr) (frac : ℚ) : Analysis :=
  match s.mode with
  | .total => { s with total := s.total + size }
  | .fairShare => { s with total := s.total + size * frac }
  | .totalMorePrecise =>
    if rep ∈ s.counted then
      s
    else
      { s with total := s.total + size, counted := insert rep s.counted }

section Run

variable [Target]

/-- Count a data edge, and the flat or external behind a substring. -/
def analyzeDataEdge (refcount : Addr → ℕ) (s : Analysis) (frac : ℚ) : Edge → Analysis
  | .whole a p => s.add p.allocatedSize a frac
  | .part a _ _ child p =>
    let s := s.add substringSize a frac
    s.add p.allocatedSize child (fraction s.mode refcount child frac)

/-- Count the edges of a leaf node. -/
def analyzeDataEdges (refcount : Addr → ℕ) (s : Analysis) (frac : ℚ) :
    List Rep → Except Fault Analysis
  | [] => .ok s
  | .leaf e :: edges => do
    let s := analyzeDataEdge refcount s (fraction s.mode refcount e.addr frac) e
    analyzeDataEdges refcount s frac edges
  | .node _ _ :: _ => .error .unreachable

mutual
/-- Count a btree node and everything below it. -/
def analyzeBtree (refcount : Addr → ℕ) (s : Analysis) (frac : ℚ) : Rep → Except Fault Analysis
  | .leaf _ => .error .unreachable
  | .node hd edges =>
    let s := s.add btreeSize hd.addr frac
    if 0 < hd.height then
      analyzeBtrees refcount s frac edges
    else
      analyzeDataEdges refcount s frac edges
/-- Count the edges of an inner node. -/
def analyzeBtrees (refcount : Addr → ℕ) (s : Analysis) (frac : ℚ) :
    List Rep → Except Fault Analysis
  | [] => .ok s
  | edge :: edges => do
    let s ← analyzeBtree refcount s (fraction s.mode refcount edge.addr frac) edge
    analyzeBtrees refcount s frac edges
end

/-- The memory of a tree. -/
def run (mode : Mode) (refcount : Addr → ℕ) (rep : Rep) : Except Fault ℚ := do
  let s : Analysis := ⟨mode, 0, ∅⟩
  let frac := fraction mode refcount rep.addr 1
  let s ←
    match rep with
    | .leaf e => pure (analyzeDataEdge refcount s frac e)
    | .node _ _ => analyzeBtree refcount s frac rep
  pure s.total

end Run

/-! ### The visits of an analysis -/

/-- A node counted: its size, its address and its fraction. -/
structure Visit where
  size : ℕ
  addr : Addr
  frac : ℚ

/-- Count the nodes visited. -/
def addAll (s : Analysis) (vs : List Visit) : Analysis :=
  vs.foldl (fun s v ↦ s.add v.size v.addr v.frac) s

theorem addAll_append (s : Analysis) (vs us : List Visit) :
    s.addAll (vs ++ us) = (s.addAll vs).addAll us := List.foldl_append

theorem mode_add (s : Analysis) (size : ℕ) (rep : Addr) (frac : ℚ) :
    (s.add size rep frac).mode = s.mode := by
  unfold add
  split <;> first | rfl | split_ifs <;> rfl

@[simp] theorem mode_addAll (s : Analysis) (vs : List Visit) : (s.addAll vs).mode = s.mode := by
  induction vs generalizing s with
  | nil => rfl
  | cons v vs ih => exact (ih _).trans (s.mode_add _ _ _)

section Visits

variable [Target] {fr : Addr → ℚ → ℚ} {s : Analysis} {frac : ℚ} {h : Heap Node} {t : Rep}
  {refcount : Addr → ℕ} {k : ℕ}

/-- The visits of a data edge with the given fraction. -/
def edgeVisits (fr : Addr → ℚ → ℚ) (frac : ℚ) : Edge → List Visit
  | .whole a p => [⟨p.allocatedSize, a, frac⟩]
  | .part a _ _ child p => [⟨substringSize, a, frac⟩, ⟨p.allocatedSize, child, fr child frac⟩]

mutual
/-- The visits of a tree, when `fr` gives the fractions of its nodes. -/
def visits (fr : Addr → ℚ → ℚ) (frac : ℚ) : Rep → List Visit
  | .leaf e => edgeVisits fr frac e
  | .node hd es => ⟨btreeSize, hd.addr, frac⟩ :: visitsAux fr frac es
/-- The visits of the edges of a node. -/
def visitsAux (fr : Addr → ℚ → ℚ) (frac : ℚ) : List Rep → List Visit
  | [] => []
  | t :: ts => visits fr (fr t.addr frac) t ++ visitsAux fr frac ts
end

private theorem visitsAux_eq (ts : List Rep) :
    visitsAux fr frac ts = ts.flatMap fun t ↦ visits fr (fr t.addr frac) t := by
  induction ts with
  | nil => rfl
  | cons t ts ih => rw [visitsAux, ih, List.flatMap_cons]

@[simp] theorem visits_leaf (e : Edge) : visits fr frac (.leaf e) = edgeVisits fr frac e := by
  rw [visits]

@[simp] theorem visits_node (hd : BtreeHeader) (es : List Rep) :
    visits fr frac (.node hd es) = ⟨btreeSize, hd.addr, frac⟩ ::
      es.flatMap fun t ↦ visits fr (fr t.addr frac) t := by
  rw [visits, visitsAux_eq]

theorem analyzeDataEdge_eq (e : Edge) : analyzeDataEdge refcount s frac e =
    s.addAll (edgeVisits (fraction s.mode refcount) frac e) := by
  cases e with
  | whole a p => rfl
  | part a length start child p => simp only [analyzeDataEdge, mode_add]; rfl

private theorem analyzeDataEdges_eq {ts : List Rep} (hts : ∀ t ∈ ts, t.Valid 0) :
    analyzeDataEdges refcount s frac ts = .ok (s.addAll (ts.flatMap fun t ↦
      visits (fraction s.mode refcount) (fraction s.mode refcount t.addr frac) t)) := by
  induction ts generalizing s with
  | nil => rfl
  | cons t ts ih =>
    obtain ⟨e, rfl, -⟩ := Rep.Valid.zero_iff.mp (hts t List.mem_cons_self)
    rw [analyzeDataEdges, analyzeDataEdge_eq, ih fun t ht ↦ hts t (List.mem_cons_of_mem _ ht),
      mode_addAll, ← addAll_append]
    simp

/-- An analysis counts the visits of a tree. -/
theorem analyzeBtree_eq (ht : t.Valid (k + 1)) : analyzeBtree refcount s frac t =
    .ok (s.addAll (visits (fraction s.mode refcount) frac t)) := by
  induction k generalizing s frac t with
  | zero =>
    obtain ⟨hd, es, rfl⟩ := ht.exists_node
    obtain ⟨hk, -, -, -, hes⟩ := Rep.Valid.node_iff.mp ht
    have hzero : hd.height = 0 := (Nat.add_right_cancel hk).symm
    rw [analyzeBtree, if_neg (by omega), analyzeDataEdges_eq (hzero ▸ hes), mode_add, visits_node]
    rfl
  | succ k ih =>
    obtain ⟨hd, es, rfl⟩ := ht.exists_node
    obtain ⟨hk, -, -, -, hes⟩ := Rep.Valid.node_iff.mp ht
    have hheight : hd.height = k + 1 := (Nat.add_right_cancel hk).symm
    have htrees : ∀ {ts : List Rep} {s : Analysis}, (∀ t ∈ ts, t.Valid (k + 1)) →
        analyzeBtrees refcount s frac ts = .ok (s.addAll (ts.flatMap fun t ↦
          visits (fraction s.mode refcount) (fraction s.mode refcount t.addr frac) t)) := by
      intro ts
      induction ts with
      | nil => intro s _; rfl
      | cons t ts ihts =>
        intro s hts
        rw [analyzeBtrees, ih (hts t List.mem_cons_self), ok_bind,
          ihts fun t ht ↦ hts t (List.mem_cons_of_mem _ ht), mode_addAll, ← addAll_append,
          List.flatMap_cons]
    rw [analyzeBtree, if_pos (by omega), htrees (hheight ▸ hes), mode_add, visits_node]
    rfl

theorem run_eq {mode : Mode} (ht : t.Valid k) : run mode refcount t =
    .ok (addAll ⟨mode, 0, ∅⟩ (visits (fraction mode refcount)
      (fraction mode refcount t.addr 1) t)).total := by
  cases t with
  | leaf e => rw [run, analyzeDataEdge_eq, visits_leaf]; rfl
  | node hd es =>
    obtain ⟨rfl, -⟩ := Rep.Valid.node_iff.mp ht
    simp only [run, analyzeBtree_eq ht]
    rfl

end Visits

/-! ### What the visits add up to -/

section Sums

variable {s : Analysis} {h : Heap Node}

private theorem total_addAll_of_total (hs : s.mode = .total) (vs : List Visit) :
    (s.addAll vs).total = s.total + (vs.map fun v ↦ (v.size : ℚ)).sum := by
  induction vs generalizing s with
  | nil => simp [addAll]
  | cons v vs ih =>
    have hadd : s.add v.size v.addr v.frac = { s with total := s.total + v.size } := by
      simp only [add, hs]
    have hmode : (s.add v.size v.addr v.frac).mode = s.mode := s.mode_add _ _ _
    change ((s.add v.size v.addr v.frac).addAll vs).total = _
    rw [ih (hmode.trans hs), hadd, List.map_cons, List.sum_cons, add_assoc]

private theorem total_addAll_of_fairShare (hs : s.mode = .fairShare) (vs : List Visit) :
    (s.addAll vs).total = s.total + (vs.map fun v ↦ (v.size : ℚ) * v.frac).sum := by
  induction vs generalizing s with
  | nil => simp [addAll]
  | cons v vs ih =>
    have hadd : s.add v.size v.addr v.frac =
        { s with total := s.total + v.size * v.frac } := by
      simp only [add, hs]
    have hmode : (s.add v.size v.addr v.frac).mode = s.mode := s.mode_add _ _ _
    change ((s.add v.size v.addr v.frac).addAll vs).total = _
    rw [ih (hmode.trans hs), hadd, List.map_cons, List.sum_cons, add_assoc]

/-- When every node counts once the sum is over the distinct addresses visited. -/
private theorem total_addAll_of_totalMorePrecise (hs : s.mode = .totalMorePrecise)
    {w : Addr → ℚ} (htotal : s.total = ∑ a ∈ s.counted, w a) {vs : List Visit}
    (hvs : ∀ v ∈ vs, (v.size : ℚ) = w v.addr) :
    (s.addAll vs).total = ∑ a ∈ s.counted ∪ (vs.map Visit.addr).toFinset, w a := by
  induction vs generalizing s with
  | nil => simpa [addAll] using htotal
  | cons v vs ih =>
    have hrest : ∀ u ∈ vs, (u.size : ℚ) = w u.addr := fun u hu ↦
      hvs u (List.mem_cons_of_mem _ hu)
    have hmode : (s.add v.size v.addr v.frac).mode = s.mode := s.mode_add _ _ _
    change ((s.add v.size v.addr v.frac).addAll vs).total = _
    rw [List.map_cons, List.toFinset_cons]
    by_cases hmem : v.addr ∈ s.counted
    · have hadd : s.add v.size v.addr v.frac = s := by simp only [add, hs, if_pos hmem]
      rw [hadd, ih hs htotal hrest, Finset.union_insert,
        Finset.insert_eq_of_mem (Finset.mem_union_left _ hmem)]
    · have hadd : s.add v.size v.addr v.frac =
          { s with total := s.total + v.size, counted := insert v.addr s.counted } := by
        simp only [add, hs, if_neg hmem]
      have hsum : (s.add v.size v.addr v.frac).total =
          ∑ a ∈ (s.add v.size v.addr v.frac).counted, w a := by
        rw [hadd]
        change s.total + (v.size : ℚ) = ∑ a ∈ insert v.addr s.counted, w a
        rw [Finset.sum_insert hmem, htotal, hvs v List.mem_cons_self, add_comm]
      rw [ih (hmode.trans hs) hsum hrest, hadd, Finset.insert_union, Finset.union_insert]

end Sums

section Memory

variable [Target] {h : Heap Node} {R : Multiset Addr} {t : Rep} {fr : Addr → ℚ → ℚ} {frac : ℚ}
  {k : ℕ}

/-- The weight of a node is its size. -/
def nodeWeight (n : Node) : ℚ := n.allocatedSize

private theorem weight_eq {a : Addr} {n : Node} (ha : h.node? a = some n) :
    h.weight nodeWeight a = n.allocatedSize := Heap.weight_of_node? ha

/-- The visits of a held tree are of live nodes with their sizes. -/
private theorem visits_held (ht : t.Held h) :
    ∀ v ∈ visits fr frac t, (v.size : ℚ) = h.weight nodeWeight v.addr := by
  induction t using RoseTree.induction generalizing frac with
  | hleaf e =>
    obtain ⟨hnode, hbase⟩ := Rep.held_leaf.mp ht
    intro v hv
    cases e with
    | whole a p =>
      rw [visits_leaf] at hv
      obtain rfl := List.mem_singleton.mp hv
      exact (weight_eq hnode).symm
    | part a length start child p =>
      rw [visits_leaf] at hv
      rcases List.mem_cons.mp hv with rfl | hv
      · exact (weight_eq hnode).symm
      · obtain rfl := List.mem_singleton.mp hv
        exact (weight_eq hbase).symm
  | hnode hd es ih =>
    obtain ⟨hnode, hes⟩ := Rep.held_node.mp ht
    intro v hv
    rw [visits_node] at hv
    rcases List.mem_cons.mp hv with rfl | hv
    · exact (weight_eq hnode).symm
    · obtain ⟨s, hs, hv⟩ := List.mem_flatMap.mp hv
      exact ih s hs (hes s hs) v hv

private theorem reach_singleton {a : Addr} {n : Node} {x : Addr}
    (hn : h.node? a = some n) (hx : Reach h {a} x) :
    x = a ∨ ∃ c ∈ n.children, Reach h {c} x := by
  induction hx with
  | root ha => exact .inl (Multiset.mem_singleton.mp ha)
  | child hb hm hc ih =>
    rcases ih with rfl | ⟨c, hc', hr⟩
    · obtain rfl := Option.some.inj (hn.symm.trans hm)
      exact .inr ⟨_, hc, .root (Multiset.mem_singleton_self _)⟩
    · exact .inr ⟨c, hc', hr.child hm hc⟩

/-- The nodes visited are those reachable from the root. -/
private theorem mem_visits_iff (ht : t.Held h) {x : Addr} :
    x ∈ (visits fr frac t).map Visit.addr ↔ Reach h {t.addr} x := by
  have hself : ∀ a, Reach h {a} a := fun a ↦ .root (Multiset.mem_singleton_self a)
  have hstep : ∀ {a c : Addr} {n : Node}, h.node? a = some n → c ∈ n.children →
      Reach h {c} x → Reach h {a} x := fun {a c n} hn hc hx ↦
    Reach.trans ((hself a).child hn hc) hx
  have hleafless : ∀ {a : Addr} {p : Payload}, h.node? a = some (.payload p) →
      (Reach h {a} x ↔ x = a) := by
    intro a p hp
    refine ⟨fun hx ↦ ?_, fun hx ↦ hx ▸ hself a⟩
    rcases reach_singleton hp hx with rfl | ⟨c, hc, -⟩
    · rfl
    · simp [Node.children] at hc
  induction t using RoseTree.induction generalizing frac with
  | hleaf e =>
    obtain ⟨hnode, hbase⟩ := Rep.held_leaf.mp ht
    cases e with
    | whole a p =>
      rw [Rep.addr_leaf, hleafless hnode]
      simp [edgeVisits, Edge.addr]
    | part a length start child p =>
      have hchild : Reach h {child} x ↔ x = child := hleafless hbase
      simp only [visits_leaf, edgeVisits, List.map_cons, List.map_nil, List.mem_cons,
        List.not_mem_nil, or_false, Rep.addr_leaf, Edge.addr, ← hchild]
      constructor
      · rintro (rfl | hx)
        · exact hself _
        · exact hstep hnode (List.mem_singleton_self child) hx
      · intro hx
        rcases reach_singleton hnode hx with rfl | ⟨c, hc, hx⟩
        · exact .inl rfl
        · exact .inr (List.mem_singleton.mp hc ▸ hx)
  | hnode hd es ih =>
    obtain ⟨hnode, hes⟩ := Rep.held_node.mp ht
    rw [visits_node, List.map_cons, List.mem_cons, List.map_flatMap, List.mem_flatMap]
    constructor
    · rintro (rfl | ⟨s, hs, hx⟩)
      · exact hself _
      · exact hstep hnode (List.mem_map_of_mem hs) ((ih s hs (hes s hs)).mp hx)
    · intro hx
      rcases reach_singleton hnode hx with rfl | ⟨c, hc, hx⟩
      · exact .inl rfl
      · obtain ⟨s, hs, rfl⟩ := List.mem_map.mp hc
        exact .inr ⟨s, hs, (ih s hs (hes s hs)).mpr hx⟩

/-! ### Fair shares -/

variable {refcount : Addr → ℕ}

/-- What a tree adds to a fair share if its root has the fraction one. -/
def treeLoad (refcount : Addr → ℕ) (t : Rep) : ℚ :=
  ((visits (fraction .fairShare refcount) 1 t).map fun v ↦ (v.size : ℚ) * v.frac).sum

omit [Target] in
private theorem fraction_fairShare (a : Addr) (frac : ℚ) :
    fraction .fairShare refcount a frac = frac / refcount a := by
  rw [fraction, if_pos rfl]
  split_ifs with hone
  · rw [hone, Nat.cast_one, div_one]
  · rfl

omit [Target] in
private theorem sum_map_flatMap {α β : Type*} (f : α → List β) (g : β → ℚ) (as : List α) :
    ((as.flatMap f).map g).sum = (as.map fun a ↦ ((f a).map g).sum).sum := by
  induction as with
  | nil => rfl
  | cons a as ih => rw [List.flatMap_cons, List.map_append, List.sum_append, ih]; rfl

/-- The fraction of the root is a factor of all visits. -/
private theorem sum_visits (t : Rep) (frac : ℚ) :
    ((visits (fraction .fairShare refcount) frac t).map fun v ↦ (v.size : ℚ) * v.frac).sum =
      frac * treeLoad refcount t := by
  induction t using RoseTree.induction generalizing frac with
  | hleaf e =>
    cases e with
    | whole a p => simp [treeLoad, edgeVisits, mul_comm]
    | part a length start child p =>
      simp only [treeLoad, visits_leaf, edgeVisits, fraction_fairShare, List.map_cons,
        List.map_nil, List.sum_cons, List.sum_nil]
      ring
  | hnode hd es ih =>
    have hes : ∀ f : ℚ, (es.map fun t ↦ ((visits (fraction .fairShare refcount)
        (fraction .fairShare refcount t.addr f) t).map fun v ↦ (v.size : ℚ) * v.frac).sum) =
        es.map fun t ↦ f * (treeLoad refcount t / refcount t.addr) := fun f ↦
      List.map_congr_left fun t ht ↦ by rw [ih t ht, fraction_fairShare]; ring
    simp only [treeLoad, visits_node, List.map_cons, List.sum_cons, sum_map_flatMap, hes,
      List.sum_map_mul_left]
    ring

private theorem treeLoad_node (hd : BtreeHeader) (es : List Rep) :
    treeLoad refcount (.node hd es) =
      btreeSize + (es.map fun t ↦ treeLoad refcount t / refcount t.addr).sum := by
  rw [treeLoad, visits_node, List.map_cons, List.sum_cons, mul_one, sum_map_flatMap]
  congr 2
  refine List.map_congr_left fun t _ ↦ ?_
  rw [sum_visits, fraction_fairShare]
  ring

private theorem treeLoad_nonneg (t : Rep) : 0 ≤ treeLoad refcount t := by
  induction t using RoseTree.induction with
  | hleaf e =>
    cases e with
    | whole a p => simp [treeLoad, edgeVisits]
    | part a length start child p =>
      have hchild : (0 : ℚ) ≤ p.allocatedSize * (1 / refcount child) :=
        mul_nonneg (Nat.cast_nonneg _) (div_nonneg zero_le_one (Nat.cast_nonneg _))
      have hself : (0 : ℚ) ≤ substringSize := Nat.cast_nonneg _
      simp only [treeLoad, visits_leaf, edgeVisits, fraction_fairShare, List.map_cons,
        List.map_nil, List.sum_cons, List.sum_nil]
      linarith
  | hnode hd es ih =>
    rw [treeLoad_node]
    refine add_nonneg (Nat.cast_nonneg _) (List.sum_nonneg fun x hx ↦ ?_)
    obtain ⟨t, ht, rfl⟩ := List.mem_map.mp hx
    exact div_nonneg (ih t ht) (Nat.cast_nonneg _)

open Classical in
/-- The load of the tree held at an address. -/
private noncomputable def addrLoad (h : Heap Node) (a : Addr) : ℚ :=
  if ha : ∃ t : Rep, t.Held h ∧ t.addr = a then treeLoad h.rc ha.choose else 0

private theorem addrLoad_eq (ht : t.Held h) : addrLoad h t.addr = treeLoad h.rc t := by
  have ha : ∃ s : Rep, s.Held h ∧ s.addr = t.addr := ⟨t, ht, rfl⟩
  rw [addrLoad, dif_pos ha, ha.choose_spec.1.unique ht ha.choose_spec.2]

private theorem addrLoad_nonneg (a : Addr) : 0 ≤ addrLoad h a := by
  unfold addrLoad
  split_ifs
  · exact treeLoad_nonneg _
  · exact le_rfl

private theorem isLoad_addrLoad (ho : Owned h [] R) : IsLoad h nodeWeight (addrLoad h) := by
  intro a n hn
  obtain ⟨t, k, rfl, ht, -⟩ := Rep.exists_rep ho (ho.reach_of_live List.not_mem_nil hn)
  obtain rfl : t.root = n := Option.some.inj (ht.node?.symm.trans hn)
  rw [addrLoad_eq ht]
  cases t with
  | leaf e =>
    cases e with
    | whole a p => simp [treeLoad, edgeVisits, Rep.root, Edge.node, Pointers.children,
        Node.children, nodeWeight, Node.allocatedSize]
    | part a length start child p =>
      have hchild : Rep.Held h (.leaf (.whole child p)) :=
        Rep.held_leaf.mpr ⟨(Rep.held_leaf.mp ht).2, (Rep.held_leaf.mp ht).2⟩
      have hload : addrLoad h child = p.allocatedSize := by
        have := addrLoad_eq hchild
        simpa [treeLoad, edgeVisits, Edge.addr] using this
      simp [treeLoad, edgeVisits, fraction_fairShare, Rep.root, Edge.node, Pointers.children,
        Node.children, nodeWeight, Node.allocatedSize, hload, div_eq_mul_inv]
  | node hd es =>
    rw [treeLoad_node]
    change _ = (btreeSize : ℚ) + ((es.map Rep.addr).map fun c ↦ addrLoad h c / h.rc c).sum
    rw [List.map_map]
    congr 2
    refine List.map_congr_left fun s hs ↦ ?_
    rw [Function.comp_apply, addrLoad_eq ((Rep.held_node.mp ht).2 s hs)]

/-- The fair share of a tree is its load divided by the count of its root. -/
private theorem run_fairShare (ht : t.Valid k) :
    run .fairShare refcount t = .ok (treeLoad refcount t / refcount t.addr) := by
  have htotal := total_addAll_of_fairShare (s := ⟨.fairShare, 0, ∅⟩) rfl
    (visits (fraction .fairShare refcount) (fraction .fairShare refcount t.addr 1) t)
  rw [run_eq ht, htotal, sum_visits, fraction_fairShare]
  congr 1
  ring

/-- The nodes visited are those reachable from the root, and they have their sizes. -/
private theorem run_of_ne_fairShare (mode : Mode) (hmode : mode ≠ .fairShare) (ht : t.Held h)
    (hv : t.Valid k) (refcount : Addr → ℕ) : ∃ vs : List Visit,
      (∀ v ∈ vs, (v.size : ℚ) = h.weight nodeWeight v.addr) ∧
      (∀ x, x ∈ vs.map Visit.addr ↔ Reach h {t.addr} x) ∧
      vs = visits (fun _ _ ↦ 1) 1 t ∧
      run mode refcount t = .ok (addAll ⟨mode, 0, ∅⟩ vs).total := by
  have hone : fraction mode refcount = fun _ _ ↦ 1 := by
    funext a frac
    exact if_neg hmode
  refine ⟨visits (fun _ _ ↦ 1) 1 t, visits_held ht, fun x ↦ mem_visits_iff ht, rfl, ?_⟩
  rw [run_eq hv, hone]

private theorem lt_size_of_reach (ho : Owned h [] R) (hr : t.addr ∈ R) {x : Addr}
    (hx : Reach h {t.addr} x) : x < h.size := by
  obtain ⟨-, n, hn⟩ := ho.of_reach (hx.mono (Multiset.singleton_le.mpr hr))
  obtain ⟨r, hc⟩ := Heap.exists_get?_of_node? hn
  exact Heap.lt_size_of_get? hc

open Classical in
/-- The memory with every node counted once is the size of the nodes reachable from the root. -/
private theorem run_totalMorePrecise (ho : Owned h [] R) (ht : t.Held h) (hr : t.addr ∈ R)
    (hv : t.Valid k) : run .totalMorePrecise refcount t =
      .ok (∑ a ∈ (Finset.range h.size).filter (Reach h {t.addr}), h.weight nodeWeight a) := by
  obtain ⟨vs, hsize, hmem, -, hrun⟩ :=
    run_of_ne_fairShare .totalMorePrecise (by decide) ht hv refcount
  rw [hrun, total_addAll_of_totalMorePrecise rfl Finset.sum_empty.symm hsize]
  congr 1
  refine Finset.sum_congr (Finset.ext fun x ↦ ?_) fun _ _ ↦ rfl
  rw [Finset.empty_union, List.mem_toFinset, hmem, Finset.mem_filter, Finset.mem_range]
  exact ⟨fun hx ↦ ⟨lt_size_of_reach ho hr hx, hx⟩, fun hx ↦ hx.2⟩

open Classical in
/-- Counting every path to a node gives at least what counting every node once gives. -/
private theorem run_total (ho : Owned h [] R) (ht : t.Held h) (hr : t.addr ∈ R)
    (hv : t.Valid k) : ∃ total, run .total refcount t = .ok total ∧
      ∑ a ∈ (Finset.range h.size).filter (Reach h {t.addr}), h.weight nodeWeight a ≤ total := by
  obtain ⟨vs, hsize, hmem, -, hrun⟩ :=
    run_of_ne_fairShare .total (by decide) ht hv refcount
  refine ⟨_, hrun, ?_⟩
  have hnonneg : ∀ a, 0 ≤ h.weight nodeWeight a := by
    intro a
    cases ha : h.node? a with
    | none => simp [Heap.weight, ha]
    | some n => exact (weight_eq ha).symm ▸ Nat.cast_nonneg _
  have hset : (Finset.range h.size).filter (Reach h {t.addr}) = (vs.map Visit.addr).toFinset := by
    ext x
    rw [List.mem_toFinset, hmem, Finset.mem_filter, Finset.mem_range]
    exact ⟨fun hx ↦ hx.2, fun hx ↦ ⟨lt_size_of_reach ho hr hx, hx⟩⟩
  have hsum : (vs.map fun v ↦ (v.size : ℚ)).sum =
      ((vs.map Visit.addr).map (h.weight nodeWeight)).sum := by
    rw [List.map_map]
    exact congrArg List.sum (List.map_congr_left hsize)
  rw [total_addAll_of_total rfl, zero_add, hsum, Finset.sum_list_map_count, hset]
  refine Finset.sum_le_sum fun a ha ↦ ?_
  have hcount : 0 < (vs.map Visit.addr).count a :=
    List.count_pos_iff.mpr (List.mem_toFinset.mp ha)
  rw [nsmul_eq_mul]
  exact le_mul_of_one_le_left (hnonneg a) (by exact_mod_cast hcount)

private theorem shares_sum {ts : List Rep} (hts : ∀ t ∈ ts, t.Held h) :
    (ts.map fun t ↦ treeLoad h.rc t / h.rc t.addr).sum =
      ((Multiset.ofList (ts.map Rep.addr)).map fun a ↦ addrLoad h a / h.rc a).sum := by
  rw [Multiset.map_coe, Multiset.sum_coe, List.map_map]
  refine congrArg List.sum (List.map_congr_left fun t ht ↦ ?_)
  rw [Function.comp_apply, addrLoad_eq (hts t ht)]

omit [Target] in
private theorem mapM_ok {α β ε : Type*} {f : α → Except ε β} {g : α → β} {as : List α}
    (has : ∀ a ∈ as, f a = .ok (g a)) : as.mapM f = .ok (as.map g) := by
  induction as with
  | nil => rfl
  | cons a as ih =>
    rw [List.mapM_cons, has a List.mem_cons_self, ih fun b hb ↦ has b (List.mem_cons_of_mem _ hb)]
    rfl

open Classical in
/-- **Memory is conserved.** When the references of a heap all come from the trees `ts`, their fair
shares add up to the size of all nodes of the heap. The fair share of each tree is at most the size
of the nodes reachable from it, which is its memory with every node counted once and at most the
memory over all paths. -/
theorem conserves_memory {ts : List Rep} (ho : Owned h [] (Multiset.ofList (ts.map Rep.addr)))
    (hts : ∀ t ∈ ts, t.Held h) :
    (∃ shares, ts.mapM (run .fairShare h.rc) = .ok shares ∧
      shares.sum = ∑ a ∈ Finset.range h.size, h.weight nodeWeight a) ∧
    ∀ t ∈ ts, ∃ share precise total,
      run .fairShare h.rc t = .ok share ∧
      run .totalMorePrecise h.rc t = .ok precise ∧
      run .total h.rc t = .ok total ∧
      precise = ∑ a ∈ (Finset.range h.size).filter (Reach h {t.addr}), h.weight nodeWeight a ∧
      share ≤ precise ∧ precise ≤ total := by
  have hmem : ∀ t ∈ ts, t.addr ∈ Multiset.ofList (ts.map Rep.addr) := fun t ht ↦
    Multiset.mem_coe.mpr (List.mem_map_of_mem ht)
  have hvalid : ∀ t ∈ ts, ∃ k, t.Valid k := fun t ht ↦
    (hts t ht).valid ho (.root (hmem t ht))
  refine ⟨⟨_, mapM_ok fun t ht ↦ run_fairShare (hvalid t ht).choose_spec, ?_⟩, fun t ht ↦ ?_⟩
  · rw [shares_sum hts]
    exact ho.sum_load (isLoad_addrLoad ho)
  · obtain ⟨k, hv⟩ := hvalid t ht
    obtain ⟨total, hrun, hle⟩ := run_total ho (hts t ht) (hmem t ht) hv
    refine ⟨_, _, total, run_fairShare hv, run_totalMorePrecise ho (hts t ht) (hmem t ht) hv,
      hrun, rfl, ?_, hle⟩
    rw [← addrLoad_eq (hts t ht)]
    exact ho.load_le (isLoad_addrLoad ho) addrLoad_nonneg (hmem t ht)

end Memory

/-! ### A flat shared by two cords -/

/-- A leaf with a flat, a substring of it and the flat again, held by two cords: by one directly, by
the other under an inner node. -/
private def sharedHeap : Heap Node where
  cells := [some ⟨3, .payload (.flat 6 [1, 2])⟩, some ⟨1, .substring 1 1 0⟩,
    some ⟨2, .btree ⟨5, 0, 0, [0, 1, 0]⟩⟩, some ⟨1, .btree ⟨5, 1, 2, [2]⟩⟩]

private def sharedLeaf : Rep :=
  .node ⟨2, 5, 0, 0⟩ [.leaf (.whole 0 (.flat 6 [1, 2])), .leaf (.part 1 1 1 0 (.flat 6 [1, 2])),
    .leaf (.whole 0 (.flat 6 [1, 2]))]

private theorem owned_sharedHeap :
    let _ : Target := ⟨64, .inr rfl⟩
    Owned sharedHeap [] {2, 3} := by
  let _ : Target := ⟨64, .inr rfl⟩
  refine Owned.of_lt_size (by decide) (by decide) (by decide +kernel) fun x n hn ↦ ?_
  obtain _ | _ | _ | _ | x := x
  · obtain rfl := Option.some.inj hn
    exact ⟨[], rfl, ⟨by decide, by decide, by decide, by decide⟩, rfl⟩
  · obtain rfl := Option.some.inj hn
    exact ⟨[_], rfl, ⟨by decide, _, rfl, by decide⟩, rfl⟩
  · obtain rfl := Option.some.inj hn
    exact ⟨[_, _, _], rfl, ⟨by decide, by decide, by decide, by decide⟩, rfl⟩
  · obtain rfl := Option.some.inj hn
    exact ⟨[_], rfl, ⟨by decide, by decide, by decide, by decide⟩, rfl⟩
  · cases hn

private theorem held_sharedLeaf : sharedLeaf.Held sharedHeap := by
  refine Rep.held_node.mpr ⟨rfl, fun t ht ↦ ?_⟩
  simp only [List.mem_cons, List.not_mem_nil, or_false] at ht
  rcases ht with rfl | rfl | rfl <;> exact Rep.held_leaf.mpr ⟨rfl, rfl⟩

open Classical in
/-- Two btree nodes, a substring and a flat, however often they are shared. -/
theorem conserves_memory_shared :
    letI : Target := ⟨64, .inr rfl⟩
    ∃ shares, [sharedLeaf, .node ⟨3, 5, 1, 2⟩ [sharedLeaf]].mapM
        (run .fairShare sharedHeap.rc) = .ok shares ∧ shares.sum = 192 := by
  let _ : Target := ⟨64, .inr rfl⟩
  have hheld : ∀ t ∈ [sharedLeaf, .node ⟨3, 5, 1, 2⟩ [sharedLeaf]], t.Held sharedHeap := by
    intro t ht
    rcases List.mem_pair.mp ht with rfl | rfl
    · exact held_sharedLeaf
    · exact Rep.held_node.mpr ⟨rfl, fun t ht ↦ List.mem_singleton.mp ht ▸ held_sharedLeaf⟩
  obtain ⟨⟨shares, hrun, hsum⟩, -⟩ := conserves_memory owned_sharedHeap hheld
  refine ⟨shares, hrun, hsum.trans ?_⟩
  have hweight : sharedHeap.weight nodeWeight 0 = 32 ∧ sharedHeap.weight nodeWeight 1 = 32 ∧
      sharedHeap.weight nodeWeight 2 = 64 ∧ sharedHeap.weight nodeWeight 3 = 64 := by
    refine ⟨?_, ?_, ?_, ?_⟩ <;> exact (weight_eq rfl).trans (by decide)
  obtain ⟨h₀, h₁, h₂, h₃⟩ := hweight
  change ∑ a ∈ Finset.range 4, sharedHeap.weight nodeWeight a = 192
  rw [Finset.sum_range_succ, Finset.sum_range_succ, Finset.sum_range_succ,
    Finset.sum_range_one, h₀, h₁, h₂, h₃]
  norm_num

end Analysis

end CordRs
