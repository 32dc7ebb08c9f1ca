import CordRs.LevelTree
import CordRs.Rep.Release
import Mathlib.Algebra.Order.Group.Multiset
import Mathlib.Tactic.Abel

/-!
# Trees along a spine

The btree operations go down along the first or the last edges of a tree and work back up. A tree
is then a list of crumbs, the btree nodes passed on the way with their other edges, and the
subtree below them. `Owned.openSpine` opens the nodes of a spine that nothing else refers to, and
`Owned.closeSpine` closes a spine of opened nodes once the tree is valid again.

## Main definitions

* `CordRs.Crumb`, `CordRs.plug`, `CordRs.SpineHeld`, `CordRs.SpineValid`.

## Main results

* `CordRs.plug_held`, `CordRs.plug_valid`: what a tree being held and valid means along a spine.
* `CordRs.openSpine`, `CordRs.closeSpine`.
-/

namespace CordRs

open RefHeap LevelTree

/-- A btree node on a spine, with its edges other than the outermost one. -/
structure Crumb where
  hd : BtreeHeader
  rest : List Rep

/-- The tree with a spine, from the bottom, and the subtree below it. -/
def plug (back : Bool) : List Crumb → Rep → Rep
  | [], s => s
  | c :: cs, s => plug back cs (.node c.hd (join back c.rest [s]))

/-- The addresses of the nodes of a spine. -/
def spineAddrs (cs : List Crumb) : List Addr := cs.map fun c ↦ c.hd.addr

@[simp] theorem length_spineAddrs (cs : List Crumb) : (spineAddrs cs).length = cs.length :=
  List.length_map _

@[simp] theorem edgesLength_join {back : Bool} (es us : List Edge) :
    edgesLength (join back es us) = edgesLength es + edgesLength us := by
  simp [edgesLength]

@[simp] theorem edgesLength_outward {back : Bool} (es : List Edge) :
    edgesLength (outward back es) = edgesLength es := by
  simp [edgesLength]

/-- The references of the nodes of a spine other than those along it. -/
def sideRefs (cs : List Crumb) : List Addr := cs.flatMap fun c ↦ c.rest.map Rep.addr

/-- The first slots of the windows of a tree, and its data edges. -/
def Rep.outline (t : Rep) : RoseTree ℕ Edge := t.map BtreeHeader.begin id

@[simp] theorem Rep.outline_leaf (e : Edge) : Rep.outline (.leaf e) = .leaf e := by simp [outline]

@[simp] theorem Rep.outline_node (hd : BtreeHeader) (es : List Rep) :
    Rep.outline (.node hd es) = .node hd.begin (es.map Rep.outline) := by
  rw [outline, RoseTree.map_node]
  rfl

@[simp] theorem Rep.leaves_outline (t : Rep) : t.outline.leaves = t.leaves := by simp [outline]

/-- The window of a node of a spine, and its other edges. -/
def Crumb.window (c : Crumb) : ℕ × List Rep := (c.hd.begin, c.rest)

/-- The outline of a spine and the trees beside it. -/
def spineOutline (cs : List Crumb) : Spine ℕ Edge :=
  cs.map fun c ↦ (c.hd.begin, c.rest.map Rep.outline)

@[simp] theorem spineAddrs_nil : spineAddrs [] = [] := rfl

@[simp] theorem spineAddrs_cons (c : Crumb) (cs : List Crumb) :
    spineAddrs (c :: cs) = c.hd.addr :: spineAddrs cs := rfl

@[simp] theorem spineAddrs_append (cs ds : List Crumb) :
    spineAddrs (cs ++ ds) = spineAddrs cs ++ spineAddrs ds := List.map_append

@[simp] theorem sideRefs_nil : sideRefs [] = [] := rfl

@[simp] theorem sideRefs_cons (c : Crumb) (cs : List Crumb) :
    sideRefs (c :: cs) = c.rest.map Rep.addr ++ sideRefs cs := rfl

@[simp] theorem sideRefs_append (cs ds : List Crumb) :
    sideRefs (cs ++ ds) = sideRefs cs ++ sideRefs ds := List.flatMap_append

@[simp] theorem spineOutline_nil : spineOutline [] = [] := rfl

@[simp] theorem spineOutline_cons (c : Crumb) (cs : List Crumb) :
    spineOutline (c :: cs) = (c.hd.begin, c.rest.map Rep.outline) :: spineOutline cs := rfl

@[simp] theorem spineOutline_append (cs ds : List Crumb) :
    spineOutline (cs ++ ds) = spineOutline cs ++ spineOutline ds := List.map_append

@[simp] theorem length_spineOutline (cs : List Crumb) : (spineOutline cs).length = cs.length :=
  List.length_map _

theorem spineOutline_congr {cs ds : List Crumb} (h : ds.map Crumb.window = cs.map Crumb.window) :
    spineOutline ds = spineOutline cs := by
  have := congrArg (List.map (Prod.map id (List.map Rep.outline))) h
  rwa [List.map_map, List.map_map] at this

section Plug

variable {back : Bool} {cs ds : List Crumb} {s : Rep}

@[simp] theorem plug_nil (s : Rep) : plug back [] s = s := rfl

theorem plug_append (cs ds : List Crumb) (s : Rep) :
    plug back (cs ++ ds) s = plug back ds (plug back cs s) := by
  induction cs generalizing s with
  | nil => rfl
  | cons c cs ih => exact ih _

theorem outline_plug (cs : List Crumb) (s : Rep) :
    (plug back cs s).outline = LevelTree.plug back (spineOutline cs) s.outline := by
  induction cs generalizing s with
  | nil => rfl
  | cons c cs ih => simp [plug, LevelTree.plug, ih]

/-- The node of a tree below the first `n` nodes of its spine. -/
theorem unplug_outline {n : ℕ} (hn : n = cs.length) (s : Rep) :
    unplug back n (plug back cs s).outline = (spineOutline cs, s.outline) := by
  rw [outline_plug, hn, ← length_spineOutline, unplug_plug]

theorem leaves_plug (cs : List Crumb) (s : Rep) : (plug back cs s).leaves =
    join back (sideLeaves back (spineOutline cs)) s.leaves := by
  rw [← Rep.leaves_outline, outline_plug, LevelTree.leaves_plug, Rep.leaves_outline]

/-- The address of the root of a spine above a subtree. -/
def rootAddr : List Crumb → Addr → Addr
  | [], a => a
  | c :: cs, _ => rootAddr cs c.hd.addr

theorem addr_plug (cs : List Crumb) (s : Rep) : (plug back cs s).addr = rootAddr cs s.addr := by
  induction cs generalizing s with
  | nil => rfl
  | cons c cs ih => exact ih _

theorem rootAddr_eq_getLastD (cs : List Crumb) (a : Addr) :
    rootAddr cs a = (spineAddrs cs).getLastD a := by
  induction cs generalizing a with
  | nil => rfl
  | cons c cs ih => rw [rootAddr, ih, spineAddrs_cons, List.getLastD_cons]

/-- The heap holds the nodes of a spine above the address of a subtree. -/
def SpineNodes (back : Bool) (h : Heap Node) : List Crumb → Addr → Prop
  | [], _ => True
  | c :: cs, a =>
    h.node? c.hd.addr = some (.btree ⟨c.hd.length, c.hd.height, c.hd.begin,
        join back (c.rest.map Rep.addr) [a]⟩) ∧ SpineNodes back h cs c.hd.addr

/-- The heap holds a spine and the trees beside it. -/
def SpineHeld (back : Bool) (h : Heap Node) (cs : List Crumb) (a : Addr) : Prop :=
  SpineNodes back h cs a ∧ ∀ c ∈ cs, ∀ t ∈ c.rest, t.Held h

theorem plug_held {h : Heap Node} :
    (plug back cs s).Held h ↔ s.Held h ∧ SpineHeld back h cs s.addr := by
  induction cs generalizing s with
  | nil => simp [SpineHeld, SpineNodes]
  | cons c cs ih =>
    rw [plug, ih, Rep.held_node, SpineHeld, SpineHeld, SpineNodes, Rep.btree, map_join,
      Rep.addr_node, List.forall_mem_cons]
    constructor
    · rintro ⟨⟨hnode, hes⟩, hcs, hrest⟩
      exact ⟨hes s (by simp), ⟨hnode, hcs⟩, fun t ht ↦ hes t (by simp [ht]), hrest⟩
    · rintro ⟨hs, ⟨hnode, hcs⟩, hc, hrest⟩
      refine ⟨⟨hnode, fun t ht ↦ ?_⟩, hcs, hrest⟩
      rcases mem_join.mp ht with ht | ht
      · exact hc t ht
      · exact List.mem_singleton.mp ht ▸ hs

theorem spineHeld_cons {h : Heap Node} {c : Crumb} {a : Addr} : SpineHeld back h (c :: cs) a ↔
    h.node? c.hd.addr = some (.btree ⟨c.hd.length, c.hd.height, c.hd.begin,
        join back (c.rest.map Rep.addr) [a]⟩) ∧
      (∀ t ∈ c.rest, t.Held h) ∧ SpineHeld back h cs c.hd.addr := by
  rw [SpineHeld, SpineNodes, List.forall_mem_cons, SpineHeld]
  tauto

theorem SpineNodes.congr {h h' : Heap Node} {a : Addr} (hcs : SpineNodes back h cs a)
    (hn : ∀ b ∈ spineAddrs cs, h'.node? b = h.node? b) : SpineNodes back h' cs a := by
  induction cs generalizing a with
  | nil => trivial
  | cons c cs ih =>
    exact ⟨(hn _ List.mem_cons_self).trans hcs.1,
      ih hcs.2 fun b hb ↦ hn b (List.mem_cons_of_mem _ hb)⟩

variable [Target]

theorem reach_plug {h : Heap Node} {R : Multiset Addr} (ht : (plug back cs s).Held h)
    (hr : Reach h R (plug back cs s).addr) : Reach h R s.addr := by
  induction cs generalizing s with
  | nil => exact hr
  | cons c cs ih =>
    have hnode := ih (s := .node c.hd (join back c.rest [s])) ht hr
    refine hnode.child (plug_held.mp (show (plug back cs _).Held h from ht)).1.node? ?_
    exact List.mem_map_of_mem (by simp)

/-- A spine is held after a program that leaves its opened nodes and its side references alone. -/
theorem SpineHeld.frame {h h' : Heap Node} {a : Addr} {Z : List Addr} {R : Multiset Addr}
    (hcs : SpineHeld back h cs a) (hf : Frame Z R h h') (hZ : spineAddrs cs ⊆ Z)
    (hR : ∀ b ∈ sideRefs cs, b ∈ R) : SpineHeld back h' cs a := by
  refine ⟨hcs.1.congr fun b hb ↦ hf.opened b (hZ hb),
    fun c hc t ht ↦ (hcs.2 c hc t ht).frame hf (.root ?_)⟩
  exact hR _ (List.mem_flatMap.mpr ⟨c, hc, List.mem_map_of_mem ht⟩)

/-- A tree whose topmost spine nodes are opened is held after a program that leaves these and the
references from them alone. -/
theorem held_frame_append (cs : List Crumb) {h h' : Heap Node} {Z : List Addr} {R : Multiset Addr}
    (ht : (plug back (cs ++ ds) s).Held h) (hf : Frame Z R h h') (hZ : spineAddrs ds ⊆ Z)
    (hr : (plug back cs s).addr ∈ R) (hR : ∀ b ∈ sideRefs ds, b ∈ R) :
    (plug back (cs ++ ds) s).Held h' := by
  rw [plug_append, plug_held] at ht ⊢
  exact ⟨ht.1.frame hf (.root hr), ht.2.frame hf hZ hR⟩

/-- A spine is valid above a subtree of level `k` and the given length. -/
def SpineValid : ℕ → List Crumb → ℕ → Prop
  | _, [], _ => True
  | k, c :: cs, len =>
    c.hd.height = k ∧ c.hd.begin + (c.rest.length + 1) ≤ maxCapacity ∧
      c.hd.length = (c.rest.map Rep.length).sum + len ∧ (∀ t ∈ c.rest, t.Valid k) ∧
        SpineValid (k + 1) cs c.hd.length

theorem plug_valid {k : ℕ} : (plug back cs s).Valid (k + cs.length) ↔
    s.Valid k ∧ SpineValid k cs s.length := by
  induction cs generalizing k s with
  | nil => simp [SpineValid]
  | cons c cs ih =>
    rw [plug, List.length_cons, show k + (cs.length + 1) = k + 1 + cs.length by omega, ih,
      SpineValid, Rep.Valid.node_iff, Rep.length_node]
    constructor
    · rintro ⟨⟨hk, -, hcap, hsum, hes⟩, hcs⟩
      obtain rfl : k = c.hd.height := Nat.succ_injective hk
      exact ⟨hes s (by simp), rfl, by simpa using hcap, by simpa using hsum,
        fun t ht ↦ hes t (by simp [ht]), hcs⟩
    · rintro ⟨hs, rfl, hcap, hsum, hrest, hcs⟩
      refine ⟨⟨rfl, fun hnil ↦ ?_, by simpa using hcap, by simpa using hsum, fun t ht ↦ ?_⟩, hcs⟩
      · simpa using congrArg List.length hnil
      · rcases mem_join.mp ht with ht | ht
        · exact hrest t ht
        · exact List.mem_singleton.mp ht ▸ hs

/-- The level of the subtree below a valid spine. -/
theorem exists_level {j : ℕ} (ht : (plug back cs s).Valid j) :
    ∃ k, j = k + cs.length ∧ s.Valid k ∧ SpineValid k cs s.length := by
  induction cs generalizing s with
  | nil => exact ⟨j, rfl, ht, trivial⟩
  | cons c cs ih =>
    obtain ⟨k, rfl, hnode, -⟩ := ih (s := .node c.hd (join back c.rest [s])) ht
    obtain ⟨rfl, -⟩ := Rep.Valid.node_iff.mp hnode
    refine ⟨c.hd.height, by simp; omega, ?_⟩
    rw [← @plug_valid back]
    simpa [show c.hd.height + 1 + cs.length = c.hd.height + (cs.length + 1) by omega] using ht

theorem Rep.Valid.leveled {k : ℕ} {t : Rep} (ht : t.Valid k) : Leveled maxCapacity k t.outline := by
  induction k generalizing t with
  | zero =>
    obtain ⟨e, rfl, -⟩ := Rep.Valid.zero_iff.mp ht
    simp
  | succ k ih =>
    obtain ⟨hd, es, rfl⟩ := ht.exists_node
    obtain ⟨hk, hne, hcap, -, hes⟩ := Rep.Valid.node_iff.mp ht
    rw [Rep.outline_node, leveled_node]
    refine ⟨k, rfl, by simpa using hne, by rw [List.length_map]; omega, fun s hs ↦ ?_⟩
    obtain ⟨t, ht', rfl⟩ := List.mem_map.mp hs
    exact ih (Nat.add_right_cancel hk ▸ hes t ht')

/-- The length of the root of a spine above a subtree of the given length. -/
def rootLength : List Crumb → ℕ → ℕ
  | [], len => len
  | c :: cs, _ => rootLength cs c.hd.length

omit [Target] in
theorem length_plug (cs : List Crumb) (s : Rep) :
    (plug back cs s).length = rootLength cs s.length := by
  induction cs generalizing s with
  | nil => rfl
  | cons c cs ih => exact ih _

theorem SpineValid.le_rootLength {k len : ℕ} (hcs : SpineValid k cs len) :
    len ≤ rootLength cs len ∧ ∀ c ∈ cs, c.hd.length ≤ rootLength cs len := by
  induction cs generalizing k len with
  | nil => exact ⟨le_rfl, fun c hc ↦ absurd hc List.not_mem_nil⟩
  | cons c cs ih =>
    obtain ⟨-, -, hlen, -, hrest⟩ := hcs
    obtain ⟨hle, hall⟩ := ih hrest
    refine ⟨?_, fun d hd ↦ ?_⟩
    · rw [rootLength]
      omega
    · rcases List.mem_cons.mp hd with rfl | hd
      · exact hle
      · exact hall d hd

theorem spineValid_append {k len : ℕ} : SpineValid k (cs ++ ds) len ↔
    SpineValid k cs len ∧ SpineValid (k + cs.length) ds (rootLength cs len) := by
  induction cs generalizing k len with
  | nil => simp [SpineValid, rootLength]
  | cons c cs ih =>
    rw [List.cons_append, SpineValid, ih, SpineValid, rootLength, List.length_cons,
      show k + 1 + cs.length = k + (cs.length + 1) by omega]
    tauto

omit [Target] in
/-- A spine whose stored lengths went up. -/
def growSpine (delta : ℕ) (cs : List Crumb) : List Crumb :=
  cs.map fun c ↦ { c with hd := { c.hd with length := c.hd.length + delta } }

omit [Target] in
@[simp] theorem spineAddrs_growSpine (delta : ℕ) (cs : List Crumb) :
    spineAddrs (growSpine delta cs) = spineAddrs cs := by
  simp [spineAddrs, growSpine]

omit [Target] in
@[simp] theorem sideRefs_growSpine (delta : ℕ) (cs : List Crumb) :
    sideRefs (growSpine delta cs) = sideRefs cs := by
  simp [sideRefs, growSpine, List.flatMap_map]

omit [Target] in
@[simp] theorem spineOutline_growSpine (delta : ℕ) (cs : List Crumb) :
    spineOutline (growSpine delta cs) = spineOutline cs := by
  simp [spineOutline, growSpine]

omit [Target] in
@[simp] theorem length_growSpine (delta : ℕ) (cs : List Crumb) :
    (growSpine delta cs).length = cs.length := List.length_map _

omit [Target] in
theorem rootLength_growSpine (delta : ℕ) (cs : List Crumb) (len : ℕ) :
    rootLength (growSpine delta cs) (len + delta) = rootLength cs len + delta := by
  induction cs generalizing len with
  | nil => rfl
  | cons c cs ih => exact ih _

theorem SpineValid.grow {k len : ℕ} (hcs : SpineValid k cs len) (delta : ℕ) :
    SpineValid k (growSpine delta cs) (len + delta) := by
  induction cs generalizing k len with
  | nil => trivial
  | cons c cs ih =>
    obtain ⟨hk, hcap, hlen, hrest, hcs⟩ := hcs
    refine ⟨hk, hcap, ?_, hrest, ih hcs⟩
    simp only
    omega

/-! ### Opening and closing a spine -/

variable {h : Heap Node} {Z : List Addr} {R : Multiset Addr} {k : ℕ}

/-- The root of a held valid tree is well formed. -/
theorem Rep.Valid.fitsIn {t : Rep} (hv : t.Valid k) (ht : t.Held h) : FitsIn h t.root := by
  cases t with
  | leaf e =>
    have he := (Rep.Valid.leaf_iff.mp hv).2
    cases e with
    | whole a p => exact ⟨[], rfl, he, rfl⟩
    | part a length start child p =>
      have hbase : h.node? child = some (.payload p) := (Rep.held_leaf.mp ht).2
      refine ⟨[.payload p], ?_, ⟨he.2.1, p, rfl, he.2.2⟩, rfl⟩
      simpa [Rep.root, Edge.node, Pointers.children, Node.children] using hbase
  | node hd es =>
    obtain ⟨hk, hne, hcap, hsum, hes⟩ := Rep.Valid.node_iff.mp hv
    refine ⟨es.map Rep.root, ?_, ⟨by simpa [Rep.btree] using hne, by simpa using hcap, ?_, ?_⟩, ?_⟩
    · change (es.map Rep.addr).map h.node? = _
      rw [List.map_map, List.map_map]
      exact List.map_congr_left fun t hes' ↦ ((Rep.held_node.mp ht).2 t hes').node?
    · intro m hm
      obtain ⟨t, hte, rfl⟩ := List.mem_map.mp hm
      exact (hes t hte).root_level
    · rw [List.map_map, Rep.btree_length, hsum]
      exact congrArg _ (List.map_congr_left fun t _ ↦ t.root_length.symm)
    · simp [Rep.root, Node.children]

omit [Target] in
theorem coe_map_append_singleton (as : List Rep) (b : Rep) (R : Multiset Addr) :
    (((as ++ [b]).map Rep.addr : List Addr) : Multiset Addr) + R =
      b.addr ::ₘ (((as.map Rep.addr : List Addr) : Multiset Addr) + R) := by
  rw [List.map_append, List.map_singleton, ← Multiset.coe_add, Multiset.coe_singleton,
    ← Multiset.singleton_add, add_right_comm, add_comm]

/-- Close an opened btree node above valid trees. -/
theorem closeNode {a : Addr} {length begin : ℕ} {ts : List Rep}
    (ho : Owned h (a :: Z) (((ts.map Rep.addr : List Addr) : Multiset Addr) + R))
    (ha : h.node? a = some (.btree ⟨length, k, begin, ts.map Rep.addr⟩))
    (hts : ∀ t ∈ ts, t.Held h ∧ t.Valid k) (hne : ts ≠ []) (hcap : begin + ts.length ≤ maxCapacity)
    (hlen : length = (ts.map Rep.length).sum) :
    Owned h Z (a ::ₘ R) ∧ Rep.Held h (.node ⟨a, length, k, begin⟩ ts) ∧
      Rep.Valid (k + 1) (.node ⟨a, length, k, begin⟩ ts) := by
  have hheld : Rep.Held h (.node ⟨a, length, k, begin⟩ ts) :=
    Rep.held_node.mpr ⟨ha, fun t ht ↦ (hts t ht).1⟩
  have hv : Rep.Valid (k + 1) (.node ⟨a, length, k, begin⟩ ts) :=
    Rep.Valid.node_iff.mpr ⟨rfl, hne, hcap, hlen, fun t ht ↦ (hts t ht).2⟩
  exact ⟨ho.closeCell hheld.node? (hv.fitsIn hheld) rfl, hheld, hv⟩

/-- Open the nodes of a spine that nothing else refers to. -/
theorem openSpine (ho : Owned h Z ((plug back cs s).addr ::ₘ R)) (ht : (plug back cs s).Held h)
    (hone : ∀ a ∈ spineAddrs cs, h.rc a = 1) :
    Owned h (spineAddrs cs ++ Z) (s.addr ::ₘ ((sideRefs cs : Multiset Addr) + R)) := by
  induction cs generalizing s with
  | nil => simpa using ho
  | cons c cs ih =>
    have ht' : (plug back cs (.node c.hd (join back c.rest [s]))).Held h := ht
    have hnode := (Rep.held_node.mp (plug_held.mp ht').1).1
    have := ih (s := .node c.hd (join back c.rest [s])) ho ht fun a ha ↦
      hone a (List.mem_cons_of_mem _ ha)
    refine (this.openCell hnode (hone _ List.mem_cons_self)).congr ?_
    simp only [Pointers.children, Node.children, Rep.btree_edges, map_join, coe_join, sideRefs_cons,
      ← Multiset.coe_add, List.map_cons, List.map_nil, Multiset.coe_singleton,
      ← Multiset.singleton_add]
    abel

/-- Close a spine of opened nodes above a valid tree. -/
theorem closeSpine {j : ℕ}
    (ho : Owned h (spineAddrs cs ++ Z) (s.addr ::ₘ ((sideRefs cs : Multiset Addr) + R)))
    (ht : (plug back cs s).Held h) (hv : (plug back cs s).Valid j) :
    Owned h Z ((plug back cs s).addr ::ₘ R) := by
  induction cs generalizing s with
  | nil => simpa using ho
  | cons c cs ih =>
    have ht' : (plug back cs (.node c.hd (join back c.rest [s]))).Held h := ht
    have hv' : (plug back cs (.node c.hd (join back c.rest [s]))).Valid j := hv
    have hnode := (plug_held.mp ht').1
    obtain ⟨k, -, hvk, -⟩ := exists_level hv'
    refine ih (s := .node c.hd (join back c.rest [s])) (ho.closeCell hnode.node?
      (hvk.fitsIn hnode) ?_) ht hv
    simp only [Rep.root, Pointers.children, Node.children, Rep.btree_edges, map_join, coe_join,
      sideRefs_cons, ← Multiset.coe_add, List.map_cons, List.map_nil, Multiset.coe_singleton,
      ← Multiset.singleton_add]
    abel

/-! ### Trees all of whose nodes are opened -/

omit [Target] in
/-- The addresses of the btree nodes of a tree. -/
def nodeAddrs (t : Rep) : List Addr := t.labels.map BtreeHeader.addr

/-- The addresses of the data edges of a tree. -/
def leafAddrs (t : Rep) : List Addr := t.leaves.map Edge.addr

omit [Target] in
@[simp] theorem nodeAddrs_node (hd : BtreeHeader) (es : List Rep) :
    nodeAddrs (.node hd es) = hd.addr :: es.flatMap nodeAddrs := by
  rw [nodeAddrs, RoseTree.labels_node, List.map_cons, List.map_flatMap]
  rfl

omit [Target] in
@[simp] theorem leafAddrs_node (hd : BtreeHeader) (es : List Rep) :
    leafAddrs (.node hd es) = es.flatMap leafAddrs := by
  rw [leafAddrs, RoseTree.leaves_node, List.map_flatMap]
  rfl

omit [Target] in
@[simp] theorem nodeAddrs_leaf (e : Edge) : nodeAddrs (.leaf e) = [] := rfl

omit [Target] in
@[simp] theorem leafAddrs_leaf (e : Edge) : leafAddrs (.leaf e) = [e.addr] := by
  simp [leafAddrs]

/-- The btree nodes of the trees beside a spine. -/
def sideNodes (cs : List Crumb) : List Addr := cs.flatMap fun c ↦ c.rest.flatMap nodeAddrs

/-- The data edges of the trees beside a spine. -/
def sideEdges (cs : List Crumb) : List Addr := cs.flatMap fun c ↦ c.rest.flatMap leafAddrs

omit [Target] in
@[simp] theorem sideNodes_cons (c : Crumb) (cs : List Crumb) :
    sideNodes (c :: cs) = c.rest.flatMap nodeAddrs ++ sideNodes cs := rfl

omit [Target] in
@[simp] theorem sideEdges_cons (c : Crumb) (cs : List Crumb) :
    sideEdges (c :: cs) = c.rest.flatMap leafAddrs ++ sideEdges cs := rfl

omit [Target] in
@[simp] theorem sideNodes_append (cs ds : List Crumb) :
    sideNodes (cs ++ ds) = sideNodes cs ++ sideNodes ds := List.flatMap_append

omit [Target] in
@[simp] theorem sideEdges_append (cs ds : List Crumb) :
    sideEdges (cs ++ ds) = sideEdges cs ++ sideEdges ds := List.flatMap_append

omit [Target] in
@[simp] theorem sideNodes_growSpine (delta : ℕ) (cs : List Crumb) :
    sideNodes (growSpine delta cs) = sideNodes cs := by
  simp [sideNodes, growSpine, List.flatMap_map]

omit [Target] in
@[simp] theorem sideEdges_growSpine (delta : ℕ) (cs : List Crumb) :
    sideEdges (growSpine delta cs) = sideEdges cs := by
  simp [sideEdges, growSpine, List.flatMap_map]

omit [Target] in
theorem coe_nodeAddrs_plug (cs : List Crumb) (s : Rep) :
    (nodeAddrs (plug back cs s) : Multiset Addr) =
      (spineAddrs cs : Multiset Addr) + ((sideNodes cs : Multiset Addr) + nodeAddrs s) := by
  induction cs generalizing s with
  | nil => simp [sideNodes]
  | cons c cs ih =>
    rw [plug, ih, nodeAddrs_node, flatMap_join, ← Multiset.cons_coe, coe_join, spineAddrs_cons,
      ← Multiset.cons_coe, sideNodes_cons, ← Multiset.coe_add, List.flatMap_cons, List.flatMap_nil,
      List.append_nil]
    simp only [← Multiset.singleton_add]
    abel

omit [Target] in
theorem coe_leafAddrs_plug (cs : List Crumb) (s : Rep) :
    (leafAddrs (plug back cs s) : Multiset Addr) =
      (sideEdges cs : Multiset Addr) + leafAddrs s := by
  induction cs generalizing s with
  | nil => simp [sideEdges]
  | cons c cs ih =>
    rw [plug, ih, leafAddrs_node, flatMap_join, coe_join, sideEdges_cons, ← Multiset.coe_add,
      List.flatMap_cons, List.flatMap_nil, List.append_nil]
    abel

omit [Target] in
theorem mem_leafAddrs_plug {cs : List Crumb} {s : Rep} {a : Addr} :
    a ∈ leafAddrs (plug back cs s) ↔ a ∈ sideEdges cs ∨ a ∈ leafAddrs s := by
  rw [← Multiset.mem_coe, coe_leafAddrs_plug]
  simp

omit [Target] in
theorem mem_sideNodes {cs : List Crumb} {c : Crumb} {t : Rep} (hc : c ∈ cs) (ht : t ∈ c.rest)
    {a : Addr} (ha : a ∈ nodeAddrs t) : a ∈ sideNodes cs :=
  List.mem_flatMap.mpr ⟨c, hc, List.mem_flatMap.mpr ⟨t, ht, ha⟩⟩

omit [Target] in
theorem mem_sideEdges {cs : List Crumb} {c : Crumb} {t : Rep} (hc : c ∈ cs) (ht : t ∈ c.rest)
    {a : Addr} (ha : a ∈ leafAddrs t) : a ∈ sideEdges cs :=
  List.mem_flatMap.mpr ⟨c, hc, List.mem_flatMap.mpr ⟨t, ht, ha⟩⟩

/-- An opened tree is held after a program that leaves its nodes and data edges alone. -/
theorem Rep.Held.frame_opened {h h' : Heap Node} {t : Rep} (ht : t.Held h) (hf : Frame Z R h h')
    (hZ : ∀ a ∈ nodeAddrs t, a ∈ Z) (hR : ∀ a ∈ leafAddrs t, a ∈ R) : t.Held h' := by
  induction t using RoseTree.induction with
  | hleaf e => exact ht.frame hf (.root (hR _ (by simp)))
  | hnode hd es ih =>
    obtain ⟨hnode, hes⟩ := Rep.held_node.mp ht
    rw [nodeAddrs_node] at hZ
    rw [leafAddrs_node] at hR
    refine Rep.held_node.mpr ⟨(hf.opened _ (hZ _ List.mem_cons_self)).trans hnode, fun s hs ↦ ?_⟩
    exact ih s hs (hes s hs)
      (fun a ha ↦ hZ a (List.mem_cons_of_mem _ (List.mem_flatMap.mpr ⟨s, hs, ha⟩)))
      fun a ha ↦ hR a (List.mem_flatMap.mpr ⟨s, hs, ha⟩)

private theorem closeTrees {ts : List Rep}
    (hclose : ∀ t ∈ ts, ∀ {Z R}, Owned h (nodeAddrs t ++ Z) ((leafAddrs t : Multiset Addr) + R) →
      Owned h Z (t.addr ::ₘ R))
    (ho : Owned h (ts.flatMap nodeAddrs ++ Z)
      (((ts.flatMap leafAddrs : List Addr) : Multiset Addr) + R)) :
    Owned h Z (((ts.map Rep.addr : List Addr) : Multiset Addr) + R) := by
  induction ts generalizing R with
  | nil => simpa using ho
  | cons t ts ih =>
    rw [List.flatMap_cons, List.append_assoc, List.flatMap_cons, ← Multiset.coe_add,
      add_assoc] at ho
    have ho' := hclose t List.mem_cons_self ho
    rw [← Multiset.add_cons] at ho'
    refine (ih (fun t ht ↦ hclose t (List.mem_cons_of_mem _ ht)) ho').congr ?_
    rw [List.map_cons, coe_cons_add, Multiset.add_cons]

/-- Close all nodes of a valid tree. -/
theorem closeTree {t : Rep} (ho : Owned h (nodeAddrs t ++ Z) ((leafAddrs t : Multiset Addr) + R))
    (ht : t.Held h) (hv : t.Valid k) : Owned h Z (t.addr ::ₘ R) := by
  induction t using RoseTree.induction generalizing k Z R with
  | hleaf e => simpa using ho
  | hnode hd es ih =>
    obtain ⟨-, hes⟩ := Rep.held_node.mp ht
    obtain ⟨-, -, -, -, hvs⟩ := Rep.Valid.node_iff.mp hv
    rw [nodeAddrs_node, leafAddrs_node, List.cons_append] at ho
    have hsub := closeTrees (Z := hd.addr :: Z)
      (fun t hmem _ _ ho ↦ ih t hmem ho (hes t hmem) (hvs t hmem)) (ho.perm List.perm_middle.symm)
    exact hsub.closeCell ht.node? (hv.fitsIn ht) rfl

theorem SpineValid.rest_valid {k len : ℕ} {cs : List Crumb} (hcs : SpineValid k cs len) :
    ∀ c ∈ cs, ∀ t ∈ c.rest, ∃ j, t.Valid j := by
  induction cs generalizing k len with
  | nil => exact fun c hc ↦ absurd hc List.not_mem_nil
  | cons c cs ih =>
    intro d hd t ht
    rcases List.mem_cons.mp hd with rfl | hd
    · exact ⟨k, hcs.2.2.2.1 t ht⟩
    · exact ih hcs.2.2.2.2 d hd t ht

/-- Close all nodes of a valid tree but those of a spine. -/
theorem closeSides (ho : Owned h (nodeAddrs (plug back cs s) ++ Z)
      ((leafAddrs (plug back cs s) : Multiset Addr) + R))
    (ht : (plug back cs s).Held h) (hv : (plug back cs s).Valid k) :
    Owned h (spineAddrs cs ++ Z) (s.addr ::ₘ ((sideRefs cs : Multiset Addr) + R)) := by
  obtain ⟨hs, -, hrest⟩ := plug_held.mp ht
  obtain ⟨j, -, hsv, hcv⟩ := exists_level hv
  have hclose : ∀ t ∈ s :: cs.flatMap Crumb.rest, ∀ {Z R},
      Owned h (nodeAddrs t ++ Z) ((leafAddrs t : Multiset Addr) + R) →
        Owned h Z (t.addr ::ₘ R) := by
    intro t hmem Z' R' ho'
    rcases List.mem_cons.mp hmem with rfl | hmem
    · exact closeTree ho' hs hsv
    · obtain ⟨c, hc, htc⟩ := List.mem_flatMap.mp hmem
      obtain ⟨i, hi⟩ := hcv.rest_valid c hc t htc
      exact closeTree ho' (hrest c hc t htc) hi
  have hnodes : (cs.flatMap Crumb.rest).flatMap nodeAddrs = sideNodes cs := List.flatMap_assoc
  have hedges : (cs.flatMap Crumb.rest).flatMap leafAddrs = sideEdges cs := List.flatMap_assoc
  have hrefs : (cs.flatMap Crumb.rest).map Rep.addr = sideRefs cs := List.map_flatMap
  have hZ : (nodeAddrs (plug back cs s) ++ Z).Perm
      ((s :: cs.flatMap Crumb.rest).flatMap nodeAddrs ++ (spineAddrs cs ++ Z)) := by
    rw [← Multiset.coe_eq_coe, ← Multiset.coe_add, coe_nodeAddrs_plug, List.flatMap_cons, hnodes]
    simp only [← Multiset.coe_add]
    abel
  refine (closeTrees (R := R) hclose ((ho.perm hZ).congr ?_)).congr ?_
  · rw [coe_leafAddrs_plug, List.flatMap_cons, hedges, ← Multiset.coe_add]
    abel
  · rw [List.map_cons, coe_cons_add, hrefs]

end Plug

end CordRs
