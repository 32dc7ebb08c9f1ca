import CordRs.Rep.Node
import CordRs.RoseTree

/-!
# Borrowed trees

While a node is borrowed nothing reachable from it changes, so code that only reads works on the
tree the heap unfolds to. `CordRs.Rep` is that tree: its leaves are data edges, its nodes carry
the header of a btree node, and every part knows its address. `Rep.Held h t` says that the heap
`h` has the nodes of `t` at their addresses, and `Rep.Valid k t` that `t` is structurally valid
with data edges at level zero and a root at level `k`.

## Main definitions

* `CordRs.Edge`, `CordRs.Rep`, `CordRs.Rep.bytes`, `CordRs.Rep.length`.
* `CordRs.Rep.Valid`, `CordRs.Rep.Held`.

## Main results

* `CordRs.Rep.Valid.length_bytes`: the stored length of a valid tree is the number of its bytes.
* `CordRs.exists_rep`: in a heap with exact counts every reachable node unfolds to a valid tree.
-/

namespace CordRs

open RefHeap

/-- A data edge: a flat or external, or a substring of one. -/
inductive Edge where
  | whole (addr : Addr) (p : Payload)
  | part (addr : Addr) (length start : ℕ) (child : Addr) (p : Payload)
  deriving Repr, DecidableEq

namespace Edge

/-- The address of a data edge. -/
def addr : Edge → Addr
  | whole a _ => a
  | part a _ _ _ _ => a

/-- The stored length of a data edge. -/
def length : Edge → ℕ
  | whole _ p => p.data.length
  | part _ length _ _ _ => length

/-- The bytes a data edge refers to. -/
def data : Edge → Bytes
  | whole _ p => p.data
  | part _ length start _ p => (p.data.drop start).take length

/-- The node at the address of a data edge. -/
def node : Edge → Node
  | whole _ p => .payload p
  | part _ length start child _ => .substring length start child

/-- The flat or external behind a data edge, with its address. -/
def base : Edge → Addr × Payload
  | whole a p => (a, p)
  | part _ _ _ child p => (child, p)

/-- The offset of a data edge in the flat or external behind it. -/
def start : Edge → ℕ
  | whole _ _ => 0
  | part _ _ start _ _ => start

/-- A data edge is a valid flat or external, or a part of one. -/
def Valid [Target] : Edge → Prop
  | whole _ p => p.Valid
  | part _ length start _ p => p.Valid ∧ 0 < length ∧ start + length ≤ p.data.length

/-- The heap holds the data edge. -/
def Held (h : Heap Node) (e : Edge) : Prop :=
  h.node? e.addr = some e.node ∧ h.node? e.base.1 = some (.payload e.base.2)

/-- A heap holds one data edge at an address. -/
theorem Held.unique {h : Heap Node} {e e' : Edge} (he : e.Held h) (he' : e'.Held h)
    (haddr : e.addr = e'.addr) : e = e' := by
  obtain ⟨hnode, hbase⟩ := he
  obtain ⟨hnode', hbase'⟩ := he'
  rw [haddr, hnode', Option.some.injEq] at hnode
  cases e with
  | whole a p =>
    cases e' with
    | whole a' p' =>
      obtain rfl : a = a' := haddr
      injection hnode with hp
      rw [hp]
    | part => nomatch hnode
  | part a length start child p =>
    cases e' with
    | whole => nomatch hnode
    | part a' length' start' child' p' =>
      obtain rfl : a = a' := haddr
      injection hnode with hl hs hc
      subst hl hs hc
      obtain rfl : p = p' := by simpa [base] using hbase.symm.trans hbase'
      rfl

variable [Target] {e : Edge}

theorem Valid.length_data (he : e.Valid) : e.data.length = e.length := by
  cases e with
  | whole a p => rfl
  | part a length start child p =>
    simp only [data, Edge.length, List.length_take, List.length_drop]
    have := he.2.2
    omega

theorem Valid.length_pos (he : e.Valid) : 0 < e.length := by
  cases e with
  | whole a p => exact Payload.Valid.data_pos he
  | part a length start child p => exact he.2.1

theorem Valid.data_ne_nil (he : e.Valid) : e.data ≠ [] := by
  rw [← List.length_pos_iff, he.length_data]
  exact he.length_pos

omit [Target] in
theorem node_length (e : Edge) : e.node.length = e.length := by cases e <;> rfl

omit [Target] in
theorem node_level (e : Edge) : e.node.level = 0 := by cases e <;> rfl

end Edge

/-- The number of bytes of a list of data edges. -/
def edgesLength (es : List Edge) : ℕ := (es.map Edge.length).sum

@[simp] theorem edgesLength_nil : edgesLength [] = 0 := rfl

@[simp] theorem edgesLength_cons (e : Edge) (es : List Edge) :
    edgesLength (e :: es) = e.length + edgesLength es := by simp [edgesLength]

@[simp] theorem edgesLength_append (es es' : List Edge) :
    edgesLength (es ++ es') = edgesLength es + edgesLength es' := by simp [edgesLength]

/-- The header of a btree node, with its address. -/
structure BtreeHeader where
  addr : Addr
  length : ℕ
  height : ℕ
  begin : ℕ
  deriving Repr, DecidableEq

/-- A borrowed tree. -/
abbrev Rep := RoseTree BtreeHeader Edge

namespace Rep

/-- The address of a tree. -/
def addr : Rep → Addr
  | .leaf e => e.addr
  | .node hd _ => hd.addr

/-- The stored length of a tree. -/
def length : Rep → ℕ
  | .leaf e => e.length
  | .node hd _ => hd.length

/-- The btree node with a header and edges. -/
def btree (hd : BtreeHeader) (es : List Rep) : Btree :=
  ⟨hd.length, hd.height, hd.begin, es.map addr⟩

/-- The node at the address of a tree. -/
def root : Rep → Node
  | .leaf e => e.node
  | .node hd es => .btree (btree hd es)

/-- The bytes of a tree, in order. -/
def bytes (t : Rep) : Bytes := t.leaves.flatMap Edge.data

/-- The heap holds the nodes of a tree at their addresses. -/
def Held (h : Heap Node) (t : Rep) : Prop :=
  t.All (Edge.Held h) fun hd es ↦ h.node? hd.addr = some (.btree (btree hd es))

/-- A valid tree with data edges at level zero and its root at the given level. -/
def Valid [Target] : ℕ → Rep → Prop
  | 0, .leaf e => e.Valid
  | k + 1, .node hd es =>
    hd.height = k ∧ es ≠ [] ∧ hd.begin + es.length ≤ maxCapacity ∧
      hd.length = (es.map length).sum ∧ ∀ t ∈ es, Valid k t
  | _, _ => False

@[simp] theorem addr_leaf (e : Edge) : addr (.leaf e) = e.addr := rfl

@[simp] theorem addr_node (hd : BtreeHeader) (es : List Rep) : addr (.node hd es) = hd.addr := rfl

@[simp] theorem length_leaf (e : Edge) : length (.leaf e) = e.length := rfl

@[simp] theorem length_node (hd : BtreeHeader) (es : List Rep) :
    length (.node hd es) = hd.length := rfl

@[simp] theorem bytes_leaf (e : Edge) : bytes (.leaf e) = e.data := by
  simp [bytes]

@[simp] theorem bytes_node (hd : BtreeHeader) (es : List Rep) :
    bytes (.node hd es) = es.flatMap bytes := by
  rw [bytes, RoseTree.leaves_node, List.flatMap_assoc]
  rfl

@[simp] theorem held_leaf {h : Heap Node} {e : Edge} : Held h (.leaf e) ↔ e.Held h := by
  simp [Held]

@[simp] theorem held_node {h : Heap Node} {hd : BtreeHeader} {es : List Rep} :
    Held h (.node hd es) ↔
      h.node? hd.addr = some (.btree (btree hd es)) ∧ ∀ t ∈ es, Held h t := by
  simp [Held]

@[simp] theorem btree_edges (hd : BtreeHeader) (es : List Rep) :
    (btree hd es).edges = es.map addr := rfl

@[simp] theorem btree_height (hd : BtreeHeader) (es : List Rep) :
    (btree hd es).height = hd.height := rfl

@[simp] theorem btree_length (hd : BtreeHeader) (es : List Rep) :
    (btree hd es).length = hd.length := rfl

@[simp] theorem btree_begin (hd : BtreeHeader) (es : List Rep) :
    (btree hd es).begin = hd.begin := rfl

@[simp] theorem btree_size (hd : BtreeHeader) (es : List Rep) :
    (btree hd es).size = es.length := by simp [Btree.size]

theorem root_length (t : Rep) : t.root.length = t.length := by
  cases t with
  | leaf e => exact e.node_length
  | node hd es => rfl

theorem Held.node? {h : Heap Node} {t : Rep} (ht : t.Held h) : h.node? t.addr = some t.root := by
  cases t with
  | leaf e => exact (held_leaf.mp ht).1
  | node hd es => exact (held_node.mp ht).1

theorem Held.leaves {h : Heap Node} {t : Rep} (ht : t.Held h) : ∀ e ∈ t.leaves, e.Held h := by
  induction t using RoseTree.induction with
  | hleaf e => simpa using ht
  | hnode hd es ih =>
    intro e he
    rw [RoseTree.leaves_node, List.mem_flatMap] at he
    obtain ⟨t, ht', he⟩ := he
    exact ih t ht' ((held_node.mp ht).2 t ht') e he

/-- A heap holds one tree at an address. -/
theorem Held.unique {h : Heap Node} {t t' : Rep} (ht : t.Held h) (ht' : t'.Held h)
    (haddr : t.addr = t'.addr) : t = t' := by
  have hedge : ∀ {e : Edge} {hd es}, Held h (.leaf e) → Held h (.node hd es) →
      e.addr ≠ hd.addr := by
    intro e hd es he hn heq
    have hroot : some (root (.leaf e)) = some (root (.node hd es)) :=
      he.node?.symm.trans ((congrArg h.node? heq).trans hn.node?)
    cases e <;> simp [root, Edge.node] at hroot
  induction t using RoseTree.induction generalizing t' with
  | hleaf e =>
    cases t' with
    | leaf e' => rw [(held_leaf.mp ht).unique (held_leaf.mp ht') haddr]
    | node hd es => exact absurd haddr (hedge ht ht')
  | hnode hd es ih =>
    cases t' with
    | leaf e => exact absurd haddr.symm (hedge ht' ht)
    | node hd' es' =>
      obtain ⟨hroot, hes⟩ := held_node.mp ht
      obtain ⟨hroot', hes'⟩ := held_node.mp ht'
      rw [show hd.addr = hd'.addr from haddr, hroot', Option.some.injEq] at hroot
      injection hroot with hroot
      simp only [btree, Btree.mk.injEq] at hroot
      obtain ⟨hl, hh, hb, hmap⟩ := hroot
      have hhd : hd = hd' := by
        cases hd
        cases hd'
        simp only [BtreeHeader.mk.injEq]
        exact ⟨haddr, hl.symm, hh.symm, hb.symm⟩
      rw [hhd, show es = es' from ?_]
      have hlen : es.length = es'.length := by simpa using (congrArg List.length hmap).symm
      refine List.ext_getElem hlen fun i hi hi' ↦ ?_
      refine ih _ (List.getElem_mem hi) (hes _ (List.getElem_mem hi))
        (hes' _ (List.getElem_mem hi')) ?_
      have := congrArg (fun l ↦ l[i]?) hmap
      simp only [List.getElem?_map, List.getElem?_eq_getElem hi, List.getElem?_eq_getElem hi',
        Option.map_some, Option.some.injEq] at this
      exact this.symm

variable [Target] {k : ℕ} {t : Rep}

namespace Valid

@[simp] theorem leaf_iff {e : Edge} : Valid k (.leaf e) ↔ k = 0 ∧ e.Valid := by
  cases k with
  | zero => exact ⟨fun he ↦ ⟨rfl, he⟩, fun he ↦ he.2⟩
  | succ k => exact ⟨fun he ↦ he.elim, fun he ↦ absurd he.1 (Nat.succ_ne_zero k)⟩

@[simp] theorem zero_iff : Valid 0 t ↔ ∃ e, t = .leaf e ∧ e.Valid := by
  constructor
  · intro ht
    cases t with
    | leaf e => exact ⟨e, rfl, ht⟩
    | node hd es => exact ht.elim
  · rintro ⟨e, rfl, he⟩
    exact he

@[simp] theorem node_iff {hd : BtreeHeader} {es : List Rep} :
    Valid k (.node hd es) ↔ k = hd.height + 1 ∧ es ≠ [] ∧ hd.begin + es.length ≤ maxCapacity ∧
      hd.length = (es.map length).sum ∧ ∀ t ∈ es, Valid hd.height t := by
  cases k with
  | zero => exact ⟨fun ht ↦ ht.elim, fun ht ↦ absurd ht.1.symm (Nat.succ_ne_zero _)⟩
  | succ k =>
    constructor
    · rintro ⟨rfl, hrest⟩
      exact ⟨rfl, hrest⟩
    · rintro ⟨hk, hrest⟩
      obtain rfl := Nat.succ_injective hk
      exact ⟨rfl, hrest⟩

theorem edges {hd : BtreeHeader} {es : List Rep} (ht : Valid (k + 1) (.node hd es)) :
    ∀ t ∈ es, Valid k t := by
  obtain ⟨hk, -, -, -, hes⟩ := node_iff.mp ht
  exact Nat.succ_injective hk ▸ hes

theorem exists_node (ht : Valid (k + 1) t) : ∃ hd es, t = .node hd es := by
  cases t with
  | leaf e => simp at ht
  | node hd es => exact ⟨hd, es, rfl⟩

theorem root_level (ht : Valid k t) : t.root.level = k := by
  cases t with
  | leaf e => rw [(leaf_iff.mp ht).1]; exact e.node_level
  | node hd es => rw [(node_iff.mp ht).1]; rfl

/-- The stored length of a valid tree is the number of its bytes. -/
theorem length_bytes (ht : Valid k t) : t.bytes.length = t.length := by
  induction k generalizing t with
  | zero =>
    obtain ⟨e, rfl, he⟩ := zero_iff.mp ht
    rw [bytes_leaf, length_leaf, he.length_data]
  | succ k ih =>
    obtain ⟨hd, es, rfl⟩ := ht.exists_node
    obtain ⟨hk, -, -, hsum, hes⟩ := node_iff.mp ht
    rw [bytes_node, length_node, hsum, List.length_flatMap]
    congr 1
    refine List.map_congr_left fun s hs ↦ ih ?_
    rw [Nat.add_right_cancel hk]
    exact hes s hs

theorem length_pos (ht : Valid k t) : 0 < t.length := by
  induction k generalizing t with
  | zero =>
    obtain ⟨e, rfl, he⟩ := zero_iff.mp ht
    exact he.length_pos
  | succ k ih =>
    obtain ⟨hd, es, rfl⟩ := ht.exists_node
    obtain ⟨hk, hne, -, hsum, hes⟩ := node_iff.mp ht
    obtain ⟨s, ss, rfl⟩ := List.exists_cons_of_ne_nil hne
    have := ih (Nat.add_right_cancel hk ▸ hes s List.mem_cons_self)
    rw [length_node, hsum, List.map_cons, List.sum_cons]
    omega

theorem bytes_ne_nil (ht : Valid k t) : t.bytes ≠ [] := by
  rw [← List.length_pos_iff, ht.length_bytes]
  exact ht.length_pos

theorem leaves_length_pos (ht : Valid k t) : 0 < t.leaves.length := by
  refine List.length_pos_iff.mpr fun hnil ↦ ht.bytes_ne_nil ?_
  rw [bytes, hnil, List.flatMap_nil]

/-- A tree with two data edges is a btree node. -/
theorem level_pos (ht : Valid k t) (hlen : 1 < t.leaves.length) : 0 < k := by
  refine Nat.pos_of_ne_zero fun hk ↦ ?_
  subst hk
  obtain ⟨e, rfl, -⟩ := zero_iff.mp ht
  simp at hlen

theorem leaves_valid (ht : Valid k t) : ∀ e ∈ t.leaves, e.Valid := by
  induction k generalizing t with
  | zero =>
    obtain ⟨e, rfl, he⟩ := zero_iff.mp ht
    simpa using he
  | succ k ih =>
    obtain ⟨hd, es, rfl⟩ := ht.exists_node
    obtain ⟨hk, -, -, -, hes⟩ := node_iff.mp ht
    intro e he
    rw [RoseTree.leaves_node, List.mem_flatMap] at he
    obtain ⟨s, hs, hes'⟩ := he
    exact ih (Nat.add_right_cancel hk ▸ hes s hs) e hes'

end Valid

/-- Valid trees at level zero are data edges. -/
theorem exists_map_leaf {ts : List Rep} (hts : ∀ t ∈ ts, Valid 0 t) :
    ∃ es : List Edge, ts = es.map .leaf ∧ ∀ e ∈ es, e.Valid := by
  induction ts with
  | nil => exact ⟨[], rfl, by simp⟩
  | cons t ts ih =>
    obtain ⟨e, rfl, he⟩ := Valid.zero_iff.mp (hts t List.mem_cons_self)
    obtain ⟨es, rfl, hes⟩ := ih fun t ht ↦ hts t (List.mem_cons_of_mem _ ht)
    exact ⟨e :: es, rfl, by simpa using ⟨he, hes⟩⟩

omit [Target] in
@[simp] theorem leaves_map_leaf (es : List Edge) :
    (es.map (RoseTree.leaf : Edge → Rep)).flatMap RoseTree.leaves = es := by
  simp [List.flatMap_map]

theorem length_flatMap_bytes {ts : List Rep} (hts : ∀ t ∈ ts, Valid k t) :
    (ts.flatMap bytes).length = (ts.map length).sum := by
  rw [List.length_flatMap]
  exact congrArg _ (List.map_congr_left fun t ht ↦ (hts t ht).length_bytes)

/-- The stored length of a valid tree is the sum of the lengths of its data edges. -/
theorem Valid.length_leaves (ht : Valid k t) : edgesLength t.leaves = t.length := by
  rw [← ht.length_bytes, bytes, List.length_flatMap, edgesLength]
  congr 1
  exact List.map_congr_left fun e he ↦ (ht.leaves_valid e he).length_data.symm

theorem edgesLength_leaves {ts : List Rep} (hts : ∀ t ∈ ts, Valid k t) :
    edgesLength (ts.flatMap RoseTree.leaves) = (ts.map length).sum := by
  induction ts with
  | nil => rfl
  | cons t ts ih =>
    rw [List.flatMap_cons, edgesLength_append, List.map_cons, List.sum_cons,
      (hts t List.mem_cons_self).length_leaves, ih fun u hu ↦ hts u (List.mem_cons_of_mem _ hu)]

/-! ### From exact counts to trees -/

variable {h h' : Heap Node} {Z : List Addr} {R : Multiset Addr}

private theorem exists_edge_of_fits {n : Node} {a : Addr} (hn : h.node? a = some n)
    (hfit : FitsIn h n) (hl : n.level = 0) (hc : ∀ c p, c ∈ n.children →
      h.node? c = some (.payload p) → p.Valid) :
    ∃ e : Edge, e.addr = a ∧ e.Held h ∧ e.Valid := by
  obtain ⟨ms, hms, hfit, -⟩ := hfit
  cases n with
  | payload p => exact ⟨.whole a p, rfl, ⟨hn, hn⟩, hfit⟩
  | substring length start child =>
    obtain ⟨hpos, p, rfl, hle⟩ := hfit
    simp only [Pointers.children, Node.children, List.map_cons, List.map_nil, List.cons.injEq,
      and_true] at hms
    exact ⟨.part a length start child p, rfl, ⟨hn, hms⟩,
      hc child p (by simp [Node.children]) hms, hpos, hle⟩
  | btree b => simp [Node.level] at hl

/-- Every node reachable from the references held unfolds to a valid tree. -/
theorem exists_rep (ho : Owned h Z R) {a : Addr} (ha : Reach h R a) :
    ∃ t k, addr t = a ∧ Held h t ∧ Valid k t := by
  obtain ⟨haZ, n, hn⟩ := ho.of_reach ha
  obtain ⟨k, hk⟩ : ∃ k, n.level = k := ⟨_, rfl⟩
  induction k generalizing a n with
  | zero =>
    obtain ⟨e, rfl, he⟩ := exists_edge_of_fits hn (ho.fits a n haZ hn) hk
      (fun c p hc hp ↦ by
        have hcr := ho.of_reach (ha.child hn hc)
        obtain ⟨_, _, hfit, _⟩ := ho.fits c _ hcr.1 hp
        exact hfit)
    exact ⟨.leaf e, 0, rfl, held_leaf.mpr he.1, Valid.leaf_iff.mpr ⟨rfl, he.2⟩⟩
  | succ k ih =>
    obtain ⟨b, rfl⟩ : ∃ b, n = .btree b := by cases n <;> simp [Node.level] at hk ⊢
    obtain ⟨ms, hms, ⟨hne, hcap, hlevel, hsum⟩, -⟩ := ho.fits a _ haZ hn
    have hbk : b.height = k := by simpa [Node.level] using hk
    have hchild : ∀ c ∈ b.edges, ∃ t : Rep, t.addr = c ∧ t.Held h ∧ t.Valid k := by
      intro c hc
      have hreach : Reach h R c := ha.child hn hc
      obtain ⟨hcZ, m, hm⟩ := ho.of_reach hreach
      obtain ⟨m', hm', hcm⟩ := List.mem_map.mp (hms ▸ List.mem_map_of_mem (f := h.node?) hc)
      obtain rfl : m' = m := Option.some.inj (hcm.trans hm)
      have hlm : m'.level = k := (hlevel m' hm').trans hbk
      obtain ⟨t, j, rfl, hheld, hvalid⟩ := ih hreach hcZ m' hm hlm
      refine ⟨t, rfl, hheld, ?_⟩
      have hj := hvalid.root_level
      rw [Option.some.inj (hheld.node?.symm.trans hm), hlm] at hj
      exact hj ▸ hvalid
    obtain ⟨es, hes, hall⟩ : ∃ es : List Rep, es.map addr = b.edges ∧
        ∀ t ∈ es, t.Held h ∧ t.Valid k := by
      clear hms hsum hlevel hne hcap hn hk hbk ih
      generalize b.edges = cs at hchild
      induction cs with
      | nil => exact ⟨[], rfl, by simp⟩
      | cons c cs ihcs =>
        obtain ⟨t, ht, hth⟩ := hchild c List.mem_cons_self
        obtain ⟨es, hes, hall⟩ := ihcs fun c hc ↦ hchild c (List.mem_cons_of_mem _ hc)
        refine ⟨t :: es, by rw [List.map_cons, ht, hes], ?_⟩
        simpa using ⟨hth, hall⟩
    refine ⟨.node ⟨a, b.length, b.height, b.begin⟩ es, k + 1, rfl, ?_, ?_⟩
    · refine held_node.mpr ⟨?_, fun t ht ↦ (hall t ht).1⟩
      rw [hn, btree, hes]
    · refine Valid.node_iff.mpr ⟨by rw [hbk], ?_, ?_, ?_, fun t ht ↦ hbk ▸ (hall t ht).2⟩
      · rintro rfl
        exact hne (by rw [← hes]; rfl)
      · rwa [← hes, List.length_map] at hcap
      · change b.length = _
        rw [hsum]
        congr 1
        have hnodes : ms.map some = es.map fun t ↦ some t.root := by
          rw [← hms]
          change b.edges.map h.node? = _
          rw [← hes, List.map_map]
          exact List.map_congr_left fun t ht ↦ (hall t ht).1.node?
        have : ms = es.map root := by
          have := congrArg (List.map (Option.getD · (.payload (.external [] none)))) hnodes
          simpa [List.map_map, Function.comp_def] using this
        rw [this, List.map_map]
        exact List.map_congr_left fun t _ ↦ t.root_length

/-- What the heap holds at a reachable address is a valid tree. -/
theorem Held.valid {t : Rep} (ht : t.Held h) (ho : Owned h Z R) (hr : Reach h R t.addr) :
    ∃ k, t.Valid k := by
  obtain ⟨t', k, haddr, hheld, hvalid⟩ := exists_rep ho hr
  obtain rfl := hheld.unique ht haddr
  exact ⟨k, hvalid⟩

/-- A reachable tree is held for as long as what is reachable is kept. -/
theorem Held.frame {t : Rep} (ht : t.Held h) (hf : Frame Z R h h') (hr : Reach h R t.addr) :
    t.Held h' := by
  induction t using RoseTree.induction with
  | hleaf e =>
    obtain ⟨hnode, hbase⟩ := held_leaf.mp ht
    refine held_leaf.mpr ⟨(hf.kept _ hr).trans hnode, ?_⟩
    cases e with
    | whole a p => exact (hf.kept _ hr).trans hnode
    | part a length start child p =>
      exact (hf.kept child (hr.child hnode (List.mem_singleton_self child))).trans hbase
  | hnode hd es ih =>
    obtain ⟨hnode, hes⟩ := held_node.mp ht
    refine held_node.mpr ⟨(hf.kept _ hr).trans hnode, fun s hs ↦ ih s hs (hes s hs) ?_⟩
    exact hr.child hnode (List.mem_map_of_mem hs)

omit [Target] in
theorem Held.grows {t : Rep} (ht : t.Held h) (hg : Grows h h') : t.Held h' := by
  induction t using RoseTree.induction with
  | hleaf e =>
    obtain ⟨hnode, hbase⟩ := held_leaf.mp ht
    exact held_leaf.mpr ⟨hg _ _ hnode, hg _ _ hbase⟩
  | hnode hd es ih =>
    obtain ⟨hnode, hes⟩ := held_node.mp ht
    exact held_node.mpr ⟨hg _ _ hnode, fun s hs ↦ ih s hs (hes s hs)⟩

end Rep

end CordRs
