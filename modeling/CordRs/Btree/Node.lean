import CordRs.Rep.Spine

/-!
# Single btree nodes

Making, copying and extending one btree node. A node with room for another edge is either changed
in place, when its owner holds the only reference, or copied; a full node is left alone and the
new edge gets a node of its own.

Each operation is specified on an opened cell, the way the operations along a spine use it.

## Main definitions

* `CordRs.newWith`, `CordRs.newPair`, `CordRs.copyToEndFrom`, `CordRs.copyBeginTo`,
  `CordRs.consumeBeginTo`, `CordRs.extractFront`.
* `CordRs.addEdge`, `CordRs.setEdge`, `CordRs.toOpResult`, `CordRs.addEdgesFrom`.

## Main results

* `CordRs.wp_newWith`, `CordRs.wp_newPair`, `CordRs.wp_copyRaw`, `CordRs.wp_add`,
  `CordRs.wp_addLength`.
-/

namespace CordRs

open RefHeap LevelTree

/-- Read a btree node. -/
def asBtree (rep : Addr) : HeapM Btree := do
  match ← read rep with
  | .btree b => pure b
  | _ => throw .unreachable

/-- Allocate a btree node, which must not be higher than the fixed stacks are deep. -/
def allocBtree (length height : ℕ) (edges : List Addr) : HeapM Addr := do
  if maxDepth < height then
    throw .abort
  else
    alloc (.btree ⟨length, height, 0, edges⟩)

/-- A new node without edges. -/
def newNode (height : ℕ) : HeapM Addr := allocBtree 0 height []

/-- A new node with a single edge. -/
def newWith (rep : Addr) : HeapM Addr := do
  let node ← read rep
  allocBtree node.length node.level [rep]

section Target

variable [Target]

/-- A new node with two btree nodes of one height. -/
def newPair (front back : Addr) : HeapM Addr := do
  let f ← asBtree front
  let b ← asBtree back
  allocBtree (addUsize f.length b.length) (f.height + 1) [front, back]

end Target

/-- A btree node with a data edge as its single edge, or the btree node itself. -/
def create (rep : Addr) : HeapM Addr := do
  match ← read rep with
  | .btree _ => pure rep
  | _ => newWith rep

/-- Copy a node without adding references to its edges. -/
def copyRaw (this : Addr) (newLength : ℕ) : HeapM Addr := do
  let b ← asBtree this
  alloc (.btree { b with length := newLength })

/-- Copy a node. -/
def copy (this : Addr) : HeapM Addr := do
  let b ← asBtree this
  let tree ← copyRaw this b.length
  refAll b.edges
  pure tree

/-- Copy a node with the edges from slot `begin` on. -/
def copyToEndFrom (this : Addr) (begin newLength : ℕ) : HeapM Addr := do
  let b ← asBtree this
  let edges := b.edges.drop (begin - b.begin)
  let tree ← alloc (.btree ⟨newLength, b.height, begin, edges⟩)
  refAll edges
  pure tree

/-- Copy a node with the edges before slot `end`. -/
def copyBeginTo (this : Addr) («end» newLength : ℕ) : HeapM Addr := do
  let b ← asBtree this
  let edges := b.edges.take («end» - b.begin)
  let tree ← alloc (.btree ⟨newLength, b.height, b.begin, edges⟩)
  refAll edges
  pure tree

/-- Keep the edges before slot `end`, in place if nothing else refers to the node. -/
def consumeBeginTo (tree : Addr) («end» newLength : ℕ) : HeapM Addr := do
  if ← refIsOne tree then
    let b ← asBtree tree
    unrefEdges (b.edges.drop («end» - b.begin))
    write tree (.btree ⟨newLength, b.height, b.begin, b.edges.take («end» - b.begin)⟩)
    pure tree
  else
    let new ← copyBeginTo tree «end» newLength
    unref tree
    pure new

/-- Take the first edge out of a node that is given up. -/
def extractFront (tree : Addr) : HeapM Addr := do
  let b ← asBtree tree
  match b.edges with
  | [] => throw .window
  | front :: rest =>
    if ← refIsOne tree then
      unrefEdges rest
      free tree
    else
      refInc front
      unref tree
    pure front

/-- The first slot of the window of a node whose edges were aligned and extended at one end. -/
def alignedBegin (back : Bool) (size : ℕ) : ℕ := if back then 0 else maxCapacity - size

/-- The first slots of the windows of new nodes and of nodes that got another edge. -/
def windowLabels : Labels ℕ := ⟨0, alignedBegin⟩

@[simp] theorem windowLabels_fresh : windowLabels.fresh = 0 := rfl

@[simp] theorem windowLabels_grown (back : Bool) (size : ℕ) :
    windowLabels.grown back size = alignedBegin back size := rfl

/-- Add edges at one end of a node, which must have room for them. -/
def addEdges (back : Bool) (this : Addr) (edges : List Addr) : HeapM Unit := do
  let b ← asBtree this
  if b.size + edges.length ≤ maxCapacity then
    write this (.btree { b with
      begin := alignedBegin back (b.size + edges.length), edges := join back b.edges edges })
  else
    throw .window

/-- Add an edge at one end of a node. -/
def add (back : Bool) (this rep : Addr) : HeapM Unit := addEdges back this [rep]

/-- Add the edges of another node at one end of a node. -/
def addEdgesFrom (back : Bool) (this src : Addr) : HeapM Unit := do
  let s ← asBtree src
  addEdges back this s.edges

section Target

variable [Target]

/-- Add to the stored length of a node. -/
def addLength (this : Addr) (delta : ℕ) : HeapM Unit := do
  let b ← asBtree this
  write this (.btree { b with length := addUsize b.length delta })

end Target

section Target

variable [Target]

/-- Add to the stored lengths of nodes. -/
def addLengths : List Addr → ℕ → HeapM Unit
  | [], _ => pure ()
  | node :: nodes, delta => do
    addLength node delta
    addLengths nodes delta

end Target

/-- What an operation did with a node: change it, copy it, or make another one beside it. -/
inductive Action where
  | inPlace
  | copied
  | popped
  deriving Repr, DecidableEq

/-- A node with what was done to get it. -/
structure OpResult where
  tree : Addr
  action : Action

/-- The node itself if it is owned, otherwise a copy. -/
def toOpResult (this : Addr) (owned : Bool) : HeapM OpResult := do
  if owned then
    pure ⟨this, .inPlace⟩
  else
    pure ⟨← copy this, .copied⟩

section Target

variable [Target]

/-- Add an edge at one end of a node, or of a node of its own if there is no room. -/
def addEdge (back : Bool) (this : Addr) (owned : Bool) (edge : Addr) (delta : ℕ) :
    HeapM OpResult := do
  let b ← asBtree this
  if maxCapacity ≤ b.size then
    pure ⟨← newWith edge, .popped⟩
  else
    let result ← toOpResult this owned
    add back result.tree edge
    addLength result.tree delta
    pure result

/-- Replace the outermost edge of a node. -/
def setEdge (back : Bool) (this : Addr) (owned : Bool) (edge : Addr) (delta : ℕ) :
    HeapM OpResult := do
  let b ← asBtree this
  match unjoin back b.edges with
  | none => throw .window
  | some (rest, old) =>
    let result ← if owned then do
        unref old
        pure ⟨this, .inPlace⟩
      else do
        let tree ← copyRaw this b.length
        refAll rest
        pure ⟨tree, .copied⟩
    write result.tree (.btree { b with
      length := addUsize b.length delta, edges := join back rest [edge] })
    pure result

end Target

/-! ### Crumbs of changed nodes -/

/-- The crumb of a node after an edge was added next to the subtree below it. -/
def Crumb.extend (back : Bool) (c : Crumb) (a : Addr) (cur : Rep) (delta : ℕ) : Crumb :=
  ⟨⟨a, c.hd.length + delta, c.hd.height, alignedBegin back (c.rest.length + 1 + 1)⟩,
    join back c.rest [cur]⟩

/-- The crumb of a node, or of a copy of it at another address, whose length went up. -/
def Crumb.regrow (c : Crumb) (a : Addr) (delta : ℕ) : Crumb :=
  ⟨⟨a, c.hd.length + delta, c.hd.height, c.hd.begin⟩, c.rest⟩

@[simp] theorem Crumb.addr_regrow (c : Crumb) (a : Addr) (delta : ℕ) :
    (c.regrow a delta).hd.addr = a := rfl

@[simp] theorem Crumb.window_regrow (c : Crumb) (a : Addr) (delta : ℕ) :
    (c.regrow a delta).window = c.window := rfl

@[simp] theorem Crumb.begin_regrow (c : Crumb) (a : Addr) (delta : ℕ) :
    (c.regrow a delta).hd.begin = c.hd.begin := rfl

@[simp] theorem Crumb.rest_regrow (c : Crumb) (a : Addr) (delta : ℕ) :
    (c.regrow a delta).rest = c.rest := rfl

/-- The crumb of a new node with a single edge. -/
def Crumb.single (a : Addr) (length height : ℕ) : Crumb := ⟨⟨a, length, height, 0⟩, []⟩

@[simp] theorem Crumb.begin_single (a : Addr) (length height : ℕ) :
    (Crumb.single a length height).hd.begin = 0 := rfl

@[simp] theorem Crumb.rest_single (a : Addr) (length height : ℕ) :
    (Crumb.single a length height).rest = [] := rfl

section Target

variable [Target] {k len delta : ℕ} {c : Crumb} {cs : List Crumb} {cur : Rep}

theorem SpineValid.extend (back : Bool) (a : Addr) (hcs : SpineValid k (c :: cs) cur.length)
    (hcur : cur.Valid k) (hroom : c.rest.length + 1 < maxCapacity) :
    SpineValid k (c.extend back a cur delta :: growSpine delta cs) delta := by
  obtain ⟨hk, -, hlen, hrest, hcs⟩ := hcs
  refine ⟨hk, ?_, ?_, fun t ht ↦ ?_, hcs.grow delta⟩
  · simp only [Crumb.extend, length_join, List.length_singleton]
    cases back <;> simp [alignedBegin] <;> omega
  · simp only [Crumb.extend, map_join, sum_join, List.map_cons, List.map_nil, List.sum_cons,
      List.sum_nil]
    omega
  · rcases mem_join.mp ht with ht | ht
    · exact hrest t ht
    · exact List.mem_singleton.mp ht ▸ hcur

theorem SpineValid.regrow {len : ℕ} (a : Addr) (delta : ℕ) (hcs : SpineValid k (c :: cs) len) :
    SpineValid k [c.regrow a delta] (len + delta) := by
  obtain ⟨hk, hcap, hlen, hrest, -⟩ := hcs
  refine ⟨hk, hcap, ?_, hrest, trivial⟩
  simp only [Crumb.regrow]
  omega

theorem spineValid_single (a : Addr) (length height : ℕ) :
    SpineValid height [Crumb.single a length height] length :=
  ⟨rfl, by simp [Crumb.single, maxCapacity], by simp [Crumb.single], by simp [Crumb.single],
    trivial⟩

end Target

/-! ### Rules -/

section Rules

variable [Target] {h : Heap Node} {Z : List Addr} {R : Multiset Addr} {a : Addr} {b : Btree}

omit [Target] in
theorem wp_asBtree (ha : h.node? a = some (.btree b)) {Q : Btree → Heap Node → Prop}
    (hQ : Q b h) : wp (asBtree a) Q h := by
  rw [asBtree, wp_bind]
  exact wp_read ha ((wp_pure _ _ _).mpr hQ)

theorem wp_allocBtree {length height : ℕ} {edges : List Addr} (ho : Owned h Z R)
    (hk : height ≤ maxDepth) {Q : Addr → Heap Node → Prop}
    (hQ : ∀ a h', Owned h' (a :: Z) R → Grows h h' →
      h'.node? a = some (.btree ⟨length, height, 0, edges⟩) → Q a h') :
    wp (allocBtree length height edges) Q h := by
  rw [allocBtree, if_neg (by omega)]
  exact wp_alloc ho hQ

theorem wp_newWith {n : Node} (ho : Owned h Z R) (ha : h.node? a = some n)
    (hk : n.level ≤ maxDepth) {Q : Addr → Heap Node → Prop}
    (hQ : ∀ b h', Owned h' (b :: Z) R → Grows h h' →
      h'.node? b = some (.btree ⟨n.length, n.level, 0, [a]⟩) → Q b h') :
    wp (newWith a) Q h := by
  rw [newWith, wp_bind]
  exact wp_read ha (wp_allocBtree ho hk hQ)

theorem wp_newPair {c : Addr} {b' : Btree} (ho : Owned h Z R) (ha : h.node? a = some (.btree b))
    (hc : h.node? c = some (.btree b')) (hk : b.height + 1 ≤ maxDepth)
    (hlen : b.length + b'.length ≤ usizeMax) {Q : Addr → Heap Node → Prop}
    (hQ : ∀ d h', Owned h' (d :: Z) R → Grows h h' →
      h'.node? d = some (.btree ⟨b.length + b'.length, b.height + 1, 0, [a, c]⟩) → Q d h') :
    wp (newPair a c) Q h := by
  rw [newPair, wp_bind]
  refine wp_asBtree ha ?_
  rw [wp_bind]
  refine wp_asBtree hc (wp_allocBtree ho hk ?_)
  rwa [addUsize_of_le hlen]

/-- A raw copy is opened and shares the references of the node it was copied from. -/
theorem wp_copyRaw {newLength : ℕ} (ho : Owned h Z R) (ha : h.node? a = some (.btree b))
    {Q : Addr → Heap Node → Prop}
    (hQ : ∀ c h', Owned h' (c :: Z) R → Grows h h' →
      h'.node? c = some (.btree { b with length := newLength }) → Q c h') :
    wp (copyRaw a newLength) Q h := by
  rw [copyRaw, wp_bind]
  exact wp_asBtree ha (wp_alloc ho hQ)

/-- A copy is opened and its references are handed out. -/
theorem wp_copy (ho : Owned h Z R) (ha : h.node? a = some (.btree b)) (hr : Reach h R a)
    {Q : Addr → Heap Node → Prop}
    (hQ : ∀ c h', Owned h' (c :: Z) ((b.edges : Multiset Addr) + R) → Grows h h' →
      h'.node? c = some (.btree b) → Q c h') :
    wp (copy a) Q h := by
  rw [copy, wp_bind]
  refine wp_asBtree ha ?_
  rw [wp_bind]
  refine wp_copyRaw ho ha fun c h₁ ho₁ hg₁ hc₁ ↦ ?_
  rw [wp_bind]
  have hf := ho.frame_of_grows hg₁
  refine wp_refAll ho₁ (fun e he ↦ ?_) fun h₂ ho₂ hn₂ ↦ ?_
  · exact (hr.child ha he).transfer hf.kept
  · exact (wp_pure _ _ _).mpr
      (hQ c h₂ ho₂ (hg₁.trans (Grows.of_node?_eq hn₂)) ((hn₂ c).trans hc₁))

theorem wp_addEdges {back : Bool} {edges : List Addr} (ho : Owned h Z R) (haZ : a ∈ Z)
    (ha : h.node? a = some (.btree b)) (hcap : b.size + edges.length ≤ maxCapacity)
    {Q : Unit → Heap Node → Prop}
    (hQ : ∀ h', Owned h' Z R → (∀ x ≠ a, h'.node? x = h.node? x) →
      h'.node? a = some (.btree { b with
        begin := alignedBegin back (b.size + edges.length), edges := join back b.edges edges }) →
      Q () h') :
    wp (addEdges back a edges) Q h := by
  rw [addEdges, wp_bind]
  refine wp_asBtree ha ?_
  rw [if_pos hcap]
  exact wp_write ho haZ hQ

theorem wp_addLength {delta : ℕ} (ho : Owned h Z R) (haZ : a ∈ Z)
    (ha : h.node? a = some (.btree b)) (hlen : b.length + delta ≤ usizeMax)
    {Q : Unit → Heap Node → Prop}
    (hQ : ∀ h', Owned h' Z R → (∀ x ≠ a, h'.node? x = h.node? x) →
      h'.node? a = some (.btree { b with length := b.length + delta }) → Q () h') :
    wp (addLength a delta) Q h := by
  rw [addLength, wp_bind]
  refine wp_asBtree ha ?_
  rw [addUsize_of_le hlen]
  exact wp_write ho haZ hQ

/-- Adding to the lengths along an opened spine. -/
theorem wp_addLengths {back : Bool} {cs : List Crumb} {delta : ℕ} (ho : Owned h Z R)
    (hZ : spineAddrs cs ⊆ Z) (hnd : (spineAddrs cs).Nodup) (hcs : SpineNodes back h cs a)
    (hlen : ∀ c ∈ cs, c.hd.length + delta ≤ usizeMax) {Q : Unit → Heap Node → Prop}
    (hQ : ∀ h', Owned h' Z R → (∀ x ∉ spineAddrs cs, h'.node? x = h.node? x) →
      SpineNodes back h' (growSpine delta cs) a → Q () h') :
    wp (addLengths (spineAddrs cs) delta) Q h := by
  induction cs generalizing h a with
  | nil => exact (wp_pure _ _ _).mpr (hQ h ho (fun _ _ ↦ rfl) trivial)
  | cons c cs ih =>
    obtain ⟨hc, hrest⟩ := hcs
    obtain ⟨hnot, hnd⟩ := List.nodup_cons.mp hnd
    rw [spineAddrs_cons, addLengths, wp_bind]
    refine wp_addLength ho (hZ List.mem_cons_self) hc (hlen c List.mem_cons_self)
      fun h₁ ho₁ hne₁ hc₁ ↦ ?_
    have hrest₁ : SpineNodes back h₁ cs c.hd.addr :=
      hrest.congr fun b hb ↦ hne₁ b fun hbc ↦ hnot (hbc ▸ hb)
    refine ih ho₁ (fun b hb ↦ hZ (List.mem_cons_of_mem _ hb)) hnd hrest₁
      (fun d hd ↦ hlen d (List.mem_cons_of_mem _ hd)) fun h₂ ho₂ hne₂ hcs₂ ↦ ?_
    refine hQ h₂ ho₂ (fun x hx ↦ ?_) ⟨(hne₂ _ hnot).trans hc₁, hcs₂⟩
    rw [spineAddrs_cons, List.mem_cons, not_or] at hx
    exact (hne₂ x hx.2).trans (hne₁ x hx.1)

/-- Adding an edge to an opened node with room changes that node only. -/
theorem wp_addEdge_owned {back : Bool} {edge : Addr} {delta : ℕ} (ho : Owned h Z R) (haZ : a ∈ Z)
    (ha : h.node? a = some (.btree b)) (hcap : b.size < maxCapacity)
    (hlen : b.length + delta ≤ usizeMax) {Q : OpResult → Heap Node → Prop}
    (hQ : ∀ h', Owned h' Z R → (∀ x ≠ a, h'.node? x = h.node? x) →
      h'.node? a = some (.btree ⟨b.length + delta, b.height, alignedBegin back (b.size + 1),
        join back b.edges [edge]⟩) → Q ⟨a, .inPlace⟩ h') :
    wp (addEdge back a true edge delta) Q h := by
  rw [addEdge, wp_bind]
  refine wp_asBtree ha ?_
  rw [if_neg (by omega)]
  simp only [toOpResult, if_true, wp_bind, wp_pure, add]
  have hcap' : b.size + [edge].length ≤ maxCapacity := hcap
  refine wp_addEdges ho haZ ha hcap' fun h₁ ho₁ hne₁ ha₁ ↦ ?_
  refine wp_addLength ho₁ haZ ha₁ hlen fun h₂ ho₂ hne₂ ha₂ ↦ ?_
  exact hQ h₂ ho₂ (fun x hx ↦ (hne₂ x hx).trans (hne₁ x hx)) ha₂

/-- Adding an edge to a shared node with room makes an opened copy. -/
theorem wp_addEdge_shared {back : Bool} {edge : Addr} {delta : ℕ} (ho : Owned h Z R)
    (ha : h.node? a = some (.btree b)) (hr : Reach h R a) (hcap : b.size < maxCapacity)
    (hlen : b.length + delta ≤ usizeMax) {Q : OpResult → Heap Node → Prop}
    (hQ : ∀ c h', Owned h' (c :: Z) ((b.edges : Multiset Addr) + R) → Frame Z R h h' →
      h'.node? c = some (.btree ⟨b.length + delta, b.height, alignedBegin back (b.size + 1),
        join back b.edges [edge]⟩) → Q ⟨c, .copied⟩ h') :
    wp (addEdge back a false edge delta) Q h := by
  rw [addEdge, wp_bind]
  refine wp_asBtree ha ?_
  rw [if_neg (by omega)]
  simp only [toOpResult, Bool.false_eq_true, if_false, wp_bind, wp_pure, add]
  refine wp_copy ho ha hr fun c h₁ ho₁ hg₁ hc₁ ↦ ?_
  have hcZ : c ∉ Z := (List.nodup_cons.mp ho₁.nodup).1
  have hcap' : b.size + [edge].length ≤ maxCapacity := hcap
  refine wp_addEdges ho₁ List.mem_cons_self hc₁ hcap' fun h₂ ho₂ hne₂ hc₂ ↦ ?_
  refine wp_addLength ho₂ List.mem_cons_self hc₂ hlen fun h₃ ho₃ hne₃ hc₃ ↦ ?_
  have hf : Frame Z ((b.edges : Multiset Addr) + R) h₁ h₃ := ho₁.frame_of_opened
    List.mem_cons_self hcZ fun x hx ↦ (hne₃ x hx).trans (hne₂ x hx)
  refine hQ c h₃ ho₃ ((ho.frame_of_grows hg₁).trans ?_) hc₃
  exact hf.mono (List.Subset.refl _) (Multiset.le_add_left _ _)

/-- Adding an edge to a full node makes an opened node of its own. -/
theorem wp_addEdge_full {back owned : Bool} {edge : Addr} {delta : ℕ} {n : Node}
    (ho : Owned h Z R) (ha : h.node? a = some (.btree b)) (hcap : b.size = maxCapacity)
    (he : h.node? edge = some n) (hk : n.level ≤ maxDepth) {Q : OpResult → Heap Node → Prop}
    (hQ : ∀ c h', Owned h' (c :: Z) R → Grows h h' →
      h'.node? c = some (.btree ⟨n.length, n.level, 0, [edge]⟩) → Q ⟨c, .popped⟩ h') :
    wp (addEdge back a owned edge delta) Q h := by
  rw [addEdge, wp_bind]
  refine wp_asBtree ha ?_
  rw [if_pos hcap.ge, wp_bind]
  refine wp_newWith ho he hk fun c h' ho' hg hc ↦ ?_
  exact (wp_pure _ _ _).mpr (hQ c h' ho' hg hc)

/-- Replacing the outermost edge of an opened node drops the old one. -/
theorem wp_setEdge_owned {back : Bool} {edge old : Addr} {rest : List Addr} {delta : ℕ}
    (ho : Owned h Z (old ::ₘ R)) (haZ : a ∈ Z) (ha : h.node? a = some (.btree b))
    (hb : b.edges = join back rest [old]) (hlen : b.length + delta ≤ usizeMax)
    {Q : OpResult → Heap Node → Prop}
    (hQ : ∀ h', Owned h' Z R → (∀ Z' ⊆ Z, a ∉ Z' → Frame Z' R h h') →
      h'.node? a = some (.btree { b with
        length := b.length + delta, edges := join back rest [edge] }) → Q ⟨a, .inPlace⟩ h') :
    wp (setEdge back a true edge delta) Q h := by
  rw [setEdge, wp_bind]
  refine wp_asBtree ha ?_
  simp only [hb, unjoin_join, if_true, wp_bind, wp_pure, addUsize_of_le hlen]
  refine wp_unref ho fun h₁ ho₁ hf₁ ↦ ?_
  refine wp_write ho₁ haZ fun h₂ ho₂ hne₂ ha₂ ↦ hQ h₂ ho₂ (fun Z' hZ' haZ' ↦ ?_) ha₂
  exact (hf₁.mono hZ' le_rfl).trans (ho₁.frame_of_opened haZ haZ' hne₂)

/-- Replacing the outermost edge of a shared node makes an opened copy. -/
theorem wp_setEdge_shared {back : Bool} {edge old : Addr} {rest : List Addr} {delta : ℕ}
    (ho : Owned h Z R) (ha : h.node? a = some (.btree b)) (hr : Reach h R a)
    (hb : b.edges = join back rest [old]) (hlen : b.length + delta ≤ usizeMax)
    {Q : OpResult → Heap Node → Prop}
    (hQ : ∀ c h', Owned h' (c :: Z) ((rest : Multiset Addr) + R) → Frame Z R h h' →
      h'.node? c = some (.btree { b with
        length := b.length + delta, edges := join back rest [edge] }) → Q ⟨c, .copied⟩ h') :
    wp (setEdge back a false edge delta) Q h := by
  rw [setEdge, wp_bind]
  refine wp_asBtree ha ?_
  simp only [hb, unjoin_join, Bool.false_eq_true, if_false, wp_bind, wp_pure,
    addUsize_of_le hlen]
  refine wp_copyRaw ho ha fun c h₁ ho₁ hg₁ hc₁ ↦ ?_
  have hcZ : c ∉ Z := (List.nodup_cons.mp ho₁.nodup).1
  have hf₁ := ho.frame_of_grows hg₁
  refine wp_refAll ho₁ (fun e he ↦ ?_) fun h₂ ho₂ hn₂ ↦ ?_
  · have hchild : e ∈ Pointers.children (Node.btree b) := by
      change e ∈ b.edges
      simp [hb, he]
    exact (hr.child ha hchild).transfer hf₁.kept
  refine wp_write ho₂ List.mem_cons_self fun h₃ ho₃ hne₃ hc₃ ↦ ?_
  have hf₂ : Frame Z R h₁ h₂ := Owned.frame_of_node?_eq hn₂
  have hf₃ : Frame Z ((rest : Multiset Addr) + R) h₂ h₃ :=
    ho₂.frame_of_opened List.mem_cons_self hcZ hne₃
  exact hQ c h₃ ho₃ ((hf₁.trans hf₂).trans (hf₃.mono (List.Subset.refl _)
    (Multiset.le_add_left _ _))) hc₃

end Rules

end CordRs
