import CordRs.Btree.Slots
import CordRs.RefHeap.Represent

/-!
# Btree nodes as they are stored

The operations on single nodes, on a heap whose btree nodes keep their edges in arrays. They do what
they do on the nodes of the model. A node that is changed in place is read, changed and written
back; nothing reads it in between.

## Main definitions

* `CordRs.CordRepBtree`, `CordRs.StoredNode`: nodes as they are stored.
* `CordRs.Stores`: a stored node stands for a node of the model.
* `CordRs.Implements`: a program on stored nodes does what a program of the model does.

## Main results

* `CordRs.Stored.implements_destroy`, `CordRs.Stored.implements_addEdge`,
  `CordRs.Stored.implements_addEdgesFrom`, `CordRs.Stored.implements_setEdge`,
  `CordRs.Stored.implements_consumeBeginTo`.
-/

namespace CordRs

open RefHeap LevelTree

/-- A btree node as it is stored. -/
structure CordRepBtree where
  length : ℕ
  height : ℕ
  edges : EdgeArray

/-- A node as it is stored. -/
inductive StoredNode where
  | payload (p : Payload)
  | substring (length start : ℕ) (child : Addr)
  | btree (tree : CordRepBtree)

namespace StoredNode

/-- The number of bytes a node stands for. -/
def length : StoredNode → ℕ
  | payload p => p.data.length
  | substring length _ _ => length
  | btree t => t.length

/-- Zero for a data edge, one more than its height for a btree node. -/
def level : StoredNode → ℕ
  | btree t => t.height + 1
  | _ => 0

/-- A measure of nodes that goes down along references. -/
def rank : StoredNode → ℕ
  | payload _ => 0
  | substring _ _ _ => 1
  | btree t => t.height + 2

end StoredNode

/-- Operations on the heap of stored nodes. -/
abbrev StoredM := Prog Fault StoredNode

namespace Stored

/-! ### Operations -/

/-- The result of accesses to slots. -/
def checked {α : Type} (result : Option α) : StoredM α :=
  match result with
  | some a => pure a
  | none => throw .window

/-- Read a btree node. -/
def asBtree (rep : Addr) : StoredM CordRepBtree := do
  match ← read rep with
  | .btree t => pure t
  | _ => throw .unreachable

/-- Drop a reference to each edge, and destroy those it was the last one of. -/
def unrefWith (destroy : Addr → StoredM Unit) : List Addr → StoredM Unit
  | [] => pure ()
  | edge :: edges => do
    if !(← refDec edge) then
      destroy edge
    unrefWith destroy edges

/-- Destroy a node whose last reference was dropped. -/
def destroy : ℕ → Addr → StoredM Unit
  | 0, _ => throw .unreachable
  | fuel + 1, rep => do
    match ← read rep with
    | .btree t =>
      let edges ← checked t.edges.edges
      unrefWith (destroy fuel) edges
      free rep
    | .substring _ _ child =>
      free rep
      if !(← refDec child) then
        destroy fuel child
    | .payload _ => free rep

/-- Drop a reference. -/
def unref (rep : Addr) : StoredM Unit := do
  if !(← refDec rep) then
    let node ← read rep
    destroy (node.rank + 1) rep

/-- Drop a reference to each of a list of edges. -/
def unrefEdges : List Addr → StoredM Unit
  | [] => pure ()
  | edge :: edges => do
    unref edge
    unrefEdges edges

/-- Allocate a btree node, which must not be higher than the fixed stacks are deep. -/
def allocBtree (tree : CordRepBtree) : StoredM Addr := do
  if maxDepth < tree.height then
    throw .abort
  else
    alloc (.btree tree)

/-- A new node without edges. -/
def newNode (height : ℕ) : StoredM Addr := allocBtree ⟨0, height, .empty 0 0⟩

/-- A new node with a single edge. -/
def newWith (rep : Addr) : StoredM Addr := do
  let node ← read rep
  let edges ← checked (EdgeArray.setEdgePtr (.empty 0 1) 0 rep)
  allocBtree ⟨node.length, node.level, edges⟩

/-- A new node with two btree nodes of one height. -/
def newPair [Target] (front back : Addr) : StoredM Addr := do
  let f ← asBtree front
  let b ← asBtree back
  let edges ← checked (EdgeArray.setEdgePtr (.empty 0 2) 0 front)
  let edges ← checked (EdgeArray.setEdgePtr edges 1 back)
  allocBtree ⟨addUsize f.length b.length, f.height + 1, edges⟩

/-- Copy a node, with all its slots, without adding references to its edges. -/
def copyRaw (this : Addr) (newLength : ℕ) : StoredM Addr := do
  let t ← asBtree this
  alloc (.btree { t with length := newLength })

/-- Copy a node. -/
def copy (this : Addr) : StoredM Addr := do
  let t ← asBtree this
  let tree ← copyRaw this t.length
  let edges ← checked t.edges.edges
  refAll edges
  pure tree

/-- Copy a node with the edges from slot `begin` on. -/
def copyToEndFrom (this : Addr) (begin newLength : ℕ) : StoredM Addr := do
  let t ← asBtree this
  let t : CordRepBtree := ⟨newLength, t.height, { t.edges with begin := begin }⟩
  let tree ← alloc (.btree t)
  let edges ← checked t.edges.edges
  refAll edges
  pure tree

/-- Copy a node with the edges before slot `end`. -/
def copyBeginTo (this : Addr) («end» newLength : ℕ) : StoredM Addr := do
  let t ← asBtree this
  let t : CordRepBtree := ⟨newLength, t.height, { t.edges with «end» := «end» }⟩
  let tree ← alloc (.btree t)
  let edges ← checked t.edges.edges
  refAll edges
  pure tree

/-- Keep the edges before slot `end`, in place if nothing else refers to the node. -/
def consumeBeginTo (tree : Addr) («end» newLength : ℕ) : StoredM Addr := do
  if ← refIsOne tree then
    let t ← asBtree tree
    let edges ← checked (t.edges.edgesRange «end» t.edges.end)
    unrefEdges edges
    write tree (.btree ⟨newLength, t.height, { t.edges with «end» := «end» }⟩)
    pure tree
  else
    let new ← copyBeginTo tree «end» newLength
    unref tree
    pure new

/-- Take the first edge out of a node that is given up. -/
def extractFront (tree : Addr) : StoredM Addr := do
  let t ← asBtree tree
  let front ← checked (t.edges.edge t.edges.begin)
  if ← refIsOne tree then
    let rest ← checked (t.edges.edgesRange (t.edges.begin + 1) t.edges.end)
    unrefEdges rest
    free tree
  else
    refInc front
    unref tree
  pure front

/-- Add an edge at one end of a node. -/
def add (isBack : Bool) (this rep : Addr) : StoredM Unit := do
  let t ← asBtree this
  let edges ← checked (t.edges.add isBack rep)
  write this (.btree { t with edges := edges })

/-- Add the edges of another node at one end of a node. -/
def addEdgesFrom (isBack : Bool) (this src : Addr) : StoredM Unit := do
  let s ← asBtree src
  let t ← asBtree this
  let edges ← checked (EdgeArray.addEdgesFrom isBack t.edges s.edges)
  write this (.btree { t with edges := edges })

/-- Add to the stored length of a node. -/
def addLength [Target] (this : Addr) (delta : ℕ) : StoredM Unit := do
  let t ← asBtree this
  write this (.btree { t with length := addUsize t.length delta })

/-- The node itself if it is owned, otherwise a copy. -/
def toOpResult (this : Addr) (owned : Bool) : StoredM OpResult := do
  if owned then
    pure ⟨this, .inPlace⟩
  else
    pure ⟨← copy this, .copied⟩

/-- Add an edge at one end of a node, or of a node of its own if there is no room. -/
def addEdge [Target] (isBack : Bool) (this : Addr) (owned : Bool) (edge : Addr) (delta : ℕ) :
    StoredM OpResult := do
  let t ← asBtree this
  if maxCapacity ≤ t.edges.size then
    pure ⟨← newWith edge, .popped⟩
  else
    let result ← toOpResult this owned
    add isBack result.tree edge
    addLength result.tree delta
    pure result

/-- Replace the outermost edge of a node. A copy has the slots of the node. -/
def setEdge [Target] (isBack : Bool) (this : Addr) (owned : Bool) (edge : Addr) (delta : ℕ) :
    StoredM OpResult := do
  let t ← asBtree this
  let idx ← checked (t.edges.index isBack)
  let result ← if owned then do
      let old ← checked (t.edges.edge idx)
      unref old
      pure ⟨this, .inPlace⟩
    else do
      let tree ← copyRaw this t.length
      let shift := if isBack then 0 else 1
      let back ← checked t.edges.back
      let rest ← checked (t.edges.edgesRange (t.edges.begin + shift) (back + shift))
      refAll rest
      pure ⟨tree, .copied⟩
  let edges ← checked (t.edges.setEdgePtr idx edge)
  write result.tree (.btree { t with length := addUsize t.length delta, edges := edges })
  pure result

end Stored

/-! ### Nodes that stand for others -/

/-- The array holds the edges of a btree node. -/
structure StoresBtree (t : CordRepBtree) (b : Btree) : Prop where
  length_eq : t.length = b.length
  height_eq : t.height = b.height
  edges : t.edges.Holds b.begin b.edges

/-- A stored node stands for a node of the model. -/
inductive Stores : StoredNode → Node → Prop
  | payload (p : Payload) : Stores (.payload p) (.payload p)
  | substring (length start : ℕ) (child : Addr) :
    Stores (.substring length start child) (.substring length start child)
  | btree {t : CordRepBtree} {b : Btree} (h : StoresBtree t b) : Stores (.btree t) (.btree b)

namespace Stores

variable {n' : StoredNode} {n : Node}

theorem length_eq (h : Stores n' n) : n'.length = n.length := by
  cases h with
  | payload | substring => rfl
  | btree h => exact h.length_eq

theorem level_eq (h : Stores n' n) : n'.level = n.level := by
  cases h with
  | payload | substring => rfl
  | btree h => exact congrArg (· + 1) h.height_eq

theorem rank_eq (h : Stores n' n) : n'.rank = n.rank := by
  cases h with
  | payload | substring => rfl
  | btree h => exact congrArg (· + 2) h.height_eq

end Stores

/-- A program on stored nodes does what a program of the model does. -/
abbrev Implements {α : Type} (m' : StoredM α) (m : HeapM α) : Prop := Refines Stores Eq m' m

namespace Stored

section Implements

variable {α β γ : Type} {a : Addr} {t : CordRepBtree} {b : Btree} {isBack owned : Bool}
  {s : β → α → Prop}

theorem checked_bind {result : Option γ} {x : γ} {f : γ → StoredM β} (hresult : result = some x) :
    (checked result >>= f) = f x := by
  rw [hresult, checked, pure_bind]

theorem refines_checked {result : Option γ} {x : γ} {f : γ → StoredM β} {m : HeapM α}
    (hresult : result = some x) (hf : Refines Stores s (f x) m) :
    Refines Stores s (checked result >>= f) m := by
  rwa [checked_bind hresult]

theorem refines_asBtree : Refines Stores StoresBtree (asBtree a) (CordRs.asBtree a) := by
  refine refines_read.bind fun n' n hn ↦ ?_
  cases hn with
  | payload | substring => exact refines_throw _ _
  | btree h => exact refines_pure h

theorem implements_unrefWith {destroy' : Addr → StoredM Unit} {destroy : Addr → HeapM Unit}
    (hdestroy : ∀ a, Implements (destroy' a) (destroy a)) (edges : List Addr) :
    Implements (unrefWith destroy' edges) (CordRs.unrefWith destroy edges) := by
  induction edges with
  | nil => exact refines_pure rfl
  | cons edge edges ih =>
    refine refines_refDec.bind_eq fun others ↦ ?_
    cases others with
    | true => exact ih
    | false => exact (hdestroy edge).bind_eq fun _ ↦ ih

theorem implements_destroy (fuel : ℕ) (rep : Addr) :
    Implements (destroy fuel rep) (CordRs.destroy fuel rep) := by
  induction fuel generalizing rep with
  | zero => exact refines_throw _ _
  | succ fuel ih =>
    refine refines_read.bind fun n' n hn ↦ ?_
    cases hn with
    | payload => exact refines_free
    | substring length start child =>
      refine refines_free.bind_eq fun _ ↦ refines_refDec.bind_eq fun others ↦ ?_
      cases others with
      | true => exact refines_pure rfl
      | false => exact ih child
    | btree h =>
      refine refines_checked (EdgeArray.edges_eq h.edges) ?_
      exact (implements_unrefWith ih _).bind_eq fun _ ↦ refines_free

theorem implements_unref (rep : Addr) : Implements (unref rep) (CordRs.unref rep) := by
  refine refines_refDec.bind_eq fun others ↦ ?_
  cases others with
  | true => exact refines_pure rfl
  | false =>
    refine refines_read.bind fun n' n hn ↦ ?_
    rw [hn.rank_eq]
    exact implements_destroy _ _

theorem implements_unrefEdges (edges : List Addr) :
    Implements (unrefEdges edges) (CordRs.unrefEdges edges) := by
  induction edges with
  | nil => exact refines_pure rfl
  | cons edge edges ih => exact (implements_unref edge).bind_eq fun _ ↦ ih

theorem implements_allocBtree {length height begin : ℕ} {edges : List Addr}
    (ht : StoresBtree t ⟨length, height, begin, edges⟩) (hbegin : begin = 0) :
    Implements (allocBtree t) (CordRs.allocBtree length height edges) := by
  subst hbegin
  have hheight : t.height = height := ht.height_eq
  rw [allocBtree, CordRs.allocBtree, hheight]
  split_ifs
  · exact refines_throw _ _
  · exact refines_alloc (.btree ht)

theorem implements_newNode (height : ℕ) : Implements (newNode height) (CordRs.newNode height) :=
  implements_allocBtree ⟨rfl, rfl, .empty (Nat.zero_le _)⟩ rfl

/-- The first slots of a new array. -/
theorem exists_fill_empty (edges : List Addr) (hlen : edges.length ≤ maxCapacity) :
    ∃ new, (SlotArray.empty 0 edges.length : EdgeArray).fill? 0 edges = some new ∧
      new.Holds 0 edges := by
  obtain ⟨new, hnew, hend, hholds⟩ := (SlotArray.Holds.empty (Nat.zero_le maxCapacity)).append
    edges (show 0 + 0 + edges.length ≤ maxCapacity by omega) edges.length
  refine ⟨new, hnew, ?_⟩
  rwa [show (SlotArray.empty 0 0 : EdgeArray).end + edges.length = new.end by
    rw [hend]; exact Nat.zero_add _] at hholds

theorem implements_newWith (rep : Addr) : Implements (newWith rep) (CordRs.newWith rep) := by
  refine refines_read.bind fun n' n hn ↦ ?_
  obtain ⟨new, hnew, hholds⟩ := exists_fill_empty [rep] (show 1 ≤ 6 by omega)
  rw [SlotArray.fill?_singleton] at hnew
  exact refines_checked hnew (implements_allocBtree ⟨hn.length_eq, hn.level_eq, hholds⟩ rfl)

theorem implements_newPair [Target] (front back : Addr) :
    Implements (newPair front back) (CordRs.newPair front back) := by
  refine refines_asBtree.bind fun f' f hf ↦ refines_asBtree.bind fun b' b hb ↦ ?_
  obtain ⟨new, hnew, hholds⟩ := exists_fill_empty [front, back] (show 2 ≤ 6 by omega)
  obtain ⟨mid, hmid, hfill⟩ : ∃ mid, EdgeArray.setEdgePtr (.empty 0 2) 0 front = some mid ∧
    mid.fill? 1 [back] = some new := Option.bind_eq_some_iff.mp hnew
  rw [SlotArray.fill?_singleton] at hfill
  refine refines_checked hmid (refines_checked hfill (implements_allocBtree ⟨?_, ?_, hholds⟩ rfl))
  · exact congrArg₂ addUsize hf.length_eq hb.length_eq
  · exact congrArg (· + 1) hf.height_eq

theorem implements_copyRaw (this : Addr) (newLength : ℕ) :
    Implements (copyRaw this newLength) (CordRs.copyRaw this newLength) := by
  refine refines_asBtree.bind fun t b ht ↦ refines_alloc (.btree ⟨rfl, ht.height_eq, ht.edges⟩)

theorem implements_copy (this : Addr) : Implements (copy this) (CordRs.copy this) := by
  refine refines_asBtree.bind fun t b ht ↦ ?_
  rw [ht.length_eq]
  refine (implements_copyRaw this b.length).bind_eq fun tree ↦ ?_
  refine refines_checked (EdgeArray.edges_eq ht.edges) ?_
  exact (refines_refAll b.edges).bind_eq fun _ ↦ refines_pure rfl

/-! ### Parts of a window -/

/-- There is a btree node, which satisfies `P`. -/
def NodeIs (this : Addr) (P : Btree → Prop) (h : Heap Node) : Prop :=
  ∃ b, h.node? this = some (.btree b) ∧ P b

/-- A slot is in the window of a node, or directly behind it. -/
def InWindow (this : Addr) (index : ℕ) : Heap Node → Prop :=
  NodeIs this fun b ↦ b.begin ≤ index ∧ index ≤ b.end

theorem asBtree_eq_ok {h k : Heap Node} (hrun : CordRs.asBtree a h = .ok (b, k)) :
    h.node? a = some (.btree b) ∧ k = h := by
  obtain ⟨⟨n, h₁⟩, hread, hmatch⟩ := exists_of_bind_eq_ok hrun
  obtain ⟨⟨c, h₂⟩, hcell, hnode⟩ := exists_of_bind_eq_ok hread
  obtain ⟨hc, rfl⟩ := get?_of_cell hcell
  cases hnode
  rw [Heap.node?_of_get? hc]
  cases hn : c.node with
  | payload | substring =>
    simp only [hn] at hmatch
    cases hmatch
  | btree b' =>
    simp only [hn] at hmatch
    cases hmatch
    exact ⟨rfl, rfl⟩

/-- What comes after reading a node that satisfies `P`, which is then known. -/
theorem refinesIf_asBtree_eq {P : Btree → Prop} {f' : CordRepBtree → StoredM β}
    {f : Btree → HeapM α}
    (hf : ∀ t b, StoresBtree t b → P b → RefinesIf Stores (NodeIs a (· = b)) s (f' t) (f b)) :
    RefinesIf Stores (NodeIs a P) s (asBtree a >>= f') (CordRs.asBtree a >>= f) := by
  refine (refines_asBtree.restrict _).bind (Q := fun b h ↦ P b ∧ NodeIs a (· = b) h) ?_ ?_
  · rintro h b k ⟨b', hb', hP⟩ hrun
    obtain ⟨hb, rfl⟩ := asBtree_eq_ok hrun
    rw [hb'] at hb
    obtain rfl := Node.btree.inj (Option.some.inj hb)
    exact ⟨hP, b', hb', rfl⟩
  · exact fun t b ht h' h hrep hP ↦ hf t b ht hP.1 h' h hrep hP.2

theorem refinesIf_asBtree {P : Btree → Prop} {f' : CordRepBtree → StoredM β} {f : Btree → HeapM α}
    (hf : ∀ t b, StoresBtree t b → P b → Refines Stores s (f' t) (f b)) :
    RefinesIf Stores (NodeIs a P) s (asBtree a >>= f') (CordRs.asBtree a >>= f) :=
  refinesIf_asBtree_eq fun t b ht hP ↦ (hf t b ht hP).restrict _

theorem implements_copyToEndFrom (this : Addr) (begin newLength : ℕ) :
    RefinesIf Stores (InWindow this begin) Eq (copyToEndFrom this begin newLength)
      (CordRs.copyToEndFrom this begin newLength) := by
  refine refinesIf_asBtree fun t b ht ⟨hbegin, hend⟩ ↦ ?_
  have hedges := ht.edges.drop hbegin hend
  refine (refines_alloc (.btree ⟨rfl, ht.height_eq, hedges⟩)).bind_eq fun tree ↦ ?_
  refine refines_checked (EdgeArray.edges_eq hedges) ?_
  exact (refines_refAll _).bind_eq fun _ ↦ refines_pure rfl

theorem implements_copyBeginTo (this : Addr) («end» newLength : ℕ) :
    RefinesIf Stores (InWindow this «end») Eq (copyBeginTo this «end» newLength)
      (CordRs.copyBeginTo this «end» newLength) := by
  refine refinesIf_asBtree fun t b ht ⟨hbegin, hend⟩ ↦ ?_
  have hedges := ht.edges.take hbegin hend
  refine (refines_alloc (.btree ⟨rfl, ht.height_eq, hedges⟩)).bind_eq fun tree ↦ ?_
  refine refines_checked (EdgeArray.edges_eq hedges) ?_
  exact (refines_refAll _).bind_eq fun _ ↦ refines_pure rfl

theorem implements_consumeBeginTo (tree : Addr) («end» newLength : ℕ) :
    RefinesIf Stores (InWindow tree «end») Eq (consumeBeginTo tree «end» newLength)
      (CordRs.consumeBeginTo tree «end» newLength) := by
  refine (refines_refIsOne.restrict _).bind (Q := fun _ ↦ InWindow tree «end») ?_ ?_
  · intro h one k hwindow hrun
    rw [heap_of_refIsOne hrun]
    exact hwindow
  rintro one _ rfl
  cases one with
  | true =>
    refine refinesIf_asBtree fun t b ht hin ↦ ?_
    obtain ⟨hbegin, hend⟩ := hin
    refine refines_checked (EdgeArray.edgesRange_eq ht.edges hbegin hend) ?_
    refine (implements_unrefEdges _).bind_eq fun _ ↦ ?_
    refine (refines_write (.btree ⟨rfl, ht.height_eq, ?_⟩)).bind_eq fun _ ↦ refines_pure rfl
    exact ht.edges.take hbegin hend
  | false =>
    refine (implements_copyBeginTo tree «end» newLength).bind (Q := fun _ _ ↦ True)
      (fun _ _ _ _ _ ↦ trivial) ?_
    rintro new _ rfl
    exact Refines.restrict ((implements_unref tree).bind_eq fun _ ↦ refines_pure rfl) _

theorem implements_extractFront (tree : Addr) :
    Implements (extractFront tree) (CordRs.extractFront tree) := by
  refine refines_asBtree.bind fun t b ht ↦ ?_
  obtain ⟨length, height, begin, edges⟩ := b
  cases edges with
  | nil => exact refines_throw _ _
  | cons front rest =>
    have hbegin : t.edges.begin = begin := ht.edges.begin_eq
    refine refines_checked (x := front) ?_ (refines_refIsOne.bind_eq fun one ↦ ?_)
    · rw [EdgeArray.edge, ht.edges.read?_eq hbegin.ge, hbegin, Nat.sub_self]
      rfl
    cases one with
    | true =>
      have hrange : t.edges.edgesRange (t.edges.begin + 1) t.edges.end = some rest := by
        rw [hbegin, EdgeArray.edgesRange_eq ht.edges (Nat.le_succ begin) (by simp)]
        simp
      refine refines_checked hrange ?_
      exact (implements_unrefEdges rest).bind_eq fun _ ↦ refines_free.bind_eq fun _ ↦
        refines_pure rfl
    | false =>
      exact refines_refInc.bind_eq fun _ ↦ (implements_unref tree).bind_eq fun _ ↦ refines_pure rfl

/-! ### Adding edges -/

theorem implements_add (this rep : Addr) :
    Implements (add isBack this rep) (CordRs.add isBack this rep) := by
  refine refines_asBtree.bind fun t b ht ↦ ?_
  split_ifs with hroom
  · obtain ⟨new, hnew, hholds⟩ := EdgeArray.holds_add isBack rep ht.edges hroom
    exact refines_checked hnew (refines_write (.btree ⟨ht.length_eq, ht.height_eq, hholds⟩))
  · exact refines_throw _ _

theorem implements_addEdgesFrom (this src : Addr) :
    Implements (addEdgesFrom isBack this src) (CordRs.addEdgesFrom isBack this src) := by
  refine refines_asBtree.bind fun s' s hs ↦ refines_asBtree.bind fun t b ht ↦ ?_
  split_ifs with hroom
  · obtain ⟨new, hnew, hholds⟩ := EdgeArray.holds_addEdgesFrom isBack ht.edges hs.edges hroom
    exact refines_checked hnew (refines_write (.btree ⟨ht.length_eq, ht.height_eq, hholds⟩))
  · exact refines_throw _ _

theorem implements_addLength [Target] (this : Addr) (delta : ℕ) :
    Implements (addLength this delta) (CordRs.addLength this delta) := by
  refine refines_asBtree.bind fun t b ht ↦ refines_write (.btree ⟨?_, ht.height_eq, ht.edges⟩)
  exact congrArg (addUsize · delta) ht.length_eq

theorem implements_toOpResult (this : Addr) :
    Implements (toOpResult this owned) (CordRs.toOpResult this owned) := by
  cases owned with
  | true => exact refines_pure rfl
  | false => exact (implements_copy this).bind_eq fun _ ↦ refines_pure rfl

theorem implements_addEdge [Target] (this edge : Addr) (delta : ℕ) :
    Implements (addEdge isBack this owned edge delta)
      (CordRs.addEdge isBack this owned edge delta) := by
  refine refines_asBtree.bind fun t b ht ↦ ?_
  rw [EdgeArray.size_eq ht.edges]
  change Refines Stores Eq _ (if maxCapacity ≤ b.edges.length then _ else _)
  split_ifs
  · exact (implements_newWith edge).bind_eq fun _ ↦ refines_pure rfl
  · refine (implements_toOpResult this).bind_eq fun result ↦ ?_
    exact (implements_add _ edge).bind_eq fun _ ↦ (implements_addLength _ delta).bind_eq fun _ ↦
      refines_pure rfl

theorem implements_setEdge [Target] (this edge : Addr) (delta : ℕ) :
    Implements (setEdge isBack this owned edge delta)
      (CordRs.setEdge isBack this owned edge delta) := by
  refine refines_asBtree.bind fun t b ht ↦ ?_
  cases hunjoin : unjoin isBack b.edges with
  | none => exact refines_throw _ _
  | some p =>
    obtain ⟨rest, old⟩ := p
    have hedges := ht.edges
    rw [unjoin_eq_some hunjoin] at hedges
    obtain ⟨idx, hidx, hold, new, hnew, hholds⟩ := EdgeArray.holds_setEdgePtr edge hedges
    obtain ⟨back, hback, hrest⟩ := EdgeArray.edgesRange_shift hedges
    have hset : ∀ result : OpResult, Implements (do
          let edges ← checked (t.edges.setEdgePtr idx edge)
          write result.tree (.btree { t with length := addUsize b.length delta, edges := edges })
          pure result)
        (do
          write result.tree (.btree { b with
            length := addUsize b.length delta, edges := join isBack rest [edge] })
          pure result) := by
      refine fun result ↦ refines_checked hnew ?_
      exact (refines_write (.btree ⟨rfl, ht.height_eq, hholds⟩)).bind_eq fun _ ↦ refines_pure rfl
    rw [ht.length_eq]
    refine refines_checked hidx ?_
    cases owned with
    | true =>
      exact refines_checked hold ((implements_unref old).bind_eq fun _ ↦
        (refines_pure rfl).bind_eq hset)
    | false =>
      refine (implements_copyRaw this b.length).bind_eq fun tree ↦ refines_checked hback ?_
      exact refines_checked hrest ((refines_refAll rest).bind_eq fun _ ↦
        (refines_pure rfl).bind_eq hset)

end Implements

end Stored

end CordRs
