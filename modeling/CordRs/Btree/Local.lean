import CordRs.Btree.AddData
import CordRs.Btree.AppendBuffer
import CordRs.Btree.ExtractBuffer
import CordRs.RefHeap.Local

/-!
# The tree operations are local

A tree operation gets to a node by the references that it is given, one after the other, or it
allocates the node. So what it does in the part of the heap that belongs to its references it does in
the whole heap. Each operation is an instance of `RefHeap.Local` because what it is put together from
is; for a loop this is an induction on what the loop runs through.
-/

namespace CordRs

open RefHeap LevelTree

/-! ### Nodes -/

section Node

variable [Target]

instance (edges : List Addr) (destroy : Addr → HeapM Unit) [∀ a, Local (destroy a)] :
    Local (unrefWith destroy edges) := by
  induction edges with
  | nil => exact Local.pure ()
  | cons edge edges ih =>
    unfold unrefWith
    infer_instance

instance (fuel : ℕ) (rep : Addr) : Local (destroy fuel rep) := by
  induction fuel generalizing rep with
  | zero => exact Local.throw Fault.unreachable
  | succ fuel ih =>
    unfold destroy
    exact .andThen fun node ↦ by cases node <;> infer_instance

instance (rep : Addr) : Local (unref rep) := by
  unfold unref
  infer_instance

instance (rep : Addr) : Local (refRep rep) := by
  unfold refRep
  infer_instance

instance (rep : Addr) : Local (asBtree rep) := by
  unfold asBtree
  exact .andThen fun node ↦ by cases node <;> infer_instance

instance (length height : ℕ) (edges : List Addr) : Local (allocBtree length height edges) := by
  unfold allocBtree
  infer_instance

instance (height : ℕ) : Local (newNode height) := by
  unfold newNode
  infer_instance

instance (rep : Addr) : Local (newWith rep) := by
  unfold newWith
  infer_instance

instance (front back : Addr) : Local (newPair front back) := by
  unfold newPair
  infer_instance

instance (this : Addr) (newLength : ℕ) : Local (copyRaw this newLength) := by
  unfold copyRaw
  infer_instance

instance (this : Addr) : Local (copy this) := by
  unfold copy
  infer_instance

instance (back : Bool) (this : Addr) (edges : List Addr) : Local (addEdges back this edges) := by
  unfold addEdges
  infer_instance

instance (back : Bool) (this rep : Addr) : Local (add back this rep) := by
  unfold add
  infer_instance

instance (back : Bool) (this src : Addr) : Local (addEdgesFrom back this src) := by
  unfold addEdgesFrom
  infer_instance

instance (this : Addr) (delta : ℕ) : Local (addLength this delta) := by
  unfold addLength
  infer_instance

instance (nodes : List Addr) (delta : ℕ) : Local (addLengths nodes delta) := by
  induction nodes with
  | nil => exact Local.pure ()
  | cons node nodes ih =>
    unfold addLengths
    infer_instance

instance (this : Addr) (owned : Bool) : Local (toOpResult this owned) := by
  unfold toOpResult
  infer_instance

instance (back : Bool) (this : Addr) (owned : Bool) (edge : Addr) (delta : ℕ) :
    Local (addEdge back this owned edge delta) := by
  unfold addEdge
  infer_instance

instance (back : Bool) (this : Addr) (owned : Bool) (edge : Addr) (delta : ℕ) :
    Local (setEdge back this owned edge delta) := by
  unfold setEdge
  refine .andThen fun b ↦ ?_
  cases unjoin back b.edges <;> infer_instance

end Node

/-! ### Stacks -/

section Stack

variable [Target]

instance (back : Bool) (tree : Addr) : Local (edgeAt back tree) := by
  unfold edgeAt
  refine .andThen fun b ↦ ?_
  cases unjoin back b.edges <;> infer_instance

instance (back : Bool) (depth : ℕ) (tree : Addr) (stack : List Addr) :
    Local (pushStack back depth tree stack) := by
  induction depth generalizing tree stack with
  | zero => exact Local.pure _
  | succ depth ih =>
    unfold pushStack
    infer_instance

instance (back : Bool) (depth : ℕ) (tree : Addr) (stack : List Addr) :
    Local (buildStack back depth tree stack) := by
  induction depth generalizing tree stack <;>
  · unfold buildStack
    infer_instance

instance (back : Bool) (height : ℕ) (tree : Addr) (stack : List Addr) :
    Local (buildOwnedStack back height tree stack) := by
  induction height generalizing tree stack <;>
  · unfold buildOwnedStack
    infer_instance

instance (length height : ℕ) (stack : List Addr) (edge : Addr) :
    Local (rebuildUp length height stack edge) := by
  induction stack generalizing height edge with
  | nil => exact Local.throw _
  | cons node above ih =>
    unfold rebuildUp
    refine .andThen fun result ↦ ?_
    cases result.action <;> cases above <;> infer_instance

instance (owned : Bool) (stack edges : List Addr) : Local (rebuildEdges owned stack edges) := by
  induction edges generalizing stack with
  | nil => exact Local.pure stack
  | cons edge edges ih =>
    unfold rebuildEdges
    infer_instance

instance (step : List Addr → Addr → HeapM (List Addr)) [∀ stack tree, Local (step stack tree)]
    (stack trees : List Addr) : Local (rebuildTrees step stack trees) := by
  induction trees generalizing stack with
  | nil => exact Local.pure stack
  | cons tree trees ih =>
    unfold rebuildTrees
    infer_instance

instance (fuel : ℕ) (stack : List Addr) (tree : Addr) (consume : Bool) :
    Local (rebuildInto fuel stack tree consume) := by
  induction fuel generalizing stack tree consume with
  | zero => exact Local.throw Fault.unreachable
  | succ fuel ih =>
    unfold rebuildInto
    infer_instance

instance (tree : Addr) : Local (rebuild tree) := by
  unfold rebuild
  infer_instance

instance (back : Bool) (tree : Addr) (result : OpResult) : Local (finalize back tree result) := by
  unfold finalize
  cases result.action <;> infer_instance

instance (back : Bool) (tree : Addr) (shareDepth length : ℕ) (stack : List Addr)
    (result : OpResult) : Local (unwind back tree shareDepth length stack result) := by
  induction stack generalizing result with
  | nil =>
    unfold unwind
    infer_instance
  | cons node above ih =>
    unfold unwind
    cases result.action <;> infer_instance

end Stack

/-! ### Operations on trees -/

section Operations

variable [Target]

instance (back : Bool) (tree rep : Addr) : Local (addCordRep back tree rep) := by
  unfold addCordRep
  infer_instance

instance (src : Addr) (edges : List Addr) : Local (keepEdges src edges) := by
  unfold keepEdges
  infer_instance

instance (back : Bool) (dst src : Addr) : Local (merge back dst src) := by
  unfold merge
  refine .andThen fun d ↦ .andThen fun s ↦ .andThen fun found ↦ ?_
  infer_instance

instance (left right : Addr) : Local (mergeTrees left right) := by
  unfold mergeTrees
  infer_instance

instance (edge : Addr) : Local (isDataEdge edge) := by
  unfold isDataEdge
  exact .andThen fun node ↦ by cases node <;> infer_instance

instance (tree rep : Addr) : Local (append tree rep) := by
  unfold append
  refine .andThen fun data ↦ ?_
  have hread : Local (do
      match ← read rep with
      | .btree _ => mergeTrees tree rep
      | _ => throw (.panic "cord-rs: unexpected node type in CordRepBtree::append") : HeapM Addr) :=
    .andThen fun node ↦ by cases node <;> infer_instance
  infer_instance

instance (depth : ℕ) (node : Addr) (stack : List Addr) : Local (ownedPath depth node stack) := by
  induction depth generalizing node stack with
  | zero => exact Local.pure _
  | succ depth ih =>
    unfold ownedPath
    infer_instance

instance (this : Addr) (src : Bytes) : Local (getAppendBuffer this src) := by
  unfold getAppendBuffer
  refine .andThen fun b ↦ .andThen fun path ↦ ?_
  cases path with
  | none => infer_instance
  | some path =>
    refine .andThen fun edge ↦ .andThen fun unique ↦ .andThen fun node ↦ ?_
    cases unique <;> rcases node with (_ | _) | _ | _ <;> infer_instance

instance (path : List Addr) : Local (deleteEmptied path) := by
  induction path with
  | nil => exact Local.pure []
  | cons tree stack ih =>
    unfold deleteEmptied
    infer_instance

instance (tree : Addr) : Local (dropLastSlot tree) := by
  unfold dropLastSlot
  infer_instance

instance (this : Addr) (delta : ℕ) : Local (subLength this delta) := by
  unfold subLength
  infer_instance

instance (nodes : List Addr) (delta : ℕ) : Local (subLengths nodes delta) := by
  induction nodes with
  | nil => exact Local.pure ()
  | cons node nodes ih =>
    unfold subLengths
    infer_instance

instance (child : Addr → HeapM Addr) [∀ a, Local (child a)] (tree : Addr) :
    Local (collapseAt child tree) := by
  unfold collapseAt
  infer_instance

instance (height : ℕ) (tree : Addr) : Local (collapse height tree) := by
  induction height generalizing tree <;>
  · unfold collapse
    infer_instance

instance (height : ℕ) (tree : Addr) (path : List Addr) (length : ℕ) :
    Local (removeExtracted height tree path length) := by
  unfold removeExtracted
  exact .andThen fun stack ↦ by cases stack <;> infer_instance

instance (tree : Addr) (extraCapacity : ℕ) : Local (extractAppendBuffer tree extraCapacity) := by
  unfold extractAppendBuffer
  refine .andThen fun b ↦ .andThen fun root ↦ ?_
  split
  · refine .andThen fun path ↦ ?_
    cases path with
    | none => infer_instance
    | some path =>
      refine .andThen fun rep ↦ .andThen fun unique ↦ .andThen fun node ↦ ?_
      cases unique <;> rcases node with (_ | _) | _ | _ <;> infer_instance
  · infer_instance

instance (back : Bool) (data : Bytes) (extra : ℕ) : Local (fillOneFlat back data extra) := by
  unfold fillOneFlat
  infer_instance

instance (back : Bool) (slots : ℕ) (data : Bytes) (extra : ℕ) :
    Local (fillFlats back slots data extra) := by
  induction slots generalizing data with
  | zero => exact Local.pure _
  | succ slots ih =>
    unfold fillFlats
    infer_instance

instance (back : Bool) (data : Bytes) (extra : ℕ) : Local (newLeaf back data extra) := by
  unfold newLeaf
  infer_instance

instance (back : Bool) (this : Addr) (data : Bytes) (extra : ℕ) :
    Local (addDataToLeaf back this data extra) := by
  unfold addDataToLeaf
  infer_instance

instance (back : Bool) (extra fuel : ℕ) (tree : Addr) (stack : List Addr) (shareDepth : ℕ)
    (data : Bytes) : Local (addLeaves back extra fuel tree stack shareDepth data) := by
  induction fuel generalizing tree stack shareDepth data with
  | zero => exact Local.throw Fault.unreachable
  | succ fuel ih =>
    unfold addLeaves
    infer_instance

instance (back : Bool) (tree : Addr) (data : Bytes) (extra : ℕ) :
    Local (addData back tree data extra) := by
  unfold addData
  infer_instance

instance (tree : Addr) (data : Bytes) (extra : ℕ) : Local (appendData tree data extra) := by
  unfold appendData
  infer_instance

end Operations

end CordRs
