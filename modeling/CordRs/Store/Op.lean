import CordRs.Cord.BufferOps
import CordRs.Cord.Contiguous
import CordRs.Cord.Deserialize
import CordRs.Cord.Extend
import CordRs.Cord.Split
import CordRs.Cord.WriterApart
import CordRs.Store.World

/-!
# The statements of a client

A statement takes values out of variables, calls an operation, and puts the results into variables;
a value that is given up leaves an empty one behind. The statements are run on the heap, and they
have a meaning on the bytes; only what a buffer takes out of a cord, and the room that a writer
answers with, depend on how the cord is stored.

## Main definitions

* `CordRs.StoreOp`, `CordRs.StoreOp.run`: the statements, and how they run.
* `CordRs.StoreOp.refuses`: the panic of a statement that asks for too much.
* `CordRs.StoreOp.Means`: what a statement does to the bytes, and what it answers.
* `CordRs.StoreOp.Fits`: lengths and numbers of data edges are within their limits.
-/

namespace CordRs

open RefHeap LevelTree

variable {ι κ : Type}

/-! ### Statements -/

/-- What a new cord is made from. -/
inductive CordFrom (κ : Type) where
  | slice (data : Bytes)
  | owned (data : Bytes) (capacity : ℕ)
  | global (data : Bytes) (allocationSize : ℕ)
  | static (data : Bytes)
  | owner (data : Bytes)
  | iter (bytes : Bytes)
  | buffer (b : κ)

/-- What is added to a cord: bytes, a cord that is kept, cloned or given up, or a buffer. -/
inductive CordSource (ι κ : Type) where
  | slice (data : Bytes)
  | owned (data : Bytes) (capacity : ℕ)
  | global (data : Bytes) (allocationSize : ℕ)
  | cord (y : ι)
  | cloned (y : ι)
  | moved (y : ι)
  | buffer (b : κ)

/-- A question about cords. -/
inductive Query (ι : Type) where
  | len (x : ι)
  | toVec (x : ι) (memory : ℕ → UInt8)
  | get (x : ι) (index : ℕ)
  | compare (x y : ι)
  | equals (x y : ι)
  | startsWith (x y : ι)
  | endsWith (x y : ι)

/-- A statement. -/
inductive StoreOp (ι κ : Type) where
  | make (x : ι) (src : CordFrom κ)
  | clone (x y : ι)
  | cloneFrom (x y : ι)
  | clear (x : ι)
  | add (back : Bool) (x : ι) (src : CordSource ι κ)
  | extend (x : ι) (bytes : Bytes) (panics : Bool)
  | advance (x : ι) (n : ℕ)
  | truncate (x : ι) (len : ℕ)
  | slice (x y : ι) (range : RangeBounds)
  | get (x y : ι) (range : RangeBounds)
  | splitOff (x y : ι) (pos : ℕ)
  | splitTo (x y : ι) (pos : ℕ)
  | readCord (x y : ι) (pos n : ℕ)
  | makeContiguous (x : ι) (memory : ℕ → UInt8)
  | intoVec (x : ι) (memory : ℕ → UInt8)
  | deserialize (x : ι) (seq : SeqAccess Unit)
  | write (x : ι) (calls : List WriterOp)
  | newBuffer (b : κ) (capacity : ℕ)
  | newBufferWithBlockSize (b : κ) (capacity blockSize : ℕ)
  | cloneBuffer (b d : κ)
  | onBuffer (b : κ) (call : BufferOp)
  | takeAppendBuffer (b : κ) (x : ι) (blockSize capacity minCapacity : ℕ)
  | query (q : Query ι)

/-- What a statement answers. -/
inductive Answer where
  | unit
  | bytes (bs : Bytes)
  | byte (b : Option UInt8)
  | number (n : ℕ)
  | order (o : Ordering)
  | flag (b : Bool)
  | buffer (answer : BufferAnswer)
  | calls (answers : List WriterAnswer)

/-! ### Running -/

section Run

variable [Target] [DecidableEq ι] [DecidableEq κ]

/-- What is in `n` bytes of fresh memory. -/
def freshMemory (memory : ℕ → UInt8) (n : ℕ) : Bytes := (List.range n).map memory

omit [Target] in
@[simp] theorem length_freshMemory (memory : ℕ → UInt8) (n : ℕ) :
    (freshMemory memory n).length = n := by simp [freshMemory]

namespace Store

/-- Change the cord of a variable. -/
def modifyCord {α : Type} (x : ι) (f : Cord Addr → HeapM (Cord Addr × α)) : StoreM ι κ α := do
  let c ← takeCord x
  let (c, answer) ← onHeap (f c)
  putCord x c
  pure answer

/-- A change without an answer. -/
def silent (f : Cord Addr → HeapM (Cord Addr)) (c : Cord Addr) : HeapM (Cord Addr × Answer) := do
  let c ← f c
  pure (c, .unit)

/-- Look at a cord and its tree. -/
def view (x : ι) : StoreM ι κ (Cord Rep) := do
  let c ← borrow x
  onHeap c.view

/-- The cord that is seen in a variable. -/
def cordAt (s : Store ι κ) (x : ι) : Cord Rep := (s.cords x).seen s.heap

/-- The number of data edges of the cord in a variable. -/
def edgeCount (s : Store ι κ) (x : ι) : ℕ := (s.cordAt x).edgeCount

/-- Other cords reach no node of the cord in `x`. -/
def Apart (s : Store ι κ) (x : ι) : Prop :=
  ∀ y ≠ x, ∀ a, Reach s.heap (s.cords x).root a → ¬Reach s.heap (s.cords y).root a

end Store

open Store

/-- Make a new cord. -/
def CordFrom.make : CordFrom κ → StoreM ι κ (Cord Addr)
  | slice data => onHeap (Cord.copyFromSlice data)
  | owned data capacity => onHeap (Cord.fromOwned data capacity)
  | global data allocationSize => onHeap (Cord.fromGlobal data allocationSize)
  | static data => onHeap (Cord.fromStatic data)
  | owner data => onHeap (Cord.fromOwner data)
  | iter bytes => onHeap (Cord.fromIter bytes)
  | buffer b => do
    let buffer ← takeBuffer b
    onHeap (Cord.appendBuffer (.inline .new) buffer)

/-- Add a cord at one end. -/
def Cord.addWhole (back moved : Bool) (c src : Cord Addr) : HeapM (Cord Addr) :=
  if back then c.appendWhole moved src else c.prependWhole moved src

/-- Add a buffer at one end. -/
def Cord.addBuffer (back : Bool) (c : Cord Addr) (buffer : CordBuffer) : HeapM (Cord Addr) :=
  if back then c.appendBuffer buffer else c.prependBuffer buffer

/-- Take what is added, and say how it is added. -/
def CordSource.prepare (back : Bool) :
    CordSource ι κ → StoreM ι κ (Cord Addr → HeapM (Cord Addr))
  | slice data => pure fun c ↦ c.addSlice back data
  | owned data capacity => pure fun c ↦ c.addMoved back data (repFromOwned data capacity)
  | global data allocationSize =>
    pure fun c ↦ c.addMoved back data (repFromGlobal data allocationSize)
  | cord y => do
    let src ← borrow y
    pure fun c ↦ c.addWhole back false src
  | cloned y => do
    let src ← borrow y
    let src ← onHeap src.clone
    pure fun c ↦ c.addWhole back true src
  | moved y => do
    let src ← takeCord y
    pure fun c ↦ c.addWhole back true src
  | buffer b => do
    let buffer ← takeBuffer b
    pure fun c ↦ c.addBuffer back buffer

/-- Answer a question. -/
def Query.run : Query ι → StoreM ι κ Answer
  | len x => do
    let c ← borrow x
    let len ← onHeap c.loadLen
    pure (.number len)
  | toVec x memory => do
    let c ← view x
    let vec ← liftM (c.toVec (freshMemory memory c.len))
    pure (.bytes vec)
  | get x index => do
    let c ← view x
    let byte ← liftM (c.getByte index)
    pure (.byte byte)
  | compare x y => do
    let c ← view x
    let d ← view y
    let order ← liftM (c.compare (.cord d))
    pure (.order order)
  | equals x y => do
    let c ← view x
    let d ← view y
    let same ← liftM (c.equals (.cord d))
    pure (.flag same)
  | startsWith x y => do
    let c ← view x
    let d ← view y
    let found ← liftM (c.startsWith (.cord d))
    pure (.flag found)
  | endsWith x y => do
    let c ← view x
    let d ← view y
    let found ← liftM (c.endsWith (.cord d))
    pure (.flag found)

/-- Read a range of a cord with a cursor. -/
def Cord.readRange (c : Cord Addr) (pos n : ℕ) : HeapM (Cord Addr) := do
  let tree ← c.view
  let it ← liftM (Cursor.new tree)
  let it ← liftM (it.advance pos)
  let (_, cord) ← it.readCord n
  pure cord

/-- Bring a cord into one buffer, and return its bytes. -/
def Cord.flatten (memory : ℕ → UInt8) (c : Cord Addr) : HeapM (Cord Addr × Answer) := do
  let tree ← c.view
  let (tree, bytes) ← tree.makeContiguous (freshMemory memory tree.len)
  pure (tree.handle, .bytes bytes)

/-- Give up a cord for a vector. -/
def Cord.consume (memory : ℕ → UInt8) (c : Cord Addr) : HeapM (Cord Addr × Answer) := do
  let tree ← c.view
  let vec ← tree.intoVec (freshMemory memory tree.len)
  pure (.inline .new, .bytes vec)

/-- Write to a cord from beginning to end. -/
def Cord.write (calls : List WriterOp) (c : Cord Addr) : HeapM (Cord Addr × Answer) := do
  let (c, answers) ← CordWriter.writeTo calls c
  pure (c, .calls answers)

/-- Run a statement. -/
def StoreOp.run : StoreOp ι κ → StoreM ι κ Answer
  | make x src => do
    let c ← src.make
    assign x c
    pure .unit
  | clone x y => do
    let c ← borrow y
    let c ← onHeap c.clone
    assign x c
    pure .unit
  | cloneFrom x y => do
    let src ← borrow y
    modifyCord x (silent fun c ↦ c.cloneFrom src)
  | clear x => modifyCord x (silent Cord.clear)
  | add back x src => do
    let f ← src.prepare back
    modifyCord x (silent f)
  | extend x bytes panics => modifyCord x (silent fun c ↦ c.extend bytes panics)
  | advance x n => modifyCord x (silent fun c ↦ c.advance n)
  | truncate x len => modifyCord x (silent fun c ↦ c.truncate len)
  | slice x y range => do
    let c ← borrow y
    let c ← onHeap (c.slice range)
    assign x c
    pure .unit
  | get x y range => do
    let c ← borrow y
    match ← onHeap (c.getRange range) with
    | none => pure (.flag false)
    | some c =>
      assign x c
      pure (.flag true)
  | splitOff x y pos => do
    let c ← takeCord x
    let (c, rest) ← onHeap (c.splitOff pos)
    putCord x c
    assign y rest
    pure .unit
  | splitTo x y pos => do
    let c ← takeCord x
    let (c, rest) ← onHeap (c.splitTo pos)
    putCord x c
    assign y rest
    pure .unit
  | readCord x y pos n => do
    let c ← borrow y
    let c ← onHeap (c.readRange pos n)
    assign x c
    pure .unit
  | makeContiguous x memory => modifyCord x (Cord.flatten memory)
  | intoVec x memory => modifyCord x (Cord.consume memory)
  | deserialize x seq => do
    match ← onHeap (visitSeq seq) with
    | .error _ => pure (.flag false)
    | .ok c =>
      assign x c
      pure (.flag true)
  | write x calls => modifyCord x (Cord.write calls)
  | newBuffer b capacity => do
    let buffer ← onHeap (CordBuffer.withCapacity capacity)
    assignBuffer b buffer
    pure .unit
  | newBufferWithBlockSize b capacity blockSize => do
    let buffer ← onHeap (CordBuffer.withCapacityAndBlockSize capacity blockSize)
    assignBuffer b buffer
    pure .unit
  | cloneBuffer b d => do
    let buffer ← takeBuffer d
    let new ← onHeap buffer.clone
    putBuffer d buffer
    assignBuffer b new
    pure .unit
  | onBuffer b call => do
    let buffer ← takeBuffer b
    let (buffer, answer) ← onHeap (call.step buffer)
    putBuffer b buffer
    pure (.buffer answer)
  | takeAppendBuffer b x blockSize capacity minCapacity => do
    let c ← takeCord x
    let (c, buffer) ← onHeap (c.takeAppendBufferWith blockSize capacity minCapacity)
    putCord x c
    assignBuffer b buffer
    pure .unit
  | query q => q.run

end Run

/-! ### Meaning -/

section Meaning

/-- The bytes and the capacity of a buffer. -/
def Values.filled (v : Values ι κ) (b : κ) : Filled := ⟨(v.buffers b).1, (v.buffers b).2⟩

/-- The bytes of a new cord. -/
def CordFrom.bytes (v : Values ι κ) : CordFrom κ → Bytes
  | slice data | owned data _ | global data _ | static data | owner data | iter data => data
  | buffer b => (v.buffers b).1

/-- The bytes that are added. -/
def CordSource.bytes (v : Values ι κ) : CordSource ι κ → Bytes
  | slice data | owned data _ | global data _ => data
  | cord y | cloned y | moved y => v.cords y
  | buffer b => (v.buffers b).1

/-- What a question is answered. -/
def Query.answer (v : Values ι κ) : Query ι → Answer
  | len x => .number (v.cords x).length
  | toVec x _ => .bytes (v.cords x)
  | get x index => .byte (v.cords x)[index]?
  | compare x y => .order (compareBytes (v.cords x) (v.cords y))
  | equals x y => .flag (v.cords x = v.cords y)
  | startsWith x y => .flag (v.cords y <+: v.cords x)
  | endsWith x y => .flag (v.cords y <:+ v.cords x)

variable [Target]

/-- The fault with which a computation stops. -/
def faultOf {α : Type} : Except Fault α → Option Fault
  | .error f => some f
  | .ok _ => none

/-- Whether what is added is a cord. -/
def CordSource.isCord : CordSource ι κ → Bool
  | cord _ | cloned _ | moved _ => true
  | _ => false

/-- The panic of a statement that asks for too much. -/
def StoreOp.refuses (v : Values ι κ) : StoreOp ι κ → Option Fault
  | add _ x src =>
    if src.isCord ∧ usizeMax < (v.cords x).length + (src.bytes v).length ∧ src.bytes v ≠ [] then
      some (.panic "Cord length overflow")
    else
      none
  | advance x n =>
    let len := (v.cords x).length
    if n ≤ len then none
    else some (.panic s!"cannot advance past end of Cord: n = {n}, len = {len}")
  | slice _ y range => faultOf (resolveRange range (v.cords y).length)
  | splitOff x _ pos =>
    let len := (v.cords x).length
    if pos ≤ len then none
    else some (.panic s!"split_off index out of bounds: at = {pos}, len = {len}")
  | splitTo x _ pos =>
    let len := (v.cords x).length
    if pos ≤ len then none
    else some (.panic s!"split_to index out of bounds: at = {pos}, len = {len}")
  | readCord _ y pos n =>
    let len := (v.cords y).length
    if len < pos then
      some (.panic ("cannot advance past the end of a Cord: n = " ++ toString pos ++
        ", remaining = " ++ toString len))
    else if len - pos < n then
      some (.panic ("cannot read past the end of a Cord: n = " ++ toString n ++
        ", remaining = " ++ toString (len - pos)))
    else
      none
  | onBuffer b call => call.refuses (v.filled b)
  | _ => none

variable [DecidableEq ι] [DecidableEq κ]

/-- What is left when a new cord is made. -/
def CordFrom.taken (v : Values ι κ) : CordFrom κ → Values ι κ
  | buffer b => v.setBuffer b [] maxInline
  | _ => v

/-- What is left when something is added. -/
def CordSource.taken (v : Values ι κ) : CordSource ι κ → Values ι κ
  | moved y => v.setCord y []
  | buffer b => v.setBuffer b [] maxInline
  | _ => v

/-- A writer of the cord in a variable. -/
def Store.writer (s : Store ι κ) (x : ι) : CordWriter × Heap Node := (.new (s.cords x), s.heap)

/-- What a statement does to the bytes, and what it answers. The buffer that is taken out of a cord
has the bytes and the capacity that the cord hands out as the store has it, and a writer answers with
the room in such buffers. -/
def StoreOp.Means (s : Store ι κ) (v : Values ι κ) (answer : Answer) (v' : Values ι κ) :
    StoreOp ι κ → Prop
  | make x src => answer = .unit ∧ v' = (src.taken v).setCord x (src.bytes v)
  | clone x y | cloneFrom x y => answer = .unit ∧ v' = v.setCord x (v.cords y)
  | clear x => answer = .unit ∧ v' = v.setCord x []
  | add back x src =>
    answer = .unit ∧ v' = (src.taken v).setCord x (join back (v.cords x) (src.bytes v))
  | extend x bytes _ => answer = .unit ∧ v' = v.setCord x (v.cords x ++ bytes)
  | advance x n => answer = .unit ∧ v' = v.setCord x ((v.cords x).drop n)
  | truncate x len => answer = .unit ∧ v' = v.setCord x ((v.cords x).take len)
  | slice x y range => answer = .unit ∧ ∃ pos n,
      resolveRange range (v.cords y).length = .ok (pos, n) ∧
        v' = v.setCord x (((v.cords y).drop pos).take n)
  | get x y range =>
    match resolveRange range (v.cords y).length with
    | .ok (pos, n) => answer = .flag true ∧ v' = v.setCord x (((v.cords y).drop pos).take n)
    | .error _ => answer = .flag false ∧ v' = v
  | splitOff x y pos => answer = .unit ∧
      v' = (v.setCord x ((v.cords x).take pos)).setCord y ((v.cords x).drop pos)
  | splitTo x y pos => answer = .unit ∧
      v' = (v.setCord x ((v.cords x).drop pos)).setCord y ((v.cords x).take pos)
  | readCord x y pos n =>
    answer = .unit ∧ v' = v.setCord x (((v.cords y).drop pos).take n)
  | makeContiguous x _ => answer = .bytes (v.cords x) ∧ v' = v
  | intoVec x _ => answer = .bytes (v.cords x) ∧ v' = v.setCord x []
  | deserialize x seq =>
    match seq.error with
    | none => answer = .flag true ∧ v' = v.setCord x seq.items
    | some _ => answer = .flag false ∧ v' = v
  | write x calls =>
    (∃ answers w, answer = .calls answers ∧
      (CordWriter.apart 0).MeansAll calls (s.writer x) ⟨v.cords x, none⟩ answers w) ∧
    v' = v.setCord x (v.cords x ++ calls.flatMap WriterOp.written)
  | newBuffer b capacity =>
    answer = .unit ∧ v' = v.setBuffer b [] (CordBuffer.capacityOf capacity)
  | newBufferWithBlockSize b capacity blockSize =>
    answer = .unit ∧ v' = v.setBuffer b [] (CordBuffer.blockCapacity capacity blockSize)
  | cloneBuffer b d => answer = .unit ∧ v' = v.setBuffer b (v.buffers d).1 (v.buffers d).2
  | onBuffer b call => answer = .buffer (call.answer (v.filled b)) ∧
      v' = v.setBuffer b (call.bytes (v.filled b)) (v.buffers b).2
  | takeAppendBuffer b x blockSize capacity minCapacity =>
    let (bs, cap) := (s.cordAt x).handedOut s.heap blockSize capacity minCapacity
    answer = .unit ∧ ∃ rest, rest ++ bs = v.cords x ∧ v' = (v.setCord x rest).setBuffer b bs cap
  | query q => answer = q.answer v ∧ v' = v

/-! ### Limits -/

/-- The number of data edges of a new cord. -/
def CordFrom.edges : CordFrom κ → ℕ
  | slice data => flatsFor data.length
  | owned data capacity | global data capacity => movedEdges data capacity
  | static _ | owner _ => 1
  | iter bytes => Cord.extendEdges bytes.length
  | buffer _ => 1

/-- The number of data edges that are added. -/
def CordSource.edges (n : ι → ℕ) : CordSource ι κ → ℕ
  | slice data => flatsFor data.length
  | owned data capacity | global data capacity => movedEdges data capacity
  | cord y | cloned y | moved y => n y
  | buffer _ => 1

/-- The allocation of a vector, string or boxed slice holds its bytes. -/
def CordFrom.Sound : CordFrom κ → Prop
  | global data allocationSize => data.length ≤ allocationSize
  | _ => True

/-- What is added is well formed, and it is not taken from the cord that it is added to. -/
def CordSource.Sound (x : ι) : CordSource ι κ → Prop
  | global data allocationSize => data.length ≤ allocationSize
  | cord y | moved y => x ≠ y
  | _ => True

/-- The arguments of a statement are sound, and its results are within the limits. What is written to
shares nothing, and no more is taken over than there was room for. -/
def StoreOp.Fits (s : Store ι κ) (v : Values ι κ) : StoreOp ι κ → Prop
  | make _ src => src.Sound ∧ Limits (src.bytes v).length src.edges
  | cloneFrom x y => x ≠ y
  | add back x src => src.Sound x ∧ ((add back x src).refuses v = none →
      Limits ((v.cords x).length + (src.bytes v).length) (s.edgeCount x + src.edges s.edgeCount))
  | extend x bytes _ =>
    Limits ((v.cords x).length + bytes.length) (s.edgeCount x + Cord.extendEdges bytes.length)
  | deserialize _ seq => Limits seq.items.length (flatsFor seq.items.length + 1)
  | write x calls =>
    s.Apart x ∧ (CordWriter.apart 0).Admits calls (s.writer x) ⟨v.cords x, none⟩ ∧
      ∀ e, ¬(CordWriter.apart 0).Stops calls (s.writer x) ⟨v.cords x, none⟩ e
  | newBufferWithBlockSize _ _ blockSize =>
    blockSize.isPowerOfTwo ∧ flatOverhead < blockSize
  | takeAppendBuffer _ x blockSize _ minCapacity =>
    Cord.LegalBlockSize blockSize ∧ (s.cordAt x).KeepsShared s.heap minCapacity
  | _ => True

/-- The variables whose cords a statement changes. -/
def StoreOp.writes : StoreOp ι κ → Set ι
  | make x _ | clone x _ | cloneFrom x _ | clear x | extend x _ _ | advance x _ | truncate x _ |
    slice x _ _ | get x _ _ | readCord x _ _ _ | makeContiguous x _ | intoVec x _ |
    deserialize x _ | write x _ | takeAppendBuffer _ x _ _ _ => {x}
  | add _ x (.moved y) => {x, y}
  | add _ x _ => {x}
  | splitOff x y _ | splitTo x y _ => {x, y}
  | newBuffer _ _ | newBufferWithBlockSize _ _ _ | cloneBuffer _ _ | onBuffer _ _ | query _ => ∅

end Meaning

end CordRs
