import CordRs.RefHeap.Program
import Mathlib.Algebra.Order.BigOperators.Group.List

/-!
# The nodes behind a cord

Every node ("rep") starts with a header and is identified by its tag: a flat whose tag encodes
the size of its allocation, an external that refers to the buffer of an owner, a substring of a
flat or an external, or a btree node with up to six edges. A flat or external is modelled by the
bytes its length covers; the spare capacity of a flat is what the tag allows beyond them. A btree
node keeps its edges in a window `[begin, end)` of an array of six slots; the model keeps `begin`
and the edges of the window, since slots outside the window are never read.

Lengths and offsets are natural numbers. The sums the code stores as lengths wrap modulo the word
size, as they do in a release build (`CordRs.addUsize`).

## Main definitions

* `CordRs.Target`, `CordRs.Fault`, `CordRs.Node`, `CordRs.HeapM`.
* `CordRs.tagToLength`, `CordRs.newTag`: the size classes of flats.
* The instance `Pointers Node`, whose `Fits` is the structural validity of one node.

## Main results

* `CordRs.tagToAllocatedSize_allocatedSizeToTag`: a tag decodes to the size it was made from.
* `CordRs.newTag_spec`: the capacity of a new flat.
-/

namespace CordRs

open RefHeap

/-- The width of `usize`. -/
class Target where
  bits : ℕ
  bits_eq : bits = 32 ∨ bits = 64

/-- A contiguous sequence of bytes. -/
abbrev Bytes := List UInt8

/-- The ways in which an operation can stop. -/
inductive Fault where
  /-- A freed node was used. -/
  | dangling
  /-- An edge index left the window of its node. -/
  | window
  /-- A depth left a fixed stack. -/
  | stack
  /-- A branch the code declares unreachable, or a node of an unexpected kind. -/
  | unreachable
  /-- The process was aborted. -/
  | abort
  /-- A panic with its message. -/
  | panic (message : String)
  deriving Repr, DecidableEq

instance : HeapFault Fault := ⟨.dangling⟩

/-! ### Constants -/

/-- Prefer copying blocks of at most this size, otherwise reference count. -/
def maxBytesToCopy : ℕ := 511

/-- The number of bytes a cord stores without allocating. -/
def maxInline : ℕ := 15

/-- The number of edges of a btree node. -/
def maxCapacity : ℕ := 6

/-- The depth of the fixed stacks. -/
def maxDepth : ℕ := 12

/-- The largest height of a btree node; leaf nodes have height zero. -/
def maxHeight : ℕ := maxDepth - 1

section Usize

variable [Target]

/-- The largest `usize`. -/
def usizeMax : ℕ := 2 ^ Target.bits - 1

/-- Addition of lengths, which wraps. -/
def addUsize (a b : ℕ) : ℕ := (a + b) % 2 ^ Target.bits

theorem addUsize_of_le {a b : ℕ} (hab : a + b ≤ usizeMax) : addUsize a b = a + b := by
  have hpos : 0 < 2 ^ Target.bits := Nat.two_pow_pos _
  rw [usizeMax] at hab
  rw [addUsize, Nat.mod_eq_of_lt (by omega)]

theorem addUsize_eq_sub {a b : ℕ} (hab : usizeMax < a + b) (hle : a + b ≤ 2 * usizeMax + 1) :
    addUsize a b = a + b - (usizeMax + 1) := by
  have hpos : 0 < 2 ^ Target.bits := Nat.two_pow_pos _
  rw [usizeMax] at hab hle ⊢
  rw [addUsize, Nat.mod_eq_sub_mod (by omega), Nat.mod_eq_of_lt (by omega),
    Nat.sub_add_cancel hpos]

end Usize

/-! ### Size classes of flats -/

/-- The smallest tag of a flat. -/
def flatTag : ℕ := 6

/-- The largest tag of a flat. -/
def maxFlatTag : ℕ := 248

/-- The smallest allocation of a flat. -/
def minFlatSize : ℕ := 32

/-- The largest allocation of a flat that is not requested as large. -/
def maxFlatSize : ℕ := 4096

/-- The largest allocation of a flat. -/
def maxLargeFlatSize : ℕ := 256 * 1024

/-- What the tags of flats count from. -/
def tagBase : ℕ := flatTag - 4

/-- The tag of an allocation size. -/
def allocatedSizeToTag (size : ℕ) : ℕ :=
  if size ≤ 512 then
    tagBase + size / 8
  else if size ≤ 8192 then
    tagBase + 512 / 8 + size / 64 - 512 / 64
  else
    tagBase + 512 / 8 + ((8192 - 512) / 64) + size / 4096 - 8192 / 4096

/-- The allocation size of a tag. -/
def tagToAllocatedSize (tag : ℕ) : ℕ :=
  if tag ≤ tagBase + 512 / 8 then
    tag * 8 - tagBase * 8
  else if tag ≤ tagBase + 512 / 8 + ((8192 - 512) / 64) then
    512 + tag * 64 - tagBase * 64 - 512 / 8 * 64
  else
    8192 + tag * 4096 - tagBase * 4096 - ((512 / 8) + ((8192 - 512) / 64)) * 4096

/-- Round up to a multiple of `m`, a power of two. -/
def roundUp (n m : ℕ) : ℕ := (n + m - 1) / m * m

/-- Round an allocation size up to one that has a tag. -/
def roundUpForTag (size : ℕ) : ℕ :=
  roundUp size (if size ≤ 512 then 8 else if size ≤ 8192 then 64 else 4096)

/-- A rounded size is the size its tag decodes to, and its tag is one of a flat. -/
theorem tagToAllocatedSize_allocatedSizeToTag {size : ℕ} (hmin : minFlatSize ≤ size)
    (hmax : size ≤ maxLargeFlatSize) :
    tagToAllocatedSize (allocatedSizeToTag (roundUpForTag size)) = roundUpForTag size ∧
      flatTag ≤ allocatedSizeToTag (roundUpForTag size) ∧
      allocatedSizeToTag (roundUpForTag size) ≤ maxFlatTag := by
  simp only [minFlatSize, maxLargeFlatSize] at hmin hmax
  simp only [tagToAllocatedSize, allocatedSizeToTag, roundUpForTag, roundUp, tagBase, flatTag,
    maxFlatTag]
  refine ⟨?_, ?_, ?_⟩ <;> split_ifs <;> omega

theorem le_roundUpForTag (size : ℕ) : size ≤ roundUpForTag size := by
  simp only [roundUpForTag, roundUp]
  split_ifs <;> omega

private theorem roundUpForTag_le {size : ℕ} (hsize : size ≤ maxFlatSize) :
    roundUpForTag size ≤ maxFlatSize := by
  simp only [maxFlatSize, roundUpForTag, roundUp] at hsize ⊢
  split_ifs <;> omega

section Flat

variable [Target]

/-- The bytes of a flat's allocation that precede its data. -/
def flatOverhead : ℕ := Target.bits / 8 + 5

/-- The capacity of a flat with the given tag. -/
def tagToLength (tag : ℕ) : ℕ := tagToAllocatedSize tag - flatOverhead

/-- The smallest capacity of a flat. -/
def minFlatLength : ℕ := minFlatSize - flatOverhead

/-- The largest capacity of a flat that is not requested as large. -/
def maxFlatLength : ℕ := maxFlatSize - flatOverhead

/-- The tag of a new flat for `len` bytes in an allocation of at most `maxSize`. -/
def newTag (maxSize len : ℕ) : ℕ :=
  let len :=
    if len ≤ minFlatLength then
      minFlatLength
    else if len > maxSize - flatOverhead then
      maxSize - flatOverhead
    else
      len
  allocatedSizeToTag (roundUpForTag (len + flatOverhead))

theorem flatOverhead_eq : flatOverhead = 9 ∨ flatOverhead = 13 := by
  rcases Target.bits_eq with hb | hb <;> simp [flatOverhead, hb]

/-- The tag of a new flat decodes to a size that holds the request or the largest size. -/
theorem newTag_spec (len : ℕ) :
    flatTag ≤ newTag maxFlatSize len ∧ newTag maxFlatSize len ≤ maxFlatTag ∧
      min len maxFlatLength ≤ tagToLength (newTag maxFlatSize len) ∧
      tagToLength (newTag maxFlatSize len) ≤ maxFlatLength ∧
      minFlatLength ≤ tagToLength (newTag maxFlatSize len) := by
  obtain ⟨size, htag, hmin, hmax, hlen⟩ : ∃ size,
      newTag maxFlatSize len = allocatedSizeToTag (roundUpForTag size) ∧ minFlatSize ≤ size ∧
        size ≤ maxFlatSize ∧ min len maxFlatLength ≤ size - flatOverhead := by
    refine ⟨_, rfl, ?_⟩
    have ho := flatOverhead_eq
    split_ifs <;> simp only [minFlatLength, maxFlatLength, minFlatSize, maxFlatSize] at * <;> omega
  obtain ⟨hdecode, hlo, hhi⟩ := tagToAllocatedSize_allocatedSizeToTag hmin
    (hmax.trans (by decide : maxFlatSize ≤ maxLargeFlatSize))
  have hup := le_roundUpForTag size
  have hle := roundUpForTag_le hmax
  rw [htag, tagToLength, hdecode, maxFlatLength, minFlatLength]
  refine ⟨hlo, hhi, ?_, by omega, by omega⟩
  exact hlen.trans (Nat.sub_le_sub_right hup _)

theorem minFlatLength_pos : maxInline < minFlatLength := by
  simp only [minFlatLength, minFlatSize, maxInline]
  rcases flatOverhead_eq with ho | ho <;> omega

theorem minFlatLength_le_maxFlatLength : minFlatLength ≤ maxFlatLength := by
  simp only [minFlatLength, maxFlatLength, minFlatSize, maxFlatSize]
  omega

end Flat

/-! ### Nodes -/

/-- A flat or an external. The allocation of an external is recorded when its owner is a `Vec`,
`String` or boxed slice that can be taken out again. -/
inductive Payload where
  | flat (tag : ℕ) (data : Bytes)
  | external (data : Bytes) (allocation : Option ℕ)
  deriving Repr, DecidableEq

/-- The bytes of a flat or external. -/
def Payload.data : Payload → Bytes
  | flat _ data => data
  | external data _ => data

/-- A btree node: the window of its edges starts at slot `begin`. -/
structure Btree where
  length : ℕ
  height : ℕ
  begin : ℕ
  edges : List Addr
  deriving Repr, DecidableEq

namespace Btree

/-- The number of edges. -/
def size (b : Btree) : ℕ := b.edges.length

/-- One past the last slot of the window. -/
def «end» (b : Btree) : ℕ := b.begin + b.edges.length

end Btree

/-- A node of the heap. -/
inductive Node where
  | payload (p : Payload)
  | substring (length start : ℕ) (child : Addr)
  | btree (b : Btree)
  deriving Repr, DecidableEq

namespace Node

/-- The number of bytes a node stands for. -/
def length : Node → ℕ
  | payload p => p.data.length
  | substring length _ _ => length
  | btree b => b.length

/-- Zero for a data edge, one more than its height for a btree node. -/
def level : Node → ℕ
  | btree b => b.height + 1
  | _ => 0

/-- Whether a node is a flat or an external. -/
def isPayload : Node → Bool
  | payload _ => true
  | _ => false

/-- Whether a node is a flat. -/
def isFlat : Node → Bool
  | payload (.flat _ _) => true
  | _ => false

/-- Whether a node is a btree node. -/
def isBtree : Node → Bool
  | btree _ => true
  | _ => false

end Node

section Valid

variable [Target]

/-- A flat holds between one byte and its capacity, an external at least one byte. -/
def Payload.Valid : Payload → Prop
  | flat tag data =>
    flatTag ≤ tag ∧ tag ≤ maxFlatTag ∧ 0 < data.length ∧ data.length ≤ tagToLength tag
  | external data allocation => 0 < data.length ∧ ∀ n ∈ allocation, data.length ≤ n

theorem Payload.Valid.data_pos {p : Payload} (hp : p.Valid) : 0 < p.data.length := by
  cases p with
  | flat tag data => exact hp.2.2.1
  | external data allocation => exact hp.1

/-- The addresses a node refers to. -/
def Node.children : Node → List Addr
  | payload _ => []
  | substring _ _ child => [child]
  | btree b => b.edges

/-- The structural validity of a node above the nodes its references lead to. -/
def Node.Fits : Node → List Node → Prop
  | payload p, _ => p.Valid
  | substring length start _, ms =>
    0 < length ∧ ∃ p, ms = [payload p] ∧ start + length ≤ p.data.length
  | btree b, ms =>
    b.edges ≠ [] ∧ b.begin + b.edges.length ≤ maxCapacity ∧ (∀ m ∈ ms, m.level = b.height) ∧
      b.length = (ms.map Node.length).sum

/-- A measure of nodes that goes down along references. -/
def Node.rank : Node → ℕ
  | payload _ => 0
  | substring _ _ _ => 1
  | btree b => b.height + 2

theorem Node.rank_lt {n : Node} {ms : List Node} (hn : n.Fits ms)
    (hlen : ms.length = n.children.length) : ∀ m ∈ ms, m.rank < n.rank := by
  intro m hm
  cases n with
  | payload p => simp_all [Node.children]
  | substring length start child =>
    obtain ⟨-, p, rfl, -⟩ := hn
    obtain rfl := List.mem_singleton.mp hm
    exact Nat.one_pos
  | btree b =>
    have hlevel := hn.2.2.1 m hm
    cases m <;> simp only [Node.level, Node.rank] at hlevel ⊢ <;> omega

instance : Pointers Node where
  children := Node.children
  Fits n ms := n.Fits ms ∧ ms.length = n.children.length
  rank := Node.rank
  rank_lt hn := Node.rank_lt hn.1 hn.2

end Valid

/-- Operations on the heap of nodes. -/
abbrev HeapM := Prog Fault Node

end CordRs
