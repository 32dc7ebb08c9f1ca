import CordRs.SlotArray
import CordRs.Btree.Node

/-!
# The edges of a node in their array

A btree node has an array of six slots for its edges, of which those from `begin` to `end` are
filled. An edge is added at the back behind the other edges, which first move to the front of the
array, and at the front the other way round. Copies of a node share all slots with it, those outside
of the window too.

The nodes of the model keep `begin` and the list of the edges. These are the operations on the
array, which stop at an access to a slot that is not there, at one in the window that was never
filled, and at a cursor below zero; on an array that holds the list they do what the model says.

## Main definitions

* `CordRs.EdgeArray` and its operations.

## Main results

* `CordRs.EdgeArray.holds_add`, `CordRs.EdgeArray.holds_addEdgesFrom`,
  `CordRs.EdgeArray.holds_setEdgePtr`: the list in the window afterwards.
-/

namespace CordRs

open RefHeap LevelTree

/-- The edges of a btree node with its cursors. -/
abbrev EdgeArray := SlotArray Addr maxCapacity

namespace EdgeArray

/-- The number of edges. -/
def size (this : EdgeArray) : ℕ := this.end - this.begin

/-- The edge at a slot. -/
def edge (this : EdgeArray) (index : ℕ) : Option Addr := this.read? index

/-- Overwrite a slot. -/
def setEdgePtr (this : EdgeArray) (index : ℕ) (edge : Addr) : Option EdgeArray :=
  this.write? index edge

/-- The edges in a part of the window. -/
def edgesRange (this : EdgeArray) (begin «end» : ℕ) : Option (List Addr) :=
  this.readAll? begin («end» - begin)

/-- All edges. -/
def edges (this : EdgeArray) : Option (List Addr) := this.edgesRange this.begin this.end

/-- The last slot of the window. -/
def back (this : EdgeArray) : Option ℕ := if 0 < this.end then some (this.end - 1) else none

/-- The slot at an end of the window. -/
def index (isBack : Bool) (this : EdgeArray) : Option ℕ :=
  if isBack then this.back else some this.begin

/-- Move `begin` down and return it. -/
def subFetchBegin (this : EdgeArray) (n : ℕ) : Option (ℕ × EdgeArray) :=
  if n ≤ this.begin then some (this.begin - n, { this with begin := this.begin - n }) else none

/-- Move `end` up and return where it was. -/
def fetchAddEnd (this : EdgeArray) (n : ℕ) : ℕ × EdgeArray :=
  (this.end, { this with «end» := this.end + n })

/-- Move the edges to the front of the array. -/
def alignBegin (this : EdgeArray) : Option EdgeArray :=
  let delta := this.begin
  if delta ≠ 0 then
    let newEnd := this.end - delta
    { this with begin := 0, «end» := newEnd }.moveDown? delta newEnd
  else
    some this

/-- Move the edges to the back of the array. -/
def alignEnd (this : EdgeArray) : Option EdgeArray :=
  let delta := maxCapacity - this.end
  if delta ≠ 0 then
    let newBegin := this.begin + delta
    let newEnd := this.end + delta
    { this with begin := newBegin, «end» := newEnd }.moveUp? delta newBegin newEnd
  else
    some this

/-- Add an edge at one end. -/
def add (isBack : Bool) (this : EdgeArray) (rep : Addr) : Option EdgeArray :=
  if isBack then do
    let this ← this.alignBegin
    let (idx, this) := this.fetchAddEnd 1
    this.setEdgePtr idx rep
  else do
    let this ← this.alignEnd
    let (idx, this) ← this.subFetchBegin 1
    this.setEdgePtr idx rep

/-- Add the edges of another node at one end. -/
def addEdgesFrom (isBack : Bool) (this src : EdgeArray) : Option EdgeArray := do
  let edges ← src.edges
  if isBack then
    let this ← this.alignBegin
    let new ← this.fill? this.end edges
    some { new with «end» := this.end + edges.length }
  else
    let this ← this.alignEnd
    let (newBegin, this) ← this.subFetchBegin src.size
    this.fill? newBegin edges

/-! ### The list in the window -/

section Holds

variable {this src : EdgeArray} {first : ℕ} {xs ys : List Addr} {isBack : Bool}

theorem size_eq (h : this.Holds first xs) : this.size = xs.length := by
  rw [size, h.begin_eq, h.end_eq, Nat.add_sub_cancel_left]

theorem edges_eq (h : this.Holds first xs) : this.edges = some xs := by
  rw [edges, edgesRange, h.begin_eq, h.end_eq, Nat.add_sub_cancel_left,
    h.readAll?_eq le_rfl le_rfl, Nat.sub_self, List.drop_zero, List.take_length]

/-- The edges that were moved to the front of the array are the same. -/
theorem holds_alignBegin (h : this.Holds first xs) :
    ∃ new, this.alignBegin = some new ∧ new.Holds 0 xs := by
  rw [alignBegin]
  by_cases hdelta : this.begin = 0
  · refine ⟨this, if_neg (not_not.mpr hdelta), ?_⟩
    rwa [← h.begin_eq.symm.trans hdelta]
  · rw [h.begin_eq] at hdelta
    simp only [h.end_eq, h.begin_eq, Nat.add_sub_cancel_left, ne_eq, hdelta, not_false_eq_true,
      if_true]
    exact h.moveDown

/-- The edges that were moved to the back of the array are the same. -/
theorem holds_alignEnd (h : this.Holds first xs) :
    ∃ new, this.alignEnd = some new ∧ new.Holds (maxCapacity - xs.length) xs := by
  have hle := h.end_le
  obtain ⟨delta, hdelta⟩ := Nat.exists_eq_add_of_le hle
  have hsub : maxCapacity - this.end = delta := by
    have := h.end_eq
    omega
  rw [alignEnd, hsub, show maxCapacity - xs.length = first + delta by omega]
  by_cases hzero : delta = 0
  · refine ⟨this, if_neg (not_not.mpr hzero), ?_⟩
    rwa [hzero, Nat.add_zero]
  · simp only [if_pos hzero, h.end_eq, h.begin_eq]
    exact h.moveUp hdelta.ge

/-- The edges with those added at one end. -/
theorem holds_add (isBack : Bool) (rep : Addr) (h : this.Holds first xs)
    (hroom : xs.length + 1 ≤ maxCapacity) :
    ∃ new, this.add isBack rep = some new ∧
      new.Holds (alignedBegin isBack (xs.length + 1)) (join isBack xs [rep]) := by
  cases isBack with
  | true =>
    obtain ⟨mid, hmid, hh⟩ := holds_alignBegin h
    obtain ⟨new, hnew, hend, hholds⟩ := hh.append [rep] (by simpa using hroom) (mid.end + 1)
    refine ⟨new, ?_, ?_⟩
    · rw [SlotArray.fill?_singleton] at hnew
      rw [add, if_pos rfl, hmid]
      exact hnew
    · exact hholds.of_end hend
  | false =>
    obtain ⟨mid, hmid, hh⟩ := holds_alignEnd h
    have hone : 1 ≤ maxCapacity - xs.length := by omega
    obtain ⟨new, hnew, hbegin, hholds⟩ := hh.prepend [rep] hone (maxCapacity - xs.length - 1)
    refine ⟨new, ?_, ?_⟩
    · rw [SlotArray.fill?_singleton] at hnew
      rw [add, if_neg Bool.false_ne_true, hmid]
      simp only [Option.bind_eq_bind, Option.bind_some, subFetchBegin, hh.begin_eq, if_pos hone]
      exact hnew
    · have hholds := hholds.of_begin hbegin
      rwa [List.length_singleton, Nat.sub_sub] at hholds

/-- The edges with those of another node at one end. -/
theorem holds_addEdgesFrom {first' : ℕ} (isBack : Bool) (h : this.Holds first xs)
    (hsrc : src.Holds first' ys) (hroom : xs.length + ys.length ≤ maxCapacity) :
    ∃ new, addEdgesFrom isBack this src = some new ∧
      new.Holds (alignedBegin isBack (xs.length + ys.length)) (join isBack xs ys) := by
  rw [addEdgesFrom, edges_eq hsrc, size_eq hsrc]
  cases isBack with
  | true =>
    obtain ⟨mid, hmid, hh⟩ := holds_alignBegin h
    obtain ⟨new, hnew, -, hholds⟩ := hh.append ys (by omega) mid.end
    refine ⟨_, ?_, hholds⟩
    simp only [Option.bind_eq_bind, Option.bind_some, if_true, hmid]
    rw [hnew, Option.bind_some]
  | false =>
    obtain ⟨mid, hmid, hh⟩ := holds_alignEnd h
    have hle : ys.length ≤ maxCapacity - xs.length := by omega
    obtain ⟨new, hnew, hbegin, hholds⟩ := hh.prepend ys hle (maxCapacity - xs.length - ys.length)
    refine ⟨new, ?_, ?_⟩
    · simp only [Option.bind_eq_bind, Option.bind_some, Bool.false_eq_true, if_false, hmid,
        subFetchBegin, hh.begin_eq, if_pos hle]
      exact hnew
    · have hholds := hholds.of_begin hbegin
      rwa [Nat.sub_sub] at hholds

/-- The outermost edge, and the edges with another one in its place. -/
theorem holds_setEdgePtr {old : Addr} (rep : Addr) (h : this.Holds first (join isBack xs [old])) :
    ∃ idx, this.index isBack = some idx ∧ this.edge idx = some old ∧
      ∃ new, this.setEdgePtr idx rep = some new ∧ new.Holds first (join isBack xs [rep]) := by
  have hend := h.end_eq
  cases isBack with
  | true =>
    rw [join, if_pos rfl, List.length_append, List.length_singleton] at hend
    obtain ⟨new, hnew, hholds⟩ := h.write (i := first + xs.length) (x := rep)
      (Nat.le_add_right _ _) (by simp [join])
    refine ⟨first + xs.length, ?_, ?_, new, hnew, ?_⟩
    · rw [index, if_pos rfl, back, if_pos (by omega), hend]
      rfl
    · rw [edge, h.read?_eq (Nat.le_add_right _ _), Nat.add_sub_cancel_left, join, if_pos rfl,
        List.getElem?_concat_length]
    · simpa [join, Nat.add_sub_cancel_left] using hholds
  | false =>
    obtain ⟨new, hnew, hholds⟩ := h.write (i := first) (x := rep) le_rfl (by simp [join])
    refine ⟨first, ?_, ?_, new, hnew, ?_⟩
    · rw [index, if_neg Bool.false_ne_true, h.begin_eq]
    · rw [edge, h.read?_eq le_rfl, Nat.sub_self]
      rfl
    · simpa [join] using hholds

theorem edgesRange_eq {index : ℕ} (h : this.Holds first xs) (hfirst : first ≤ index)
    (hend : index ≤ first + xs.length) :
    this.edgesRange index this.end = some (xs.drop (index - first)) := by
  rw [edgesRange, h.end_eq, h.readAll?_eq hfirst (by omega)]
  exact congrArg some (List.take_of_length_le (by rw [List.length_drop]; omega))

/-- The edges but for the outermost one. -/
theorem edgesRange_shift {old : Addr} (h : this.Holds first (join isBack xs [old])) :
    ∃ back, this.back = some back ∧
      this.edgesRange (this.begin + if isBack then 0 else 1) (back + if isBack then 0 else 1) =
        some xs := by
  have hlen : (join isBack xs [old]).length = xs.length + 1 := length_join _ _
  have hend := h.end_eq
  rw [hlen] at hend
  refine ⟨first + xs.length, ?_, ?_⟩
  · rw [back, if_pos (by omega), hend]
    rfl
  · rw [edgesRange, h.begin_eq, Nat.add_sub_add_right, Nat.add_sub_cancel_left]
    cases isBack with
    | true =>
      rw [if_pos rfl, Nat.add_zero, h.readAll?_eq le_rfl (by omega)]
      simp [join]
    | false =>
      rw [if_neg Bool.false_ne_true, h.readAll?_eq (Nat.le_succ _) (by omega)]
      simp [join]

end Holds

end EdgeArray

end CordRs
