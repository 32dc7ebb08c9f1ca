import CordRs.Btree.AddData
import CordRs.Btree.ExtractBuffer
import CordRs.Btree.RemoveSuffix
import CordRs.Btree.Stored

/-!
# Programs of operations on stored nodes

Leaves are filled with new flats one slot at a time: a new leaf from the first slot up, or from the
last one down, with its cursors set at the end; one that has edges with a cursor that moves before
each slot is filled.

Operations on single nodes, in any order, with nodes that share slots after copies, read and change
the arrays as they do the lists of the model, if each of them has what the source asks for.

## Main definitions

* `CordRs.Stored.newLeaf`, `CordRs.Stored.addDataToLeaf`.
* `CordRs.NodeOp`, `CordRs.NodeOp.run`, `CordRs.NodeOp.store`: the operations, on nodes of the model
  and on stored nodes.

## Main results

* `CordRs.NodeOp.programs_store`: programs return the same on stored nodes.
-/

namespace CordRs

open RefHeap LevelTree

/-- The edge at a slot of a node. -/
def edgeAtSlot (this : Addr) (index : ℕ) : HeapM Addr := do
  let b ← asBtree this
  edge b index

namespace Stored

section Target

variable [Target]

/-- Put a new flat with as many bytes as it takes in a slot. What comes back are the array, the
number of bytes it took and the other bytes. -/
def fillOneFlat (isBack : Bool) (this : EdgeArray) (idx : ℕ) (data : Bytes) (extra : ℕ) :
    StoredM (EdgeArray × ℕ × Bytes) := do
  let tag := newTag maxFlatSize (addUsize data.length extra)
  let n := min data.length (tagToLength tag)
  let f ← alloc (.payload (.flat tag (consumed isBack data n)))
  let this ← checked (this.setEdgePtr idx f)
  pure (this, n, consume isBack data n)

/-- Fill the slots of a new leaf from `end` on, `slots` of them, while there are bytes. -/
def newLeafBack (extra : ℕ) :
    ℕ → EdgeArray → ℕ → ℕ → Bytes → StoredM (EdgeArray × ℕ × ℕ)
  | 0, leaf, «end», length, _ => pure (leaf, «end», length)
  | slots + 1, leaf, «end», length, data => do
    if data = [] then
      pure (leaf, «end», length)
    else
      let (leaf, n, data) ← fillOneFlat true leaf «end» data extra
      newLeafBack extra slots leaf («end» + 1) (length + n) data

/-- Fill the slots of a new leaf before `begin`, down to the first one, while there are bytes. -/
def newLeafFront (extra : ℕ) : ℕ → EdgeArray → ℕ → Bytes → StoredM (EdgeArray × ℕ × ℕ)
  | 0, leaf, length, _ => pure (leaf, 0, length)
  | begin + 1, leaf, length, data => do
    if data = [] then
      pure (leaf, begin + 1, length)
    else
      let (leaf, n, data) ← fillOneFlat false leaf begin data extra
      newLeafFront extra begin leaf (length + n) data

/-- A new leaf with as many bytes as it takes. -/
def newLeaf (isBack : Bool) (data : Bytes) (extra : ℕ) : StoredM Addr := do
  let leaf ← newNode 0
  if isBack then
    let (edges, «end», length) ← newLeafBack extra maxCapacity (.empty 0 0) 0 0 data
    write leaf (.btree ⟨length, 0, { edges with «end» := «end» }⟩)
    pure leaf
  else
    let (edges, begin, length) ← newLeafFront extra maxCapacity (.empty 0 maxCapacity) 0 data
    write leaf (.btree ⟨length, 0, { edges with begin := begin }⟩)
    pure leaf

/-- Fill the slot behind the window, and the next ones while there are bytes. The fuel bounds the
number of slots. -/
def fillBack (extra : ℕ) : ℕ → EdgeArray → Bytes → StoredM (EdgeArray × Bytes)
  | 0, _, _ => throw .unreachable
  | fuel + 1, this, data => do
    let (idx, this) := this.fetchAddEnd 1
    let (this, _, data) ← fillOneFlat true this idx data extra
    if data = [] ∨ this.end = maxCapacity then
      pure (this, data)
    else
      fillBack extra fuel this data

/-- Fill the slot before the window, and those before it while there are bytes. -/
def fillFront (extra : ℕ) : ℕ → EdgeArray → Bytes → StoredM (EdgeArray × Bytes)
  | 0, _, _ => throw .unreachable
  | fuel + 1, this, data => do
    let (idx, this) ← checked (this.subFetchBegin 1)
    let (this, _, data) ← fillOneFlat false this idx data extra
    if data = [] ∨ this.begin = 0 then
      pure (this, data)
    else
      fillFront extra fuel this data

/-- Fill the free slots of a leaf, which must have some, with bytes, of which there must be some. -/
def addDataToLeaf (isBack : Bool) (this : Addr) (data : Bytes) (extra : ℕ) : StoredM Bytes := do
  let t ← asBtree this
  if isBack then
    let edges ← checked t.edges.alignBegin
    let (edges, rest) ← fillBack extra maxCapacity edges data
    let t ← asBtree this
    write this (.btree { t with edges := edges })
    pure rest
  else
    let edges ← checked t.edges.alignEnd
    let (edges, rest) ← fillFront extra maxCapacity edges data
    let t ← asBtree this
    write this (.btree { t with edges := edges })
    pure rest

end Target

/-- Overwrite the edge at a slot. -/
def setEdgePtr (tree : Addr) (index : ℕ) (edge : Addr) : StoredM Unit := do
  let t ← asBtree tree
  let edges ← checked (t.edges.setEdgePtr index edge)
  write tree (.btree { t with edges := edges })

/-- Take the last slot out of the window of a node. -/
def dropLastSlot (tree : Addr) : StoredM Unit := do
  let t ← asBtree tree
  let back ← checked t.edges.back
  write tree (.btree { t with edges := { t.edges with «end» := back } })

/-- The edge at a slot of a node. -/
def edgeAtSlot (this : Addr) (index : ℕ) : StoredM Addr := do
  let t ← asBtree this
  checked (t.edges.edge index)

/-! ### Filling leaves -/

section Implements

variable [Target] {leaf : EdgeArray} {isBack : Bool} {extra : ℕ}

/-- A flat that goes to a slot, with the number of bytes it takes. -/
theorem refines_fillOneFlat {idx : ℕ} {P : Addr → EdgeArray → Prop} (data : Bytes)
    (hwrite : ∀ f, ∃ new, leaf.setEdgePtr idx f = some new ∧ P f new) :
    Refines Stores
      (fun p' p ↦ P p.1 p'.1 ∧ p'.2.1 + p.2.length = data.length ∧ p'.2.2 = p.2)
      (fillOneFlat isBack leaf idx data extra) (CordRs.fillOneFlat isBack data extra) := by
  refine (refines_alloc (.payload _)).bind_eq fun f ↦ ?_
  obtain ⟨new, hnew, hP⟩ := hwrite f
  refine refines_checked hnew (refines_pure ⟨hP, ?_, rfl⟩)
  rw [length_consume]
  exact Nat.add_sub_cancel' (min_le_left _ _)

/-- The slots of a new leaf from the first one up. -/
theorem refines_newLeafBack {slots last length : ℕ} {xs : List Addr} (data : Bytes)
    (hleaf : { leaf with «end» := last }.Holds 0 xs) (hroom : xs.length + slots = maxCapacity) :
    Refines Stores (fun p' p ↦ { p'.1 with «end» := p'.2.1 }.Holds 0 (xs ++ p.1) ∧
        p'.2.2 + p.2.length = length + data.length)
      (newLeafBack extra slots leaf last length data) (fillFlats true slots data extra) := by
  induction slots generalizing leaf last length xs data with
  | zero => exact refines_pure ⟨by rwa [List.append_nil], rfl⟩
  | succ slots ih =>
    rw [newLeafBack, fillFlats]
    split_ifs with hdata
    · exact refines_pure ⟨by rwa [List.append_nil], rfl⟩
    have hlast : last = xs.length := hleaf.end_eq.trans (Nat.zero_add _)
    refine (refines_fillOneFlat
      (P := fun f new ↦ { new with «end» := last + 1 }.Holds 0 (xs ++ [f])) data fun f ↦ ?_).bind ?_
    · obtain ⟨new, hnew, -, hholds⟩ := hleaf.append [f]
        (by rw [List.length_singleton]; omega) leaf.end
      rw [SlotArray.fill?_singleton] at hnew
      exact ⟨new, hnew, hholds⟩
    rintro ⟨new, n, rest⟩ ⟨f, _⟩ ⟨hholds, hn, rfl⟩
    refine (ih rest hholds ?_).bind_right fun p' p hp ↦ ⟨_, rfl, ?_, ?_⟩
    · rw [List.length_append, List.length_singleton]
      omega
    · rw [join, if_pos rfl, ← List.append_assoc]
      exact hp.1
    · have hrest := hp.2
      dsimp only at hn ⊢
      omega

/-- The slots of a new leaf from the last one down. -/
theorem refines_newLeafFront {begin length : ℕ} {xs : List Addr} (data : Bytes)
    (hleaf : { leaf with begin := begin }.Holds begin xs) :
    Refines Stores (fun p' p ↦ { p'.1 with begin := p'.2.1 }.Holds p'.2.1 (p.1 ++ xs) ∧
        p'.2.1 + p.1.length = begin ∧ p'.2.2 + p.2.length = length + data.length)
      (newLeafFront extra begin leaf length data) (fillFlats false begin data extra) := by
  induction begin generalizing leaf length xs data with
  | zero => exact refines_pure ⟨hleaf, rfl, rfl⟩
  | succ begin ih =>
    rw [newLeafFront, fillFlats]
    split_ifs with hdata
    · exact refines_pure ⟨hleaf, rfl, rfl⟩
    refine (refines_fillOneFlat (P := fun f new ↦ { new with begin := begin }.Holds begin (f :: xs))
      data fun f ↦ ?_).bind ?_
    · obtain ⟨new, hnew, -, hholds⟩ := hleaf.prepend [f] (Nat.succ_pos begin) leaf.begin
      rw [SlotArray.fill?_singleton] at hnew
      exact ⟨new, hnew, hholds⟩
    rintro ⟨new, n, rest⟩ ⟨f, _⟩ ⟨hholds, hn, rfl⟩
    refine (ih rest hholds).bind_right fun p' p hp ↦ ⟨_, rfl, ?_, ?_, ?_⟩
    · rw [join, if_neg Bool.false_ne_true, List.append_assoc]
      exact hp.1
    · rw [length_join, List.length_singleton, Nat.add_comm 1, ← Nat.add_assoc, hp.2.1]
    · have hrest := hp.2.2
      dsimp only at hn ⊢
      omega

theorem implements_newLeaf (data : Bytes) :
    Implements (newLeaf isBack data extra) (CordRs.newLeaf isBack data extra) := by
  refine (implements_newNode 0).bind_eq fun leaf ↦ ?_
  cases isBack with
  | true =>
    refine (refines_newLeafBack data (.empty (Nat.zero_le _)) (Nat.zero_add _)).bind ?_
    rintro ⟨edges, last, length⟩ ⟨fs, rest⟩ ⟨hholds, hlength⟩
    refine (refines_write (.btree ⟨?_, rfl, hholds⟩)).bind_eq fun _ ↦ refines_pure rfl
    exact Nat.eq_sub_of_add_eq (hlength.trans (Nat.zero_add _))
  | false =>
    refine (refines_newLeafFront data (.empty le_rfl)).bind ?_
    rintro ⟨edges, begin, length⟩ ⟨fs, rest⟩ ⟨hholds, hbegin, hlength⟩
    rw [List.append_nil] at hholds
    refine (refines_write (.btree ⟨?_, rfl, ?_⟩)).bind_eq fun _ ↦ refines_pure rfl
    · exact Nat.eq_sub_of_add_eq (hlength.trans (Nat.zero_add _))
    · have halign : alignedBegin false fs.length = begin := Nat.sub_eq_of_eq_add hbegin.symm
      exact halign.symm ▸ hholds

private theorem fillFlats_of_stop {slots : ℕ} {data : Bytes} (hstop : data = [] ∨ slots = 0) :
    fillFlats isBack slots data extra = pure ([], data) := by
  cases slots with
  | zero => rfl
  | succ slots => rw [fillFlats, if_pos (hstop.resolve_right (Nat.succ_ne_zero slots))]

/-- The slots behind the window of a leaf. -/
theorem refines_fillBack {fuel slots : ℕ} {xs : List Addr} (data : Bytes) (hleaf : leaf.Holds 0 xs)
    (hroom : xs.length + (slots + 1) = maxCapacity) (hfuel : slots < fuel) (hdata : data ≠ []) :
    Refines Stores (fun p' p ↦ p'.1.Holds 0 (xs ++ p.1) ∧ p'.2 = p.2)
      (fillBack extra fuel leaf data) (fillFlats true (slots + 1) data extra) := by
  induction fuel generalizing leaf slots xs data with
  | zero => exact absurd hfuel (Nat.not_lt_zero slots)
  | succ fuel ih =>
    have hend : leaf.end = xs.length := hleaf.end_eq.trans (Nat.zero_add _)
    rw [fillBack, fillFlats, if_neg hdata]
    refine (refines_fillOneFlat (P := fun f new ↦ new.Holds 0 (xs ++ [f])) data fun f ↦ ?_).bind ?_
    · obtain ⟨new, hnew, hlast, hholds⟩ := hleaf.append [f]
        (by rw [List.length_singleton]; omega) (leaf.end + 1)
      rw [SlotArray.fill?_singleton] at hnew
      exact ⟨new, hnew, hholds.of_end hlast⟩
    rintro ⟨new, n, rest⟩ ⟨f, _⟩ ⟨hholds, -, rfl⟩
    dsimp only at hholds ⊢
    have hnew : new.end = xs.length + 1 := by
      rw [hholds.end_eq, List.length_append, List.length_singleton, Nat.zero_add]
    by_cases hstop : rest = [] ∨ new.end = maxCapacity
    · rw [if_pos hstop, fillFlats_of_stop (hstop.imp_right fun h ↦ by omega), pure_bind]
      exact refines_pure ⟨hholds, rfl⟩
    · rw [if_neg hstop]
      obtain ⟨hrest, hfull⟩ := not_or.mp hstop
      obtain ⟨slots, rfl⟩ : ∃ k, slots = k + 1 := ⟨slots - 1, by omega⟩
      have hlen : (xs ++ [f]).length + (slots + 1) = maxCapacity := by
        rw [List.length_append, List.length_singleton]
        omega
      refine (ih rest hholds hlen (by omega) hrest).bind_right fun p' p hp ↦ ⟨_, rfl, ?_, hp.2⟩
      rw [join, if_pos rfl, ← List.append_assoc]
      exact hp.1

/-- The slots before the window of a leaf. -/
theorem refines_fillFront {fuel slots : ℕ} {xs : List Addr} (data : Bytes)
    (hleaf : leaf.Holds (slots + 1) xs) (hfuel : slots < fuel) (hdata : data ≠ []) :
    Refines Stores (fun p' p ↦ p'.1.Holds (slots + 1 - p.1.length) (p.1 ++ xs) ∧ p'.2 = p.2)
      (fillFront extra fuel leaf data) (fillFlats false (slots + 1) data extra) := by
  induction fuel generalizing leaf slots xs data with
  | zero => exact absurd hfuel (Nat.not_lt_zero slots)
  | succ fuel ih =>
    rw [fillFront, fillFlats, if_neg hdata]
    have hfetch : leaf.subFetchBegin 1 = some (slots, { leaf with begin := slots }) := by
      rw [EdgeArray.subFetchBegin, hleaf.begin_eq, if_pos (Nat.le_add_left 1 slots)]
      rfl
    refine refines_checked hfetch ?_
    refine (refines_fillOneFlat (P := fun f new ↦ new.Holds slots (f :: xs)) data
      fun f ↦ ?_).bind ?_
    · obtain ⟨new, hnew, hfirst, hholds⟩ := hleaf.prepend [f] (Nat.succ_pos slots) slots
      rw [SlotArray.fill?_singleton] at hnew
      exact ⟨new, hnew, hholds.of_begin hfirst⟩
    rintro ⟨new, n, rest⟩ ⟨f, _⟩ ⟨hholds, -, rfl⟩
    dsimp only at hholds ⊢
    have hnew : new.begin = slots := hholds.begin_eq
    by_cases hstop : rest = [] ∨ new.begin = 0
    · rw [if_pos hstop, fillFlats_of_stop (hstop.imp_right fun h ↦ hnew.symm.trans h), pure_bind]
      exact refines_pure ⟨hholds, rfl⟩
    · rw [if_neg hstop]
      obtain ⟨hrest, hfull⟩ := not_or.mp hstop
      obtain ⟨slots, rfl⟩ : ∃ k, slots = k + 1 := ⟨slots - 1, by omega⟩
      refine (ih rest hholds (by omega) hrest).bind_right fun p' p hp ↦ ⟨_, rfl, ?_, hp.2⟩
      rw [length_join, List.length_singleton, Nat.add_comm 1, Nat.add_sub_add_right, join,
        if_neg Bool.false_ne_true, List.append_assoc]
      exact hp.1

/-- Filling slots with new flats changes no node. -/
theorem fillFlats_grows {slots : ℕ} {data : Bytes} {p : List Addr × Bytes} {h k : Heap Node}
    (hrun : fillFlats isBack slots data extra h = .ok (p, k)) : Grows h k := by
  induction slots generalizing data p h with
  | zero =>
    cases hrun
    exact .refl _
  | succ slots ih =>
    rw [fillFlats] at hrun
    split_ifs at hrun with hdata
    · cases hrun
      exact .refl _
    · obtain ⟨⟨f, rest⟩, h₁, hfill, hrun⟩ := exists_of_run_bind hrun
      obtain ⟨p', h₂, hfills, hrun⟩ := exists_of_run_bind hrun
      cases hrun
      cases hfill
      exact (Grows.push h _).trans (ih hfills)

omit [Target] in
/-- The array that was filled is written back. -/
private theorem refinesIf_writeBack {this : Addr} {b : Btree} {edges : EdgeArray}
    {new : List Addr} {rest' rest : Bytes} (hedges : b.size + new.length ≤ maxCapacity → edges.Holds
      (alignedBegin isBack (b.size + new.length)) (join isBack b.edges new))
    (hrest : rest' = rest) :
    RefinesIf Stores (NodeIs this (· = b)) Eq
      (do
        let t ← asBtree this
        write this (.btree { t with edges := edges })
        pure rest')
      (do
        addEdges isBack this new
        pure rest) := by
  rw [addEdges, bind_assoc]
  refine refinesIf_asBtree fun t b' ht hb ↦ ?_
  subst hb
  split_ifs with hroom
  · refine (refines_write (.btree ⟨ht.length_eq, ht.height_eq, hedges hroom⟩)).bind_eq fun _ ↦ ?_
    exact refines_pure hrest
  · exact refines_throw _ _

theorem implements_addDataToLeaf (this : Addr) (data : Bytes) :
    RefinesIf Stores (NodeIs this fun b ↦ b.size < maxCapacity ∧ data ≠ []) Eq
      (addDataToLeaf isBack this data extra) (CordRs.addDataToLeaf isBack this data extra) := by
  refine refinesIf_asBtree_eq fun t b ht ⟨hsize, hdata⟩ ↦ ?_
  have hgrows : ∀ (h : Heap Node) (p : List Addr × Bytes) (k : Heap Node), NodeIs this (· = b) h →
      fillFlats isBack (maxCapacity - b.size) data extra h = .ok (p, k) →
        NodeIs this (· = b) k := by
    rintro h p k ⟨_, hb, rfl⟩ hrun
    exact ⟨_, fillFlats_grows hrun _ _ hb, rfl⟩
  obtain ⟨slots, hslots⟩ : ∃ slots, maxCapacity - b.size = slots + 1 :=
    ⟨maxCapacity - b.size - 1, by omega⟩
  have hfuel : slots < maxCapacity := by omega
  cases isBack with
  | true =>
    obtain ⟨mid, hmid, hholds⟩ := EdgeArray.holds_alignBegin ht.edges
    rw [if_pos rfl, checked_bind hmid]
    rw [hslots] at hgrows ⊢
    have hroom : b.edges.length + (slots + 1) = maxCapacity := by
      rw [← hslots]
      exact Nat.add_sub_cancel' hsize.le
    refine ((refines_fillBack data hholds hroom hfuel hdata).restrict _).bind hgrows ?_
    rintro ⟨edges, rest⟩ ⟨fs, _⟩ ⟨hedges, rfl⟩
    dsimp only at hedges ⊢
    exact refinesIf_writeBack (fun _ ↦ hedges) rfl
  | false =>
    obtain ⟨mid, hmid, hholds⟩ := EdgeArray.holds_alignEnd ht.edges
    rw [if_neg Bool.false_ne_true, checked_bind hmid]
    change mid.Holds (maxCapacity - b.size) b.edges at hholds
    rw [hslots] at hgrows hholds ⊢
    refine ((refines_fillFront data hholds hfuel hdata).restrict _).bind hgrows ?_
    rintro ⟨edges, rest⟩ ⟨fs, _⟩ ⟨hedges, rfl⟩
    dsimp only at hedges ⊢
    rw [← hslots, Nat.sub_sub] at hedges
    exact refinesIf_writeBack (fun _ ↦ hedges) rfl

/-! ### Slots of the window -/

omit [Target] in
theorem implements_setEdgePtr (tree : Addr) (index : ℕ) (edge : Addr) :
    RefinesIf Stores (NodeIs tree fun b ↦ b.begin ≤ index ∧ index < b.end) Eq
      (setEdgePtr tree index edge) (CordRs.setEdgePtr tree index edge) := by
  refine refinesIf_asBtree fun t b ht ⟨hbegin, hend⟩ ↦ ?_
  obtain ⟨new, hnew, hholds⟩ := ht.edges.write hbegin hend
  exact refines_checked hnew (refines_write (.btree ⟨ht.length_eq, ht.height_eq, hholds⟩))

omit [Target] in
theorem implements_dropLastSlot (tree : Addr) :
    RefinesIf Stores (NodeIs tree fun b ↦ 0 < b.size) Eq (dropLastSlot tree)
      (CordRs.dropLastSlot tree) := by
  refine refinesIf_asBtree fun t b ht hsize ↦ ?_
  have hend : t.edges.end = b.begin + b.size := ht.edges.end_eq
  have hback : t.edges.back = some (b.begin + (b.size - 1)) := by
    rw [EdgeArray.back, if_pos (by omega), hend, Nat.add_sub_assoc hsize]
  refine refines_checked hback (refines_write (.btree ⟨ht.length_eq, ht.height_eq, ?_⟩))
  have htake := ht.edges.take (Nat.le_add_right b.begin (b.size - 1)) (by
    change _ ≤ b.begin + b.size
    omega)
  rw [Nat.add_sub_cancel_left] at htake
  rw [List.dropLast_eq_take]
  exact htake

omit [Target] in
theorem implements_edgeAtSlot (this : Addr) (index : ℕ) :
    RefinesIf Stores (NodeIs this fun b ↦ b.begin ≤ index) Eq (edgeAtSlot this index)
      (CordRs.edgeAtSlot this index) := by
  refine refinesIf_asBtree fun t b ht hbegin ↦ ?_
  rw [edge, EdgeArray.edge, ht.edges.read?_eq hbegin]
  cases b.edges[index - b.begin]? with
  | none => exact refines_throw _ _
  | some edge => exact refines_pure rfl

end Implements

end Stored

/-! ### Programs -/

/-- An operation on a node. -/
inductive NodeOp where
  | newNode (height : ℕ)
  | newWith (rep : Addr)
  | newPair (front back : Addr)
  | copy (this : Addr)
  | copyToEndFrom (this : Addr) (begin newLength : ℕ)
  | copyBeginTo (this : Addr) («end» newLength : ℕ)
  | consumeBeginTo (tree : Addr) («end» newLength : ℕ)
  | extractFront (tree : Addr)
  | addEdgesFrom (isBack : Bool) (this src : Addr)
  | addEdge (isBack : Bool) (this : Addr) (owned : Bool) (rep : Addr) (delta : ℕ)
  | setEdge (isBack : Bool) (this : Addr) (owned : Bool) (rep : Addr) (delta : ℕ)
  | setEdgePtr (tree : Addr) (index : ℕ) (rep : Addr)
  | dropLastSlot (tree : Addr)
  | newLeaf (isBack : Bool) (data : Bytes) (extra : ℕ)
  | addDataToLeaf (isBack : Bool) (this : Addr) (data : Bytes) (extra : ℕ)
  | edgeAtSlot (this : Addr) (index : ℕ)
  | refRep (rep : Addr)
  | unref (rep : Addr)

namespace NodeOp

/-- What an operation returns. -/
inductive Answer where
  | done
  | node (rep : Addr)
  | result (tree : Addr) (action : Action)
  | bytes (rest : Bytes)
  deriving Repr, DecidableEq

/-- What the source asks for where it operates on a window. -/
def Fits : NodeOp → Heap Node → Prop
  | copyToEndFrom this index _ | copyBeginTo this index _ | consumeBeginTo this index _ =>
    Stored.InWindow this index
  | setEdgePtr tree index _ => Stored.NodeIs tree fun b ↦ b.begin ≤ index ∧ index < b.end
  | dropLastSlot tree => Stored.NodeIs tree fun b ↦ 0 < b.size
  | addDataToLeaf _ this data _ =>
    Stored.NodeIs this fun b ↦ b.size < maxCapacity ∧ data ≠ []
  | edgeAtSlot this index => Stored.NodeIs this fun b ↦ b.begin ≤ index
  | _ => fun _ ↦ True

variable [Target]

/-- Run an operation on the nodes of the model. -/
def run : NodeOp → HeapM Answer
  | newNode height => do pure (.node (← CordRs.newNode height))
  | newWith rep => do pure (.node (← CordRs.newWith rep))
  | newPair front back => do pure (.node (← CordRs.newPair front back))
  | copy this => do pure (.node (← CordRs.copy this))
  | copyToEndFrom this begin newLength => do
    pure (.node (← CordRs.copyToEndFrom this begin newLength))
  | copyBeginTo this «end» newLength => do
    pure (.node (← CordRs.copyBeginTo this «end» newLength))
  | consumeBeginTo tree «end» newLength => do
    pure (.node (← CordRs.consumeBeginTo tree «end» newLength))
  | extractFront tree => do pure (.node (← CordRs.extractFront tree))
  | addEdgesFrom isBack this src => do
    CordRs.addEdgesFrom isBack this src
    pure .done
  | addEdge isBack this owned rep delta => do
    let result ← CordRs.addEdge isBack this owned rep delta
    pure (.result result.tree result.action)
  | setEdge isBack this owned rep delta => do
    let result ← CordRs.setEdge isBack this owned rep delta
    pure (.result result.tree result.action)
  | setEdgePtr tree index rep => do
    CordRs.setEdgePtr tree index rep
    pure .done
  | dropLastSlot tree => do
    CordRs.dropLastSlot tree
    pure .done
  | newLeaf isBack data extra => do pure (.node (← CordRs.newLeaf isBack data extra))
  | addDataToLeaf isBack this data extra => do
    pure (.bytes (← CordRs.addDataToLeaf isBack this data extra))
  | edgeAtSlot this index => do pure (.node (← CordRs.edgeAtSlot this index))
  | refRep rep => do
    refInc rep
    pure (.node rep)
  | unref rep => do
    CordRs.unref rep
    pure .done

/-- Run an operation on stored nodes. -/
def store : NodeOp → StoredM Answer
  | newNode height => do pure (.node (← Stored.newNode height))
  | newWith rep => do pure (.node (← Stored.newWith rep))
  | newPair front back => do pure (.node (← Stored.newPair front back))
  | copy this => do pure (.node (← Stored.copy this))
  | copyToEndFrom this begin newLength => do
    pure (.node (← Stored.copyToEndFrom this begin newLength))
  | copyBeginTo this «end» newLength => do
    pure (.node (← Stored.copyBeginTo this «end» newLength))
  | consumeBeginTo tree «end» newLength => do
    pure (.node (← Stored.consumeBeginTo tree «end» newLength))
  | extractFront tree => do pure (.node (← Stored.extractFront tree))
  | addEdgesFrom isBack this src => do
    Stored.addEdgesFrom isBack this src
    pure .done
  | addEdge isBack this owned rep delta => do
    let result ← Stored.addEdge isBack this owned rep delta
    pure (.result result.tree result.action)
  | setEdge isBack this owned rep delta => do
    let result ← Stored.setEdge isBack this owned rep delta
    pure (.result result.tree result.action)
  | setEdgePtr tree index rep => do
    Stored.setEdgePtr tree index rep
    pure .done
  | dropLastSlot tree => do
    Stored.dropLastSlot tree
    pure .done
  | newLeaf isBack data extra => do pure (.node (← Stored.newLeaf isBack data extra))
  | addDataToLeaf isBack this data extra => do
    pure (.bytes (← Stored.addDataToLeaf isBack this data extra))
  | edgeAtSlot this index => do pure (.node (← Stored.edgeAtSlot this index))
  | refRep rep => do
    refInc rep
    pure (.node rep)
  | unref rep => do
    Stored.unref rep
    pure .done

omit [Target] in
/-- The answer stands for the value. -/
private theorem refinesIf_answer {α : Type} {P : Heap Node → Prop} {m' : StoredM α} {m : HeapM α}
    (hm : RefinesIf Stores P Eq m' m) (f : α → Answer) :
    RefinesIf Stores P Eq (do pure (f (← m'))) (do pure (f (← m))) :=
  hm.bind (Q := fun _ _ ↦ True) (fun _ _ _ _ _ ↦ trivial) fun _ _ ha ↦
    (refines_pure (congrArg f ha)).restrict _

/-- An operation on stored nodes does what it does on the nodes of the model. -/
theorem refinesIf_store (op : NodeOp) : RefinesIf Stores op.Fits Eq op.store op.run := by
  cases op with
  | newNode height => exact refinesIf_answer ((Stored.implements_newNode height).restrict _) _
  | newWith rep => exact refinesIf_answer ((Stored.implements_newWith rep).restrict _) _
  | newPair front back =>
    exact refinesIf_answer ((Stored.implements_newPair front back).restrict _) _
  | copy this => exact refinesIf_answer ((Stored.implements_copy this).restrict _) _
  | copyToEndFrom this begin newLength =>
    exact refinesIf_answer (Stored.implements_copyToEndFrom this begin newLength) _
  | copyBeginTo this «end» newLength =>
    exact refinesIf_answer (Stored.implements_copyBeginTo this «end» newLength) _
  | consumeBeginTo tree «end» newLength =>
    exact refinesIf_answer (Stored.implements_consumeBeginTo tree «end» newLength) _
  | extractFront tree =>
    exact refinesIf_answer ((Stored.implements_extractFront tree).restrict _) _
  | addEdgesFrom isBack this src =>
    exact refinesIf_answer ((Stored.implements_addEdgesFrom this src).restrict _) fun _ ↦ .done
  | addEdge isBack this owned rep delta =>
    exact refinesIf_answer ((Stored.implements_addEdge this rep delta).restrict _)
      fun result ↦ .result result.tree result.action
  | setEdge isBack this owned rep delta =>
    exact refinesIf_answer ((Stored.implements_setEdge this rep delta).restrict _)
      fun result ↦ .result result.tree result.action
  | setEdgePtr tree index rep =>
    exact refinesIf_answer (Stored.implements_setEdgePtr tree index rep) fun _ ↦ .done
  | dropLastSlot tree => exact refinesIf_answer (Stored.implements_dropLastSlot tree) fun _ ↦ .done
  | newLeaf isBack data extra =>
    exact refinesIf_answer ((Stored.implements_newLeaf data).restrict _) _
  | addDataToLeaf isBack this data extra =>
    exact refinesIf_answer (Stored.implements_addDataToLeaf this data) _
  | edgeAtSlot this index => exact refinesIf_answer (Stored.implements_edgeAtSlot this index) _
  | refRep rep => exact refinesIf_answer (refines_refInc.restrict _) fun _ ↦ .node rep
  | unref rep => exact refinesIf_answer ((Stored.implements_unref rep).restrict _) fun _ ↦ .done

/-- Operations on nodes, in any order, do on stored nodes what they do on the nodes of the model:
they return the same, access no slot outside of the array and none in a window that was not filled,
and leave arrays that hold the edges of the nodes, wherever these were moved to. -/
theorem programs_store {h' : Heap StoredNode} {h k : Heap Node} {ops : List NodeOp}
    {answers : List Answer} (hrep : Represents Stores h' h) (hfits : StepsMeet Fits run ops h)
    (hrun : ops.mapM run h = .ok (answers, k)) :
    wp (ops.mapM store) (fun answers' k' ↦ answers' = answers ∧ Represents Stores k' k) h' :=
  RefinesIf.mapM refinesIf_store ops h' h hrep hfits answers k hrun

omit [Target] in
/-- The edge of the second leaf goes before that of the first, which moves to the last slot. -/
theorem programs_store_moving :
    letI : Target := ⟨64, .inr rfl⟩
    wp ([newLeaf true [1] 0, newLeaf true [2] 0, addEdgesFrom false 0 2, extractFront 0].mapM store)
      (fun answers _ ↦ answers = [.node 0, .node 2, .done, .node 3]) Heap.empty := by
  obtain ⟨k, hrun⟩ : letI : Target := ⟨64, .inr rfl⟩
    ∃ k, [newLeaf true [1] 0, newLeaf true [2] 0, addEdgesFrom false 0 2, extractFront 0].mapM run
      Heap.empty = .ok ([.node 0, .node 2, .done, .node 3], k) := ⟨_, rfl⟩
  let _ : Target := ⟨64, .inr rfl⟩
  have hfits : StepsMeet Fits run [newLeaf true [1] 0, newLeaf true [2] 0, addEdgesFrom false 0 2,
      extractFront 0] Heap.empty :=
    ⟨trivial, fun _ _ _ ↦ ⟨trivial, fun _ _ _ ↦ ⟨trivial, fun _ _ _ ↦ ⟨trivial, fun _ _ _ ↦
      trivial⟩⟩⟩⟩
  exact wp_mono (programs_store .empty hfits hrun) fun _ _ hanswers ↦ hanswers.1

end NodeOp

end CordRs
