import CordRs.Rep.Navigator

/-!
# The arrays of a navigator

The source keeps the path of a navigator in two arrays of twelve entries that are indexed by
height: the nodes on the path, and the slot taken in each. Entries above the height of the tree
are never read. A move searches upwards without writing and writes the new entries on its way down,
so a move that is refused leaves the arrays as they are.

Here the moves work on these arrays; a height outside the arrays and a slot outside the window of a
node are faults. Every walk of theirs is compared with the walk along the list of entries.

## Main definitions

* `CordRs.BtreeNavigator`, `CordRs.NavPosition`.
* `CordRs.BtreeNavigator.init`, `CordRs.BtreeNavigator.initOffset`, `CordRs.BtreeNavigator.seek`,
  `CordRs.BtreeNavigator.next`, `CordRs.BtreeNavigator.previous`, `CordRs.BtreeNavigator.skip`.
* `CordRs.BtreeNavigator.Stores`: the arrays hold the entries of a path.

## Main results

* `CordRs.BtreeNavigator.descend_of_eq`, `CordRs.BtreeNavigator.stepUp_of_some`,
  `CordRs.BtreeNavigator.stepUp_of_none`: the walks of `init`, `next` and `previous`.
* `CordRs.BtreeNavigator.settle_spec`, `CordRs.BtreeNavigator.skipUp_spec`: those of `seek` and
  `skip`.
-/

namespace CordRs

open RefHeap

/-- A data edge and an offset in it; no edge beyond the tree, with the bytes that were left. -/
structure NavPosition where
  edge : Option Edge
  offset : ℕ
  deriving DecidableEq

/-- A tree that is expected to be a btree node. -/
def asBtreeNode : Rep → Except Fault (BtreeHeader × List Rep)
  | .leaf _ => .error .unreachable
  | .node hd es => .ok (hd, es)

/-- The stored path of a navigator: the height of the tree, and for every height up to it the slot
and the node. Entries of `node` that were never written are dangling. -/
structure BtreeNavigator where
  height : Option ℕ
  index : Fin maxDepth → ℕ
  node : Fin maxDepth → Option (BtreeHeader × List Rep)

namespace BtreeNavigator

/-- A navigator without a tree. -/
def new : BtreeNavigator := ⟨none, fun _ ↦ 0, fun _ ↦ none⟩

/-- The height of the tree. -/
def treeHeight (nav : BtreeNavigator) : Except Fault ℕ :=
  match nav.height with
  | some height => .ok height
  | none => .error .unreachable

/-- The node at a height. -/
def nodeAt (nav : BtreeNavigator) (height : ℕ) : Except Fault (BtreeHeader × List Rep) :=
  if h : height < maxDepth then
    match nav.node ⟨height, h⟩ with
    | some b => .ok b
    | none => .error .dangling
  else
    .error .stack

/-- The slot at a height. -/
def indexAt (nav : BtreeNavigator) (height : ℕ) : Except Fault ℕ :=
  if h : height < maxDepth then .ok (nav.index ⟨height, h⟩) else .error .stack

/-- The node and the slot at a height. -/
def levelAt (nav : BtreeNavigator) (height : ℕ) : Except Fault Level := do
  let (hd, es) ← nav.nodeAt height
  pure ⟨hd, es, ← nav.indexAt height⟩

/-- Store the node at a height. -/
def setNode (nav : BtreeNavigator) (height : ℕ) (b : BtreeHeader × List Rep) :
    Except Fault BtreeNavigator :=
  if h : height < maxDepth then
    .ok { nav with node := Function.update nav.node ⟨height, h⟩ (some b) }
  else
    .error .stack

/-- Store the slot at a height, as a byte. -/
def setIndex (nav : BtreeNavigator) (height index : ℕ) : Except Fault BtreeNavigator :=
  if h : height < maxDepth then
    .ok { nav with index := Function.update nav.index ⟨height, h⟩ (index % 2 ^ 8) }
  else
    .error .stack

/-- Store the path from a node at a height down to its first or last data edge. -/
def descend (back : Bool) : ℕ → Rep → BtreeNavigator → Except Fault (BtreeNavigator × Edge)
  | 0, tree, nav => do
    let (hd, es) ← asBtreeNode tree
    let l := outerLevel back hd es
    let nav ← nav.setNode 0 (hd, es)
    let nav ← nav.setIndex 0 l.index
    pure (nav, ← asDataEdge (← l.edge))
  | height + 1, tree, nav => do
    let (hd, es) ← asBtreeNode tree
    let l := outerLevel back hd es
    let nav ← nav.setNode (height + 1) (hd, es)
    let nav ← nav.setIndex (height + 1) l.index
    descend back height (← l.edge) nav

/-- Start at the first or last data edge of a btree. -/
def init (nav : BtreeNavigator) (back : Bool) (tree : Rep) :
    Except Fault (BtreeNavigator × Edge) := do
  let (hd, _) ← asBtreeNode tree
  descend back hd.height tree { nav with height := some hd.height }

/-- The slot of a node whose edge contains the byte at an offset, the edge, and the offset in it.
-/
def findEdge (b : BtreeHeader × List Rep) (offset : ℕ) : Except Fault (Level × Rep × ℕ) := do
  let pos ← indexOf b.1.begin (b.2.map Rep.length) offset
  let l : Level := ⟨b.1, b.2, pos.index⟩
  pure (l, ← l.edge, pos.n)

/-- Store the path from the edge found at a height down to the data edge that contains the byte at
an offset of that edge. The loop of `skip` on its way down finds the edge of a node as `index_of`
does. -/
def settle : ℕ → Level → Rep → ℕ → BtreeNavigator → Except Fault (BtreeNavigator × NavPosition)
  | 0, l, edge, n, nav => do
    let nav ← nav.setIndex 0 l.index
    pure (nav, ⟨some (← asDataEdge edge), n⟩)
  | height + 1, l, edge, n, nav => do
    let nav ← nav.setIndex (height + 1) l.index
    let b ← asBtreeNode edge
    let nav ← nav.setNode height b
    let (l, edge, n) ← findEdge b n
    settle height l edge n nav

/-- Move to the data edge that contains the byte at an offset of the tree. -/
def seek (nav : BtreeNavigator) (offset : ℕ) : Except Fault (BtreeNavigator × NavPosition) := do
  let height ← nav.treeHeight
  let b ← nav.nodeAt height
  if b.1.length ≤ offset then
    pure (nav, ⟨none, 0⟩)
  else
    let (l, edge, n) ← findEdge b offset
    settle height l edge n nav

/-- Start at the data edge of a btree that contains the byte at an offset. -/
def initOffset (nav : BtreeNavigator) (tree : Rep) (offset : ℕ) :
    Except Fault (BtreeNavigator × NavPosition) := do
  let b ← asBtreeNode tree
  if b.1.length ≤ offset then
    pure (nav, ⟨none, 0⟩)
  else
    let nav ← { nav with height := some b.1.height }.setNode b.1.height b
    nav.seek offset

/-- The slot of an entry is the last one, or the first one if `back` is set. -/
def exhausted (back : Bool) (l : Level) : Bool :=
  if back then l.index = l.hd.begin else l.index + 1 = l.end

/-- The entry at the next slot, or at the previous one if `back` is set. -/
def stepped (back : Bool) (l : Level) : Level :=
  { l with index := if back then l.index - 1 else l.index + 1 }

/-- Search the next `levels` heights for an entry that is not at its last slot, move it on and store
the path to the first data edge below; with `back` set the other way round. -/
def stepUp (back : Bool) : ℕ → ℕ → BtreeNavigator → Except Fault (BtreeNavigator × Option Edge)
  | 0, _, nav => pure (nav, none)
  | levels + 1, height, nav => do
    let l ← nav.levelAt height
    if exhausted back l then
      stepUp back levels (height + 1) nav
    else
      let nav ← nav.setIndex height (stepped back l).index
      let (nav, e) ← descend back (height - 1) (← (stepped back l).edge) nav
      pure (nav, some e)

/-- Move from the last slot of the lowest node to the next data edge. -/
def nextUp (nav : BtreeNavigator) : Except Fault (BtreeNavigator × Option Edge) := do
  stepUp false (← nav.treeHeight) 1 nav

/-- Move from the first slot of the lowest node to the previous data edge. -/
def previousUp (nav : BtreeNavigator) : Except Fault (BtreeNavigator × Option Edge) := do
  stepUp true (← nav.treeHeight) 1 nav

/-- Move to the next data edge. -/
def next (nav : BtreeNavigator) : Except Fault (BtreeNavigator × Option Edge) := do
  let l ← nav.levelAt 0
  if l.index = l.back then
    nav.nextUp
  else
    let l := { l with index := l.index + 1 }
    let nav ← nav.setIndex 0 l.index
    pure (nav, some (← asDataEdge (← l.edge)))

/-- Move to the previous data edge. -/
def previous (nav : BtreeNavigator) : Except Fault (BtreeNavigator × Option Edge) := do
  let l ← nav.levelAt 0
  if l.index = l.hd.begin then
    nav.previousUp
  else
    let l := { l with index := l.index - 1 }
    let nav ← nav.setIndex 0 l.index
    pure (nav, some (← asDataEdge (← l.edge)))

/-- Consume the edges of a node from the slot of an entry on, of which there are `slots`. Stops at
the first edge longer than what is left to skip, if there is one. -/
def skipEdges : ℕ → Level → ℕ → Except Fault (Option (Level × Rep) × ℕ)
  | 0, _, n => pure (none, n)
  | slots + 1, l, n => do
    let edge ← l.edge
    if edge.length ≤ n then
      skipEdges slots { l with index := l.index + 1 } (n - edge.length)
    else
      pure (some (l, edge), n)

/-- Consume edges from the slot of an entry at a height on, then those after the path at the next
`levels` heights. Nothing is stored. -/
def skipUp (nav : BtreeNavigator) (levels height : ℕ) (l : Level) (n : ℕ) :
    Except Fault (Option (ℕ × Level × Rep) × ℕ) := do
  match ← skipEdges (l.end - l.index) l n with
  | (some (l, edge), n) => pure (some (height, l, edge), n)
  | (none, n) =>
    match levels with
    | 0 => pure (none, n)
    | levels + 1 =>
      let up ← nav.levelAt (height + 1)
      skipUp nav levels (height + 1) { up with index := up.index + 1 } n

/-- Skip bytes from the start of the current data edge on. Beyond the end, the bytes that were left
are returned. -/
def skip (nav : BtreeNavigator) (n : ℕ) : Except Fault (BtreeNavigator × NavPosition) := do
  let levels ← nav.treeHeight
  let l ← nav.levelAt 0
  match ← nav.skipUp levels 0 l n with
  | (some (height, l, edge), n) => settle height l edge n nav
  | (none, n) => pure (nav, ⟨none, n⟩)

/-! ### The arrays hold a path -/

/-- From a height on the arrays hold the entries of a path. -/
def Stores (nav : BtreeNavigator) : ℕ → List Level → Prop
  | _, [] => True
  | height, l :: up => nav.levelAt height = .ok l ∧ Stores nav (height + 1) up

/-- The arrays of `nav'` are those of `nav` above a height. -/
structure Agrees (nav nav' : BtreeNavigator) (height : ℕ) : Prop where
  height_eq : nav'.height = nav.height
  levelAt_eq : ∀ i, height < i → nav'.levelAt i = nav.levelAt i

section Store

variable {nav nav' nav'' : BtreeNavigator} {h h' : ℕ} {l : Level} {p q : List Level}

theorem Agrees.trans (ha : nav.Agrees nav' h) (hb : nav'.Agrees nav'' h') (hle : h' ≤ h) :
    nav.Agrees nav'' h :=
  ⟨hb.height_eq.trans ha.height_eq, fun i hi ↦
    (hb.levelAt_eq i (hle.trans_lt hi)).trans (ha.levelAt_eq i hi)⟩

theorem Stores.agrees (hp : nav.Stores h p) (ha : nav.Agrees nav' h') (hlt : h' < h) :
    nav'.Stores h p := by
  induction p generalizing h with
  | nil => trivial
  | cons l p ih => exact ⟨(ha.levelAt_eq h hlt).trans hp.1, ih hp.2 (Nat.lt_succ_of_lt hlt)⟩

theorem stores_append : nav.Stores h (p ++ q) ↔ nav.Stores h p ∧ nav.Stores (h + p.length) q := by
  induction p generalizing h with
  | nil => simp [Stores]
  | cons l p ih =>
    rw [List.cons_append, Stores, ih, Stores, and_assoc, List.length_cons, Nat.add_right_comm,
      Nat.add_assoc h]

theorem nodeAt_of_levelAt (hl : nav.levelAt h = .ok l) : nav.nodeAt h = .ok (l.hd, l.edges) := by
  obtain ⟨⟨hd, es⟩, hnode, hl⟩ := exists_of_bind_eq_ok hl
  obtain ⟨i, -, hl⟩ := exists_of_bind_eq_ok hl
  cases hl
  exact hnode

theorem lt_of_levelAt (hl : nav.levelAt h = .ok l) : h < maxDepth := by
  by_contra hh
  simp only [levelAt, nodeAt, dif_neg hh] at hl
  cases hl

/-- Storing a node changes no other entry. -/
theorem exists_setNode (nav : BtreeNavigator) (b : BtreeHeader × List Rep) (hh : h < maxDepth) :
    ∃ nav', nav.setNode h b = .ok nav' ∧ nav'.nodeAt h = .ok b ∧ nav.Agrees nav' h := by
  refine ⟨_, dif_pos hh, ?_, rfl, fun i hi ↦ ?_⟩
  · simp only [nodeAt, dif_pos hh, Function.update_self]
  · have hne : ∀ hi' : i < maxDepth, (⟨i, hi'⟩ : Fin maxDepth) ≠ ⟨h, hh⟩ := by
      intro hi' heq
      exact hi.ne' (congrArg Fin.val heq)
    simp only [levelAt, nodeAt, indexAt]
    split
    · rw [Function.update_of_ne (hne _)]
    · rfl

/-- Storing a slot beside a node completes the entry and changes no other. -/
theorem exists_setIndex (hn : nav.nodeAt h = .ok (l.hd, l.edges)) (hi : l.index < 2 ^ 8) :
    ∃ nav', nav.setIndex h l.index = .ok nav' ∧ nav'.levelAt h = .ok l ∧ nav.Agrees nav' h := by
  have hh : h < maxDepth := by
    by_contra hh
    rw [nodeAt, dif_neg hh] at hn
    cases hn
  refine ⟨_, dif_pos hh, ?_, rfl, fun i hi ↦ ?_⟩
  · unfold nodeAt at hn
    simp only [levelAt, nodeAt, hn, ok_bind, indexAt, dif_pos hh, Function.update_self,
      Nat.mod_eq_of_lt hi]
    rfl
  · have hne : ∀ hi' : i < maxDepth, (⟨i, hi'⟩ : Fin maxDepth) ≠ ⟨h, hh⟩ := by
      intro hi' heq
      exact hi.ne' (congrArg Fin.val heq)
    simp only [levelAt, nodeAt, indexAt]
    split
    · rw [Function.update_of_ne (hne _)]
    · rfl

end Store

/-! ### Moves along a path -/

section Moves

variable {nav : BtreeNavigator} {back : Bool} {h : ℕ} {t : Rep} {p up : List Level} {e : Edge}

/-- The arrays are filled with the path to the first or last data edge. -/
theorem descend_of_eq (nav : BtreeNavigator) (hrun : CordRs.descend back h t = .ok (p, e)) (hh : h < maxDepth)
    (hp : ∀ l ∈ p, l.index < 2 ^ 8) :
    ∃ nav', descend back h t nav = .ok (nav', e) ∧ nav'.Stores 0 p ∧ p.length = h + 1 ∧
      nav.Agrees nav' h := by
  induction h generalizing t nav p with
  | zero =>
    cases t with
    | leaf e => cases hrun
    | node hd es =>
      simp only [CordRs.descend] at hrun
      obtain ⟨edge, hedge, hrun⟩ := exists_of_bind_eq_ok hrun
      obtain ⟨e', he, hrun⟩ := exists_of_bind_eq_ok hrun
      cases hrun
      obtain ⟨nav₁, hset₁, hnode, ha₁⟩ := exists_setNode nav (hd, es) hh
      obtain ⟨nav₂, hset₂, hlevel, ha₂⟩ :=
        exists_setIndex (l := outerLevel back hd es) hnode (hp _ List.mem_cons_self)
      refine ⟨nav₂, ?_, ⟨hlevel, trivial⟩, rfl, ha₁.trans ha₂ le_rfl⟩
      simp only [descend, asBtreeNode, ok_bind, hset₁, hset₂, hedge, he]
      rfl
  | succ h ih =>
    cases t with
    | leaf e => cases hrun
    | node hd es =>
      simp only [CordRs.descend] at hrun
      obtain ⟨edge, hedge, hrun⟩ := exists_of_bind_eq_ok hrun
      obtain ⟨⟨lower, e'⟩, hlower, hrun⟩ := exists_of_bind_eq_ok hrun
      cases hrun
      obtain ⟨nav₁, hset₁, hnode, ha₁⟩ := exists_setNode nav (hd, es) hh
      obtain ⟨nav₂, hset₂, hlevel, ha₂⟩ :=
        exists_setIndex (l := outerLevel back hd es) hnode (hp _ (by simp))
      obtain ⟨nav₃, hdesc, hstores, hlen, ha₃⟩ := ih nav₂ hlower (Nat.lt_of_succ_lt hh)
        fun l hl ↦ hp l (List.mem_append_left _ hl)
      refine ⟨nav₃, ?_, stores_append.mpr ⟨hstores, ?_, trivial⟩, by simp [hlen], ?_⟩
      · simp only [descend, asBtreeNode, ok_bind, hset₁, hset₂, hedge, hdesc]
      · rw [hlen, Nat.zero_add, ha₃.levelAt_eq _ (Nat.lt_succ_self h), hlevel]
      · exact (ha₁.trans ha₂ le_rfl).trans ha₃ (Nat.le_succ h)

/-- The way up and down again of a move, on the path. -/
def pathUp (back : Bool) : ℕ → List Level → Except Fault (Option (List Level × Edge)) :=
  if back then CordRs.previousUp else CordRs.nextUp

theorem pathUp_cons (back : Bool) (h : ℕ) (l : Level) (up : List Level) :
    pathUp back h (l :: up) =
      if exhausted back l then
        pathUp back (h + 1) up
      else (do
        let edge ← (stepped back l).edge
        let (lower, e) ← CordRs.descend back (h - 1) edge
        Except.ok (some (lower ++ stepped back l :: up, e))) := by
  cases back <;> simp [pathUp, CordRs.previousUp, CordRs.nextUp, exhausted, stepped] <;> rfl

/-- A search that reaches the top leaves the arrays as they are. -/
theorem stepUp_of_none (hrun : pathUp back h up = .ok none) (hup : nav.Stores h up) :
    stepUp back up.length h nav = .ok (nav, none) := by
  induction up generalizing h with
  | nil => rfl
  | cons l up ih =>
    rw [pathUp_cons] at hrun
    simp only [List.length_cons, stepUp, hup.1, ok_bind]
    split at hrun
    next hex => rw [if_pos hex, ih hrun hup.2]
    next hex =>
      obtain ⟨edge, -, hrun⟩ := exists_of_bind_eq_ok hrun
      obtain ⟨⟨lower, e⟩, -, hrun⟩ := exists_of_bind_eq_ok hrun
      cases hrun

/-- A search that finds an entry stores the path it leads to. -/
theorem stepUp_of_some (hrun : pathUp back h up = .ok (some (p, e))) (hpos : 0 < h)
    (hup : nav.Stores h up) (hp : ∀ l ∈ p, l.index < 2 ^ 8) :
    ∃ nav', stepUp back up.length h nav = .ok (nav', some e) ∧ nav'.Stores 0 p ∧
      nav'.height = nav.height := by
  induction up generalizing h with
  | nil =>
    rw [pathUp] at hrun
    cases back <;> cases hrun
  | cons l up ih =>
    rw [pathUp_cons] at hrun
    simp only [List.length_cons, stepUp, hup.1, ok_bind]
    split at hrun
    next hex =>
      rw [if_pos hex]
      exact ih hrun (Nat.succ_pos h) hup.2
    next hex =>
      obtain ⟨edge, hedge, hrun⟩ := exists_of_bind_eq_ok hrun
      obtain ⟨⟨lower, e'⟩, hlower, hrun⟩ := exists_of_bind_eq_ok hrun
      cases hrun
      have hlt := lt_of_levelAt hup.1
      have hnode := nodeAt_of_levelAt hup.1
      obtain ⟨nav₁, hset, hlevel, ha₁⟩ := exists_setIndex (l := stepped back l) hnode
        (hp _ (by simp))
      obtain ⟨nav₂, hdesc, hstores, hlen, ha₂⟩ := descend_of_eq nav₁ hlower (by omega)
        fun l hl ↦ hp l (List.mem_append_left _ hl)
      have hh : h - 1 + 1 = h := Nat.sub_add_cancel hpos
      refine ⟨nav₂, ?_, stores_append.mpr ⟨hstores, ?_⟩, ha₂.height_eq.trans ha₁.height_eq⟩
      · rw [if_neg hex, hset, ok_bind, hedge, ok_bind, hdesc]
        rfl
      · rw [hlen, Nat.zero_add, hh]
        refine ⟨(ha₂.levelAt_eq h (by omega)).trans hlevel, ?_⟩
        exact (hup.2.agrees ha₁ (Nat.lt_succ_self h)).agrees ha₂ (by omega)

end Moves

/-! ### Moves by an offset -/

section Offsets

variable [Target] {nav : BtreeNavigator} {h k n : ℕ} {t s edge : Rep} {l : Level} {p up : List Level}

/-- A slot of a valid node fits in a byte. -/
theorem index_lt (hl : l.Points s) (hv : l.node.Valid k) : l.index < 2 ^ 8 := by
  obtain ⟨-, -, hcap, -, -⟩ := Rep.Valid.node_iff.mp hv
  have hend := hl.end_eq
  rw [Level.end] at hend
  simp only [maxCapacity] at hcap
  omega

theorem index_lt_of_linked (hp : Linked t p s) (ht : t.Valid (k + p.length)) :
    ∀ l ∈ p, l.index < 2 ^ 8 := by
  induction p generalizing s k with
  | nil => simp
  | cons l up ih =>
    have ht' : t.Valid (k + 1 + up.length) := by
      rwa [List.length_cons, ← Nat.add_assoc, Nat.add_right_comm] at ht
    rintro l' (_ | ⟨_, hl'⟩)
    · exact index_lt hp.1 (hp.2.valid ht')
    · exact ih hp.2 ht' l' hl'

theorem findEdge_spec {hd : BtreeHeader} {es : List Rep}
    (hv : Rep.Valid (h + 1) (.node hd es)) (hn : n < hd.length) :
    ∃ as b cs, es = as ++ b :: cs ∧ b.Valid h ∧ n - (as.map Rep.length).sum < b.length ∧
      edgesLength (as.flatMap RoseTree.leaves) + (n - (as.map Rep.length).sum) = n ∧
      findEdge (hd, es) n =
        .ok (⟨hd, es, hd.begin + as.length⟩, b, n - (as.map Rep.length).sum) := by
  obtain ⟨hk, -, -, hsum, hes⟩ := Rep.Valid.node_iff.mp hv
  rw [hsum] at hn
  obtain ⟨as, b, cs, rfl, hle, hlt, hidx⟩ := indexOf_spec Rep.length hd.begin hn
  refine ⟨as, b, cs, rfl, Nat.add_right_cancel hk ▸ hes b (by simp), hlt, ?_, ?_⟩
  · rw [Rep.edgesLength_leaves fun a ha ↦ hes a (by simp [ha])]
    omega
  · simp only [findEdge, hidx, ok_bind, (Level.points_mk hd as b cs).edge]
    rfl

/-- The arrays are filled with the path to the data edge that contains a byte of an edge. -/
theorem settle_spec (hl : l.Points edge) (hv : edge.Valid h) (hn : n < edge.length)
    (hnode : nav.nodeAt h = .ok (l.hd, l.edges)) (hi : l.index < 2 ^ 8) :
    ∃ nav' p e m, settle h l edge n nav = .ok (nav', ⟨some e, m⟩) ∧ nav'.Stores 0 (p ++ [l]) ∧
      nav.Agrees nav' h ∧ Linked edge p (.leaf e) ∧ p.length = h ∧ m < e.length ∧
      edgesLength (before p) + m = n := by
  obtain ⟨nav₁, hset, hlevel, ha₁⟩ := exists_setIndex hnode hi
  induction h generalizing l edge n nav nav₁ with
  | zero =>
    obtain ⟨e, rfl, -⟩ := Rep.Valid.zero_iff.mp hv
    refine ⟨nav₁, [], e, n, ?_, ⟨hlevel, trivial⟩, ha₁, rfl, rfl, hn, Nat.zero_add n⟩
    simp only [settle, hset, ok_bind]
    rfl
  | succ h ih =>
    obtain ⟨hd, es, rfl⟩ := hv.exists_node
    obtain ⟨as, b, cs, rfl, hb, hlt, hoff, hfind⟩ := findEdge_spec hv hn
    have hpt := Level.points_mk hd as b cs
    have hh : h < maxDepth := Nat.lt_of_succ_lt (lt_of_levelAt hlevel)
    obtain ⟨nav₂, hset₂, hnode₂, ha₂⟩ := exists_setNode nav₁ (hd, as ++ b :: cs) hh
    have hi₂ := index_lt hpt hv
    obtain ⟨nav₃, hset₃, hlevel₃, ha₃⟩ :=
      exists_setIndex (l := ⟨hd, as ++ b :: cs, hd.begin + as.length⟩) hnode₂ hi₂
    obtain ⟨nav₄, p, e, m, hrun, hstores, ha₄, hlink, hlen, hm, hbefore⟩ :=
      ih hpt hb hlt hnode₂ hi₂ nav₃ hset₃ hlevel₃ ha₃
    have ha := ha₂.trans ha₄ le_rfl
    refine ⟨nav₄, p ++ [_], e, m, ?_, ?_, ha₁.trans ha (Nat.le_succ h), hlink.append ⟨hpt, rfl⟩,
      by simp [hlen], hm, ?_⟩
    · simp only [settle, hset, ok_bind, asBtreeNode, hset₂, hfind, hrun]
    · refine stores_append.mpr ⟨hstores, ?_, trivial⟩
      rw [List.length_append, hlen, Nat.zero_add]
      exact (ha.levelAt_eq _ (Nat.lt_succ_self h)).trans hlevel
    · rw [before_append, before, before, List.nil_append, Level.lefts_of_eq rfl rfl,
        edgesLength_append]
      omega

omit [Target] in
private theorem skipEdges_spec {as cs : List Rep} (he : l.edges = as ++ cs)
    (hi : l.index = l.hd.begin + as.length) :
    ((cs.map Rep.length).sum ≤ n ∧
        skipEdges cs.length l n = .ok (none, n - (cs.map Rep.length).sum)) ∨
      ∃ bs c ds, cs = bs ++ c :: ds ∧ (bs.map Rep.length).sum ≤ n ∧
        n - (bs.map Rep.length).sum < c.length ∧
        skipEdges cs.length l n =
          .ok (some ({ l with index := l.hd.begin + (as ++ bs).length }, c),
            n - (bs.map Rep.length).sum) := by
  induction cs generalizing l as n with
  | nil => exact .inl ⟨Nat.zero_le n, rfl⟩
  | cons c cs ih =>
    have hedge := Level.edge_of_eq he hi
    by_cases hle : c.length ≤ n
    · have hstep : skipEdges (c :: cs).length l n =
          skipEdges cs.length { l with index := l.index + 1 } (n - c.length) := by
        simp only [List.length_cons, skipEdges, hedge, ok_bind, if_pos hle]
      have he' : l.edges = (as ++ [c]) ++ cs := by simp [he]
      have hi' : l.index + 1 = l.hd.begin + (as ++ [c]).length := by
        rw [hi, List.length_append, List.length_singleton, Nat.add_assoc]
      rw [hstep]
      rcases ih (n := n - c.length) (l := { l with index := l.index + 1 }) he' hi' with
        ⟨hsum, hrun⟩ | ⟨bs, d, ds, rfl, hsum, hlt, hrun⟩
      · refine .inl ⟨?_, ?_⟩
        · simp only [List.map_cons, List.sum_cons]
          omega
        · rw [hrun, List.map_cons, List.sum_cons, Nat.sub_sub]
      · refine .inr ⟨c :: bs, d, ds, rfl, ?_, ?_, ?_⟩
        · simp only [List.map_cons, List.sum_cons]
          omega
        · simp only [List.map_cons, List.sum_cons]
          omega
        · rw [hrun, List.map_cons, List.sum_cons, Nat.sub_sub, List.append_assoc,
            List.singleton_append]
    · refine .inr ⟨[], c, cs, rfl, Nat.zero_le n, Nat.lt_of_not_le hle, ?_⟩
      simp only [List.length_cons, skipEdges, hedge, ok_bind, if_neg hle, List.append_nil, ← hi]
      rfl

/-- The edges of a node from a slot on are consumed up to the one that is longer than what is
left, if there is one. -/
private theorem skipEdges_node {as cs : List Rep} (he : l.edges = as ++ cs)
    (hi : l.index = l.hd.begin + as.length) (hv : l.node.Valid (h + 1)) :
    (edgesLength (cs.flatMap RoseTree.leaves) ≤ n ∧ skipEdges (l.end - l.index) l n =
        .ok (none, n - edgesLength (cs.flatMap RoseTree.leaves))) ∨
      ∃ index c m, skipEdges (l.end - l.index) l n = .ok (some ({ l with index := index }, c), m) ∧
        ({ l with index := index } : Level).Points c ∧ m < c.length ∧
        edgesLength (({ l with index := index } : Level).lefts.flatMap RoseTree.leaves) + m =
          edgesLength (as.flatMap RoseTree.leaves) + n := by
  have hes : ∀ s ∈ l.edges, s.Valid h := hv.edges
  rw [he] at hes
  have hslots : l.end - l.index = cs.length := by
    rw [Level.end, hi, he, List.length_append]
    omega
  have hcs := Rep.edgesLength_leaves fun c hc ↦ hes c (List.mem_append_right as hc)
  rw [hslots]
  rcases skipEdges_spec (n := n) he hi with ⟨hle, hrun⟩ | ⟨bs, c, ds, rfl, hle, hlt, hrun⟩
  · exact .inl ⟨hcs.trans_le hle, hcs ▸ hrun⟩
  · have he' : l.edges = (as ++ bs) ++ c :: ds := by rw [he, List.append_assoc]
    have hlefts : ({ l with index := l.hd.begin + (as ++ bs).length } : Level).lefts = as ++ bs :=
      Level.lefts_of_eq he' rfl
    have hbs := Rep.edgesLength_leaves fun b (hb : b ∈ bs) ↦ hes b (by simp [hb])
    refine .inr ⟨_, c, _, hrun, ⟨_, _, he', rfl⟩, hlt, ?_⟩
    rw [hlefts, List.flatMap_append, edgesLength_append]
    omega

omit [Target] in
private theorem skipUp_of_some {l' : Level} {c : Rep} {m : ℕ} (levels : ℕ)
    (hrun : skipEdges (l.end - l.index) l n = .ok (some (l', c), m)) :
    nav.skipUp levels h l n = .ok (some (h, l', c), m) := by
  rw [skipUp, hrun]
  rfl

/-- The edges after a slot and after the path above it are consumed up to the one that is longer
than what is left, if there is one. -/
theorem skipUp_spec {as cs : List Rep} (he : l.edges = as ++ cs)
    (hi : l.index = l.hd.begin + as.length) (hlink : Linked t up l.node)
    (ht : t.Valid (h + 1 + up.length)) (hnode : nav.nodeAt h = .ok (l.hd, l.edges))
    (hup : nav.Stores (h + 1) up) :
    (edgesLength (cs.flatMap RoseTree.leaves ++ after up) ≤ n ∧
        nav.skipUp up.length h l n =
          .ok (none, n - edgesLength (cs.flatMap RoseTree.leaves ++ after up))) ∨
      ∃ h' l' up' c m, nav.skipUp up.length h l n = .ok (some (h', l', c), m) ∧
        Linked t (l' :: up') c ∧ nav.nodeAt h' = .ok (l'.hd, l'.edges) ∧
        nav.Stores (h' + 1) up' ∧ h' + up'.length = h + up.length ∧ m < c.length ∧
        edgesLength (before (l' :: up')) + m =
          edgesLength (before up ++ as.flatMap RoseTree.leaves) + n := by
  induction up generalizing h l as cs n with
  | nil =>
    rcases skipEdges_node (n := n) he hi (hlink.valid ht) with
      ⟨hle, hrun⟩ | ⟨i, c, m, hrun, hpt, hm, hoff⟩
    · refine .inl ⟨by rwa [after, List.append_nil], ?_⟩
      rw [List.length_nil, skipUp, hrun, after, List.append_nil]
      rfl
    · refine .inr ⟨h, _, [], c, m, skipUp_of_some _ hrun, ⟨hpt, hlink⟩, hnode, hup, rfl, hm, ?_⟩
      simp only [before, edgesLength_append]
      omega
  | cons u up ih =>
    rcases skipEdges_node (n := n) he hi (hlink.valid ht) with
      ⟨hle, hrun⟩ | ⟨i, c, m, hrun, hpt, hm, hoff⟩
    · -- the search goes on after the node, which is an edge of the entry above
      have ht' : t.Valid (h + 1 + 1 + up.length) := by
        rwa [List.length_cons, ← Nat.add_assoc, Nat.add_right_comm] at ht
      have hu : u.edges = (u.lefts ++ [l.node]) ++ u.rights := by
        rw [List.append_assoc, List.singleton_append, ← hlink.1.edges_eq]
      have hui : u.index + 1 = u.hd.begin + (u.lefts ++ [l.node]).length := by
        rw [hlink.1.index_eq, List.length_append, List.length_singleton, Nat.add_assoc]
      have hstep : nav.skipUp (u :: up).length h l n =
          nav.skipUp up.length (h + 1) { u with index := u.index + 1 }
            (n - edgesLength (cs.flatMap RoseTree.leaves)) := by
        rw [List.length_cons, skipUp, hrun]
        simp only [ok_bind, hup.1]
      have hlen : edgesLength l.node.leaves = edgesLength (as.flatMap RoseTree.leaves) +
          edgesLength (cs.flatMap RoseTree.leaves) := by
        rw [Level.node, RoseTree.leaves_node, he, List.flatMap_append, edgesLength_append]
      have hunode : nav.nodeAt (h + 1) = .ok (u.hd, u.edges) := nodeAt_of_levelAt hup.1
      rw [hstep]
      rcases ih (l := { u with index := u.index + 1 })
        (n := n - edgesLength (cs.flatMap RoseTree.leaves)) hu hui hlink.2 ht'
        hunode hup.2 with
        ⟨hle', hrun'⟩ | ⟨h', l', up', c, m, hrun', hlink', hnode', hup', hh, hm, hoff⟩
      · have hafter : edgesLength (cs.flatMap RoseTree.leaves ++ after (u :: up)) =
            edgesLength (cs.flatMap RoseTree.leaves) +
              edgesLength (u.rights.flatMap RoseTree.leaves ++ after up) := by
          rw [after, edgesLength_append]
        refine .inl ⟨by omega, ?_⟩
        rw [hrun', hafter, Nat.sub_sub]
      · refine .inr ⟨h', l', up', c, m, hrun', hlink', hnode', hup', ?_, hm, ?_⟩
        · rw [hh, List.length_cons]
          omega
        · rw [hoff, before]
          simp only [List.flatMap_append, edgesLength_append, List.flatMap_cons, List.flatMap_nil,
            List.append_nil, hlen]
          omega
    · refine .inr ⟨h, _, _, c, m, skipUp_of_some _ hrun, ⟨hpt, hlink⟩, hnode, hup, rfl, hm, ?_⟩
      simp only [before, edgesLength_append]
      omega

end Offsets

end BtreeNavigator

end CordRs
