import CordRs.Rep.NavigatorArrays

/-!
# The navigator as a position in the list of data edges

`NavOp.target` says where a move of a navigator leads in the list of the data edges of its tree.
The arrays always hold the path to the data edge at that position, and a move that has no target
leaves them as they are.

## Main definitions

* `CordRs.locate`: the data edge that contains a byte.
* `CordRs.BtreeNavigator.On`: the arrays hold the path to a data edge.
* `CordRs.NavOp`, `CordRs.NavOp.target`: the moves, and where they lead in a list.
* `CordRs.NavOp.run`, `CordRs.NavOp.positions`: sequences of moves of the arrays and in the list.

## Main results

* `CordRs.locate_eq_some_iff`, `CordRs.locate_eq_none_iff`.
* `CordRs.NavOp.apply_spec`: one move of the arrays is the move in the list.
* `CordRs.NavOp.moves_exact`: so is every sequence of moves.
-/

namespace CordRs

open RefHeap

/-! ### Positions in a list of data edges -/

/-- The data edge of a list that contains a byte, and the offset of the byte in it. -/
def locate : List Edge → ℕ → Option (ℕ × ℕ)
  | [], _ => none
  | e :: es, offset =>
    if offset < e.length then some (0, offset)
    else (locate es (offset - e.length)).map fun (i, n) ↦ (i + 1, n)

section Locate

variable {es : List Edge} {offset i n : ℕ}

/-- The data edge found is the only one that contains the byte. -/
theorem locate_eq_some_iff : locate es offset = some (i, n) ↔
    ∃ e, es[i]? = some e ∧ n < e.length ∧ edgesLength (es.take i) + n = offset := by
  induction es generalizing offset i with
  | nil => simp [locate]
  | cons e es ih =>
    rw [locate]
    split_ifs with hlt
    · cases i with
      | zero =>
        simp only [Option.some_inj, Prod.mk.injEq, List.getElem?_cons_zero, List.take_zero,
          edgesLength_nil, Nat.zero_add, true_and]
        constructor
        · rintro rfl
          exact ⟨e, rfl, hlt, rfl⟩
        · rintro ⟨_, -, -, rfl⟩
          rfl
      | succ i =>
        simp only [Option.some_inj, Prod.mk.injEq, List.take_succ_cons, edgesLength_cons]
        constructor
        · rintro ⟨h, -⟩
          cases h
        · rintro ⟨_, -, -, h⟩
          omega
    · cases i with
      | zero =>
        simp only [Option.map_eq_some_iff, List.getElem?_cons_zero, List.take_zero, edgesLength_nil]
        constructor
        · rintro ⟨⟨j, m⟩, -, h⟩
          cases h
        · rintro ⟨_, h, hn, hoff⟩
          cases h
          omega
      | succ i =>
        have hmap : (locate es (offset - e.length)).map (fun (i, n) ↦ (i + 1, n)) =
            some (i + 1, n) ↔ locate es (offset - e.length) = some (i, n) := by
          cases locate es (offset - e.length) <;> simp [Prod.ext_iff]
        rw [hmap, ih, List.getElem?_cons_succ, List.take_succ_cons, edgesLength_cons]
        refine exists_congr fun _ ↦ and_congr_right fun _ ↦ and_congr_right fun _ ↦ ?_
        omega

/-- There is none exactly beyond the end. -/
theorem locate_eq_none_iff : locate es offset = none ↔ edgesLength es ≤ offset := by
  induction es generalizing offset with
  | nil => simp [locate]
  | cons e es ih =>
    rw [locate, edgesLength_cons]
    split_ifs with hlt
    · simp only [false_iff]
      omega
    · rw [Option.map_eq_none_iff, ih]
      omega

end Locate

namespace BtreeNavigator

/-! ### One move -/

/-- The arrays hold the path of a navigator. -/
structure Holds (nav : BtreeNavigator) (p : Navigator) : Prop where
  height_eq : nav.height = some (p.path.length - 1)
  stores : nav.Stores 0 p.path

variable [Target]

/-- The arrays hold the path to the data edge of a tree with a number. -/
def On (nav : BtreeNavigator) (t : Rep) (i : ℕ) : Prop :=
  ∃ p e, nav.Holds p ∧ p.At t e ∧ p.before.length = i

/-- The position of a navigator in the data edges of a tree; none before it has a tree. -/
def PositionIn (nav : BtreeNavigator) (t : Rep) : Option ℕ → Prop
  | none => nav.height = none
  | some i => nav.On t i

/-- A move leads to an offset in the data edge with a number. Without a target it answers with the
excess, and leaves the arrays as they are. -/
def Moves (nav : BtreeNavigator) (t : Rep) (move : Except Fault (BtreeNavigator × NavPosition))
    (excess : ℕ) : Option (ℕ × ℕ) → Prop
  | some (i, n) => ∃ nav', move = .ok (nav', ⟨t.leaves[i]?, n⟩) ∧ nav'.On t i
  | none => move = .ok (nav, ⟨none, excess⟩)

section Rules

variable {nav nav' : BtreeNavigator} {p p' : Navigator} {t : Rep} {k i offset : ℕ} {e : Edge}
  {l : Level} {path up : List Level} {back : Bool}

theorem Holds.on (hnav : nav.Holds p) (hp : p.At t e) :
    nav.On t p.before.length ∧ t.leaves[p.before.length]? = some e := by
  refine ⟨⟨p, e, hnav, hp, rfl⟩, ?_⟩
  rw [hp.leaves_eq, List.getElem?_append_right le_rfl, Nat.sub_self]
  rfl

omit [Target] in
/-- The arrays that are filled with a path hold it. -/
private theorem holds_mk (hheight : nav.height = some k) (hstores : nav.Stores 0 path)
    (hlen : path.length = k + 1) : nav.Holds ⟨path⟩ :=
  ⟨by rw [hlen, hheight, Nat.add_sub_cancel], hstores⟩

private theorem At.length_eq (hp : p.At t e) (ht : t.Valid (k + 1)) : p.path.length = k + 1 :=
  hp.2.root_level.symm.trans ht.root_level

private theorem At.index_lt (hp : p.At t e) : ∀ l ∈ p.path, l.index < 2 ^ 8 :=
  index_lt_of_linked hp.1 (by rw [Nat.zero_add]; exact hp.2)

omit [Target] in
/-- The node at the height of the tree is the root. -/
private theorem nodeAt_root {s : Rep} {h : ℕ} (hlink : Linked t path s) (hne : path ≠ [])
    (hstores : nav.Stores h path) :
    ∃ hd es, t = .node hd es ∧ nav.nodeAt (h + (path.length - 1)) = .ok (hd, es) := by
  induction path generalizing s h with
  | nil => exact absurd rfl hne
  | cons l up ih =>
    cases up with
    | nil =>
      obtain rfl : l.node = t := hlink.2
      exact ⟨l.hd, l.edges, rfl, nodeAt_of_levelAt hstores.1⟩
    | cons u up =>
      obtain ⟨hd, es, heq, hnode⟩ := ih hlink.2 (List.cons_ne_nil _ _) hstores.2
      refine ⟨hd, es, heq, ?_⟩
      rw [← hnode]
      simp only [List.length_cons, Nat.add_sub_cancel]
      congr 1
      omega

theorem init_of_eq (nav : BtreeNavigator) (hrun : Navigator.init back t = .ok (p, e)) (hp : p.At t e) :
    ∃ nav', nav.init back t = .ok (nav', e) ∧ nav'.Holds p := by
  cases t with
  | leaf e => cases hrun
  | node hd es =>
    simp only [Navigator.init] at hrun
    split at hrun
    · cases hrun
    next hlt =>
      obtain ⟨⟨path, e'⟩, hdesc, hrun⟩ := exists_of_bind_eq_ok hrun
      cases hrun
      obtain ⟨nav', hrun', hstores, hlen, ha⟩ :=
        descend_of_eq { nav with height := some hd.height } hdesc (Nat.lt_of_not_le hlt)
          (At.index_lt hp)
      exact ⟨nav', hrun', holds_mk ha.height_eq hstores hlen⟩

omit [Target] in
private theorem Holds.treeHeight_eq (hnav : nav.Holds p) (hpath : p.path = l :: up) :
    nav.treeHeight = .ok up.length := by
  rw [treeHeight, hnav.height_eq, hpath, List.length_cons, Nat.add_sub_cancel]

omit [Target] in
private theorem Holds.levelAt_eq (hnav : nav.Holds p) (hpath : p.path = l :: up) :
    nav.levelAt 0 = .ok l ∧ nav.Stores 1 up := by
  have hstores := hnav.stores
  rwa [hpath] at hstores

omit [Target] in
/-- Moving the lowest slot of the path. -/
private theorem Holds.setIndex (hnav : nav.Holds p) (hpath : p.path = l :: up) (hi : i < 2 ^ 8) :
    ∃ nav', nav.setIndex 0 i = .ok nav' ∧ nav'.Holds ⟨{ l with index := i } :: up⟩ := by
  obtain ⟨hl, hup⟩ := hnav.levelAt_eq hpath
  have hnode := nodeAt_of_levelAt hl
  obtain ⟨nav', hset, hlevel, ha⟩ := exists_setIndex (l := { l with index := i }) hnode hi
  refine ⟨nav', hset, ?_, hlevel, hup.agrees ha Nat.one_pos⟩
  rw [ha.height_eq, hnav.height_eq, hpath]
  rfl

/-- Moving to another edge of a node above the lowest. -/
private theorem Holds.stepUp {e' : Edge} (hnav : nav.Holds p) (hpath : p.path = l :: up)
    (hrun : pathUp back 1 up = .ok (some (path, e'))) (hp : (Navigator.mk path).At t e)
    (hlen : path.length = p.path.length) :
    ∃ nav', stepUp back up.length 1 nav = .ok (nav', some e') ∧ nav'.Holds ⟨path⟩ := by
  obtain ⟨-, hup⟩ := hnav.levelAt_eq hpath
  obtain ⟨nav', hrun', hstores, hheight⟩ := stepUp_of_some hrun Nat.one_pos hup (At.index_lt hp)
  exact ⟨nav', hrun', by rw [hheight, hnav.height_eq, hlen], hstores⟩

theorem next_of_eq {r : Option Edge} (hnav : nav.Holds p) (hrun : p.next = .ok (p', r))
    (hp : p'.At t e) (hlen : p'.path.length = p.path.length) :
    ∃ nav', nav.next = .ok (nav', r) ∧ nav'.Holds p' ∧ (r = none → nav' = nav) := by
  cases hpath : p.path with
  | nil =>
    simp only [Navigator.next, hpath] at hrun
    cases hrun
  | cons l up =>
    have hl := hnav.levelAt_eq hpath
    simp only [Navigator.next, hpath] at hrun
    simp only [next, nextUp, hl.1, hnav.treeHeight_eq hpath, ok_bind]
    split at hrun
    next hlast =>
      obtain ⟨_ | ⟨path, e'⟩, hr, hrun⟩ := exists_of_bind_eq_ok hrun <;> cases hrun <;>
        rw [if_pos hlast]
      · have hr : pathUp false 1 up = .ok none := hr
        exact ⟨nav, stepUp_of_none hr hl.2, hnav, fun _ ↦ rfl⟩
      · have hr : pathUp false 1 up = .ok (some (path, e')) := hr
        obtain ⟨nav', hrun', hnav'⟩ := hnav.stepUp hpath hr hp hlen
        exact ⟨nav', hrun', hnav', fun h ↦ absurd h (Option.some_ne_none _)⟩
    next hmore =>
      obtain ⟨edge, hedge, hrun⟩ := exists_of_bind_eq_ok hrun
      obtain ⟨e', he', hrun⟩ := exists_of_bind_eq_ok hrun
      cases hrun
      obtain ⟨nav', hset, hnav'⟩ := hnav.setIndex hpath (At.index_lt hp _ List.mem_cons_self)
      refine ⟨nav', ?_, hnav', fun h ↦ absurd h (Option.some_ne_none _)⟩
      rw [if_neg hmore, hset, ok_bind, hedge, ok_bind, he']
      rfl

theorem previous_of_eq {r : Option Edge} (hnav : nav.Holds p) (hrun : p.previous = .ok (p', r))
    (hp : p'.At t e) (hlen : p'.path.length = p.path.length) :
    ∃ nav', nav.previous = .ok (nav', r) ∧ nav'.Holds p' ∧ (r = none → nav' = nav) := by
  cases hpath : p.path with
  | nil =>
    simp only [Navigator.previous, hpath] at hrun
    cases hrun
  | cons l up =>
    have hl := hnav.levelAt_eq hpath
    simp only [Navigator.previous, hpath] at hrun
    simp only [previous, previousUp, hl.1, hnav.treeHeight_eq hpath, ok_bind]
    split at hrun
    next hfirst =>
      obtain ⟨_ | ⟨path, e'⟩, hr, hrun⟩ := exists_of_bind_eq_ok hrun <;> cases hrun <;>
        rw [if_pos hfirst]
      · have hr : pathUp true 1 up = .ok none := hr
        exact ⟨nav, stepUp_of_none hr hl.2, hnav, fun _ ↦ rfl⟩
      · have hr : pathUp true 1 up = .ok (some (path, e')) := hr
        obtain ⟨nav', hrun', hnav'⟩ := hnav.stepUp hpath hr hp hlen
        exact ⟨nav', hrun', hnav', fun h ↦ absurd h (Option.some_ne_none _)⟩
    next hmore =>
      obtain ⟨edge, hedge, hrun⟩ := exists_of_bind_eq_ok hrun
      obtain ⟨e', he', hrun⟩ := exists_of_bind_eq_ok hrun
      cases hrun
      obtain ⟨nav', hset, hnav'⟩ := hnav.setIndex hpath (At.index_lt hp _ List.mem_cons_self)
      refine ⟨nav', ?_, hnav', fun h ↦ absurd h (Option.some_ne_none _)⟩
      rw [if_neg hmore, hset, ok_bind, hedge, ok_bind, he']
      rfl

/-- A move that ends on a data edge `m` bytes in leads to the data edge with the byte. -/
private theorem moves_of_at {move : Except Fault (BtreeNavigator × NavPosition)} {m excess : ℕ}
    (hrun : move = .ok (nav', ⟨some e, m⟩)) (hnav : nav'.Holds p) (hp : p.At t e)
    (hm : m < e.length) (hoff : edgesLength p.before + m = offset) :
    nav.Moves t move excess (locate t.leaves offset) := by
  obtain ⟨hon, he⟩ := hnav.on hp
  have htake : t.leaves.take p.before.length = p.before := by
    rw [hp.leaves_eq, List.take_left]
  have hlocate : locate t.leaves offset = some (p.before.length, m) :=
    locate_eq_some_iff.mpr ⟨e, he, hm, by rw [htake, hoff]⟩
  rw [hlocate]
  exact ⟨nav', he.symm ▸ hrun, hon⟩

/-- Going down from an entry to the byte at an offset of its edge. -/
private theorem settle_moves {h n excess : ℕ} {c : Rep} (hlink : Linked t (l :: up) c)
    (ht : t.Valid (h + 1 + up.length)) (hheight : nav.height = some (h + up.length))
    (hnode : nav.nodeAt h = .ok (l.hd, l.edges)) (hup : nav.Stores (h + 1) up) (hn : n < c.length) :
    nav.Moves t (settle h l c n nav) excess
      (locate t.leaves (edgesLength (CordRs.before (l :: up)) + n)) := by
  have hc : c.Valid h := hlink.valid (by rwa [List.length_cons, ← Nat.add_assoc, Nat.add_right_comm])
  obtain ⟨nav', p, e, m, hrun, hstores, ha, hlink', hlen, hm, hbefore⟩ :=
    settle_spec hlink.1 hc hn hnode (index_lt hlink.1 (hlink.2.valid ht))
  rw [stores_append] at hstores
  have hpath : (p ++ l :: up).length = h + 1 + up.length := by
    rw [List.length_append, List.length_cons, hlen]
    omega
  refine moves_of_at hrun (p := ⟨p ++ l :: up⟩) ⟨?_, ?_⟩ ⟨hlink'.append hlink, ?_⟩ hm ?_
  · rw [ha.height_eq, hheight]
    simp only [hpath]
    congr 1
    omega
  · refine stores_append.mpr ⟨hstores.1, hstores.2.1, ?_⟩
    rw [hlen, Nat.zero_add]
    exact hup.agrees ha (Nat.lt_succ_self h)
  · simp only [hpath]
    exact ht
  · rw [Navigator.before, before_append, edgesLength_append]
    omega

/-- Seeking a byte from the root of the tree. -/
theorem seek_spec {hd : BtreeHeader} {es : List Rep} (offset : ℕ) (ht : t.Valid (k + 1))
    (hheight : nav.height = some k) (htree : t = .node hd es) (hroot : nav.nodeAt k = .ok (hd, es)) :
    nav.Moves t (nav.seek offset) 0 (locate t.leaves offset) := by
  subst htree
  have hlen := ht.length_leaves
  rw [Rep.length_node] at hlen
  by_cases hle : hd.length ≤ offset
  · rw [locate_eq_none_iff.mpr (hlen.trans_le hle)]
    simp only [Moves, seek, treeHeight, hheight, ok_bind, hroot, if_pos hle]
    rfl
  · obtain ⟨as, b, cs, rfl, hb, hlt, hoff, hfind⟩ := findEdge_spec ht (Nat.lt_of_not_le hle)
    have hpt := Level.points_mk hd as b cs
    have hlink : Linked (.node hd (as ++ b :: cs)) [⟨hd, as ++ b :: cs, hd.begin + as.length⟩] b :=
      ⟨hpt, rfl⟩
    have hmoves : nav.Moves _ (settle k _ b _ nav) 0 _ :=
      settle_moves hlink ht hheight hroot trivial hlt
    rw [CordRs.before, CordRs.before, List.nil_append, Level.lefts_of_eq rfl rfl, hoff] at hmoves
    simpa only [seek, treeHeight, hheight, ok_bind, hroot, if_neg hle, hfind] using hmoves

/-- Starting at a byte; the arrays of a refused start are those before. -/
theorem initOffset_spec (ht : t.Valid (k + 1)) (hk : k ≤ maxHeight) :
    nav.Moves t (nav.initOffset t offset) 0 (locate t.leaves offset) := by
  obtain ⟨hd, es, rfl⟩ := ht.exists_node
  have hh : k = hd.height := Nat.add_right_cancel (Rep.Valid.node_iff.mp ht).1
  have hlen := ht.length_leaves
  rw [Rep.length_node] at hlen
  by_cases hle : hd.length ≤ offset
  · rw [locate_eq_none_iff.mpr (hlen.trans_le hle)]
    simp only [Moves, initOffset, asBtreeNode, ok_bind, if_pos hle]
    rfl
  · have hdepth : hd.height < maxDepth := by
      simp only [maxHeight, maxDepth] at hk ⊢
      omega
    obtain ⟨nav₁, hset, hnode, ha⟩ :=
      exists_setNode { nav with height := some hd.height } (hd, es) hdepth
    have hseek := seek_spec offset (hh ▸ ht) ha.height_eq rfl hnode
    obtain ⟨⟨i, n⟩, hlocate⟩ : ∃ target, locate _ offset = some target :=
      Option.ne_none_iff_exists'.mp (mt locate_eq_none_iff.mp (hlen.symm ▸ hle))
    rw [hlocate] at hseek ⊢
    simpa only [Moves, initOffset, asBtreeNode, ok_bind, if_neg hle, hset] using hseek

/-- Skipping bytes from the start of the current data edge on. -/
theorem skip_spec {n : ℕ} (ht : t.Valid (k + 1)) (hnav : nav.On t i) :
    nav.Moves t (nav.skip n) (edgesLength (t.leaves.take i) + n - edgesLength t.leaves)
      (locate t.leaves (edgesLength (t.leaves.take i) + n)) := by
  obtain ⟨p, e, hnav, hp, rfl⟩ := hnav
  obtain ⟨l, up, hpath⟩ := List.exists_cons_of_ne_nil (hp.path_ne_nil ht)
  obtain ⟨hl, hup⟩ := hnav.levelAt_eq hpath
  obtain ⟨hlink, hv⟩ := hp
  rw [Navigator.before, hpath]
  rw [hpath] at hlink hv
  have hleaves := hlink.leaves_eq
  have htake : t.leaves.take (CordRs.before (l :: up)).length = CordRs.before (l :: up) := by
    rw [hleaves, List.append_assoc, List.take_left]
  have hrest : edgesLength t.leaves = edgesLength (CordRs.before (l :: up)) +
      edgesLength ((.leaf e :: l.rights).flatMap RoseTree.leaves ++ after up) := by
    simp only [hleaves, CordRs.after, List.flatMap_cons, edgesLength_append]
    omega
  have hv' : t.Valid (0 + 1 + up.length) := by rwa [Nat.add_comm]
  rw [htake]
  rcases skipUp_spec (n := n) hlink.1.edges_eq hlink.1.index_eq hlink.2 hv' (nodeAt_of_levelAt hl)
    hup with ⟨hle, hrun⟩ | ⟨h', l', up', c, m, hrun, hlink', hnode, hup', hh, hm, hoff⟩
  · rw [locate_eq_none_iff.mpr (by omega)]
    simp only [Moves, skip, hnav.treeHeight_eq hpath, hl, ok_bind, hrun]
    rw [hrest, Nat.add_sub_add_left]
    rfl
  · have hv'' : t.Valid (h' + 1 + up'.length) := by
      rwa [Nat.add_right_comm, hh, Nat.add_right_comm]
    have hheight : nav.height = some (h' + up'.length) := by
      rw [hnav.height_eq, hpath, hh, Nat.zero_add]
      rfl
    have hmoves : nav.Moves t (settle h' l' c m nav) (edgesLength (CordRs.before (l :: up)) + n -
        edgesLength t.leaves) _ := settle_moves hlink' hv'' hheight hnode hup' hm
    rw [hoff] at hmoves
    simpa only [skip, hnav.treeHeight_eq hpath, hl, ok_bind, hrun, CordRs.before] using hmoves

end Rules

end BtreeNavigator

/-! ### Sequences of moves -/

/-- A move of a navigator. -/
inductive NavOp where
  | initFirst
  | initLast
  | initOffset (offset : ℕ)
  | seek (offset : ℕ)
  | next
  | previous
  | skip (n : ℕ)
  deriving DecidableEq

namespace NavOp

/-- Apply a move to the arrays. A start is one at the tree given. -/
def apply (t : Rep) (nav : BtreeNavigator) : NavOp → Except Fault (BtreeNavigator × NavPosition)
  | initFirst => do
    let (nav, edge) ← nav.init false t
    pure (nav, ⟨some edge, 0⟩)
  | initLast => do
    let (nav, edge) ← nav.init true t
    pure (nav, ⟨some edge, 0⟩)
  | initOffset offset => nav.initOffset t offset
  | seek offset => nav.seek offset
  | next => do
    let (nav, edge) ← nav.next
    pure (nav, ⟨edge, 0⟩)
  | previous => do
    let (nav, edge) ← nav.previous
    pure (nav, ⟨edge, 0⟩)
  | skip n => nav.skip n

/-- Apply moves one after the other, with their answers. -/
def run (t : Rep) : List NavOp → BtreeNavigator → Except Fault (BtreeNavigator × List NavPosition)
  | [], nav => pure (nav, [])
  | op :: ops, nav => do
    let (nav, answer) ← op.apply t nav
    let (nav, answers) ← run t ops nav
    pure (nav, answer :: answers)

/-- Where a move leads in a list of data edges: the number of the data edge and the offset in it. -/
def target (es : List Edge) (pos : Option ℕ) : NavOp → Option (ℕ × ℕ)
  | initFirst => some (0, 0)
  | initLast => some (es.length - 1, 0)
  | initOffset offset => locate es offset
  | seek offset => locate es offset
  | next => pos.bind fun i ↦ if i + 1 < es.length then some (i + 1, 0) else none
  | previous => pos.bind fun i ↦ if 0 < i then some (i - 1, 0) else none
  | skip n => pos.bind fun i ↦ locate es (edgesLength (es.take i) + n)

/-- The bytes a move goes beyond the end of a list of data edges. -/
def excess (es : List Edge) (pos : Option ℕ) : NavOp → ℕ
  | skip n => edgesLength (es.take (pos.getD 0)) + n - edgesLength es
  | _ => 0

/-- The position after a move and its answer. A refused move keeps the position. -/
def moved (es : List Edge) (pos : Option ℕ) (op : NavOp) : Option ℕ × NavPosition :=
  match op.target es pos with
  | some (i, n) => (some i, ⟨es[i]?, n⟩)
  | none => (pos, ⟨none, op.excess es pos⟩)

/-- The position after moves and their answers. -/
def positions (es : List Edge) : List NavOp → Option ℕ → Option ℕ × List NavPosition
  | [], pos => (pos, [])
  | op :: ops, pos =>
    let (pos, answer) := op.moved es pos
    let (pos, answers) := positions es ops pos
    (pos, answer :: answers)

/-- Only a start needs no position. -/
def Ready (pos : Option ℕ) : NavOp → Prop
  | initFirst | initLast | initOffset _ => True
  | seek _ | next | previous | skip _ => pos ≠ none

/-- Every move of a sequence but a start comes when there is a position. -/
def AllReady (es : List Edge) : List NavOp → Option ℕ → Prop
  | [], _ => True
  | op :: ops, pos => op.Ready pos ∧ AllReady es ops (op.moved es pos).1

instance (pos : Option ℕ) : DecidablePred (Ready pos)
  | initFirst | initLast | initOffset _ => inferInstanceAs (Decidable True)
  | seek _ | next | previous | skip _ => inferInstanceAs (Decidable (pos ≠ none))

instance decidableAllReady (es : List Edge) : ∀ ops pos, Decidable (AllReady es ops pos)
  | [], _ => inferInstanceAs (Decidable True)
  | op :: ops, pos =>
    have := decidableAllReady es ops (op.moved es pos).1
    inferInstanceAs (Decidable (op.Ready pos ∧ _))

section Runs

variable [Target] {nav : BtreeNavigator} {t : Rep} {k : ℕ} {pos : Option ℕ} {op : NavOp}
  {ops : List NavOp}

open BtreeNavigator

private theorem init_moves (back : Bool) (ht : t.Valid (k + 1)) (hk : k ≤ maxHeight) :
    nav.Moves t (do let (nav, edge) ← nav.init back t; pure (nav, ⟨some edge, 0⟩)) 0
      (some (if back then t.leaves.length - 1 else 0, 0)) := by
  obtain ⟨p, e, hrun, hp, hside⟩ := Navigator.init_spec back ht hk
  obtain ⟨nav', hrun', hnav'⟩ := init_of_eq nav hrun hp
  obtain ⟨hon, he⟩ := hnav'.on hp
  have hi : (if back then t.leaves.length - 1 else 0) = p.before.length := by
    cases back with
    | false =>
      simp only [Bool.false_eq_true, if_false] at hside ⊢
      rw [hside, List.length_nil]
    | true =>
      simp only [if_true] at hside ⊢
      rw [hp.leaves_eq, hside, List.length_append, List.length_singleton, Nat.add_sub_cancel]
  rw [hi]
  refine ⟨nav', ?_, hon⟩
  rw [hrun', he]
  rfl

private theorem next_moves {i : ℕ} (ht : t.Valid (k + 1)) (hnav : nav.On t i) :
    nav.Moves t (apply t nav next) 0 (target t.leaves (some i) next) := by
  obtain ⟨p, e, hnav, hp, rfl⟩ := hnav
  have hlen := congrArg List.length hp.leaves_eq
  rw [List.length_append, List.length_cons] at hlen
  simp only [apply, target, Option.bind_some]
  rcases Navigator.next_spec hp ht with ⟨hafter, hrun⟩ | ⟨p', e', hrun, hp', hbefore, hafter⟩
  · obtain ⟨nav', hrun', -, heq⟩ := next_of_eq hnav hrun hp rfl
    obtain rfl := heq rfl
    rw [hafter, List.length_nil] at hlen
    rw [if_neg (by omega)]
    simp only [Moves, hrun', ok_bind]
    rfl
  · obtain ⟨nav', hrun', hnav', -⟩ :=
      next_of_eq hnav hrun hp' ((At.length_eq hp' ht).trans (At.length_eq hp ht).symm)
    obtain ⟨hon, he⟩ := hnav'.on hp'
    have hi : p'.before.length = p.before.length + 1 := by
      rw [hbefore, List.length_append, List.length_singleton]
    rw [hafter, List.length_cons] at hlen
    rw [if_pos (by omega), ← hi]
    refine ⟨nav', ?_, hon⟩
    rw [hrun', he]
    rfl

private theorem previous_moves {i : ℕ} (ht : t.Valid (k + 1)) (hnav : nav.On t i) :
    nav.Moves t (apply t nav previous) 0 (target t.leaves (some i) previous) := by
  obtain ⟨p, e, hnav, hp, rfl⟩ := hnav
  simp only [apply, target, Option.bind_some]
  rcases Navigator.previous_spec hp ht with ⟨hbefore, hrun⟩ | ⟨p', e', hrun, hp', hafter, hbefore⟩
  · obtain ⟨nav', hrun', -, heq⟩ := previous_of_eq hnav hrun hp rfl
    obtain rfl := heq rfl
    rw [if_neg (by simp [hbefore])]
    simp only [Moves, hrun', ok_bind]
    rfl
  · obtain ⟨nav', hrun', hnav', -⟩ :=
      previous_of_eq hnav hrun hp' ((At.length_eq hp' ht).trans (At.length_eq hp ht).symm)
    obtain ⟨hon, he⟩ := hnav'.on hp'
    have hi : p.before.length = p'.before.length + 1 := by
      rw [hbefore, List.length_append, List.length_singleton]
    rw [if_pos (by omega), hi, Nat.add_sub_cancel]
    refine ⟨nav', ?_, hon⟩
    rw [hrun', he]
    rfl

/-- Seeking from wherever the arrays are, since they hold the root. -/
private theorem seek_moves {i offset : ℕ} (ht : t.Valid (k + 1)) (hnav : nav.On t i) :
    nav.Moves t (nav.seek offset) 0 (locate t.leaves offset) := by
  obtain ⟨p, e, hnav, hp, rfl⟩ := hnav
  obtain ⟨hd, es, htree, hroot⟩ := nodeAt_root hp.1 (hp.path_ne_nil ht) hnav.stores
  have hheight := hnav.height_eq
  rw [At.length_eq hp ht, Nat.add_sub_cancel] at hheight hroot
  exact seek_spec offset ht hheight htree (by rwa [Nat.zero_add] at hroot)

/-- A move of the arrays is the move in the list of data edges. -/
theorem apply_spec (ht : t.Valid (k + 1)) (hk : k ≤ maxHeight) (hnav : nav.PositionIn t pos)
    (hop : op.Ready pos) :
    nav.Moves t (op.apply t nav) (op.excess t.leaves pos) (op.target t.leaves pos) := by
  cases op with
  | initFirst => exact init_moves false ht hk
  | initLast => exact init_moves true ht hk
  | initOffset offset => exact initOffset_spec ht hk
  | seek offset =>
    obtain ⟨i, rfl⟩ := Option.ne_none_iff_exists'.mp hop
    exact seek_moves ht hnav
  | next =>
    obtain ⟨i, rfl⟩ := Option.ne_none_iff_exists'.mp hop
    exact next_moves ht hnav
  | previous =>
    obtain ⟨i, rfl⟩ := Option.ne_none_iff_exists'.mp hop
    exact previous_moves ht hnav
  | skip n =>
    obtain ⟨i, rfl⟩ := Option.ne_none_iff_exists'.mp hop
    exact skip_spec ht hnav

/-- The arrays after a move hold the path to the position after the move in the list, with the
same answer. -/
theorem apply_moved (ht : t.Valid (k + 1)) (hk : k ≤ maxHeight) (hnav : nav.PositionIn t pos)
    (hop : op.Ready pos) :
    ∃ nav', op.apply t nav = .ok (nav', (op.moved t.leaves pos).2) ∧
      nav'.PositionIn t (op.moved t.leaves pos).1 := by
  have hmoves := apply_spec ht hk hnav hop
  rw [moved]
  cases htarget : op.target t.leaves pos with
  | none =>
    rw [htarget] at hmoves
    exact ⟨nav, hmoves, hnav⟩
  | some target =>
    rw [htarget] at hmoves
    exact hmoves

theorem run_spec (ht : t.Valid (k + 1)) (hk : k ≤ maxHeight) (hnav : nav.PositionIn t pos)
    (hops : AllReady t.leaves ops pos) :
    ∃ nav', run t ops nav = .ok (nav', (positions t.leaves ops pos).2) ∧
      nav'.PositionIn t (positions t.leaves ops pos).1 := by
  induction ops generalizing nav pos with
  | nil => exact ⟨nav, rfl, hnav⟩
  | cons op ops ih =>
    obtain ⟨nav₁, happly, hnav₁⟩ := apply_moved ht hk hnav hops.1
    obtain ⟨nav₂, hrun, hnav₂⟩ := ih hnav₁ hops.2
    refine ⟨nav₂, ?_, hnav₂⟩
    simp only [run, happly, ok_bind, hrun]
    rfl

/-- After every sequence of moves the arrays hold the path to the data edge at the position that
the moves lead to in the list of data edges, and the moves gave the answers of the list. A move
that the list refuses then leaves the arrays as they are, and answers with the excess. -/
theorem moves_exact (ht : t.Valid (k + 1)) (hk : k ≤ maxHeight)
    (hops : AllReady t.leaves ops none) :
    ∃ nav, run t ops .new = .ok (nav, (positions t.leaves ops none).2) ∧
      nav.PositionIn t (positions t.leaves ops none).1 ∧
      ∀ op, Ready (positions t.leaves ops none).1 op →
        op.target t.leaves (positions t.leaves ops none).1 = none →
        op.apply t nav = .ok (nav, ⟨none, op.excess t.leaves (positions t.leaves ops none).1⟩) := by
  have hnew : BtreeNavigator.new.PositionIn t none := rfl
  obtain ⟨nav, hrun, hnav⟩ := run_spec ht hk hnew hops
  refine ⟨nav, hrun, hnav, fun op hop htarget ↦ ?_⟩
  have hmoves := apply_spec ht hk hnav hop
  rwa [htarget] at hmoves

end Runs

/-- Two nodes of one data edge each, with windows that do not start at the first slot. -/
def stairs : Rep :=
  .node ⟨4, 3, 1, 2⟩ [.node ⟨2, 2, 0, 1⟩ [.leaf (.whole 0 (.flat 6 [1, 2]))],
    .node ⟨3, 1, 0, 5⟩ [.leaf (.whole 1 (.flat 6 [3]))]]

/-- From the second byte on to the last data edge and back, then beyond the end. -/
theorem moves_exact_stairs :
    ∃ nav, run stairs [initOffset 1, next, next, previous, skip 2, seek 3] .new =
      .ok (nav, [⟨some (.whole 0 (.flat 6 [1, 2])), 1⟩, ⟨some (.whole 1 (.flat 6 [3])), 0⟩,
        ⟨none, 0⟩, ⟨some (.whole 0 (.flat 6 [1, 2])), 0⟩, ⟨some (.whole 1 (.flat 6 [3])), 0⟩,
        ⟨none, 0⟩]) ∧
      (skip 4).apply stairs nav = .ok (nav, ⟨none, 3⟩) := by
  let _ : Target := ⟨64, .inr rfl⟩
  have ht : stairs.Valid 2 := by
    refine Rep.Valid.node_iff.mpr ⟨rfl, by decide, by decide, rfl, ?_⟩
    rintro _ (_ | ⟨_, _ | ⟨_, ⟨⟩⟩⟩) <;>
      refine Rep.Valid.node_iff.mpr ⟨rfl, by decide, by decide, rfl, ?_⟩ <;>
      rintro _ (_ | ⟨_, ⟨⟩⟩) <;>
      exact ⟨by decide, by decide, by decide, by decide⟩
  have hops : AllReady stairs.leaves [initOffset 1, next, next, previous, skip 2, seek 3] none := by
    decide
  obtain ⟨nav, hrun, -, hfail⟩ := moves_exact ht (by decide) hops
  exact ⟨nav, hrun.trans rfl, (hfail (skip 4) (by decide) rfl).trans rfl⟩

end NavOp

end CordRs
