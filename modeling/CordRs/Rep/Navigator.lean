import CordRs.Rep.Index

/-!
# Positions in a btree

A navigator records the path from the root of a btree to one of its data edges: for every height
the node on the path and the slot taken in it. The source keeps the path in two arrays indexed by
height; here it is the list of the entries from height zero up to the height of the tree, and the
bound of the arrays is checked when the path is made.

`Linked t path s` says that `path` leads from `t` down to `s`. The data edges of the tree before
and after the position are `before path` and `after path`, and each move is described by what it
does to them.

## Main definitions

* `CordRs.Level`, `CordRs.Navigator`.
* `CordRs.Navigator.init`, `CordRs.Navigator.seek`, `CordRs.Navigator.next`,
  `CordRs.Navigator.previous`.
* `CordRs.Linked`, `CordRs.before`, `CordRs.after`.

## Main results

* `CordRs.Linked.leaves_eq`: a position splits the data edges of the tree.
* `CordRs.Navigator.init_spec`, `CordRs.Navigator.seek_spec`, `CordRs.Navigator.next_spec`,
  `CordRs.Navigator.previous_spec`: where each move leads.
-/

namespace CordRs

open RefHeap

/-- One entry of a path: a btree node and a slot of it. -/
structure Level where
  hd : BtreeHeader
  edges : List Rep
  index : ℕ

namespace Level

/-- The node of an entry. -/
def node (l : Level) : Rep := .node l.hd l.edges

/-- The slot after the last edge. -/
def «end» (l : Level) : ℕ := l.hd.begin + l.edges.length

/-- The last slot. -/
def back (l : Level) : ℕ := l.end - 1

/-- The edge at the slot of an entry. -/
def edge (l : Level) : Except Fault Rep :=
  if l.hd.begin ≤ l.index then
    match l.edges[l.index - l.hd.begin]? with
    | some e => .ok e
    | none => .error .window
  else
    .error .window

end Level

/-- A btree node at the first or the last of its slots. -/
def outerLevel (back : Bool) (hd : BtreeHeader) (edges : List Rep) : Level :=
  ⟨hd, edges, if back then hd.begin + edges.length - 1 else hd.begin⟩

/-- A tree that is expected to be a data edge. -/
def asDataEdge : Rep → Except Fault Edge
  | .leaf e => .ok e
  | .node _ _ => .error .unreachable

/-- The path from a node to its first or last data edge. -/
def descend (back : Bool) : ℕ → Rep → Except Fault (List Level × Edge)
  | _, .leaf _ => .error .unreachable
  | 0, .node hd es => do
    let l := outerLevel back hd es
    let e ← asDataEdge (← l.edge)
    pure ([l], e)
  | height + 1, .node hd es => do
    let l := outerLevel back hd es
    let (lower, e) ← descend back height (← l.edge)
    pure (lower ++ [l], e)

/-- The path from a node to the data edge that contains the byte at an offset. -/
def seekDown : ℕ → Rep → ℕ → Except Fault (List Level × Edge × ℕ)
  | _, .leaf _, _ => .error .unreachable
  | 0, .node hd es, offset => do
    let pos ← indexOf hd.begin (es.map Rep.length) offset
    let l : Level := ⟨hd, es, pos.index⟩
    let e ← asDataEdge (← l.edge)
    pure ([l], e, pos.n)
  | height + 1, .node hd es, offset => do
    let pos ← indexOf hd.begin (es.map Rep.length) offset
    let l : Level := ⟨hd, es, pos.index⟩
    let (lower, e, n) ← seekDown height (← l.edge) pos.n
    pure (lower ++ [l], e, n)

/-- The path to the next data edge after the subtree the entries from `height` up lead to. -/
def nextUp : ℕ → List Level → Except Fault (Option (List Level × Edge))
  | _, [] => .ok none
  | height, l :: up => do
    if l.index + 1 = l.end then
      nextUp (height + 1) up
    else
      let l := { l with index := l.index + 1 }
      let (lower, e) ← descend false (height - 1) (← l.edge)
      pure (some (lower ++ l :: up, e))

/-- The path to the last data edge before the subtree the entries from `height` up lead to. -/
def previousUp : ℕ → List Level → Except Fault (Option (List Level × Edge))
  | _, [] => .ok none
  | height, l :: up => do
    if l.index = l.hd.begin then
      previousUp (height + 1) up
    else
      let l := { l with index := l.index - 1 }
      let (lower, e) ← descend true (height - 1) (← l.edge)
      pure (some (lower ++ l :: up, e))

/-- A path in a btree, from height zero up; empty before it is initialised. -/
structure Navigator where
  path : List Level

namespace Navigator

/-- A navigator without a tree. -/
def new : Navigator := ⟨[]⟩

/-- Whether the navigator has a tree. -/
def isSome (nav : Navigator) : Bool := !nav.path.isEmpty

/-- The root of the tree. -/
def btree (nav : Navigator) : Option Rep := nav.path.getLast?.map Level.node

/-- The data edge at the position. -/
def current (nav : Navigator) : Except Fault Edge := do
  match nav.path with
  | [] => .error .unreachable
  | l :: _ => asDataEdge (← l.edge)

/-- Start at the first or last data edge of a btree. -/
def init (back : Bool) (tree : Rep) : Except Fault (Navigator × Edge) := do
  match tree with
  | .leaf _ => .error .unreachable
  | .node hd es =>
    if maxDepth ≤ hd.height then
      .error .stack
    else
      let (path, e) ← descend back hd.height (.node hd es)
      pure (⟨path⟩, e)

/-- Move to the data edge that contains the byte at an offset of the tree; `none` beyond the end,
where the navigator stays as it is. -/
def seek (nav : Navigator) (offset : ℕ) : Except Fault (Navigator × Option (Edge × ℕ)) := do
  match nav.btree with
  | none => .error .unreachable
  | some tree =>
    if tree.length ≤ offset then
      pure (nav, none)
    else
      let (path, e, n) ← seekDown (nav.path.length - 1) tree offset
      pure (⟨path⟩, some (e, n))

/-- Move to the next data edge; `none` at the last one, where the navigator stays. -/
def next (nav : Navigator) : Except Fault (Navigator × Option Edge) := do
  match nav.path with
  | [] => .error .unreachable
  | l :: up =>
    if l.index = l.back then
      match ← nextUp 1 up with
      | none => pure (nav, none)
      | some (path, e) => pure (⟨path⟩, some e)
    else
      let l := { l with index := l.index + 1 }
      let e ← asDataEdge (← l.edge)
      pure (⟨l :: up⟩, some e)

/-- Move to the previous data edge; `none` at the first one, where the navigator stays. -/
def previous (nav : Navigator) : Except Fault (Navigator × Option Edge) := do
  match nav.path with
  | [] => .error .unreachable
  | l :: up =>
    if l.index = l.hd.begin then
      match ← previousUp 1 up with
      | none => pure (nav, none)
      | some (path, e) => pure (⟨path⟩, some e)
    else
      let l := { l with index := l.index - 1 }
      let e ← asDataEdge (← l.edge)
      pure (⟨l :: up⟩, some e)

end Navigator

/-! ### Paths -/

/-- The edges of an entry before its slot. -/
def Level.lefts (l : Level) : List Rep := l.edges.take (l.index - l.hd.begin)

/-- The edges of an entry after its slot. -/
def Level.rights (l : Level) : List Rep := l.edges.drop (l.index - l.hd.begin + 1)

/-- The entry leads to the edge `s`. -/
def Level.Points (l : Level) (s : Rep) : Prop :=
  ∃ as cs, l.edges = as ++ s :: cs ∧ l.index = l.hd.begin + as.length

/-- The path leads from `t` down to `s`. -/
def Linked (t : Rep) : List Level → Rep → Prop
  | [], s => s = t
  | l :: up, s => l.Points s ∧ Linked t up l.node

/-- The data edges before a position. -/
def before : List Level → List Edge
  | [] => []
  | l :: up => before up ++ l.lefts.flatMap RoseTree.leaves

/-- The data edges after a position. -/
def after : List Level → List Edge
  | [] => []
  | l :: up => l.rights.flatMap RoseTree.leaves ++ after up

namespace Level

variable {l : Level} {s : Rep} {as cs : List Rep}

theorem edge_of_eq (he : l.edges = as ++ s :: cs) (hi : l.index = l.hd.begin + as.length) :
    l.edge = .ok s := by
  rw [edge, if_pos (by omega), he, hi, Nat.add_sub_cancel_left,
    List.getElem?_append_right le_rfl]
  simp

theorem lefts_of_eq (he : l.edges = as ++ s :: cs) (hi : l.index = l.hd.begin + as.length) :
    l.lefts = as := by
  rw [lefts, he, hi, Nat.add_sub_cancel_left, List.take_left]

theorem rights_of_eq (he : l.edges = as ++ s :: cs) (hi : l.index = l.hd.begin + as.length) :
    l.rights = cs := by
  rw [rights, he, hi, Nat.add_sub_cancel_left, ← List.drop_drop, List.drop_left]
  rfl

theorem Points.edge (hl : l.Points s) : l.edge = .ok s := by
  obtain ⟨as, cs, he, hi⟩ := hl
  exact edge_of_eq he hi

theorem Points.edges_eq (hl : l.Points s) : l.edges = l.lefts ++ s :: l.rights := by
  obtain ⟨as, cs, he, hi⟩ := hl
  rw [lefts_of_eq he hi, rights_of_eq he hi, he]

theorem Points.index_eq (hl : l.Points s) : l.index = l.hd.begin + l.lefts.length := by
  obtain ⟨as, cs, he, hi⟩ := hl
  rw [lefts_of_eq he hi, hi]

theorem Points.end_eq (hl : l.Points s) : l.end = l.index + 1 + l.rights.length := by
  have := congrArg List.length hl.edges_eq
  have := hl.index_eq
  rw [«end»]
  simp only [List.length_append, List.length_cons] at *
  omega

theorem Points.mem (hl : l.Points s) : s ∈ l.edges := by
  rw [hl.edges_eq]
  simp

theorem points_mk (hd : BtreeHeader) (as : List Rep) (s : Rep) (cs : List Rep) :
    (⟨hd, as ++ s :: cs, hd.begin + as.length⟩ : Level).Points s :=
  ⟨as, cs, rfl, rfl⟩

/-- Moving the slot of an entry past some edges. -/
theorem Points.skip {as cs : List Rep} {c : Rep} (hl : l.Points s) (hr : l.rights = as ++ c :: cs) :
    ({ l with index := l.index + 1 + as.length } : Level).Points c ∧
      ({ l with index := l.index + 1 + as.length } : Level).lefts = l.lefts ++ s :: as ∧
      ({ l with index := l.index + 1 + as.length } : Level).rights = cs := by
  have he : l.edges = (l.lefts ++ s :: as) ++ c :: cs := by
    rw [List.append_assoc, List.cons_append, ← hr, ← hl.edges_eq]
  have hi : l.index + 1 + as.length = l.hd.begin + (l.lefts ++ s :: as).length := by
    rw [hl.index_eq, List.length_append, List.length_cons]
    omega
  exact ⟨⟨_, _, he, hi⟩, lefts_of_eq he hi, rights_of_eq he hi⟩

/-- Moving the slot of an entry to the next edge. -/
theorem Points.succ {c : Rep} {cs : List Rep} (hl : l.Points s) (hr : l.rights = c :: cs) :
    ({ l with index := l.index + 1 } : Level).Points c ∧
      ({ l with index := l.index + 1 } : Level).lefts = l.lefts ++ [s] ∧
      ({ l with index := l.index + 1 } : Level).rights = cs :=
  hl.skip (show l.rights = [] ++ c :: cs from hr)

/-- Moving the slot of an entry to the previous edge. -/
theorem Points.pred {a : Rep} {as : List Rep} (hl : l.Points s) (hr : l.lefts = as ++ [a]) :
    ({ l with index := l.index - 1 } : Level).Points a ∧
      ({ l with index := l.index - 1 } : Level).lefts = as ∧
      ({ l with index := l.index - 1 } : Level).rights = s :: l.rights := by
  have he : l.edges = as ++ a :: s :: l.rights := by
    rw [hl.edges_eq, hr]
    simp
  have hi : l.index - 1 = l.hd.begin + as.length := by
    rw [hl.index_eq, hr, List.length_append, List.length_singleton]
    omega
  exact ⟨⟨_, _, he, hi⟩, lefts_of_eq he hi, rights_of_eq he hi⟩

end Level

theorem before_append (p q : List Level) : before (p ++ q) = before q ++ before p := by
  induction p with
  | nil => simp [before]
  | cons l p ih => rw [List.cons_append, before, before, ih, List.append_assoc]

theorem after_append (p q : List Level) : after (p ++ q) = after p ++ after q := by
  induction p with
  | nil => simp [after]
  | cons l p ih => rw [List.cons_append, after, after, ih, List.append_assoc]

namespace Linked

variable {s t : Rep} {p q : List Level}

theorem append {m : Rep} (hp : Linked m p s) (hq : Linked t q m) : Linked t (p ++ q) s := by
  induction p generalizing s with
  | nil =>
    obtain rfl : s = m := hp
    exact hq
  | cons l p ih => exact ⟨hp.1, ih hp.2⟩

/-- A position splits the data edges of the tree. -/
theorem leaves_eq (h : Linked t p s) : t.leaves = before p ++ s.leaves ++ after p := by
  induction p generalizing s with
  | nil =>
    obtain rfl : s = t := h
    simp [before, after]
  | cons l up ih =>
    rw [ih h.2, Level.node, RoseTree.leaves_node, h.1.edges_eq]
    simp [before, after]

theorem btree_eq (h : Linked t p s) (hp : p ≠ []) : (Navigator.mk p).btree = some t := by
  induction p generalizing s with
  | nil => exact absurd rfl hp
  | cons l up ih =>
    cases up with
    | nil =>
      have : l.node = t := h.2
      simp [Navigator.btree, this]
    | cons l' up =>
      simpa [Navigator.btree, List.getLast?_cons_cons] using ih h.2 (by simp)

variable [Target]

/-- The levels of the subtrees along a path. -/
theorem valid (h : Linked t p s) {k : ℕ} (ht : t.Valid (k + p.length)) : s.Valid k := by
  induction p generalizing s k with
  | nil =>
    obtain rfl : s = t := h
    exact ht
  | cons l up ih =>
    have hl : l.node.Valid (k + 1) := ih h.2 (by rwa [List.length_cons, ← Nat.add_assoc,
      Nat.add_right_comm] at ht)
    obtain ⟨hk, -, -, -, hes⟩ := Rep.Valid.node_iff.mp hl
    rw [Nat.add_right_cancel hk]
    exact hes s h.1.mem

end Linked

/-! ### Moves -/

section Moves

variable [Target] {t s : Rep} {h : ℕ} {up : List Level}

omit [Target] in
private theorem outerLevel_spec (back : Bool) (hd : BtreeHeader) {es : List Rep} (hne : es ≠ []) :
    ∃ c, (outerLevel back hd es).Points c ∧ c ∈ es ∧
      if back then (outerLevel back hd es).rights = [] else (outerLevel back hd es).lefts = [] := by
  cases back with
  | false =>
    obtain ⟨c, cs, rfl⟩ := List.exists_cons_of_ne_nil hne
    refine ⟨c, ⟨[], cs, rfl, rfl⟩, List.mem_cons_self, ?_⟩
    exact Level.lefts_of_eq (show c :: cs = [] ++ c :: cs from rfl) rfl
  | true =>
    obtain ⟨as, c, rfl⟩ := List.eq_nil_or_concat' es |>.resolve_left hne
    have hi : (outerLevel true hd (as ++ [c])).index = hd.begin + as.length := by
      simp [outerLevel]
    exact ⟨c, ⟨as, [], rfl, hi⟩, by simp, Level.rights_of_eq rfl hi⟩

/-- Descending along the first or the last edges leads to the first or last data edge. -/
theorem descend_spec (back : Bool) (ht : t.Valid (h + 1)) :
    ∃ p e, descend back h t = .ok (p, e) ∧ Linked t p (.leaf e) ∧ p.length = h + 1 ∧
      if back then after p = [] else before p = [] := by
  induction h generalizing t with
  | zero =>
    obtain ⟨hd, es, rfl⟩ := ht.exists_node
    obtain ⟨hk, hne, -, -, hes⟩ := Rep.Valid.node_iff.mp ht
    obtain ⟨c, hc, hmem, hend⟩ := outerLevel_spec back hd hne
    obtain ⟨e, rfl, -⟩ := Rep.Valid.zero_iff.mp (Nat.add_right_cancel hk ▸ hes c hmem)
    refine ⟨[outerLevel back hd es], e, ?_, ⟨hc, rfl⟩, rfl, ?_⟩
    · simp only [descend, hc.edge, ok_bind]
      rfl
    · cases back <;> simp_all [before, after]
  | succ h ih =>
    obtain ⟨hd, es, rfl⟩ := ht.exists_node
    obtain ⟨hk, hne, -, -, hes⟩ := Rep.Valid.node_iff.mp ht
    obtain ⟨c, hc, hmem, hend⟩ := outerLevel_spec back hd hne
    obtain ⟨p, e, hrun, hlink, hlen, hside⟩ := ih (Nat.add_right_cancel hk ▸ hes c hmem)
    refine ⟨p ++ [outerLevel back hd es], e, ?_, hlink.append ⟨hc, rfl⟩, by simp [hlen], ?_⟩
    · simp only [descend, hc.edge, ok_bind, hrun]
      rfl
    · cases back <;> simp_all [before, after, before_append, after_append]

/-- Descending by an offset leads to the data edge that contains the byte. -/
theorem seekDown_spec {offset : ℕ} (ht : t.Valid (h + 1)) (hlt : offset < t.length) :
    ∃ p e n, seekDown h t offset = .ok (p, e, n) ∧ Linked t p (.leaf e) ∧ p.length = h + 1 ∧
      n < e.length ∧ edgesLength (before p) + n = offset := by
  induction h generalizing t offset with
  | zero =>
    obtain ⟨hd, es, rfl⟩ := ht.exists_node
    obtain ⟨hk, -, -, hsum, hes⟩ := Rep.Valid.node_iff.mp ht
    rw [Rep.length_node, hsum] at hlt
    obtain ⟨as, b, cs, rfl, hle, hn, hidx⟩ := indexOf_spec Rep.length hd.begin hlt
    have hk0 : hd.height = 0 := (Nat.add_right_cancel hk).symm
    obtain ⟨e, rfl, -⟩ := Rep.Valid.zero_iff.mp (hk0 ▸ hes b (by simp))
    have hpt := Level.points_mk hd as (.leaf e) cs
    refine ⟨[_], e, _, ?_, ⟨hpt, rfl⟩, rfl, hn, ?_⟩
    · simp only [seekDown, hidx, ok_bind, hpt.edge]
      rfl
    · rw [before, before, List.nil_append, Level.lefts_of_eq rfl rfl,
        Rep.edgesLength_leaves fun a ha ↦ hes a (by simp [ha])]
      omega
  | succ h ih =>
    obtain ⟨hd, es, rfl⟩ := ht.exists_node
    obtain ⟨hk, -, -, hsum, hes⟩ := Rep.Valid.node_iff.mp ht
    rw [Rep.length_node, hsum] at hlt
    obtain ⟨as, b, cs, rfl, hle, hn, hidx⟩ := indexOf_spec Rep.length hd.begin hlt
    have hb : b.Valid (h + 1) := Nat.add_right_cancel hk ▸ hes b (by simp)
    obtain ⟨p, e, n, hrun, hlink, hlen, hne, hoff⟩ := ih hb hn
    have hpt := Level.points_mk hd as b cs
    refine ⟨p ++ [_], e, n, ?_, hlink.append ⟨hpt, rfl⟩, by simp [hlen], hne, ?_⟩
    · simp only [seekDown, hidx, ok_bind, hpt.edge, hrun]
      rfl
    · rw [before_append, before, before, List.nil_append, Level.lefts_of_eq rfl rfl,
        edgesLength_append, Rep.edgesLength_leaves fun a ha ↦ hes a (by simp [ha])]
      omega

theorem nextUp_spec (hlink : Linked t up s) (ht : t.Valid (h + 1 + up.length)) :
    (after up = [] ∧ nextUp (h + 1) up = .ok none) ∨
      ∃ p e, nextUp (h + 1) up = .ok (some (p, e)) ∧ Linked t p (.leaf e) ∧
        p.length = h + 1 + up.length ∧ before p = before up ++ s.leaves ∧
        after up = e :: after p := by
  induction up generalizing s h with
  | nil => exact .inl ⟨rfl, rfl⟩
  | cons l up ih =>
    have ht' : t.Valid (h + 1 + 1 + up.length) := by
      rwa [List.length_cons, ← Nat.add_assoc, Nat.add_right_comm] at ht
    have hend := hlink.1.end_eq
    cases hr : l.rights with
    | nil =>
      have hlast : l.index + 1 = l.end := by rw [hend, hr]; rfl
      simp only [nextUp, if_pos hlast]
      have hleaves : before up ++ l.node.leaves = before (l :: up) ++ s.leaves := by
        rw [Level.node, RoseTree.leaves_node, hlink.1.edges_eq, hr, before]
        simp
      rcases ih hlink.2 ht' with ⟨hafter, hrun⟩ | ⟨p, e, hrun, hp, hlen, hbefore, hafter⟩
      · exact .inl ⟨by rw [after, hr, hafter]; rfl, hrun⟩
      · refine .inr ⟨p, e, hrun, hp, ?_, hbefore.trans hleaves, ?_⟩
        · rw [hlen, List.length_cons]
          omega
        · rw [after, hr, hafter]
          rfl
    | cons c cs =>
      have hmore : ¬l.index + 1 = l.end := by
        rw [hend, hr, List.length_cons]
        omega
      obtain ⟨hpt, hlefts, hrights⟩ := hlink.1.succ hr
      have hc : c.Valid (h + 1) := Linked.valid (p := _ :: up) ⟨hpt, hlink.2⟩ ht
      obtain ⟨p, e, hrun, hp, hlen, hside⟩ := descend_spec false hc
      refine .inr ⟨p ++ _ :: up, e, ?_, hp.append ⟨hpt, hlink.2⟩, ?_, ?_, ?_⟩
      · simp only [nextUp, if_neg hmore, hpt.edge, ok_bind, Nat.add_sub_cancel, hrun]
        rfl
      · simp only [List.length_append, List.length_cons, hlen]
      · simp only [Bool.false_eq_true, if_false] at hside
        rw [before_append, hside, List.append_nil, before, before, hlefts]
        simp
      · have := hp.leaves_eq
        simp only [Bool.false_eq_true, if_false] at hside
        rw [hside, RoseTree.leaves_leaf, List.nil_append, List.singleton_append] at this
        rw [after_append, after, after, hr, hrights, List.flatMap_cons, this]
        simp

theorem previousUp_spec (hlink : Linked t up s) (ht : t.Valid (h + 1 + up.length)) :
    (before up = [] ∧ previousUp (h + 1) up = .ok none) ∨
      ∃ p e, previousUp (h + 1) up = .ok (some (p, e)) ∧ Linked t p (.leaf e) ∧
        p.length = h + 1 + up.length ∧ after p = s.leaves ++ after up ∧
        before up = before p ++ [e] := by
  induction up generalizing s h with
  | nil => exact .inl ⟨rfl, rfl⟩
  | cons l up ih =>
    have ht' : t.Valid (h + 1 + 1 + up.length) := by
      rwa [List.length_cons, ← Nat.add_assoc, Nat.add_right_comm] at ht
    have hidx := hlink.1.index_eq
    rcases List.eq_nil_or_concat' l.lefts with hl | ⟨as, a, hl⟩
    · have hfirst : l.index = l.hd.begin := by rw [hidx, hl]; rfl
      simp only [previousUp, if_pos hfirst]
      have hleaves : l.node.leaves ++ after up = s.leaves ++ after (l :: up) := by
        rw [Level.node, RoseTree.leaves_node, hlink.1.edges_eq, hl, after]
        simp
      rcases ih hlink.2 ht' with ⟨hbefore, hrun⟩ | ⟨p, e, hrun, hp, hlen, hafter, hbefore⟩
      · exact .inl ⟨by rw [before, hl, hbefore]; rfl, hrun⟩
      · refine .inr ⟨p, e, hrun, hp, ?_, hafter.trans hleaves, ?_⟩
        · rw [hlen, List.length_cons]
          omega
        · rw [before, hl, hbefore]
          simp
    · have hmore : ¬l.index = l.hd.begin := by
        rw [hidx, hl, List.length_append, List.length_singleton]
        omega
      obtain ⟨hpt, hlefts, hrights⟩ := hlink.1.pred hl
      have hc : a.Valid (h + 1) := Linked.valid (p := _ :: up) ⟨hpt, hlink.2⟩ ht
      obtain ⟨p, e, hrun, hp, hlen, hside⟩ := descend_spec true hc
      refine .inr ⟨p ++ _ :: up, e, ?_, hp.append ⟨hpt, hlink.2⟩, ?_, ?_, ?_⟩
      · simp only [previousUp, if_neg hmore, hpt.edge, ok_bind, Nat.add_sub_cancel, hrun]
        rfl
      · simp only [List.length_append, List.length_cons, hlen]
      · simp only [if_true] at hside
        rw [after_append, hside, List.nil_append, after, after, hrights]
        simp
      · have := hp.leaves_eq
        simp only [if_true] at hside
        rw [hside, RoseTree.leaves_leaf, List.append_nil] at this
        rw [before_append, before, before, hl, hlefts, List.flatMap_append]
        simp [this]

end Moves

namespace Navigator

variable [Target] {t : Rep} {k : ℕ} {nav : Navigator} {e : Edge}

/-- The navigator is on the data edge `e` of the tree `t`. -/
def At (nav : Navigator) (t : Rep) (e : Edge) : Prop :=
  Linked t nav.path (.leaf e) ∧ t.Valid nav.path.length

/-- The data edges before the position of a navigator. -/
def before (nav : Navigator) : List Edge := CordRs.before nav.path

/-- The data edges after the position of a navigator. -/
def after (nav : Navigator) : List Edge := CordRs.after nav.path

theorem At.path_ne_nil (ha : nav.At t e) (ht : t.Valid (k + 1)) : nav.path ≠ [] := by
  intro hnil
  have hlink := ha.1
  rw [hnil] at hlink
  obtain rfl : .leaf e = t := hlink
  simp at ht

theorem At.leaves_eq (ha : nav.At t e) : t.leaves = nav.before ++ e :: nav.after := by
  simpa [before, after] using ha.1.leaves_eq

theorem init_spec (back : Bool) (ht : t.Valid (k + 1)) (hk : k ≤ maxHeight) :
    ∃ nav e, init back t = .ok (nav, e) ∧ nav.At t e ∧
      if back then nav.after = [] else nav.before = [] := by
  obtain ⟨hd, es, rfl⟩ := ht.exists_node
  have hh : k = hd.height := Nat.add_right_cancel (Rep.Valid.node_iff.mp ht).1
  subst hh
  obtain ⟨p, e, hrun, hlink, hlen, hside⟩ := descend_spec back ht
  refine ⟨⟨p⟩, e, ?_, ⟨hlink, hlen ▸ ht⟩, hside⟩
  have hlt : ¬maxDepth ≤ hd.height := by
    simp only [maxHeight, maxDepth] at hk ⊢
    omega
  simp only [init, if_neg hlt, hrun, ok_bind]
  rfl

theorem current_spec (ha : nav.At t e) (ht : t.Valid (k + 1)) : nav.current = .ok e := by
  obtain ⟨l, up, hp⟩ := List.exists_cons_of_ne_nil (ha.path_ne_nil ht)
  have hlink := ha.1
  rw [hp] at hlink
  simp only [current, hp, hlink.1.edge, ok_bind]
  rfl

/-- Moving on leads to the next data edge, and is refused exactly at the last one. -/
theorem next_spec (ha : nav.At t e) (ht : t.Valid (k + 1)) :
    (nav.after = [] ∧ nav.next = .ok (nav, none)) ∨
      ∃ nav' e', nav.next = .ok (nav', some e') ∧ nav'.At t e' ∧
        nav'.before = nav.before ++ [e] ∧ nav.after = e' :: nav'.after := by
  obtain ⟨l, up, hp⟩ := List.exists_cons_of_ne_nil (ha.path_ne_nil ht)
  obtain ⟨hlink, hv⟩ := ha
  simp only [before, after, At, hp]
  rw [hp] at hlink hv
  have hend := hlink.1.end_eq
  have hv1 : t.Valid (0 + 1 + up.length) := by rwa [Nat.add_comm]
  cases hr : l.rights with
  | nil =>
    have hlast : l.index = l.back := by
      rw [Level.back, hend, hr]
      rfl
    simp only [next, hp, if_pos hlast]
    rcases nextUp_spec hlink.2 hv1 with ⟨hafter, hrun⟩ | ⟨p, e', hrun, hlp, hlen, hbefore, hafter⟩
    · refine .inl ⟨by rw [CordRs.after, hr, hafter]; rfl, ?_⟩
      rw [hrun]
      rfl
    · refine .inr ⟨⟨p⟩, e', by rw [hrun]; rfl, ⟨hlp, ?_⟩, ?_, ?_⟩
      · rw [hlen]
        exact hv1
      · rw [hbefore, Level.node, RoseTree.leaves_node, hlink.1.edges_eq, hr, CordRs.before]
        simp
      · rw [CordRs.after, hr, hafter]
        rfl
  | cons c cs =>
    have hmore : ¬l.index = l.back := by
      rw [Level.back, hend, hr, List.length_cons]
      omega
    obtain ⟨hpt, hlefts, hrights⟩ := hlink.1.succ hr
    have hc : c.Valid 0 := Linked.valid (p := _ :: up) ⟨hpt, hlink.2⟩ (by rwa [Nat.zero_add])
    obtain ⟨e', rfl, -⟩ := Rep.Valid.zero_iff.mp hc
    refine .inr ⟨⟨_ :: up⟩, e', ?_, ⟨⟨hpt, hlink.2⟩, hv⟩, ?_, ?_⟩
    · simp only [next, hp, if_neg hmore, hpt.edge, ok_bind]
      rfl
    · rw [CordRs.before, CordRs.before, hlefts]
      simp
    · rw [CordRs.after, CordRs.after, hr, hrights]
      simp

/-- Moving back leads to the previous data edge, and is refused exactly at the first one. -/
theorem previous_spec (ha : nav.At t e) (ht : t.Valid (k + 1)) :
    (nav.before = [] ∧ nav.previous = .ok (nav, none)) ∨
      ∃ nav' e', nav.previous = .ok (nav', some e') ∧ nav'.At t e' ∧
        nav'.after = e :: nav.after ∧ nav.before = nav'.before ++ [e'] := by
  obtain ⟨l, up, hp⟩ := List.exists_cons_of_ne_nil (ha.path_ne_nil ht)
  obtain ⟨hlink, hv⟩ := ha
  simp only [before, after, At, hp]
  rw [hp] at hlink hv
  have hidx := hlink.1.index_eq
  have hv1 : t.Valid (0 + 1 + up.length) := by rwa [Nat.add_comm]
  rcases List.eq_nil_or_concat' l.lefts with hl | ⟨as, a, hl⟩
  · have hfirst : l.index = l.hd.begin := by rw [hidx, hl]; rfl
    simp only [previous, hp, if_pos hfirst]
    rcases previousUp_spec hlink.2 hv1 with
      ⟨hbefore, hrun⟩ | ⟨p, e', hrun, hlp, hlen, hafter, hbefore⟩
    · refine .inl ⟨by rw [CordRs.before, hl, hbefore]; rfl, ?_⟩
      rw [hrun]
      rfl
    · refine .inr ⟨⟨p⟩, e', by rw [hrun]; rfl, ⟨hlp, ?_⟩, ?_, ?_⟩
      · rw [hlen]
        exact hv1
      · rw [hafter, Level.node, RoseTree.leaves_node, hlink.1.edges_eq, hl, CordRs.after]
        simp
      · rw [CordRs.before, hl, hbefore]
        simp
  · have hmore : ¬l.index = l.hd.begin := by
      rw [hidx, hl, List.length_append, List.length_singleton]
      omega
    obtain ⟨hpt, hlefts, hrights⟩ := hlink.1.pred hl
    have hc : a.Valid 0 := Linked.valid (p := _ :: up) ⟨hpt, hlink.2⟩ (by rwa [Nat.zero_add])
    obtain ⟨e', rfl, -⟩ := Rep.Valid.zero_iff.mp hc
    refine .inr ⟨⟨_ :: up⟩, e', ?_, ⟨⟨hpt, hlink.2⟩, hv⟩, ?_, ?_⟩
    · simp only [previous, hp, if_neg hmore, hpt.edge, ok_bind]
      rfl
    · rw [CordRs.after, CordRs.after, hrights]
      simp
    · rw [CordRs.before, CordRs.before, hl, hlefts, List.flatMap_append]
      simp

/-- Seeking leads to the data edge that contains the byte, from wherever the navigator is. -/
theorem seek_spec (offset : ℕ) (hb : nav.btree = some t) (ht : t.Valid nav.path.length) :
    (t.length ≤ offset ∧ nav.seek offset = .ok (nav, none)) ∨
      ∃ nav' e n, nav.seek offset = .ok (nav', some (e, n)) ∧ nav'.At t e ∧
        nav'.path.length = nav.path.length ∧ n < e.length ∧
        edgesLength nav'.before + n = offset := by
  simp only [seek, hb]
  by_cases hle : t.length ≤ offset
  · exact .inl ⟨hle, by rw [if_pos hle]; rfl⟩
  · obtain ⟨k, hk⟩ : ∃ k, nav.path.length = k + 1 := by
      cases hp : nav.path with
      | nil => simp [btree, hp] at hb
      | cons l up => exact ⟨up.length, rfl⟩
    rw [hk] at ht
    obtain ⟨p, e, n, hrun, hlink, hlen, hn, hoff⟩ := seekDown_spec ht (Nat.lt_of_not_le hle)
    refine .inr ⟨⟨p⟩, e, n, ?_, ⟨hlink, hlen ▸ ht⟩, by rw [hlen, hk], hn, hoff⟩
    rw [if_neg hle, hk, Nat.add_sub_cancel, hrun]
    rfl

end Navigator

end CordRs
