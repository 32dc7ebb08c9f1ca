import CordRs.Rep.Navigator

/-!
# Reading the chunks of a btree

A reader is a navigator with the number of bytes after the data edge it is on. `On r t e` says
that the reader is on the data edge `e` of `t` with the right count; `Of r t` only that it was
initialised with `t`, which is all that is known once the end was reached.

## Main definitions

* `CordRs.BtreeReader` with `init`, `initLastFrom`, `next`, `previous`, `seek`.
* `CordRs.BtreeReader.On`, `CordRs.BtreeReader.Of`.

## Main results

* `CordRs.BtreeReader.init_spec`, `CordRs.BtreeReader.next_spec`,
  `CordRs.BtreeReader.previous_spec`, `CordRs.BtreeReader.seek_spec`.
-/

namespace CordRs

open RefHeap

/-- A navigator with the number of bytes after its data edge. -/
structure BtreeReader where
  remaining : ℕ
  navigator : Navigator

namespace BtreeReader

/-- A reader without a tree. -/
def new : BtreeReader := ⟨0, .new⟩

/-- Whether the reader has a tree. -/
def isSome (r : BtreeReader) : Bool := r.navigator.isSome

/-- The length of the tree. -/
def length (r : BtreeReader) : Except Fault ℕ :=
  match r.navigator.btree with
  | some tree => .ok tree.length
  | none => .error .unreachable

/-- Start at the first data edge and return its bytes. -/
def init (tree : Rep) : Except Fault (BtreeReader × Bytes) := do
  let (nav, e) ← Navigator.init false tree
  pure (⟨tree.length - e.length, nav⟩, e.data)

/-- Start at the last data edge of the tree of another reader and return its bytes. -/
def initLastFrom (other : BtreeReader) : Except Fault (BtreeReader × Bytes) := do
  match other.navigator.btree with
  | none => .error .unreachable
  | some tree =>
    let (nav, e) ← Navigator.init true tree
    pure (⟨0, nav⟩, e.data)

/-- Move to the next data edge and return its bytes, nothing at the end. -/
def next (r : BtreeReader) : Except Fault (BtreeReader × Bytes) := do
  if r.remaining = 0 then
    pure (r, [])
  else
    match ← r.navigator.next with
    | (nav, some e) => pure (⟨r.remaining - e.length, nav⟩, e.data)
    | (_, none) => .error .unreachable

/-- Move to the previous data edge, which must exist, and return its bytes. -/
def previous (r : BtreeReader) : Except Fault (BtreeReader × Bytes) := do
  match ← r.navigator.previous with
  | (nav, some e) => pure (⟨r.remaining, nav⟩, e.data)
  | (_, none) => .error .unreachable

/-- Move to the byte at an offset and return the rest of its data edge, nothing beyond the end. -/
def seek (r : BtreeReader) (offset : ℕ) : Except Fault (BtreeReader × Bytes) := do
  match ← r.navigator.seek offset with
  | (nav, none) => pure (⟨0, nav⟩, [])
  | (nav, some (e, n)) =>
    let chunk := e.data.drop n
    let length ← r.length
    pure (⟨length - offset - chunk.length, nav⟩, chunk)

variable [Target] {t : Rep} {k : ℕ} {r : BtreeReader} {e : Edge}

/-- The reader is on the data edge `e` of `t` and knows how many bytes follow. -/
def On (r : BtreeReader) (t : Rep) (e : Edge) : Prop :=
  r.navigator.At t e ∧ r.remaining = edgesLength r.navigator.after

/-- The reader was initialised with `t`. -/
def Of (r : BtreeReader) (t : Rep) : Prop :=
  r.navigator.btree = some t ∧ t.Valid r.navigator.path.length

theorem On.of (hr : r.On t e) (ht : t.Valid (k + 1)) : r.Of t :=
  ⟨hr.1.1.btree_eq (hr.1.path_ne_nil ht), hr.1.2⟩

theorem Of.isSome (hr : r.Of t) : r.isSome = true := by
  cases hp : r.navigator.path with
  | nil => simp [Navigator.btree, hp, Of] at hr
  | cons l up => simp [BtreeReader.isSome, Navigator.isSome, hp]

omit [Target] in
@[simp] theorem isSome_new : new.isSome = false := rfl

theorem On.edge_valid (hr : r.On t e) : e.Valid :=
  hr.1.2.leaves_valid e (by rw [hr.1.leaves_eq]; simp)

theorem On.length_eq (hr : r.On t e) (ht : t.Valid (k + 1)) :
    t.length = edgesLength r.navigator.before + e.length + r.remaining := by
  rw [← ht.length_leaves, hr.1.leaves_eq, hr.2]
  simp only [edgesLength_append, edgesLength_cons]
  omega

theorem init_spec (ht : t.Valid (k + 1)) (hk : k ≤ maxHeight) :
    ∃ r e, init t = .ok (r, e.data) ∧ r.On t e ∧ r.navigator.before = [] := by
  obtain ⟨nav, e, hrun, hat, hbefore⟩ := Navigator.init_spec false ht hk
  refine ⟨⟨t.length - e.length, nav⟩, e, ?_, ⟨hat, ?_⟩, by simpa using hbefore⟩
  · rw [init, hrun]
    rfl
  · have hlen := ht.length_leaves
    rw [hat.leaves_eq, show nav.before = [] by simpa using hbefore] at hlen
    simp only [List.nil_append, edgesLength_cons] at hlen
    change t.length - e.length = edgesLength nav.after
    omega

theorem initLastFrom_spec (hr : r.Of t) (ht : t.Valid (k + 1)) (hk : k ≤ maxHeight) :
    ∃ r' e, initLastFrom r = .ok (r', e.data) ∧ r'.navigator.At t e ∧ r'.navigator.after = [] := by
  obtain ⟨nav, e, hrun, hat, hafter⟩ := Navigator.init_spec true ht hk
  refine ⟨⟨0, nav⟩, e, ?_, hat, by simpa using hafter⟩
  simp only [initLastFrom, hr.1, hrun, ok_bind]
  rfl

/-- Moving on leads to the next data edge, and to nothing after the last one. -/
theorem next_spec (hr : r.On t e) (ht : t.Valid (k + 1)) :
    (r.navigator.after = [] ∧ r.next = .ok (r, [])) ∨
      ∃ r' e', r.next = .ok (r', e'.data) ∧ r'.On t e' ∧
        r'.navigator.before = r.navigator.before ++ [e] ∧
        r.navigator.after = e' :: r'.navigator.after := by
  rcases Navigator.next_spec hr.1 ht with ⟨hafter, -⟩ | ⟨nav, e', hrun, hat, hbefore, hafter⟩
  · refine .inl ⟨hafter, ?_⟩
    have : r.remaining = 0 := by rw [hr.2, hafter]; rfl
    rw [next, if_pos this]
    rfl
  · have hv : e'.Valid := hr.1.2.leaves_valid e' (by rw [hr.1.leaves_eq, hafter]; simp)
    have hrem : r.remaining = e'.length + edgesLength nav.after := by
      rw [hr.2, hafter, edgesLength_cons]
    have hpos : ¬r.remaining = 0 := by
      have := hv.length_pos
      omega
    refine .inr ⟨⟨r.remaining - e'.length, nav⟩, e', ?_, ⟨hat, ?_⟩, hbefore, hafter⟩
    · rw [next, if_neg hpos, hrun]
      rfl
    · change r.remaining - e'.length = edgesLength nav.after
      omega

theorem previous_spec (hr : r.navigator.At t e) (ht : t.Valid (k + 1))
    (hne : r.navigator.before ≠ []) :
    ∃ r' e', r.previous = .ok (r', e'.data) ∧ r'.navigator.At t e' ∧
      r'.navigator.after = e :: r.navigator.after ∧
      r.navigator.before = r'.navigator.before ++ [e'] := by
  rcases Navigator.previous_spec hr ht with ⟨hnil, -⟩ | ⟨nav, e', hrun, hat, hafter, hbefore⟩
  · exact absurd hnil hne
  · refine ⟨⟨r.remaining, nav⟩, e', ?_, hat, hafter, hbefore⟩
    rw [previous, hrun]
    rfl

theorem seek_spec {offset : ℕ} (hr : r.Of t) (ht : t.Valid (k + 1)) (hlt : offset < t.length) :
    ∃ r' e n, r.seek offset = .ok (r', e.data.drop n) ∧ r'.On t e ∧ n < e.length ∧
      edgesLength r'.navigator.before + n = offset := by
  rcases Navigator.seek_spec offset hr.1 hr.2 with
    ⟨hle, -⟩ | ⟨nav, e, n, hrun, hat, -, hn, hoff⟩
  · omega
  · have hev : e.Valid := hat.2.leaves_valid e (by rw [hat.leaves_eq]; simp)
    refine ⟨⟨t.length - offset - (e.data.drop n).length, nav⟩, e, n, ?_, ⟨hat, ?_⟩, hn, hoff⟩
    · simp only [seek, hrun, ok_bind, length, hr.1]
      rfl
    · have hlen := ht.length_leaves
      rw [hat.leaves_eq] at hlen
      simp only [edgesLength_append, edgesLength_cons] at hlen
      change t.length - offset - (e.data.drop n).length = edgesLength nav.after
      rw [List.length_drop, hev.length_data]
      omega

end BtreeReader

end CordRs
