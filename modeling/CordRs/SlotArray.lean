import Mathlib.Data.List.Basic

/-!
# Arrays with a window of filled slots

A list that grows at both ends is kept in a window of an array with a fixed number of slots. What is
in the slots outside of the window does not matter: nothing yet, or a value that was dropped. When
the window has reached an end of the array but not the other, it moves over within the array, one
slot after the other, in the order that overwrites no slot before it was read.

An access to a slot that is not there, or to one in the window that was never filled, has no result.

## Main definitions

* `SlotArray`, `SlotArray.Holds`: an array, and the list in its window.
* `SlotArray.read?`, `SlotArray.write?`, `SlotArray.fill?`: access to slots.
* `SlotArray.moveDown?`, `SlotArray.moveUp?`: moves within the array.

## Main results

* `SlotArray.moveDown?_spec`, `SlotArray.moveUp?_spec`: a move reads what was there before it.
* `SlotArray.Holds.read?_eq`: the slots of the window hold the list.
-/

/-- An array with a window of its slots. A slot that was never filled is empty. -/
structure SlotArray (α : Type*) (n : ℕ) where
  begin : ℕ
  «end» : ℕ
  slots : Vector (Option α) n

namespace SlotArray

variable {α : Type*} {n : ℕ}

/-- An array without a filled slot. -/
def empty (first last : ℕ) : SlotArray α n := ⟨first, last, Vector.replicate n none⟩

/-- What is in a slot, in the window or not. -/
def slot (s : SlotArray α n) (i : ℕ) : Option α := s.slots[i]?.join

/-- Read a slot of the window. -/
def read? (s : SlotArray α n) (i : ℕ) : Option α :=
  if s.begin ≤ i ∧ i < s.end then s.slot i else none

/-- Write to a slot, in the window or not. -/
def write? (s : SlotArray α n) (i : ℕ) (x : α) : Option (SlotArray α n) :=
  if i < n then some { s with slots := s.slots.setIfInBounds i (some x) } else none

/-- Copy a slot to another. -/
def copy? (s : SlotArray α n) (dst src : ℕ) : Option (SlotArray α n) :=
  if dst < n ∧ src < n then some { s with slots := s.slots.setIfInBounds dst (s.slot src) }
  else none

/-- Read the slots of the window from `i` on, `k` of them. -/
def readAll? (s : SlotArray α n) : ℕ → ℕ → Option (List α)
  | _, 0 => some []
  | i, k + 1 => do
    let x ← s.read? i
    let xs ← s.readAll? (i + 1) k
    some (x :: xs)

/-- Write a list to the slots from `i` on. -/
def fill? : SlotArray α n → ℕ → List α → Option (SlotArray α n)
  | s, _, [] => some s
  | s, i, x :: xs => do
    let s ← s.write? i x
    s.fill? (i + 1) xs

/-- Copy to each of the first `k` slots, from the first one up, what is `delta` slots above it. -/
def moveDown? (s : SlotArray α n) (delta : ℕ) : ℕ → Option (SlotArray α n)
  | 0 => some s
  | k + 1 => do
    let s ← s.moveDown? delta k
    s.copy? k (k + delta)

/-- Copy to each slot below `i`, from the last one down to `first`, what is `delta` slots below. -/
def moveUp? : SlotArray α n → ℕ → ℕ → ℕ → Option (SlotArray α n)
  | s, _, _, 0 => some s
  | s, delta, first, i + 1 =>
    if first < i + 1 then do
      let s ← s.copy? i (i - delta)
      s.moveUp? delta first i
    else
      some s

section Access

variable {s s' : SlotArray α n} {i j k delta first : ℕ} {x : α} {xs : List α}

/-- An array with the same window and other slots. -/
structure Updates (s s' : SlotArray α n) (slot : ℕ → Option α) : Prop where
  begin_eq : s'.begin = s.begin
  end_eq : s'.end = s.end
  slot_eq : ∀ i, s'.slot i = slot i

private theorem updates_set (hi : i < n) (o : Option α) :
    s.Updates { s with slots := s.slots.setIfInBounds i o }
      fun j ↦ if j = i then o else s.slot j := by
  refine ⟨rfl, rfl, fun j ↦ ?_⟩
  rw [slot, Vector.getElem?_setIfInBounds]
  by_cases hij : i = j
  · rw [if_pos hij, if_pos hi, if_pos hij.symm, Option.join_some]
  · rw [if_neg hij, if_neg (Ne.symm hij), slot]

theorem write?_spec (hi : i < n) (x : α) : ∃ s', s.write? i x = some s' ∧
    s.Updates s' fun j ↦ if j = i then some x else s.slot j :=
  ⟨_, if_pos hi, updates_set hi _⟩

theorem copy?_spec (hi : i < n) (hj : j < n) : ∃ s', s.copy? i j = some s' ∧
    s.Updates s' fun k ↦ if k = i then s.slot j else s.slot k :=
  ⟨_, if_pos ⟨hi, hj⟩, updates_set hi _⟩

theorem fill?_singleton (s : SlotArray α n) (i : ℕ) (x : α) : s.fill? i [x] = s.write? i x :=
  Option.bind_fun_some _

theorem fill?_spec (hi : i + xs.length ≤ n) : ∃ s', s.fill? i xs = some s' ∧
    s.Updates s' fun j ↦ if i ≤ j ∧ j < i + xs.length then xs[j - i]? else s.slot j := by
  induction xs generalizing s i with
  | nil =>
    refine ⟨s, rfl, rfl, rfl, fun j ↦ ?_⟩
    rw [if_neg (by simp only [List.length_nil]; omega)]
  | cons x xs ih =>
    rw [List.length_cons] at hi
    obtain ⟨s₁, hs₁, hu₁⟩ := s.write?_spec (show i < n by omega) x
    obtain ⟨s₂, hs₂, hu₂⟩ := ih (s := s₁) (i := i + 1) (by omega)
    refine ⟨s₂, ?_, hu₂.begin_eq.trans hu₁.begin_eq, hu₂.end_eq.trans hu₁.end_eq, fun j ↦ ?_⟩
    · rw [fill?, hs₁]
      exact hs₂
    · rw [hu₂.slot_eq, hu₁.slot_eq, List.length_cons]
      by_cases hj : j = i
      · subst hj
        rw [if_neg (by omega), if_pos rfl, if_pos (by omega), Nat.sub_self, List.getElem?_cons_zero]
      · by_cases hin : i + 1 ≤ j ∧ j < i + 1 + xs.length
        · obtain ⟨d, rfl⟩ : ∃ d, j = i + 1 + d := ⟨j - (i + 1), by omega⟩
          rw [if_pos hin, if_pos (by omega), Nat.add_sub_cancel_left,
            show i + 1 + d - i = d + 1 by omega, List.getElem?_cons_succ]
        · rw [if_neg hin, if_neg hj, if_neg (by omega)]

/-- The slots are copied upwards, so what is `delta` above has not been overwritten. -/
theorem moveDown?_spec (hk : k + delta ≤ n) : ∃ s', s.moveDown? delta k = some s' ∧
    s.Updates s' fun i ↦ if i < k then s.slot (i + delta) else s.slot i := by
  induction k with
  | zero => exact ⟨s, rfl, rfl, rfl, fun i ↦ (if_neg (Nat.not_lt_zero i)).symm⟩
  | succ k ih =>
    obtain ⟨s₁, hs₁, hu₁⟩ := ih (by omega)
    obtain ⟨s₂, hs₂, hu₂⟩ := s₁.copy?_spec (show k < n by omega) (show k + delta < n by omega)
    refine ⟨s₂, ?_, hu₂.begin_eq.trans hu₁.begin_eq, hu₂.end_eq.trans hu₁.end_eq, fun i ↦ ?_⟩
    · rw [moveDown?, hs₁]
      exact hs₂
    · rw [hu₂.slot_eq]
      by_cases hi : i = k
      · subst hi
        rw [if_pos rfl, hu₁.slot_eq, if_neg (by omega), if_pos (Nat.lt_succ_self i)]
      · rw [if_neg hi, hu₁.slot_eq]
        exact if_congr (by omega) rfl rfl

/-- The slots are copied downwards, so what is `delta` below has not been overwritten. -/
theorem moveUp?_spec (hdelta : delta ≤ first) (hi : i ≤ n) :
    ∃ s', s.moveUp? delta first i = some s' ∧
      s.Updates s' fun j ↦ if first ≤ j ∧ j < i then s.slot (j - delta) else s.slot j := by
  induction i generalizing s with
  | zero => exact ⟨s, rfl, rfl, rfl, fun j ↦ (if_neg (by omega)).symm⟩
  | succ i ih =>
    by_cases hfirst : first < i + 1
    · obtain ⟨s₁, hs₁, hu₁⟩ := s.copy?_spec (show i < n by omega) (show i - delta < n by omega)
      obtain ⟨s₂, hs₂, hu₂⟩ := ih (s := s₁) (by omega)
      refine ⟨s₂, ?_, hu₂.begin_eq.trans hu₁.begin_eq, hu₂.end_eq.trans hu₁.end_eq, fun j ↦ ?_⟩
      · rw [moveUp?, if_pos hfirst, hs₁]
        exact hs₂
      · rw [hu₂.slot_eq, hu₁.slot_eq, hu₁.slot_eq]
        rcases Nat.lt_trichotomy j i with hj | rfl | hj
        · rw [if_neg (show j - delta ≠ i by omega), if_neg (Nat.ne_of_lt hj)]
          exact if_congr (by omega) rfl rfl
        · rw [if_neg (by omega), if_pos rfl, if_pos (by omega)]
        · rw [if_neg (by omega), if_neg (by omega), if_neg (by omega)]
    · refine ⟨s, ?_, rfl, rfl, fun j ↦ (if_neg (by omega)).symm⟩
      rw [moveUp?, if_neg hfirst]

end Access

/-! ### The list in the window -/

section Spells

variable {slot slot' : ℕ → Option α} {i first : ℕ} {xs ys : List α}

/-- The slots from one on hold a list. -/
def Spells (slot : ℕ → Option α) (first : ℕ) (xs : List α) : Prop :=
  ∀ i < xs.length, slot (first + i) = xs[i]?

theorem spells_append :
    Spells slot first (xs ++ ys) ↔ Spells slot first xs ∧ Spells slot (first + xs.length) ys := by
  constructor
  · refine fun h ↦ ⟨fun i hi ↦ ?_, fun i hi ↦ ?_⟩
    · rw [h i (by rw [List.length_append]; omega), List.getElem?_append_left hi]
    · rw [Nat.add_assoc, h (xs.length + i) (by rw [List.length_append]; omega),
        List.getElem?_append_right (Nat.le_add_right _ _), Nat.add_sub_cancel_left]
  · rintro ⟨hxs, hys⟩ i hi
    rw [List.length_append] at hi
    rcases Nat.lt_or_ge i xs.length with hlt | hge
    · rw [hxs i hlt, List.getElem?_append_left hlt]
    · obtain ⟨d, rfl⟩ := Nat.exists_eq_add_of_le hge
      rw [← Nat.add_assoc, hys d (by omega), List.getElem?_append_right hge,
        Nat.add_sub_cancel_left]

/-- Other slots do not matter. -/
theorem Spells.congr (h : Spells slot first xs)
    (heq : ∀ i, first ≤ i → i < first + xs.length → slot' i = slot i) : Spells slot' first xs :=
  fun i hi ↦ (heq _ (by omega) (by omega)).trans (h i hi)

/-- The slots that were written hold what was written. -/
theorem spells_fill :
    Spells (fun j ↦ if i ≤ j ∧ j < i + xs.length then xs[j - i]? else slot j) i xs := by
  intro d hd
  simp only [Nat.le_add_right, Nat.add_lt_add_left hd, and_self, if_true, Nat.add_sub_cancel_left]

/-- The slots beside those that were written are the same. -/
theorem Spells.fill (h : Spells slot first xs)
    (hout : first + xs.length ≤ i ∨ i + ys.length ≤ first) :
    Spells (fun j ↦ if i ≤ j ∧ j < i + ys.length then ys[j - i]? else slot j) first xs :=
  h.congr fun j _ _ ↦ if_neg (by omega)

end Spells

/-- The window starts at a slot and holds a list. -/
structure Holds (s : SlotArray α n) (first : ℕ) (xs : List α) : Prop where
  begin_eq : s.begin = first
  end_eq : s.end = first + xs.length
  end_le : first + xs.length ≤ n
  spells : Spells s.slot first xs

namespace Holds

variable {s s' : SlotArray α n} {i k first : ℕ} {xs ys : List α}

theorem empty (hi : i ≤ n) : (SlotArray.empty i i : SlotArray α n).Holds i [] :=
  ⟨rfl, rfl, hi, fun _ h ↦ absurd h (Nat.not_lt_zero _)⟩

/-- The cursor was there already. -/
theorem of_begin (hs : { s with begin := i }.Holds first xs) (hi : s.begin = i) :
    s.Holds first xs := by
  subst hi
  exact hs

theorem of_end (hs : { s with «end» := i }.Holds first xs) (hi : s.end = i) : s.Holds first xs := by
  subst hi
  exact hs

/-- A slot of the window holds the element of the list. -/
theorem read?_eq (hs : s.Holds first xs) (hi : first ≤ i) : s.read? i = xs[i - first]? := by
  rw [read?, hs.begin_eq, hs.end_eq]
  by_cases hlt : i < first + xs.length
  · rw [if_pos ⟨hi, hlt⟩, ← hs.spells (i - first) (by omega), Nat.add_sub_cancel' hi]
  · rw [if_neg (by omega), List.getElem?_eq_none (by omega)]

theorem readAll?_eq (hs : s.Holds first xs) (hi : first ≤ i) (hk : i + k ≤ first + xs.length) :
    s.readAll? i k = some ((xs.drop (i - first)).take k) := by
  induction k generalizing i with
  | zero => rw [readAll?, List.take_zero]
  | succ k ih =>
    have hlt : i - first < xs.length := by omega
    rw [readAll?, hs.read?_eq hi, List.getElem?_eq_getElem hlt, Option.bind_eq_bind,
      Option.bind_some, ih (by omega) (by omega), List.drop_eq_getElem_cons hlt,
      List.take_succ_cons, show i + 1 - first = i - first + 1 by omega]
    rfl

/-- Writing a list behind the window. -/
theorem append (hs : s.Holds first xs) (ys : List α) (hroom : first + xs.length + ys.length ≤ n)
    (last : ℕ) :
    ∃ s', { s with «end» := last }.fill? s.end ys = some s' ∧ s'.end = last ∧
      { s' with «end» := s.end + ys.length }.Holds first (xs ++ ys) := by
  have hlen : (xs ++ ys).length = xs.length + ys.length := List.length_append
  obtain ⟨s', hs', hu⟩ := fill?_spec (s := { s with «end» := last }) (hs.end_eq ▸ hroom)
  refine ⟨s', hs', hu.end_eq, hu.begin_eq.trans hs.begin_eq, ?_, by omega, ?_⟩
  · change s.end + ys.length = _
    rw [hs.end_eq, hlen, Nat.add_assoc]
  · rw [spells_append, ← hs.end_eq]
    change Spells s'.slot first xs ∧ Spells s'.slot s.end ys
    rw [show s'.slot = _ from funext hu.slot_eq]
    exact ⟨hs.spells.fill (.inl (Nat.le_of_eq hs.end_eq.symm)), spells_fill⟩

/-- Writing a list before the window. -/
theorem prepend (hs : s.Holds first xs) (ys : List α) (hroom : ys.length ≤ first) (i : ℕ) :
    ∃ s', { s with begin := i }.fill? (first - ys.length) ys = some s' ∧ s'.begin = i ∧
      { s' with begin := first - ys.length }.Holds (first - ys.length) (ys ++ xs) := by
  have hlen : (ys ++ xs).length = ys.length + xs.length := List.length_append
  have hle := hs.end_le
  have hend := hs.end_eq
  obtain ⟨s', hs', hu⟩ := fill?_spec (s := { s with begin := i })
    (show first - ys.length + ys.length ≤ n by omega)
  refine ⟨s', hs', hu.begin_eq, rfl, hu.end_eq.trans ?_, by omega, ?_⟩
  · change s.end = _
    omega
  · rw [spells_append, Nat.sub_add_cancel hroom]
    change Spells s'.slot _ ys ∧ Spells s'.slot first xs
    rw [show s'.slot = _ from funext hu.slot_eq]
    exact ⟨spells_fill, hs.spells.fill (.inr (by omega))⟩

/-- Moving the window to the front of the array. -/
theorem moveDown (hs : s.Holds first xs) : ∃ s',
    { s with begin := 0, «end» := xs.length }.moveDown? first xs.length = some s' ∧
      s'.Holds 0 xs := by
  have hle := hs.end_le
  obtain ⟨s', hs', hu⟩ := moveDown?_spec (s := { s with begin := 0, «end» := xs.length })
    (show xs.length + first ≤ n by omega)
  refine ⟨s', hs', hu.begin_eq, hu.end_eq.trans (Nat.zero_add _).symm, by omega, fun i hi ↦ ?_⟩
  rw [hu.slot_eq, Nat.zero_add, if_pos hi, Nat.add_comm, ← hs.spells i hi]
  rfl

/-- Moving the window up in the array. -/
theorem moveUp {delta : ℕ} (hs : s.Holds first xs) (hroom : first + xs.length + delta ≤ n) : ∃ s',
    { s with begin := first + delta, «end» := first + xs.length + delta }.moveUp? delta
        (first + delta) (first + xs.length + delta) = some s' ∧
      s'.Holds (first + delta) xs := by
  obtain ⟨s', hs', hu⟩ := moveUp?_spec
    (s := { s with begin := first + delta, «end» := first + xs.length + delta })
    (Nat.le_add_left delta first) hroom
  refine ⟨s', hs', hu.begin_eq, hu.end_eq.trans ?_, by omega, fun i hi ↦ ?_⟩
  · exact Nat.add_right_comm _ _ _
  · rw [hu.slot_eq, if_pos (by omega), ← hs.spells i hi]
    exact congrArg s.slot (by omega)

/-- Overwriting a slot of the window. -/
theorem write {x : α} (hs : s.Holds first xs) (hi : first ≤ i) (hlt : i < first + xs.length) :
    ∃ s', s.write? i x = some s' ∧ s'.Holds first (xs.set (i - first) x) := by
  have hle := hs.end_le
  obtain ⟨s', hs', hu⟩ := write?_spec (s := s) (show i < n by omega) x
  refine ⟨s', hs', hu.begin_eq.trans hs.begin_eq, hu.end_eq.trans ?_, ?_, fun j hj ↦ ?_⟩
  · rw [hs.end_eq, List.length_set]
  · rwa [List.length_set]
  · rw [List.length_set] at hj
    rw [hu.slot_eq, List.getElem?_set, hs.spells j hj]
    by_cases hij : i - first = j
    · rw [if_pos hij, if_pos (by omega), if_pos (by omega)]
    · rw [if_neg hij, if_neg (by omega)]

/-- The window without its last slots. -/
theorem take (hs : s.Holds first xs) (hi : first ≤ i) (hlt : i ≤ first + xs.length) :
    { s with «end» := i }.Holds first (xs.take (i - first)) := by
  have hle := hs.end_le
  have hlen : (xs.take (i - first)).length = i - first := List.length_take_of_le (by omega)
  have hspells := hs.spells
  rw [← xs.take_append_drop (i - first), spells_append] at hspells
  exact ⟨hs.begin_eq, by rw [hlen, Nat.add_sub_cancel' hi], by omega, hspells.1⟩

/-- The window without its first slots. -/
theorem drop (hs : s.Holds first xs) (hi : first ≤ i) (hlt : i ≤ first + xs.length) :
    { s with begin := i }.Holds i (xs.drop (i - first)) := by
  have hle := hs.end_le
  have hend := hs.end_eq
  have hlen : (xs.drop (i - first)).length = xs.length - (i - first) := List.length_drop
  have hspells := hs.spells
  rw [← xs.take_append_drop (i - first), spells_append, List.length_take_of_le (by omega),
    Nat.add_sub_cancel' hi] at hspells
  refine ⟨rfl, ?_, by omega, hspells.2⟩
  change s.end = _
  omega

end Holds

end SlotArray
