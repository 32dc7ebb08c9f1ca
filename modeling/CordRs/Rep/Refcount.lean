import Mathlib.Algebra.Order.Ring.Int
import Mathlib.Data.List.Perm.Basic

/-!
# The atomic reference count

The count of a node is one 32-bit integer that any number of threads change in atomic steps. It
holds twice the number of references, since its lowest bit is the flag of a node that is never
destroyed. Every reference has a holder. An increment is a `fetch_add` followed by a check of the
value before it; it borrows the reference of a holder, and hands the new reference to a new
holder. A decrement is a load, which ends it when it reads the last reference, followed by a
`fetch_sub`; a decrement that expects other references is a `fetch_sub` alone.

A release that reads the last reference leaves the integer alone, so the integer is tied to the
number of references only while there is one.

## Main definitions

* `CordRs.Refcount.System`, `CordRs.Refcount.System.step`, `CordRs.Refcount.Run`.

## Main results

* `CordRs.Refcount.Inv.step`: what every atomic step preserves.
* `CordRs.Refcount.released_once`: a node is given up for destruction once, after all other
  references.
* `CordRs.Refcount.wrapped_release`: more increments at once than the bound break this.
-/

namespace CordRs.Refcount

/-- The value of a single reference; the flag of an immortal node is below it. -/
def refIncrement : BitVec 32 := 1#32 <<< 1

/-- An increment aborts when the value before it has reached this. -/
def overflowLimit : ℤ := (2 ^ 31 - 1) / 3 * 2

/-- What the holder of a reference has done with it. -/
inductive Holder where
  /-- The reference is held. -/
  | held
  /-- A decrement has read a count other than one and not yet written. -/
  | decrementing
  /-- The reference was given up, and the release said whether others remain. -/
  | released (remaining : Bool)
  deriving Repr, DecidableEq

/-- Whether the reference still counts. -/
def Holder.isLive : Holder → Bool
  | released _ => false
  | _ => true

/-- An increment between its `fetch_add` and its check, with the holder whose reference it borrows
and the value before it. -/
structure Increment where
  holder : ℕ
  prev : BitVec 32
  deriving Repr, DecidableEq

/-- The integer, the holders there have been and the increments in flight. -/
structure System where
  count : BitVec 32
  holders : List Holder
  increments : List Increment
  aborted : Bool
  deriving Repr, DecidableEq

/-- The atomic steps. -/
inductive Action where
  /-- The `fetch_add` of `increment` through the reference of a holder. -/
  | fetchAdd (i : ℕ)
  /-- The check of an increment in flight. -/
  | check (k : ℕ)
  /-- The load of `decrement`. -/
  | load (i : ℕ)
  /-- The `fetch_sub` of `decrement`. -/
  | fetchSub (i : ℕ)
  /-- The `fetch_sub` of `decrement_expect_high_refcount`. -/
  | fetchSubHigh (i : ℕ)
  deriving Repr, DecidableEq

namespace System

/-- A new count, with one holder. -/
def init : System := ⟨refIncrement, [.held], [], false⟩

/-- What `is_one` answers. -/
def isOne (s : System) : Bool := s.count = refIncrement

/-- No increment borrows the reference of a holder. -/
def unborrowed (s : System) (i : ℕ) : Bool := s.increments.all fun inc ↦ inc.holder ≠ i

/-- Record what a holder has done. -/
def setHolder (s : System) (i : ℕ) (h : Holder) : System :=
  { s with holders := s.holders.set i h }

/-- Give up a reference with a `fetch_sub`. -/
def sub (s : System) (i : ℕ) : System :=
  { s with
    count := s.count - refIncrement
    holders := s.holders.set i (.released (s.count ≠ refIncrement)) }

/-- One atomic step, if the holder or the increment can take it. -/
def step (s : System) (a : Action) : Option System :=
  if s.aborted then
    none
  else
    match a with
    | .fetchAdd i =>
      if s.holders[i]? = some .held then
        some { s with
          count := s.count + refIncrement
          increments := s.increments ++ [⟨i, s.count⟩] }
      else
        none
    | .check k =>
      match s.increments[k]? with
      | some inc =>
        if overflowLimit ≤ inc.prev.toInt then
          some { s with aborted := true }
        else
          some { s with
            holders := s.holders ++ [.held]
            increments := s.increments.eraseIdx k }
      | none => none
    | .load i =>
      if s.holders[i]? = some .held ∧ s.unborrowed i then
        if s.count = refIncrement then
          some (s.setHolder i (.released false))
        else
          some (s.setHolder i .decrementing)
      else
        none
    | .fetchSub i =>
      if s.holders[i]? = some .decrementing then some (s.sub i) else none
    | .fetchSubHigh i =>
      if s.holders[i]? = some .held ∧ s.unborrowed i then some (s.sub i) else none

end System

/-- A run from a new count all of whose states satisfy `P`. -/
inductive Run (P : System → Prop) : List Action → System → Prop
  | init : Run P [] .init
  | step {as : List Action} {s s' : System} (a : Action) (h : Run P as s)
      (hstep : s.step a = some s') (hP : P s') : Run P (as ++ [a]) s'

/-- Fewer than `2 ^ 28` increments are in flight. -/
def Bounded (s : System) : Prop := s.increments.length < 2 ^ 28

instance : DecidablePred Bounded := fun _ ↦ inferInstanceAs (Decidable (_ < _))

/-! ### The invariant -/

namespace System

/-- The references that count: those not given up and those of increments in flight. -/
def live (s : System) : ℕ := s.holders.countP Holder.isLive + s.increments.length

/-- The increments in flight that will abort. -/
def rising (s : System) : ℕ := s.increments.countP fun inc ↦ overflowLimit ≤ inc.prev.toInt

end System

/-- While there is a reference the integer is twice the number of references, and there is none
exactly if one release said so. The integer is above the limit only by increments that will
abort. -/
structure Inv (s : System) : Prop where
  count : 0 < s.live → s.count.toInt = 2 * s.live
  last : s.holders.count (.released false) = if s.live = 0 then 1 else 0
  below : s.count.toInt ≤ overflowLimit + 2 * s.rising

section Steps

variable {s s' : System} {i k : ℕ}

private theorem toInt_refIncrement : refIncrement.toInt = 2 := by decide

theorem eq_refIncrement_iff {c : BitVec 32} : c = refIncrement ↔ c.toInt = 2 := by
  rw [← toInt_refIncrement, BitVec.toInt_inj]

private theorem toInt_add_refIncrement {c : BitVec 32} (hc : c.toInt + 2 < 2 ^ 31) :
    (c + refIncrement).toInt = c.toInt + 2 := by
  have hlo := BitVec.le_toInt c
  rw [BitVec.toInt_add, toInt_refIncrement]
  exact Int.bmod_eq_of_le (by omega) (by omega)

private theorem toInt_sub_refIncrement {c : BitVec 32} (hc : 2 ≤ c.toInt) :
    (c - refIncrement).toInt = c.toInt - 2 := by
  have hhi := BitVec.toInt_lt (x := c)
  rw [BitVec.toInt_sub, toInt_refIncrement]
  exact Int.bmod_eq_of_le (by omega) (by omega)

namespace System

/-! What a step can do. -/

theorem step_fetchAdd (h : s.step (.fetchAdd i) = some s') :
    s.holders[i]? = some .held ∧ s' = { s with
      count := s.count + refIncrement
      increments := s.increments ++ [⟨i, s.count⟩] } := by
  simp only [step] at h
  split_ifs at h with _ hi
  exact ⟨hi, (Option.some.inj h).symm⟩

theorem step_check (h : s.step (.check k) = some s') :
    ∃ inc, s.increments[k]? = some inc ∧
      (overflowLimit ≤ inc.prev.toInt ∧ s' = { s with aborted := true } ∨
        ¬overflowLimit ≤ inc.prev.toInt ∧ s' = { s with
          holders := s.holders ++ [.held]
          increments := s.increments.eraseIdx k }) := by
  cases hk : s.increments[k]? with
  | none => simp [step, hk] at h
  | some inc =>
    simp only [step, hk] at h
    split_ifs at h with _ hle
    · exact ⟨inc, rfl, .inl ⟨hle, (Option.some.inj h).symm⟩⟩
    · exact ⟨inc, rfl, .inr ⟨hle, (Option.some.inj h).symm⟩⟩

theorem step_load (h : s.step (.load i) = some s') :
    s.holders[i]? = some .held ∧ s.unborrowed i ∧
      s' = s.setHolder i (if s.count = refIncrement then .released false else .decrementing) := by
  simp only [step] at h
  split_ifs at h with _ hi hone
  · exact ⟨hi.1, hi.2, by rw [if_pos hone, Option.some.inj h]⟩
  · exact ⟨hi.1, hi.2, by rw [if_neg hone, Option.some.inj h]⟩

theorem step_fetchSub (h : s.step (.fetchSub i) = some s') :
    s.holders[i]? = some .decrementing ∧ s' = s.sub i := by
  simp only [step] at h
  split_ifs at h with _ hi
  exact ⟨hi, (Option.some.inj h).symm⟩

theorem step_fetchSubHigh (h : s.step (.fetchSubHigh i) = some s') :
    s.holders[i]? = some .held ∧ s.unborrowed i ∧ s' = s.sub i := by
  simp only [step] at h
  split_ifs at h with _ hi
  exact ⟨hi.1, hi.2, (Option.some.inj h).symm⟩

/-- The live references after a holder has done something with its own. -/
theorem live_set {h : Holder} (h' : Holder) (hi : s.holders[i]? = some h) (c : BitVec 32) :
    (⟨c, s.holders.set i h', s.increments, s.aborted⟩ : System).live + h.isLive.toNat =
      s.live + h'.isLive.toNat := by
  obtain ⟨hlt, hget⟩ := List.getElem?_eq_some_iff.mp hi
  have hle := List.boole_getElem_le_countP (p := Holder.isLive) hlt
  have hset := List.countP_set (p := Holder.isLive) (a := h') hlt
  simp only [live, hset, hget] at hle ⊢
  cases hl : h.isLive <;> cases hl' : h'.isLive <;> simp only [hl, Bool.toNat_true,
    Bool.toNat_false, if_true, Bool.false_eq_true, if_false] at hle ⊢ <;> omega

/-- The last releases after a holder has done something with its reference. -/
private theorem last_set {h : Holder} (h' : Holder) (hi : s.holders[i]? = some h)
    (hh : h ≠ .released false) : (s.holders.set i h').count (.released false) =
      s.holders.count (.released false) + if h' = .released false then 1 else 0 := by
  obtain ⟨hlt, hget⟩ := List.getElem?_eq_some_iff.mp hi
  rw [List.count_set hlt, hget]
  simp [hh]

theorem live_pos {h : Holder} (hi : s.holders[i]? = some h) (hh : h.isLive = true) :
    0 < s.live := by
  have : 0 < s.holders.countP Holder.isLive :=
    List.countP_pos_iff.mpr ⟨h, List.mem_of_getElem? hi, hh⟩
  rw [live]
  omega

end System

/-- The `fetch_add` of an increment does not wrap while the increments in flight are bounded. -/
private theorem Inv.add_lt (hs : Inv s) (hb : Bounded s) : s.count.toInt + 2 < 2 ^ 31 := by
  have hrise : s.rising ≤ s.increments.length := List.countP_le_length
  have hbelow := hs.below
  rw [Bounded] at hb
  simp only [overflowLimit] at hbelow
  omega

namespace Inv

theorem init : Inv .init where
  count _ := rfl
  last := rfl
  below := by decide

private theorem fetchAdd (hs : Inv s) (hb : Bounded s) (hi : s.holders[i]? = some .held) :
    Inv { s with
      count := s.count + refIncrement
      increments := s.increments ++ [⟨i, s.count⟩] } := by
  have hpos := s.live_pos hi rfl
  have hadd := toInt_add_refIncrement (hs.add_lt hb)
  have hcount := hs.count hpos
  have hlast := hs.last
  have hbelow := hs.below
  rw [if_neg hpos.ne'] at hlast
  have hlive : System.live { s with
      count := s.count + refIncrement
      increments := s.increments ++ [⟨i, s.count⟩] } = s.live + 1 := by
    simp only [System.live, List.length_append, List.length_singleton]
    omega
  refine ⟨fun _ ↦ ?_, ?_, ?_⟩
  · rw [hlive]
    push_cast
    omega
  · rw [hlive, if_neg (Nat.succ_ne_zero _)]
    exact hlast
  · -- below the limit the new value is at most the limit, which is even
    rw [System.rising] at hbelow
    simp only [System.rising, List.countP_append, List.countP_singleton, hadd]
    by_cases hle : overflowLimit ≤ s.count.toInt
    · simp only [hle, decide_true, if_true]
      omega
    · simp only [hle, decide_false, Bool.false_eq_true, if_false]
      simp only [overflowLimit] at hle hbelow ⊢
      omega

private theorem check {inc : Increment} (hs : Inv s) (hk : s.increments[k]? = some inc)
    (hlt : ¬overflowLimit ≤ inc.prev.toInt) :
    Inv { s with
      holders := s.holders ++ [.held]
      increments := s.increments.eraseIdx k } := by
  obtain ⟨hk, hget⟩ := List.getElem?_eq_some_iff.mp hk
  have hperm := List.getElem_cons_eraseIdx_perm hk
  have hlen := hperm.length_eq
  have hrise := hperm.countP_eq fun inc ↦ decide (overflowLimit ≤ inc.prev.toInt)
  rw [hget, List.length_cons] at hlen
  rw [hget, List.countP_cons_of_neg (by simpa using hlt)] at hrise
  have hlive : System.live { s with
      holders := s.holders ++ [.held]
      increments := s.increments.eraseIdx k } = s.live := by
    simp only [System.live, List.countP_append, List.countP_singleton, Holder.isLive, if_true]
    omega
  refine ⟨fun hpos ↦ ?_, ?_, ?_⟩
  · rw [hlive] at hpos ⊢
    exact hs.count hpos
  · rw [hlive, ← hs.last, List.count_append]
    rfl
  · have hbelow := hs.below
    rw [System.rising, ← hrise] at hbelow
    exact hbelow

private theorem load (hs : Inv s) (hi : s.holders[i]? = some .held) :
    Inv (s.setHolder i (if s.count = refIncrement then .released false else .decrementing)) := by
  have hcount := hs.count (s.live_pos hi rfl)
  have hlast := hs.last
  rw [if_neg (s.live_pos hi rfl).ne'] at hlast
  split_ifs with hone
  · -- the load has read the only reference
    rw [eq_refIncrement_iff] at hone
    have hlive := s.live_set (.released false) hi s.count
    have hset := s.last_set (.released false) hi (by decide)
    simp only [Holder.isLive, Bool.toNat_true, Bool.toNat_false] at hlive
    refine ⟨fun hpos ↦ ?_, ?_, hs.below⟩
    · change 0 < System.live ⟨s.count, _, s.increments, s.aborted⟩ at hpos
      omega
    · change List.count _ (s.holders.set i _) =
        if System.live ⟨s.count, _, s.increments, s.aborted⟩ = 0 then 1 else 0
      rw [hset, hlast, if_pos rfl, if_pos (by omega)]
  · have hlive := s.live_set .decrementing hi s.count
    have hset := s.last_set .decrementing hi (by decide)
    simp only [Holder.isLive, Bool.toNat_true, add_left_inj] at hlive
    refine ⟨fun _ ↦ ?_, ?_, hs.below⟩
    · change s.count.toInt = 2 * (System.live ⟨s.count, _, s.increments, s.aborted⟩ : ℤ)
      rw [hlive, hcount]
    · change List.count _ (s.holders.set i _) =
        if System.live ⟨s.count, _, s.increments, s.aborted⟩ = 0 then 1 else 0
      rw [hset, hlast, hlive, if_neg (by decide), if_neg (s.live_pos hi rfl).ne']

private theorem sub {h : Holder} (hs : Inv s) (hi : s.holders[i]? = some h)
    (hlive : h.isLive = true) : Inv (s.sub i) := by
  have hpos := s.live_pos hi hlive
  have hcount := hs.count hpos
  have hlast := hs.last
  rw [if_neg hpos.ne'] at hlast
  have hsub := toInt_sub_refIncrement (c := s.count) (by omega)
  have hset := s.last_set (.released (s.count ≠ refIncrement)) hi (by rintro rfl; cases hlive)
  have hless := s.live_set (.released (s.count ≠ refIncrement)) hi (s.count - refIncrement)
  rw [hlive] at hless
  change System.live (s.sub i) + 1 = s.live + 0 at hless
  refine ⟨fun _ ↦ ?_, ?_, ?_⟩
  · rw [show (s.sub i).count = s.count - refIncrement from rfl, hsub]
    omega
  · change (s.holders.set i (.released (s.count ≠ refIncrement))).count _ = _
    rw [hset, hlast, Nat.zero_add]
    refine if_congr ?_ rfl rfl
    rw [Holder.released.injEq, decide_eq_false_iff_not, not_not, eq_refIncrement_iff]
    omega
  · have hbelow := hs.below
    rw [show (s.sub i).count = s.count - refIncrement from rfl, hsub]
    rw [show (s.sub i).rising = s.rising from rfl]
    omega

/-- Every atomic step preserves the invariant while the increments in flight are bounded. -/
theorem step {a : Action} (hs : Inv s) (hb : Bounded s) (hstep : s.step a = some s') : Inv s' := by
  cases a with
  | fetchAdd i =>
    obtain ⟨hi, rfl⟩ := System.step_fetchAdd hstep
    exact hs.fetchAdd hb hi
  | check k =>
    obtain ⟨inc, hk, ⟨-, rfl⟩ | ⟨hlt, rfl⟩⟩ := System.step_check hstep
    · exact ⟨hs.count, hs.last, hs.below⟩
    · exact hs.check hk hlt
  | load i =>
    obtain ⟨hi, -, rfl⟩ := System.step_load hstep
    exact hs.load hi
  | fetchSub i =>
    obtain ⟨hi, rfl⟩ := System.step_fetchSub hstep
    exact hs.sub hi rfl
  | fetchSubHigh i =>
    obtain ⟨hi, -, rfl⟩ := System.step_fetchSubHigh hstep
    exact hs.sub hi rfl

/-- Every state of a run with bounded increments satisfies the invariant. -/
theorem run {as : List Action} (hrun : Run Bounded as s) : Inv s := by
  have hboth : Inv s ∧ Bounded s := by
    induction hrun with
    | init => exact ⟨.init, Nat.two_pow_pos _⟩
    | step a _ hstep hP ih => exact ⟨ih.1.step ih.2 hstep, hP⟩
  exact hboth.1

end Inv

end Steps

/-! ### What a run can observe -/

/-- By how much an atomic step changes the integer. -/
def Action.delta : Action → ℤ
  | fetchAdd _ => 2
  | check _ | load _ => 0
  | fetchSub _ | fetchSubHigh _ => -2

/-- A node is given up for destruction by at most one release, after all other references; the
check for a single reference is right; and no step wraps. -/
structure Safe (s : System) : Prop where
  once : ∀ i j : ℕ, s.holders[i]? = some (Holder.released false) →
    s.holders[j]? = some (Holder.released false) → i = j
  all : (∀ h ∈ s.holders, h.isLive = false) → s.increments = [] →
    ∃! i : ℕ, s.holders[i]? = some (Holder.released false)
  after : ∀ i : ℕ, s.holders[i]? = some (Holder.released false) → s.increments = [] ∧
    ∀ (j : ℕ) h, j ≠ i → s.holders[j]? = some h → h = Holder.released true
  isOne : ∀ i : ℕ, s.holders[i]? = some Holder.held → s.isOne → s.increments = [] ∧
    ∀ (j : ℕ) h, j ≠ i → s.holders[j]? = some h → ∃ b, h = Holder.released b
  noWrap : ∀ a s', s.step a = some s' → s'.count.toInt = s.count.toInt + a.delta

private theorem index_eq_of_countP_le_one {α : Type} {p : α → Bool} {xs : List α} {i j : ℕ}
    {x y : α} (hp : xs.countP p ≤ 1) (hi : xs[i]? = some x) (hx : p x = true)
    (hj : xs[j]? = some y) (hy : p y = true) : i = j := by
  induction xs generalizing i j with
  | nil => simp at hi
  | cons z zs ih =>
    have hmem : ∀ {k : ℕ} {w : α}, zs[k]? = some w → p w = true → 0 < zs.countP p :=
      fun hk hw ↦ List.countP_pos_iff.mpr ⟨_, List.mem_of_getElem? hk, hw⟩
    cases i with
    | zero =>
      obtain rfl : z = x := by simpa using hi
      cases j with
      | zero => rfl
      | succ j =>
        have := hmem hj hy
        rw [List.countP_cons_of_pos hx] at hp
        omega
    | succ i =>
      cases j with
      | zero =>
        obtain rfl : z = y := by simpa using hj
        have := hmem hi hx
        rw [List.countP_cons_of_pos hy] at hp
        omega
      | succ j =>
        have hzs : zs.countP p ≤ 1 := by
          rw [List.countP_cons] at hp
          omega
        rw [ih hzs hi hj]

section Safe

variable {s s' : System} {i j : ℕ} {a : Action} {as : List Action} {h : Holder}

private theorem eq_released (hh : h.isLive = false) : ∃ b, h = .released b := by
  cases h with
  | released b => exact ⟨b, rfl⟩
  | _ => cases hh

namespace Inv

private theorem once (hs : Inv s) (hi : s.holders[i]? = some (.released false))
    (hj : s.holders[j]? = some (.released false)) : i = j := by
  have hcount : s.holders.count (.released false) ≤ 1 := by
    rw [hs.last]
    split_ifs <;> omega
  exact index_eq_of_countP_le_one hcount hi (by decide) hj (by decide)

private theorem live_eq_zero (hs : Inv s) (hi : s.holders[i]? = some (.released false)) :
    s.live = 0 := by
  have hpos : 0 < s.holders.count (.released false) :=
    List.count_pos_iff.mpr (List.mem_of_getElem? hi)
  rw [hs.last] at hpos
  by_contra hne
  rw [if_neg hne] at hpos
  exact hpos.false

private theorem not_live_of_live_eq_zero (hlive : s.live = 0) :
    s.increments = [] ∧ ∀ h ∈ s.holders, h.isLive = false := by
  rw [System.live, Nat.add_eq_zero_iff, List.countP_eq_zero, List.length_eq_zero_iff] at hlive
  exact ⟨hlive.2, fun h hh ↦ by simpa using hlive.1 h hh⟩

private theorem isOne (hs : Inv s) (hi : s.holders[i]? = some .held) (hone : s.isOne = true) :
    s.increments = [] ∧
      ∀ j h, j ≠ i → s.holders[j]? = some h → ∃ b, h = .released b := by
  have hcount := hs.count (s.live_pos hi rfl)
  rw [eq_refIncrement_iff.mp (of_decide_eq_true hone)] at hcount
  have hpos : 0 < s.holders.countP Holder.isLive :=
    List.countP_pos_iff.mpr ⟨_, List.mem_of_getElem? hi, rfl⟩
  rw [System.live] at hcount
  refine ⟨List.eq_nil_of_length_eq_zero (by omega), fun j h hne hj ↦ eq_released ?_⟩
  refine Bool.eq_false_iff.mpr fun hh ↦ hne ?_
  exact index_eq_of_countP_le_one (by omega) hj hh hi rfl

private theorem noWrap (hs : Inv s) (hb : Bounded s) (hstep : s.step a = some s') :
    s'.count.toInt = s.count.toInt + a.delta := by
  have hsub : ∀ {i : ℕ} {h : Holder}, s.holders[i]? = some h → h.isLive = true →
      (s.count - refIncrement).toInt = s.count.toInt + -2 := by
    intro i h hi hh
    have hcount := hs.count (s.live_pos hi hh)
    have hpos := s.live_pos hi hh
    rw [toInt_sub_refIncrement (by omega), Int.sub_eq_add_neg]
  cases a with
  | fetchAdd i =>
    obtain ⟨-, rfl⟩ := System.step_fetchAdd hstep
    exact toInt_add_refIncrement (hs.add_lt hb)
  | check k =>
    obtain ⟨inc, -, ⟨-, rfl⟩ | ⟨-, rfl⟩⟩ := System.step_check hstep <;>
      exact (add_zero _).symm
  | load i =>
    obtain ⟨-, -, rfl⟩ := System.step_load hstep
    exact (add_zero _).symm
  | fetchSub i =>
    obtain ⟨hi, rfl⟩ := System.step_fetchSub hstep
    exact hsub hi rfl
  | fetchSubHigh i =>
    obtain ⟨hi, -, rfl⟩ := System.step_fetchSubHigh hstep
    exact hsub hi rfl

end Inv

/-- As long as fewer than `2 ^ 28` increments are in flight at once, whatever the interleaving, at
most one release says that no reference remains, it does so after all the others, and exactly one
does once all references are given up; the check for a single reference is right; and an increment
aborts before the integer wraps. -/
theorem released_once (hrun : Run Bounded as s) : Safe s := by
  have hs := Inv.run hrun
  have hb : Bounded s := by
    cases hrun with
    | init => exact Nat.two_pow_pos _
    | step a _ _ hP => exact hP
  refine ⟨fun i j ↦ hs.once, fun hall hnil ↦ ?_, fun i hi ↦ ?_, fun i ↦ hs.isOne,
    fun a s' ↦ hs.noWrap hb⟩
  · have hlive : s.live = 0 := by
      rw [System.live, hnil, List.countP_eq_zero.mpr fun h hh ↦ by simp [hall h hh]]
      rfl
    have hmem : .released false ∈ s.holders :=
      List.count_pos_iff.mp (by rw [hs.last, if_pos hlive]; exact Nat.one_pos)
    obtain ⟨i, hi⟩ := List.getElem?_of_mem hmem
    exact ⟨i, hi, fun j hj ↦ hs.once hj hi⟩
  · obtain ⟨hnil, hdead⟩ := Inv.not_live_of_live_eq_zero (hs.live_eq_zero hi)
    refine ⟨hnil, fun j h hne hj ↦ ?_⟩
    obtain ⟨b, rfl⟩ := eq_released (hdead h (List.mem_of_getElem? hj))
    cases b with
    | true => rfl
    | false => exact absurd (hs.once hj hi) hne

end Safe

/-- Two holders: the second one gives up its reference, then the first one does. -/
theorem released_once_two_holders :
    Run Bounded [.fetchAdd 0, .check 0, .load 1, .fetchSub 1, .load 0]
        ⟨2, [.released false, .released true], [], false⟩ ∧
      Safe ⟨2, [.released false, .released true], [], false⟩ := by
  have hrun : Run Bounded [.fetchAdd 0, .check 0, .load 1, .fetchSub 1, .load 0]
      ⟨2, [.released false, .released true], [], false⟩ :=
    .step (.load 0) (.step (.fetchSub 1) (.step (.load 1) (.step (.check 0) (.step (.fetchAdd 0)
      .init rfl (by decide)) rfl (by decide)) rfl (by decide)) rfl (by decide)) rfl (by decide)
  exact ⟨hrun, released_once hrun⟩

/-! ### More increments than the bound -/

private theorem run_fetchAdd {as : List Action} {s : System} (hrun : Run (fun _ ↦ True) as s)
    (ha : s.aborted = false) (hi : s.holders[0]? = some .held) (n : ℕ) :
    ∃ as' s', Run (fun _ ↦ True) as' s' ∧ s'.count = s.count + BitVec.ofNat 32 (2 * n) ∧
      s'.holders = s.holders ∧ s'.aborted = false ∧
      ∀ inc ∈ s'.increments, inc ∈ s.increments ∨ inc.holder = 0 := by
  induction n with
  | zero => exact ⟨as, s, hrun, by simp, rfl, ha, fun inc ↦ .inl⟩
  | succ n ih =>
    obtain ⟨as', s', hrun', hcount, hholders, ha', hinc⟩ := ih
    refine ⟨_, ⟨s'.count + refIncrement, s'.holders, s'.increments ++ [⟨0, s'.count⟩], s'.aborted⟩,
      hrun'.step (.fetchAdd 0) ?_ trivial, ?_, hholders, ha', ?_⟩
    · rw [System.step, ha', hholders, if_neg Bool.false_ne_true]
      exact if_pos hi
    · change s'.count + refIncrement = _
      rw [hcount, BitVec.add_assoc, Nat.mul_succ, BitVec.ofNat_add]
      rfl
    · intro inc hmem
      rcases List.mem_append.mp hmem with hmem | hmem
      · exact hinc inc hmem
      · exact .inr (by rw [List.mem_singleton.mp hmem])

/-- With `2 ^ 31 - 1` increments through one holder in flight the integer is two again, and the
release of the other holder says that no reference remains. -/
theorem wrapped_release : ∃ as s, Run (fun _ ↦ True) as s ∧
    s.holders = [.held, .released false] := by
  have htwo : Run (fun _ ↦ True) _ ⟨4, [.held, .held], [], false⟩ :=
    .step (.check 0) (.step (.fetchAdd 0) .init rfl trivial) rfl trivial
  obtain ⟨as, s, hrun, hcount, hholders, ha, hinc⟩ := run_fetchAdd htwo rfl rfl (2 ^ 31 - 1)
  have hone : s.count = refIncrement := hcount.trans (by decide)
  have hfree : s.unborrowed 1 = true := List.all_eq_true.mpr fun inc hmem ↦ by
    rcases hinc inc hmem with hmem | hzero
    · cases hmem
    · simp [hzero]
  refine ⟨_, s.setHolder 1 (.released false), hrun.step (.load 1) ?_ trivial, ?_⟩
  · rw [System.step, ha, if_neg Bool.false_ne_true]
    simp only [hholders, hfree, hone, if_true]
    rfl
  · rw [System.setHolder, hholders]
    rfl

end CordRs.Refcount
