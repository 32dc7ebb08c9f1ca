import CordRs.Rep.Refcount
import CordRs.Rep.Release

/-!
# The order in which operations on a count take effect

Every operation on an atomic count takes effect in one of its own steps: an increment in its
`fetch_add`, a release in the load that reads the last reference or in its `fetch_sub`. Run as a
whole in this order on the heap, where the count is a natural number, the operations answer as they
do in the interleaving, and the release that leaves no reference destroys the node.

## Main definitions

* `CordRs.Refcount.Operation`, `CordRs.Refcount.Operation.run`: operations that run as a whole.
* `CordRs.Refcount.System.effects`: the operations of a run, as they take effect.
* `CordRs.Refcount.Counts`: the heap while there is a number of references to a node.

## Main results

* `CordRs.Refcount.linearizes`: every interleaving is one after the other on the heap.
-/

namespace CordRs.Refcount

open RefHeap

/-! ### Operations on the heap -/

/-- An operation of the holder of a reference: it adds one, or gives its own up and is told whether
others remain. -/
inductive Operation where
  | increment (i : ℕ)
  | release (i : ℕ) (remaining : Bool)
  deriving Repr, DecidableEq

/-- Run an operation on a node as a whole, and return it with the answer it got. -/
def Operation.run (rep : Addr) : Operation → HeapM Operation
  | increment i => do
    let _ ← refRep rep
    pure (.increment i)
  | release i _ => do
    let remaining ← refDec rep
    if !remaining then
      let node ← read rep
      destroy (node.rank + 1) rep
    pure (.release i remaining)

section Heap

variable [Target] {h₀ h : Heap Node} {Z : List Addr} {R : Multiset Addr} {rep : Addr} {k i : ℕ}

/-- There are `k` references to a node that had one. While there is one no node has changed, and
then it is destroyed; others find everything as it was. -/
structure Counts (h₀ : Heap Node) (Z : List Addr) (R : Multiset Addr) (rep : Addr) (k : ℕ)
    (h : Heap Node) : Prop where
  owned : Owned h Z (Multiset.replicate k rep + R)
  rc : h.rc rep = k
  same : 0 < k → ∀ x, h.node? x = h₀.node? x
  destroyed : k = 0 → h.get? rep = none
  frame : Frame Z R h₀ h

namespace Counts

/-- The counts while no node has changed. -/
private theorem of_same (ho₀ : Owned h₀ Z (rep ::ₘ R)) (hone : h₀.rc rep = 1) (hk : 0 < k)
    (ho : Owned h Z (Multiset.replicate k rep + R)) (hn : ∀ x, h.node? x = h₀.node? x) :
    Counts h₀ Z R rep k h where
  owned := ho
  rc := ho₀.rc_of_replicate hone hn ho
  same _ := hn
  destroyed hzero := absurd hzero hk.ne'
  frame := Owned.frame_of_node?_eq hn

theorem init (ho : Owned h Z (rep ::ₘ R)) (hone : h.rc rep = 1) : Counts h Z R rep 1 h := by
  refine of_same ho hone Nat.one_pos (ho.congr ?_) fun _ ↦ rfl
  rw [Multiset.replicate_one, Multiset.singleton_add]

private theorem owned_succ (hc : Counts h₀ Z R rep (k + 1) h) :
    Owned h Z (rep ::ₘ (Multiset.replicate k rep + R)) := by
  refine hc.owned.congr ?_
  rw [Multiset.replicate_succ, Multiset.cons_add]

theorem wp_increment (ho₀ : Owned h₀ Z (rep ::ₘ R)) (hone : h₀.rc rep = 1)
    (hc : Counts h₀ Z R rep k h) (hk : 0 < k) :
    wp ((Operation.increment i).run rep)
      (fun op h' ↦ op = .increment i ∧ Counts h₀ Z R rep (k + 1) h') h := by
  have hmem : rep ∈ Multiset.replicate k rep + R :=
    Multiset.mem_add.mpr (.inl (Multiset.mem_replicate.mpr ⟨hk.ne', rfl⟩))
  rw [Operation.run, wp_bind]
  refine wp_refRep hc.owned (.root hmem) fun h₁ ho₁ hn₁ ↦ ?_
  refine (wp_pure _ _ _).mpr ⟨rfl, of_same ho₀ hone (Nat.succ_pos k) (ho₁.congr ?_)
    fun x ↦ ?_⟩
  · rw [Multiset.replicate_succ, Multiset.cons_add]
  · exact (hn₁ x).trans (hc.same hk x)

/-- A release says whether others remain, and destroys the node if none do. -/
theorem wp_release (ho₀ : Owned h₀ Z (rep ::ₘ R)) (hone : h₀.rc rep = 1) (remaining : Bool)
    (hc : Counts h₀ Z R rep (k + 1) h) :
    wp ((Operation.release i remaining).run rep)
      (fun op h' ↦ op = .release i (decide (k ≠ 0)) ∧ Counts h₀ Z R rep k h') h := by
  have ho := hc.owned_succ
  rw [Operation.run, wp_bind]
  refine wp_refDec ho (fun hlast ↦ ?_) fun h₁ ho₁ hn₁ ↦ ?_
  · -- this was the last reference
    obtain rfl : k = 0 := Nat.succ.inj (hc.rc.symm.trans hlast)
    obtain ⟨-, n, hn⟩ := ho.of_mem (Multiset.mem_cons_self _ _)
    simp only [Bool.not_false, if_true, wp_bind]
    refine wp_read hn (wp_destroy ho hlast hn (Nat.lt_succ_self _) fun h₁ ho₁ hf₁ ↦ ?_)
    rw [Multiset.replicate_zero, zero_add] at hf₁
    have hframe := hc.frame.trans hf₁
    have hgone : h₁.get? rep = none := by
      refine Owned.get?_eq_none ?_ (ho₀.of_mem (Multiset.mem_cons_self _ _)).1 fun hreach ↦
        ho₀.not_reach_of_one hone (hframe.reach hreach)
      rwa [Multiset.replicate_zero, zero_add] at ho₁
    have hrc : h₁.rc rep = 0 := by rw [Heap.rc, hgone, Option.map_none, Option.getD_none]
    exact (wp_pure _ _ _).mpr ⟨rfl, ho₁, hrc, fun hpos ↦ absurd hpos (lt_irrefl 0), fun _ ↦ hgone,
      hframe⟩
  · have hn : ∀ x, h₁.node? x = h₀.node? x := fun x ↦ (hn₁ x).trans (hc.same (Nat.succ_pos k) x)
    have hk : k ≠ 0 := by
      rintro rfl
      obtain ⟨haZ, n, hrep⟩ := ho₀.of_mem (Multiset.mem_cons_self _ _)
      rw [Multiset.replicate_zero, zero_add] at ho₁
      have hreach := ho₁.reach_of_live haZ ((hn rep).trans hrep)
      have hframe : Frame Z R h₀ h₁ := Owned.frame_of_node?_eq hn
      exact ho₀.not_reach_of_one hone (hframe.reach hreach)
    have hc₁ := of_same ho₀ hone (Nat.pos_of_ne_zero hk) ho₁ hn
    simp only [Bool.not_true, Bool.false_eq_true, if_false, wp_pure]
    exact ⟨by rw [decide_eq_true hk], hc₁⟩

end Counts

end Heap

/-! ### Operations of a run -/

namespace System

/-- The operation that takes effect in an atomic step, if one does. -/
def effect (s : System) : Action → Option Operation
  | .fetchAdd i => some (.increment i)
  | .check _ => none
  | .load i => if s.count = refIncrement then some (.release i false) else none
  | .fetchSub i | .fetchSubHigh i => some (.release i (s.count ≠ refIncrement))

/-- The operations of the steps from a state on, in the order in which they take effect. -/
def effects (s : System) : List Action → List Operation
  | [] => []
  | a :: as =>
    match s.step a with
    | none => []
    | some s' => (s.effect a).toList ++ s'.effects as

end System

section Runs

variable {s s' : System} {a : Action} {as : List Action} {i k : ℕ} {P : System → Prop}

/-- What an operation does to the number of references. -/
def Operation.Changes (k k' : ℕ) : Operation → Prop
  | increment _ => 0 < k ∧ k' = k + 1
  | release _ remaining => k = k' + 1 ∧ remaining = decide (k' ≠ 0)

namespace System

/-- The operations of a run go on with those of the steps after it. -/
private theorem effects_append (hrun : Run P as s) (bs : List Action) :
    System.init.effects (as ++ bs) = System.init.effects as ++ s.effects bs := by
  induction hrun generalizing bs with
  | init => rfl
  | @step as s s' a _ hstep _ ih =>
    rw [List.append_assoc, ih, ih, List.singleton_append, effects, effects, hstep]
    simp only [effects, List.append_nil, List.append_assoc]

private theorem effects_snoc (hrun : Run P as s) (hstep : s.step a = some s') :
    System.init.effects (as ++ [a]) = System.init.effects as ++ (s.effect a).toList := by
  rw [effects_append hrun, effects, hstep]
  simp only [effects, List.append_nil]

private theorem live_check (hstep : s.step (.check k) = some s') : s'.live = s.live := by
  obtain ⟨inc, hk, ⟨-, rfl⟩ | ⟨-, rfl⟩⟩ := step_check hstep
  · rfl
  · obtain ⟨hlt, -⟩ := List.getElem?_eq_some_iff.mp hk
    simp only [live, List.countP_append, List.countP_singleton, Holder.isLive, if_true,
      List.length_eraseIdx_of_lt hlt]
    omega

private theorem live_sub {h : Holder} (hi : s.holders[i]? = some h) (hh : h.isLive = true) :
    (s.sub i).live + 1 = s.live := by
  have hset := s.live_set (.released (s.count ≠ refIncrement)) hi (s.count - refIncrement)
  rw [hh] at hset
  exact hset

/-- The count is that of a single reference. -/
private theorem count_eq_iff (hs : Inv s) (hpos : 0 < s.live) :
    s.count = refIncrement ↔ s.live = 1 := by
  have hcount := hs.count hpos
  rw [eq_refIncrement_iff]
  omega

/-- A subtraction takes the effect of a release. -/
private theorem changes_sub {h : Holder} (hs : Inv s) (hi : s.holders[i]? = some h)
    (hh : h.isLive = true) : (Operation.release i (s.count ≠ refIncrement)).Changes s.live
      (s.sub i).live := by
  have hpos := s.live_pos hi hh
  have hless := live_sub hi hh
  refine ⟨hless.symm, ?_⟩
  rw [decide_eq_decide, ne_eq, count_eq_iff hs hpos, ne_eq]
  omega

/-- A step takes effect on the number of references as its operation does; other steps leave it
alone. -/
theorem changes_of_step (hs : Inv s) (hstep : s.step a = some s') :
    (∀ op ∈ s.effect a, op.Changes s.live s'.live) ∧ (s.effect a = none → s'.live = s.live) := by
  cases a with
  | fetchAdd i =>
    obtain ⟨hi, rfl⟩ := step_fetchAdd hstep
    refine ⟨?_, fun h ↦ absurd h (Option.some_ne_none _)⟩
    rintro op ⟨rfl⟩
    refine ⟨s.live_pos hi rfl, ?_⟩
    simp only [live, List.length_append, List.length_singleton]
    omega
  | check k => exact ⟨fun op hop ↦ absurd hop (Option.not_mem_none op), fun _ ↦ live_check hstep⟩
  | load i =>
    obtain ⟨hi, -, rfl⟩ := step_load hstep
    have hpos := s.live_pos hi rfl
    by_cases hone : s.count = refIncrement
    · have hset := s.live_set (.released false) hi s.count
      have hlive := (count_eq_iff hs hpos).mp hone
      have hzero : (s.setHolder i (.released false)).live = 0 := by
        simp only [Holder.isLive, Bool.toNat_true, Bool.toNat_false] at hset
        exact Nat.succ.inj (hset.trans hlive)
      rw [effect, if_pos hone, if_pos hone, hlive, hzero]
      refine ⟨?_, fun h ↦ absurd h (Option.some_ne_none _)⟩
      rintro op ⟨rfl⟩
      exact ⟨rfl, rfl⟩
    · have hset := s.live_set .decrementing hi s.count
      rw [effect, if_neg hone, if_neg hone]
      exact ⟨fun op hop ↦ absurd hop (Option.not_mem_none op), fun _ ↦ Nat.add_right_cancel hset⟩
  | fetchSub i =>
    obtain ⟨hi, rfl⟩ := step_fetchSub hstep
    refine ⟨?_, fun h ↦ absurd h (Option.some_ne_none _)⟩
    rintro op ⟨rfl⟩
    exact changes_sub hs hi rfl
  | fetchSubHigh i =>
    obtain ⟨hi, -, rfl⟩ := step_fetchSubHigh hstep
    refine ⟨?_, fun h ↦ absurd h (Option.some_ne_none _)⟩
    rintro op ⟨rfl⟩
    exact changes_sub hs hi rfl

private theorem released_append {hs : List Holder} {r : Bool} :
    (hs ++ [.held])[i]? = some (.released r) ↔ hs[i]? = some (.released r) := by
  rw [List.getElem?_append]
  split_ifs with hlt
  · rfl
  · rw [List.getElem?_eq_none (Nat.le_of_not_lt hlt), List.getElem?_singleton]
    split_ifs <;> simp

private theorem released_set {hs : List Holder} {h h' : Holder} {j : ℕ} {r : Bool}
    (hi : hs[i]? = some h) (hh : h.isLive = true) :
    (hs.set i h')[j]? = some (.released r) ↔
      hs[j]? = some (.released r) ∨ j = i ∧ h' = .released r := by
  obtain ⟨hlt, -⟩ := List.getElem?_eq_some_iff.mp hi
  rw [List.getElem?_set]
  split_ifs with hij
  · subst hij
    rw [hi]
    constructor
    · exact fun heq ↦ .inr ⟨rfl, Option.some.inj heq⟩
    · rintro (heq | ⟨-, rfl⟩)
      · rw [Option.some.inj heq] at hh
        cases hh
      · rfl
  · exact ⟨.inl, fun h ↦ h.resolve_right fun heq ↦ hij heq.1.symm⟩

/-- A step records the answer of the release that takes effect in it. -/
theorem released_of_step {r : Bool} (hstep : s.step a = some s') :
    s'.holders[i]? = some (.released r) ↔
      s.holders[i]? = some (.released r) ∨ s.effect a = some (.release i r) := by
  cases a with
  | fetchAdd j =>
    obtain ⟨-, rfl⟩ := step_fetchAdd hstep
    simp [effect]
  | check k =>
    obtain ⟨inc, -, ⟨-, rfl⟩ | ⟨-, rfl⟩⟩ := step_check hstep
    · simp [effect]
    · rw [released_append]
      simp [effect]
  | load j =>
    obtain ⟨hj, -, rfl⟩ := step_load hstep
    rw [setHolder, released_set hj rfl, effect]
    split_ifs <;> simp [eq_comm]
  | fetchSub j =>
    obtain ⟨hj, rfl⟩ := step_fetchSub hstep
    rw [sub, released_set hj rfl, effect]
    simp [eq_comm]
  | fetchSubHigh j =>
    obtain ⟨hj, -, rfl⟩ := step_fetchSubHigh hstep
    rw [sub, released_set hj rfl, effect]
    simp [eq_comm]

/-- The releases of a run are those of its holders, with the same answers. -/
private theorem release_mem_effects_iff {r : Bool} (hrun : Run P as s) :
    .release i r ∈ System.init.effects as ↔ s.holders[i]? = some (.released r) := by
  induction hrun with
  | init =>
    refine ⟨fun hmem ↦ absurd hmem List.not_mem_nil, fun hi ↦ ?_⟩
    rw [init, List.getElem?_singleton] at hi
    split_ifs at hi
    cases hi
  | step a hrun hstep _ ih =>
    rw [effects_snoc hrun hstep, List.mem_append, ih, released_of_step hstep, Option.mem_toList]

end System

/-- The operations of a run, one after the other on the heap. -/
private theorem wp_effects [Target] {h : Heap Node} {Z : List Addr} {R : Multiset Addr} {rep : Addr}
    (hrun : Run Bounded as s) (ho : Owned h Z (rep ::ₘ R)) (hone : h.rc rep = 1) :
    wp ((System.init.effects as).mapM (Operation.run rep)) (fun ops h' ↦
      ops = System.init.effects as ∧ Counts h Z R rep s.live h') h := by
  induction hrun with
  | init => exact (wp_pure _ _ _).mpr ⟨rfl, .init ho hone⟩
  | @step as s s' a hrun hstep _ ih =>
    obtain ⟨hchanges, hsilent⟩ := System.changes_of_step (.run hrun) hstep
    rw [System.effects_snoc hrun hstep, List.mapM_append, wp_bind]
    refine wp_mono ih ?_
    rintro _ h₁ ⟨rfl, hc⟩
    cases heffect : s.effect a with
    | none =>
      rw [hsilent heffect]
      exact (wp_pure _ _ _).mpr ⟨rfl, hc⟩
    | some op =>
      have hop : wp (op.run rep) (fun op' h₂ ↦ op' = op ∧ Counts h Z R rep s'.live h₂) h₁ := by
        have hop := hchanges op heffect
        cases op with
        | increment i =>
          rw [hop.2]
          exact hc.wp_increment ho hone hop.1
        | release i remaining =>
          rw [hop.1] at hc
          rw [hop.2]
          exact hc.wp_release ho hone _
      rw [Option.toList_some, List.mapM_cons]
      simp only [wp_bind, List.mapM_nil, wp_pure]
      refine wp_mono hop ?_
      rintro _ h₂ ⟨rfl, hc₂⟩
      exact ⟨rfl, hc₂⟩

/-- Every interleaving of increments and releases of a node takes effect like the same operations
one after the other, each at one of its own steps: releases and the check for a single reference
answer as they do on the heap, where the count is a natural number; the node is there, unchanged, as
long as a reference is, and the release that is told that none remains destroys it, so that others
see no change. -/
theorem linearizes [Target] {h : Heap Node} {Z : List Addr} {R : Multiset Addr} {rep : Addr}
    (hrun : Run Bounded as s) (ho : Owned h Z (rep ::ₘ R)) (hone : h.rc rep = 1) :
    wp ((System.init.effects as).mapM (Operation.run rep)) (fun ops h' ↦
      ops = System.init.effects as ∧ Counts h Z R rep s.live h' ∧
      ∀ i : ℕ, s.holders[i]? = some Holder.held → s.isOne = decide (h'.rc rep = 1)) h ∧
    ∀ i remaining, .release i remaining ∈ System.init.effects as ↔
      s.holders[i]? = some (.released remaining) := by
  refine ⟨wp_mono (wp_effects hrun ho hone) ?_, fun _ _ ↦ System.release_mem_effects_iff hrun⟩
  rintro ops h' ⟨hops, hc⟩
  refine ⟨hops, hc, fun i hi ↦ ?_⟩
  rw [hc.rc, System.isOne, decide_eq_decide]
  exact System.count_eq_iff (.run hrun) (s.live_pos hi rfl)

end Runs

/-- A heap with a flat. -/
def oneFlat : Heap Node := ⟨[some ⟨1, .payload (.flat 6 [1])⟩]⟩

/-- The release that reads two references subtracts last, and destroys the flat. -/
theorem linearizes_racing :
    letI : Target := ⟨64, .inr rfl⟩
    wp ([.increment 0, .release 1 true, .release 0 false].mapM (Operation.run 0)) (fun ops h' ↦
      ops = [.increment 0, .release 1 true, .release 0 false] ∧ ∀ a, h'.node? a = none) oneFlat := by
  let _ : Target := ⟨64, .inr rfl⟩
  have hrun : Run Bounded [.fetchAdd 0, .check 0, .load 0, .load 1, .fetchSub 1, .fetchSub 0]
      ⟨0, [.released false, .released true], [], false⟩ :=
    .step (.fetchSub 0) (.step (.fetchSub 1) (.step (.load 1) (.step (.load 0) (.step (.check 0)
      (.step (.fetchAdd 0) .init rfl (by decide)) rfl (by decide)) rfl (by decide)) rfl
      (by decide)) rfl (by decide)) rfl (by decide)
  have ho : Owned oneFlat [] (0 ::ₘ 0) := by
    refine Owned.of_lt_size (by decide) (by decide) (by decide +kernel) fun x n hn ↦ ?_
    obtain _ | x := x
    · obtain rfl := Option.some.inj hn
      exact ⟨[], rfl, ⟨by decide, by decide, by decide, by decide⟩, rfl⟩
    · cases hn
  refine wp_mono (linearizes hrun ho rfl).1 ?_
  rintro ops h' ⟨rfl, hc, -⟩
  exact ⟨rfl, hc.owned.node?_eq_none⟩

end CordRs.Refcount
