import CordRs.Btree.CheckValid
import CordRs.RefHeap.Simulation
import CordRs.Store.Statement

/-!
# Programs of a client

Programs start with empty cords and buffers, and run any statements in any order. They answer, and
panic, as they do on the bytes; the counts stay exact, and what is dropped is released; a cord is
not touched by statements on other cords, however much of the heap they share.

## Main definitions

* `CordRs.Store.language`: the statements of a client and their meaning.
* `CordRs.Store.dropCords`, `CordRs.Store.dropBuffers`: the end of a program.

## Main results

* `CordRs.Store.programs_refine`: programs on the heap refine programs on the bytes.
* `CordRs.Store.programs_count`, `CordRs.Store.programs_release`: no cell is lost or used late.
* `CordRs.Store.programs_isolate`: a program leaves the cords alone that it does not change.
* `CordRs.Store.programs_validate`: the check of the library finds nothing in the cords.
* `CordRs.Store.programs_only_panic`: no program reaches a branch that is meant to be unreachable.
-/

namespace CordRs

open RefHeap LevelTree

variable {ι κ : Type}

/-- The values before the client does anything. -/
def Values.initial [Target] : Values ι κ where
  cords _ := []
  buffers _ := ([], maxInline)

namespace Store

variable [Target] [DecidableEq ι] [DecidableEq κ]

/-- The statements of a client, which mean something on the bytes. -/
def language : Language (Store ι κ) (Values ι κ) (StoreOp ι κ) Answer Fault where
  run := StoreOp.run
  Means op s v answer v' := op.Means s v answer v'
  refuses op v := op.refuses v
  Fits op s v := op.Fits s v

/-- Drop cords. -/
def dropCords : List ι → StoreM ι κ Unit
  | [] => pure ()
  | x :: xs => do
    let c ← takeCord x
    onHeap c.drop
    dropCords xs

/-- Drop buffers. -/
def dropBuffers : List κ → StoreM ι κ Unit
  | [] => pure ()
  | b :: bs => do
    let buffer ← takeBuffer b
    onHeap buffer.drop
    dropBuffers bs

section Programs

variable [Fintype ι] [Fintype κ] {s₀ s : Store ι κ} {Y : Set ι} {v : Values ι κ} {n : ι → ℕ}
  {ops ops' : List (StoreOp ι κ)} {answers answers' : List Answer} {s' : Store ι κ}

/-- The state of the client, while it has nothing in its hands. -/
structure Rest (s₀ : Store ι κ) (Y : Set ι) (s : Store ι κ) (v : Values ι κ) : Prop
    extends World s₀ Y s v s.edgeCount [] 0 where
  short : v.Short

omit [DecidableEq ι] [DecidableEq κ] in
/-- The cords are compared with themselves. -/
theorem Rest.rebase {Y' : Set ι} (hw : Rest s₀ Y s v) : Rest s Y' s v where
  owned := hw.owned
  cords := hw.cords
  buffers := hw.buffers
  kept _ _ := ⟨rfl, .refl _ _⟩
  short := hw.short

omit [Target] [DecidableEq ι] [DecidableEq κ] [Fintype κ] in
private theorem refs_eq_zero (hcords : ∀ x, s.cords x = .inline .new) : s.refs = 0 := by
  apply refsAll_eq_zero
  intro x
  rw [hcords x]
  rfl

omit [Target] [DecidableEq ι] [DecidableEq κ] [Fintype ι] in
private theorem cells_eq_nil (hbuffers : ∀ b, s.buffers b = .new) : s.cells = [] := by
  apply cellsAll_eq_nil
  intro b
  rw [hbuffers b]
  rfl

omit [DecidableEq ι] [DecidableEq κ] in
theorem rest_initial : Rest (initial : Store ι κ) ∅ initial .initial where
  owned := by
    rw [refs_eq_zero fun _ ↦ rfl, cells_eq_nil fun _ ↦ rfl]
    exact .empty
  cords x := by
    have hempty := Cord.new_empty Owned.empty (.refl (Heap.empty : Heap Node))
    exact ⟨.inline .new, rfl, stands_of_new hempty le_rfl⟩
  buffers b := ⟨Nat.zero_le _, rfl, rfl⟩
  kept x hx := absurd hx (Set.notMem_empty x)
  short _ := Nat.zero_le _

/-- Statements that do not change the cords of some variables keep them. -/
theorem simulates (s₀ : Store ι κ) (Y : Set ι) :
    (language : Language _ _ (StoreOp ι κ) _ _).Simulates (fun op ↦ ∀ x ∈ op.writes, x ∉ Y)
      (Rest s₀ Y) where
  step op s v hwrites hw hfits hgo := by
    apply wp_mono (op.wp_run hw.toWorld hw.short hwrites hfits hgo)
    rintro answer s' ⟨v', n', hmeans, hw'⟩
    exact ⟨v', hmeans, hw'.tighten, hmeans.short hw.short hfits hgo⟩
  stop op s v e hwrites hw hfits hrefuses := op.throws_run hw.toWorld hwrites hfits hrefuses

/-! ### Dropping -/

omit [DecidableEq κ] in
private theorem wp_dropCords {xs : List ι} (hw : World s₀ ∅ s v n [] 0)
    {Q : Unit → Store ι κ → Prop}
    (hQ : ∀ s' v' n', World s₀ ∅ s' v' n' [] 0 → (∀ x, x ∈ xs ∨ s.cords x = .inline .new →
      s'.cords x = .inline .new) → Q () s') :
    wp (dropCords xs) Q s := by
  induction xs generalizing s v n with
  | nil =>
    rw [dropCords, wp_pure]
    apply hQ s v n hw
    rintro x (hx | hx)
    · cases hx
    · exact hx
  | cons x xs ih =>
    rw [dropCords, wp_bind]
    apply hw.wp_takeCord (Set.notMem_empty x)
    intro c s₁ _ hs₁ hempty _ hothers hw₁
    rw [wp_bind, wp_onHeap]
    apply Cord.wp_drop (hw₁.owns hs₁)
    intro h₂ ho₂ hf₂
    have hw₂ := hw₁.step ho₂ (hf₂.mono (List.subset_append_left _ _) (Multiset.le_add_right _ _))
    apply ih hw₂
    intro s₃ v₃ n₃ hw₃ hdropped
    apply hQ s₃ v₃ n₃ hw₃
    intro y hy
    apply hdropped
    by_cases hyx : y = x
    · subst hyx
      exact .inr hempty
    · rcases hy with hy | hy
      · exact .inl ((List.mem_cons.mp hy).resolve_left hyx)
      · exact .inr ((hothers y hyx).trans hy)

omit [DecidableEq ι] in
private theorem wp_dropBuffers {bs : List κ} (hw : World s₀ ∅ s v n [] 0)
    {Q : Unit → Store ι κ → Prop}
    (hQ : ∀ s' v' n', World s₀ ∅ s' v' n' [] 0 → s'.cords = s.cords → (∀ b, b ∈ bs ∨ s.buffers b = .new →
      s'.buffers b = .new) → Q () s') :
    wp (dropBuffers bs) Q s := by
  induction bs generalizing s v n with
  | nil =>
    rw [dropBuffers, wp_pure]
    apply hQ s v n hw rfl
    rintro b (hb | hb)
    · cases hb
    · exact hb
  | cons b bs ih =>
    rw [dropBuffers, wp_bind]
    apply hw.wp_takeBuffer
    intro buffer s₁ _ hempty _ hcords hothers hw₁
    have ho₁ : Owned s₁.heap (buffer.cells ++ (s₁.cells ++ [])) (s₁.refs + 0) :=
      hw₁.owned.perm (List.perm_append_comm_assoc _ _ _)
    rw [wp_bind, wp_onHeap]
    apply CordBuffer.wp_drop ho₁
    intro h₂ ho₂ hf₂
    have hw₂ := hw₁.step ho₂ (hf₂.mono (List.subset_append_left _ _) (Multiset.le_add_right _ _))
    apply ih hw₂
    intro s₃ v₃ n₃ hw₃ hcords₃ hdropped
    apply hQ s₃ v₃ n₃ hw₃ (hcords₃.trans hcords)
    intro b' hb'
    apply hdropped
    by_cases hb : b' = b
    · subst hb
      exact .inr hempty
    · rcases hb' with hb' | hb'
      · exact .inl ((List.mem_cons.mp hb').resolve_left hb)
      · exact .inr ((hothers b' hb).trans hb')

/-! ### Programs -/

/-- Two cords share a tree. -/
def sharing : List (StoreOp (Fin 2) (Fin 1)) := [.make 0 (.owner [1, 2, 3]), .clone 1 0]

/-- The first of them loses bytes. -/
def cutting (n : ℕ) : List (StoreOp (Fin 2) (Fin 1)) := [.advance 0 n]

omit [Target] in
theorem admits_sharing (n : ℕ) :
    letI : Target := ⟨64, .inr rfl⟩
    language.Admits (sharing ++ cutting n) initial .initial := by
  let _ : Target := ⟨64, .inr rfl⟩
  refine ⟨⟨trivial, ?_⟩, ?_⟩
  · exact ⟨by decide, by decide⟩
  · rintro _ _ s₁ v₁ _ ⟨rfl, _⟩
    refine ⟨trivial, ?_⟩
    rintro _ _ s₂ v₂ _ ⟨rfl, _⟩
    refine ⟨trivial, ?_⟩
    rintro _ _ s₃ v₃ _ ⟨rfl, _⟩
    trivial

omit [Target] in
private theorem not_stops_sharing {e : Fault} :
    letI : Target := ⟨64, .inr rfl⟩
    ¬language.Stops (sharing ++ cutting 1) initial .initial e := by
  let _ : Target := ⟨64, .inr rfl⟩
  rintro (hrefuses | ⟨_, _, _, v₁, _, ⟨rfl, hv₁⟩, hrefuses | ⟨_, _, _, v₂, _, ⟨rfl, hv₂⟩,
    hrefuses | ⟨_, _, _, v₃, _, _, hstops⟩⟩⟩)
  · cases hrefuses
  · cases hrefuses
  · change (StoreOp.advance 0 1).refuses v₂ = some e at hrefuses
    rw [hv₂, hv₁] at hrefuses
    cases hrefuses
  · exact hstops

/-- Programs on the heap answer as programs on the bytes do, and leave cords and buffers with these
bytes behind, or they panic as these do. -/
theorem programs_refine (hadmits : language.Admits ops (initial : Store ι κ) .initial) :
    wp (language.runAll ops) (fun answers s' ↦ ∃ v', language.MeansAll ops initial .initial answers v' ∧
      (∀ x, ∃ c : Cord Rep, c.handle = s'.cords x ∧ c.Held s'.heap ∧ c.bytes = v'.cords x) ∧
      ∀ b, (s'.buffers b).Holds s'.heap (v'.buffers b).1 (v'.buffers b).2)
      (initial : Store ι κ) ∨
    ∃ e, Throws (language.runAll ops) e (initial : Store ι κ) ∧
      language.Stops ops initial .initial e := by
  rcases (simulates initial ∅).runAll (fun _ _ _ _ ↦ Set.notMem_empty _) rest_initial hadmits with
    hwp | hstops
  · left
    apply wp_mono hwp
    rintro answers s' ⟨v', hmeans, hw'⟩
    refine ⟨v', hmeans, fun x ↦ ?_, hw'.buffers⟩
    obtain ⟨c, hc, hs⟩ := hw'.cords x
    exact ⟨c, hc, hs.isHeld, hs.bytes⟩
  · exact .inr hstops

omit [Target] in
/-- The cord that shares the tree keeps its bytes. -/
theorem programs_refine_sharing :
    letI : Target := ⟨64, .inr rfl⟩
    wp (language.runAll (sharing ++ cutting 1)) (fun answers s' ↦ answers = [.unit, .unit, .unit] ∧
      (∃ c : Cord Rep, c.handle = s'.cords 0 ∧ c.Held s'.heap ∧ c.bytes = [2, 3]) ∧
      ∃ c : Cord Rep, c.handle = s'.cords 1 ∧ c.Held s'.heap ∧ c.bytes = [1, 2, 3]) initial := by
  let _ : Target := ⟨64, .inr rfl⟩
  rcases programs_refine (admits_sharing 1) with hwp | ⟨e, _, hstops⟩
  · apply wp_mono hwp
    rintro answers s' ⟨v', hmeans, hcords, _⟩
    obtain ⟨_, _, _, _, v₁, rfl, _, ⟨rfl, hv₁⟩, _, _, _, _, v₂, rfl, _, ⟨rfl, hv₂⟩, _, _, _, _, v₃,
      rfl, _, ⟨rfl, hv₃⟩, rfl, rfl⟩ := hmeans
    have hfirst := hcords 0
    have hsecond := hcords 1
    rw [hv₃, hv₂, hv₁] at hfirst hsecond
    exact ⟨rfl, hfirst, hsecond⟩
  · exact absurd hstops not_stops_sharing

/-- After a program each count is the number of references that there are, nothing that can be
reached was released, and everything that is live can be reached. -/
theorem programs_count (hadmits : language.Admits ops (initial : Store ι κ) .initial)
    (hrun : language.runAll ops (initial : Store ι κ) = .ok (answers, s)) :
    Owned s.heap s.cells s.refs ∧
      (∀ a, Reach s.heap s.refs a → ∃ n, s.heap.node? a = some n) ∧
      ∀ a n, s.heap.node? a = some n → a ∈ s.cells ∨ Reach s.heap s.refs a := by
  obtain ⟨v, _, hw⟩ := (simulates initial ∅).of_runAll (fun _ _ _ _ ↦ Set.notMem_empty _)
    rest_initial hadmits hrun
  have ho := hw.owned_only
  refine ⟨ho, fun a ha ↦ (ho.of_reach ha).2, fun a n ha ↦ ?_⟩
  by_cases hcell : a ∈ s.cells
  · exact .inl hcell
  · exact .inr (ho.reach_of_live hcell ha)

omit [Target] in
/-- The tree that two cords share has two references. -/
theorem programs_count_sharing :
    letI : Target := ⟨64, .inr rfl⟩
    ∃ answers s, language.runAll sharing initial = .ok (answers, s) ∧ s.heap.rc 0 = 2 ∧
      Owned s.heap s.cells s.refs := by
  let _ : Target := ⟨64, .inr rfl⟩
  exact ⟨_, _, rfl, rfl, (programs_count (admits_sharing 1).of_append.1 rfl).1⟩

/-- When the cords and the buffers of a program are dropped, every cell is released. -/
theorem programs_release {xs : List ι} {bs : List κ} (hxs : ∀ x, x ∈ xs) (hbs : ∀ b, b ∈ bs)
    (hadmits : language.Admits ops (initial : Store ι κ) .initial)
    (hrun : language.runAll ops (initial : Store ι κ) = .ok (answers, s)) :
    wp (do
      dropCords xs
      dropBuffers bs) (fun _ s' ↦ ∀ a, s'.heap.node? a = none) s := by
  obtain ⟨v, _, hw⟩ := (simulates initial ∅).of_runAll (fun _ _ _ _ ↦ Set.notMem_empty _)
    rest_initial hadmits hrun
  rw [wp_bind]
  apply wp_dropCords hw.toWorld
  intro s₁ v₁ n₁ hw₁ hcords
  apply wp_dropBuffers hw₁
  intro s₂ v₂ n₂ hw₂ hkept hbuffers
  have ho := hw₂.owned_only
  have hcords₂ : ∀ x, s₂.cords x = .inline .new := by
    intro x
    rw [hkept]
    exact hcords x (.inl (hxs x))
  rw [refs_eq_zero hcords₂, cells_eq_nil fun b ↦ hbuffers b (.inl (hbs b))] at ho
  exact ho.node?_eq_none

omit [Target] in
/-- The tree that two cords share is released with the second of them. -/
theorem programs_release_sharing :
    letI : Target := ⟨64, .inr rfl⟩
    ∃ answers s, language.runAll sharing initial = .ok (answers, s) ∧
      wp (do
        dropCords [0, 1]
        dropBuffers [0]) (fun _ s' ↦ ∀ a, s'.heap.node? a = none) s := by
  let _ : Target := ⟨64, .inr rfl⟩
  exact ⟨_, _, rfl, programs_release (by decide) (by decide) (admits_sharing 1).of_append.1 rfl⟩

/-- A program leaves the cords of the variables alone that none of its statements changes: they have
the handle and, in the heap, the nodes that they had, whatever ran before and whichever nodes they
share with other cords. -/
theorem programs_isolate {x : ι} (hadmits : language.Admits (ops ++ ops') (initial : Store ι κ) .initial)
    (hrun : language.runAll ops (initial : Store ι κ) = .ok (answers, s))
    (hrun' : language.runAll ops' s = .ok (answers', s')) (hx : ∀ op ∈ ops', x ∉ op.writes) :
    s'.cords x = s.cords x ∧ Kept (s.cords x).root s.heap s'.heap := by
  have hbefore := hadmits.of_append
  obtain ⟨v, hmeans, hw⟩ := (simulates initial ∅).of_runAll (fun _ _ _ _ ↦ Set.notMem_empty _)
    rest_initial hbefore.1 hrun
  have hwrites : ∀ op ∈ ops', ∀ y ∈ op.writes, y ∉ ({x} : Set ι) := by
    rintro op hop y hy rfl
    exact hx op hop hy
  obtain ⟨v', _, hw'⟩ := (simulates s {x}).of_runAll hwrites (hw.rebase)
    (hbefore.2 _ _ _ hrun hmeans) hrun'
  exact hw'.kept x rfl

omit [Target] in
/-- Cutting the first cord leaves the second one alone. -/
theorem programs_isolate_sharing :
    letI : Target := ⟨64, .inr rfl⟩
    ∃ answers s answers' s', language.runAll sharing initial = .ok (answers, s) ∧
      language.runAll (cutting 1) s = .ok (answers', s') ∧ s'.cords 1 = s.cords 1 ∧
      Kept (s.cords 1).root s.heap s'.heap := by
  let _ : Target := ⟨64, .inr rfl⟩
  have hwrites : ∀ op ∈ cutting 1, 1 ∉ op.writes := by
    intro op hop
    rw [List.mem_singleton.mp hop]
    exact fun hmem ↦ absurd (Set.mem_singleton_iff.mp hmem) (by decide)
  exact ⟨_, _, _, _, rfl, rfl, programs_isolate (admits_sharing 1) rfl rfl hwrites⟩

/-- After a program the check of the library finds nothing in any of the cords. -/
theorem programs_validate (x : ι) (exhaustive : Bool)
    (hadmits : language.Admits ops (initial : Store ι κ) .initial)
    (hrun : language.runAll ops (initial : Store ι κ) = .ok (answers, s)) :
    wp (view x) (fun c s' ↦ c.validate exhaustive = .ok () ∧ s' = s) s := by
  obtain ⟨v, _, hw⟩ := (simulates initial ∅).of_runAll (fun _ _ _ _ ↦ Set.notMem_empty _)
    rest_initial hadmits hrun
  apply wp_viewOf hw.toWorld
  intro c hs
  have hlen : c.len ≤ usizeMax := by
    rw [hs.len]
    exact hw.short x
  exact ⟨Cord.validate_eq_ok hs.valid hlen, rfl⟩

omit [Target] in
/-- The check finds nothing in two cords that share a tree. -/
theorem programs_validate_sharing :
    letI : Target := ⟨64, .inr rfl⟩
    ∃ answers s, language.runAll sharing initial = .ok (answers, s) ∧
      wp (view 1) (fun c s' ↦ c.validate true = .ok () ∧ s' = s) s := by
  let _ : Target := ⟨64, .inr rfl⟩
  exact ⟨_, _, rfl, programs_validate 1 true (admits_sharing 1).of_append.1 rfl⟩

/-- A program never uses what was released, and never reaches a branch that is meant to be
unreachable: it stops only with a panic that its meaning has, too. -/
theorem programs_only_panic {e : Fault}
    (hadmits : language.Admits ops (initial : Store ι κ) .initial)
    (hrun : language.runAll ops (initial : Store ι κ) = .error e) :
    language.Stops ops initial .initial e ∧ ∃ message, e = .panic message := by
  have hstops := (simulates initial ∅).stops (fun _ _ _ _ ↦ Set.notMem_empty _)
    rest_initial hadmits hrun
  exact ⟨hstops, hstops.of_refuses fun _ _ _ hrefuses ↦ StoreOp.panics_of_refuses hrefuses⟩

omit [Target] in
/-- Removing more bytes than there are panics. -/
theorem programs_only_panic_sharing :
    letI : Target := ⟨64, .inr rfl⟩
    ∃ e, language.runAll (sharing ++ cutting 4) initial = .error e ∧
      language.Stops (sharing ++ cutting 4) initial .initial e ∧ ∃ message, e = .panic message := by
  let _ : Target := ⟨64, .inr rfl⟩
  exact ⟨_, rfl, programs_only_panic (admits_sharing 4) rfl⟩

end Programs

end Store

end CordRs
