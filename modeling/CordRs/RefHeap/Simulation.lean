import CordRs.RefHeap.Program

/-!
# Programs of statements and what they mean

A statement runs on a state and has a meaning on a value that the state stands for: it relates the
value before to an answer and to the value after, unless it is refused. What it does to the value may
depend on the state it is run in. A relation between states and values that each statement keeps is
kept by every program, and the program answers, or stops, as it does on the values.

## Main definitions

* `RefHeap.Language`: statements, how they run, what they mean, and when they are refused.
* `RefHeap.Language.runAll`, `RefHeap.Language.MeansAll`, `RefHeap.Language.Stops`: programs.
* `RefHeap.Language.Simulates`: what a relation has to satisfy at a single statement.
* `RefHeap.runOn`: steps of a client with a state of its own.

## Main results

* `RefHeap.Language.Simulates.runAll`: every program refines its meaning.
* `RefHeap.Language.Simulates.of_runAll`: the relation is an invariant of the runs.
-/

namespace RefHeap

/-- Statements on states `σ` that mean something on values `τ`. -/
structure Language (σ τ Op Ans ε : Type) where
  run : Op → StateT σ (Except ε) Ans
  Means : Op → σ → τ → Ans → τ → Prop
  refuses : Op → τ → Option ε
  Fits : Op → σ → τ → Prop

namespace Language

variable {σ τ Op Ans ε : Type} (L : Language σ τ Op Ans ε)

/-- Run a program. -/
def runAll : List Op → StateT σ (Except ε) (List Ans)
  | [] => pure []
  | op :: ops => do
    let answer ← L.run op
    let answers ← runAll ops
    pure (answer :: answers)

/-- A program runs after another one. -/
theorem runAll_append (ops ops' : List Op) : L.runAll (ops ++ ops') =
    (do
      let answers ← L.runAll ops
      let answers' ← L.runAll ops'
      pure (answers ++ answers')) := by
  induction ops with
  | nil => simp [runAll]
  | cons op ops ih => simp [runAll, ih]

/-- A program answers and leaves a value behind. Each statement means what it does in the state that
the ones before it lead to. -/
def MeansAll : List Op → σ → τ → List Ans → τ → Prop
  | [], _, v, answers, v' => answers = [] ∧ v' = v
  | op :: ops, s, v, answers, v' => L.refuses op v = none ∧ ∃ answer rest s₁ v₁,
      answers = answer :: rest ∧ L.run op s = .ok (answer, s₁) ∧ L.Means op s v answer v₁ ∧
        MeansAll ops s₁ v₁ rest v'

/-- A program stops at a statement that is refused. -/
def Stops : List Op → σ → τ → ε → Prop
  | [], _, _, _ => False
  | op :: ops, s, v, e => L.refuses op v = some e ∨
      L.refuses op v = none ∧ ∃ answer s₁ v₁, L.run op s = .ok (answer, s₁) ∧
        L.Means op s v answer v₁ ∧ Stops ops s₁ v₁ e

/-- Each statement of a program fits the state it is run in, if the ones before it are not
refused. -/
def Admits : List Op → σ → τ → Prop
  | [], _, _ => True
  | op :: ops, s, v => L.Fits op s v ∧ (L.refuses op v = none → ∀ answer s' v',
      L.run op s = .ok (answer, s') → L.Means op s v answer v' → Admits ops s' v')

/-- The relation is kept by the statements that satisfy `P`, and these do what they mean. -/
structure Simulates (P : Op → Prop) (I : σ → τ → Prop) : Prop where
  step : ∀ op s v, P op → I s v → L.Fits op s v → L.refuses op v = none →
    wp (L.run op) (fun answer s' ↦ ∃ v', L.Means op s v answer v' ∧ I s' v') s
  stop : ∀ op s v e, P op → I s v → L.Fits op s v → L.refuses op v = some e →
    Throws (L.run op) e s

variable {L} {P : Op → Prop} {I : σ → τ → Prop} {ops : List Op} {s : σ} {v : τ}

/-- The two parts of a program. -/
theorem Admits.of_append {ops' : List Op} (hadmits : L.Admits (ops ++ ops') s v) :
    L.Admits ops s v ∧ ∀ answers s' v', L.runAll ops s = .ok (answers, s') →
      L.MeansAll ops s v answers v' → L.Admits ops' s' v' := by
  induction ops generalizing s v with
  | nil =>
    refine ⟨trivial, ?_⟩
    rintro answers s' v' hrun ⟨-, rfl⟩
    cases hrun
    exact hadmits
  | cons op ops ih =>
    obtain ⟨hfits, hnext⟩ := hadmits
    refine ⟨⟨hfits, fun hgo answer s' v' hrun hmeans ↦ ?_⟩, ?_⟩
    · exact (ih (hnext hgo answer s' v' hrun hmeans)).1
    · rintro _ s' v' hrun ⟨hgo, answer, rest, s₁, v₁, rfl, hop, hmeans, hmeansAll⟩
      obtain ⟨⟨answer', s₂⟩, hop', hrest⟩ := exists_of_bind_eq_ok hrun
      rw [hop] at hop'
      cases hop'
      obtain ⟨⟨rest', s₃⟩, hops, hend⟩ := exists_of_bind_eq_ok hrest
      cases hend
      exact (ih (hnext hgo answer s₁ v₁ hop hmeans)).2 rest s' v' hops hmeansAll

/-- What a program stops with is what some statement is refused with. -/
theorem Stops.of_refuses {F : ε → Prop} {e : ε} (hstops : L.Stops ops s v e)
    (hF : ∀ op v e, L.refuses op v = some e → F e) : F e := by
  induction ops generalizing s v with
  | nil => exact hstops.elim
  | cons op ops ih =>
    rcases hstops with hrefuses | ⟨_, _, s₁, v₁, _, _, hstops⟩
    · exact hF op v e hrefuses
    · exact ih hstops

/-- Every program refines its meaning: it answers and leaves a state behind as it does on the
values, or it stops as it does on them. -/
theorem Simulates.runAll (hsim : L.Simulates P I) (hops : ∀ op ∈ ops, P op) (hI : I s v)
    (hadmits : L.Admits ops s v) :
    wp (L.runAll ops) (fun answers s' ↦ ∃ v', L.MeansAll ops s v answers v' ∧ I s' v') s ∨
      ∃ e, Throws (L.runAll ops) e s ∧ L.Stops ops s v e := by
  induction ops generalizing s v with
  | nil => exact .inl ((wp_pure _ _ _).mpr ⟨v, ⟨rfl, rfl⟩, hI⟩)
  | cons op ops ih =>
    obtain ⟨hfits, hnext⟩ := hadmits
    have hP := hops op List.mem_cons_self
    cases hrefuses : L.refuses op v with
    | some e =>
      have hthrows := hsim.stop op s v e hP hI hfits hrefuses
      exact .inr ⟨e, hthrows.bind _, .inl hrefuses⟩
    | none =>
      have hstep := hsim.step op s v hP hI hfits hrefuses
      obtain ⟨answer, s₁, hrun, v₁, hmeans, hI₁⟩ := hstep
      have hops₁ : ∀ op ∈ ops, P op := fun op' hmem ↦ hops op' (List.mem_cons_of_mem _ hmem)
      rcases ih hops₁ hI₁ (hnext hrefuses answer s₁ v₁ hrun hmeans) with hwp | ⟨e, hthrows, hstops⟩
      · left
        simp only [Language.runAll, wp_bind, wp_pure]
        refine ⟨answer, s₁, hrun, wp_mono hwp ?_⟩
        rintro rest s₂ ⟨v₂, hmeans₂, hI₂⟩
        exact ⟨v₂, ⟨hrefuses, answer, rest, s₁, v₁, rfl, hrun, hmeans, hmeans₂⟩, hI₂⟩
      · right
        refine ⟨e, ?_, .inr ⟨hrefuses, answer, s₁, v₁, hrun, hmeans, hstops⟩⟩
        rw [Language.runAll]
        apply throws_bind
        exact ⟨answer, s₁, hrun, hthrows.bind _⟩

/-- The relation holds after every run that returns. -/
theorem Simulates.of_runAll (hsim : L.Simulates P I) (hops : ∀ op ∈ ops, P op) (hI : I s v)
    (hadmits : L.Admits ops s v) {answers : List Ans} {s' : σ}
    (hrun : L.runAll ops s = .ok (answers, s')) : ∃ v', L.MeansAll ops s v answers v' ∧ I s' v' := by
  rcases hsim.runAll hops hI hadmits with ⟨answers', s'', hrun', hresult⟩ | ⟨e, hthrows, _⟩
  · rw [hrun] at hrun'
    cases hrun'
    exact hresult
  · rw [Throws, hrun] at hthrows
    cases hthrows

/-- A program stops only as it does on the values. -/
theorem Simulates.stops (hsim : L.Simulates P I) (hops : ∀ op ∈ ops, P op) (hI : I s v)
    (hadmits : L.Admits ops s v) {e : ε} (hrun : L.runAll ops s = .error e) : L.Stops ops s v e := by
  rcases hsim.runAll hops hI hadmits with ⟨_, _, hrun', _⟩ | ⟨e', hthrows, hstops⟩
  · rw [hrun] at hrun'
    cases hrun'
  · rw [Throws, hrun] at hthrows
    cases hthrows
    exact hstops

end Language

/-! ### Clients with a state of their own -/

section Clients

variable {ω σ Ans ε : Type} {f : ω → StateT σ (Except ε) (ω × Ans)} {w : ω} {s : σ}

/-- Run a step of a client that has the state `ω` beside the state of the machine. -/
def runOn (f : ω → StateT σ (Except ε) (ω × Ans)) : StateT (ω × σ) (Except ε) Ans := fun s ↦ do
  let ((w, answer), s') ← f s.1 s.2
  pure (answer, (w, s'))

theorem wp_runOn {Q : Ans → ω × σ → Prop} :
    wp (runOn f) Q (w, s) ↔ wp (f w) (fun r s' ↦ Q r.2 (r.1, s')) s := by
  constructor
  · rintro ⟨answer, s', hrun, hQ⟩
    obtain ⟨⟨⟨w', answer'⟩, s''⟩, hf, hrest⟩ := exists_of_bind_eq_ok hrun
    cases hrest
    exact ⟨_, _, hf, hQ⟩
  · rintro ⟨⟨w', answer⟩, s', hf, hQ⟩
    refine ⟨answer, (w', s'), ?_, hQ⟩
    rw [runOn, hf]
    rfl

theorem throws_runOn {e : ε} (hf : Throws (f w) e s) : Throws (runOn f) e (w, s) := by
  rw [Throws] at hf ⊢
  rw [runOn, hf]
  rfl

theorem throws_of_runOn {e : ε} (hf : Throws (runOn f) e (w, s)) : Throws (f w) e s := by
  rw [Throws, runOn] at hf
  cases hrun : f w s with
  | error e' =>
    rw [hrun] at hf
    cases hf
    exact hrun
  | ok r =>
    rw [hrun] at hf
    cases hf

end Clients

end RefHeap
