import CordRs.RefHeap.Program

/-!
# Heaps whose nodes stand for others

A heap of stored nodes represents a heap of nodes when the same addresses are live, the counts are
the same, and each stored node stands for the node at its address. A program on stored nodes refines
a program on nodes when it returns from every heap that represents one the other returns from, with
a value that stands for the other's and a heap that represents the other's. Nothing is said where
the program on nodes stops with a fault.

## Main definitions

* `RefHeap.Represents`, `RefHeap.Refines`, `RefHeap.RefinesIf`.

## Main results

* `RefHeap.Refines.bind`, `RefHeap.RefinesIf.bind`, `RefHeap.RefinesIf.mapM`: programs refine as
  their parts do.
* `RefHeap.refines_read`, `RefHeap.refines_write`, `RefHeap.refines_alloc`, `RefHeap.refines_free`,
  `RefHeap.refines_refInc`, `RefHeap.refines_refDec`, `RefHeap.refines_refIsOne`: the primitive
  steps.
-/

namespace RefHeap

variable {ε N' N α' α β' β γ : Type} {rel : N' → N → Prop}

/-- Two cells with the same count and nodes of which one stands for the other. -/
structure CellRel (rel : N' → N → Prop) (c' : Cell N') (c : Cell N) : Prop where
  refcount_eq : c'.refcount = c.refcount
  node : rel c'.node c.node

/-- Each stored node stands for the node at its address. -/
structure Represents (rel : N' → N → Prop) (h' : Heap N') (h : Heap N) : Prop where
  size_eq : h'.size = h.size
  get?_rel : ∀ a, Option.Rel (CellRel rel) (h'.get? a) (h.get? a)

/-- A program on stored nodes returns what stands for what a program on nodes returns. -/
def Refines (rel : N' → N → Prop) (r : α' → α → Prop) (m' : Prog ε N' α') (m : Prog ε N α) : Prop :=
  ∀ h' h, Represents rel h' h → ∀ a k, m h = .ok (a, k) →
    wp m' (fun a' k' ↦ r a' a ∧ Represents rel k' k) h'

/-- It does so from the heaps that satisfy `P`. -/
def RefinesIf (rel : N' → N → Prop) (P : Heap N → Prop) (r : α' → α → Prop) (m' : Prog ε N' α')
    (m : Prog ε N α) : Prop :=
  ∀ h' h, Represents rel h' h → P h → ∀ a k, m h = .ok (a, k) →
    wp m' (fun a' k' ↦ r a' a ∧ Represents rel k' k) h'

namespace Represents

variable {h' : Heap N'} {h : Heap N} {a : Addr}

theorem empty : Represents rel Heap.empty Heap.empty := by
  refine ⟨rfl, fun a ↦ ?_⟩
  simp only [Heap.get?, Heap.empty, List.getElem?_nil]
  exact .none

/-- The cell at an address is live in both heaps. -/
theorem exists_get? {c : Cell N} (hrep : Represents rel h' h) (ha : h.get? a = some c) :
    ∃ c', h'.get? a = some c' ∧ CellRel rel c' c := by
  have hrel := hrep.get?_rel a
  rw [ha] at hrel
  cases hc' : h'.get? a with
  | none =>
    rw [hc'] at hrel
    cases hrel
  | some c' =>
    rw [hc'] at hrel
    cases hrel with
    | some hcell => exact ⟨c', rfl, hcell⟩

theorem put {c' : Option (Cell N')} {c : Option (Cell N)} (hrep : Represents rel h' h)
    (ha : a < h.size) (hc : Option.Rel (CellRel rel) c' c) :
    Represents rel (h'.put a c') (h.put a c) := by
  refine ⟨by rw [Heap.size_put, Heap.size_put, hrep.size_eq], fun b ↦ ?_⟩
  by_cases hba : b = a
  · rw [hba, Heap.get?_put_self (hrep.size_eq ▸ ha), Heap.get?_put_self ha]
    exact hc
  · rw [Heap.get?_put_ne hba, Heap.get?_put_ne hba]
    exact hrep.get?_rel b

theorem push {c' : Cell N'} {c : Cell N} (hrep : Represents rel h' h) (hc : CellRel rel c' c) :
    Represents rel (h'.push c') (h.push c) := by
  refine ⟨by rw [Heap.size_push, Heap.size_push, hrep.size_eq], fun b ↦ ?_⟩
  by_cases hb : b = h.size
  · subst hb
    rw [Heap.get?_push_self, ← hrep.size_eq, Heap.get?_push_self]
    exact .some hc
  · rw [Heap.get?_push_ne hb, Heap.get?_push_ne (hrep.size_eq ▸ hb)]
    exact hrep.get?_rel b

end Represents

/-! ### Programs -/

section Programs

variable {r : α' → α → Prop} {s : β' → β → Prop}

/-- The parts of a run. -/
theorem exists_of_run_bind {σ : Type} {m : StateT σ (Except ε) α} {f : α → StateT σ (Except ε) β}
    {h : σ} {p : β × σ} (hrun : (m >>= f) h = .ok p) :
    ∃ a k, m h = .ok (a, k) ∧ f a k = .ok p := by
  obtain ⟨⟨a, k⟩, hm, hf⟩ := exists_of_bind_eq_ok hrun
  exact ⟨a, k, hm, hf⟩

theorem refines_pure {a' : α'} {a : α} (hr : r a' a) :
    Refines rel r (pure a' : Prog ε N' α') (pure a) := by
  intro h' h hrep b k hrun
  cases hrun
  exact (wp_pure _ _ _).mpr ⟨hr, hrep⟩

/-- Nothing is asked for where the program on nodes stops. -/
theorem refines_throw (m' : Prog ε N' α') (e : ε) : Refines rel r m' (throw e : Prog ε N α) := by
  intro h' h _ b k hrun
  cases hrun

theorem Refines.bind {m' : Prog ε N' α'} {m : Prog ε N α} {f' : α' → Prog ε N' β'}
    {f : α → Prog ε N β} (hm : Refines rel r m' m)
    (hf : ∀ a' a, r a' a → Refines rel s (f' a') (f a)) :
    Refines rel s (m' >>= f') (m >>= f) := by
  intro h' h hrep b k hrun
  obtain ⟨a, h₁, hm₁, hf₁⟩ := exists_of_run_bind hrun
  rw [wp_bind]
  refine wp_mono (hm h' h hrep a h₁ hm₁) ?_
  rintro a' h₁' ⟨hr, hrep₁⟩
  exact hf a' a hr h₁' h₁ hrep₁ b k hf₁

/-- The values are the same. -/
theorem Refines.bind_eq {m' : Prog ε N' α} {m : Prog ε N α} {f' : α → Prog ε N' β'}
    {f : α → Prog ε N β} (hm : Refines rel Eq m' m) (hf : ∀ a, Refines rel s (f' a) (f a)) :
    Refines rel s (m' >>= f') (m >>= f) :=
  hm.bind fun _ a ha ↦ ha ▸ hf a

theorem Refines.restrict {m' : Prog ε N' α'} {m : Prog ε N α} (hm : Refines rel r m' m)
    (P : Heap N → Prop) : RefinesIf rel P r m' m := fun h' h hrep _ ↦ hm h' h hrep

/-- What the first step makes sure of is what the rest asks for. -/
theorem RefinesIf.bind {P : Heap N → Prop} {Q : α → Heap N → Prop} {m' : Prog ε N' α'}
    {m : Prog ε N α} {f' : α' → Prog ε N' β'} {f : α → Prog ε N β} (hm : RefinesIf rel P r m' m)
    (hpost : ∀ h a k, P h → m h = .ok (a, k) → Q a k)
    (hf : ∀ a' a, r a' a → RefinesIf rel (Q a) s (f' a') (f a)) :
    RefinesIf rel P s (m' >>= f') (m >>= f) := by
  intro h' h hrep hP b k hrun
  obtain ⟨a, h₁, hm₁, hf₁⟩ := exists_of_run_bind hrun
  rw [wp_bind]
  refine wp_mono (hm h' h hrep hP a h₁ hm₁) ?_
  rintro a' h₁' ⟨hr, hrep₁⟩
  exact hf a' a hr h₁' h₁ hrep₁ (hpost h a h₁ hP hm₁) b k hf₁

/-- A value that only the program on nodes makes something of. -/
theorem Refines.bind_right {m' : Prog ε N' α'} {m : Prog ε N α} {f : α → Prog ε N β}
    {q : α' → β → Prop} (hm : Refines rel r m' m)
    (hf : ∀ a' a, r a' a → ∃ b, f a = pure b ∧ q a' b) : Refines rel q m' (m >>= f) := by
  rw [← bind_pure m']
  refine hm.bind fun a' a ha ↦ ?_
  obtain ⟨b, hb, hq⟩ := hf a' a ha
  rw [hb]
  exact refines_pure hq

/-- Each step of a program meets its condition when its turn comes. -/
def StepsMeet (P : γ → Heap N → Prop) (f : γ → Prog ε N α) : List γ → Heap N → Prop
  | [], _ => True
  | x :: xs, h => P x h ∧ ∀ a k, f x h = .ok (a, k) → StepsMeet P f xs k

/-- A program refines another whose steps meet the conditions under which they are refined. -/
theorem RefinesIf.mapM {P : γ → Heap N → Prop} {f' : γ → Prog ε N' α} {f : γ → Prog ε N α}
    (hf : ∀ x, RefinesIf rel (P x) Eq (f' x) (f x)) (xs : List γ) :
    RefinesIf rel (StepsMeet P f xs) Eq (xs.mapM f') (xs.mapM f) := by
  induction xs with
  | nil => exact (refines_pure rfl).restrict _
  | cons x xs ih =>
    rw [List.mapM_cons, List.mapM_cons]
    refine RefinesIf.bind (Q := fun _ ↦ StepsMeet P f xs)
      (fun h' h hrep hmeets ↦ hf x h' h hrep hmeets.1)
      (fun h a k hmeets hrun ↦ hmeets.2 a k hrun) ?_
    rintro a _ rfl
    refine ih.bind (Q := fun _ _ ↦ True) (fun _ _ _ _ _ ↦ trivial) fun as _ has ↦ ?_
    exact (refines_pure (congrArg (a :: ·) has)).restrict _

end Programs

/-! ### Primitive steps -/

section Steps

variable [HeapFault ε] {a : Addr}

/-- A cell that is looked up is live, and the heap stays. -/
theorem get?_of_cell {h k : Heap N} {c : Cell N}
    (hrun : (cell a : Prog ε N (Cell N)) h = .ok (c, k)) : h.get? a = some c ∧ k = h := by
  cases hc : h.get? a with
  | none =>
    simp only [cell, hc] at hrun
    cases hrun
  | some c₁ =>
    simp only [cell, hc] at hrun
    cases hrun
    exact ⟨rfl, rfl⟩

theorem heap_of_refIsOne {h k : Heap N} {one : Bool}
    (hrun : (refIsOne a : Prog ε N Bool) h = .ok (one, k)) : k = h := by
  obtain ⟨⟨c, h₁⟩, hcell, hpure⟩ := exists_of_bind_eq_ok hrun
  cases hpure
  exact (get?_of_cell hcell).2

theorem refines_cell :
    Refines rel (CellRel rel) (cell a : Prog ε N' (Cell N')) (cell a : Prog ε N (Cell N)) := by
  intro h' h hrep c k hrun
  obtain ⟨hc, rfl⟩ := get?_of_cell hrun
  obtain ⟨c', hc', hcell⟩ := hrep.exists_get? hc
  exact wp_cell hc' ⟨hcell, hrep⟩

theorem refines_read : Refines rel rel (read a : Prog ε N' N') (read a : Prog ε N N) :=
  refines_cell.bind fun _ _ hcell ↦ refines_pure hcell.node

theorem refines_refIsOne :
    Refines rel Eq (refIsOne a : Prog ε N' Bool) (refIsOne a : Prog ε N Bool) :=
  refines_cell.bind fun _ _ hcell ↦ refines_pure (by rw [hcell.refcount_eq])

/-- A live cell changes in the same way. -/
private theorem refines_put {f' : Cell N' → Option (Cell N')} {f : Cell N → Option (Cell N)}
    (hf : ∀ c' c, CellRel rel c' c → Option.Rel (CellRel rel) (f' c') (f c)) :
    Refines rel Eq
      (do let c ← (cell a : Prog ε N' (Cell N')); modify fun h ↦ h.put a (f' c))
      (do let c ← (cell a : Prog ε N (Cell N)); modify fun h ↦ h.put a (f c)) := by
  intro h' h hrep b k hrun
  obtain ⟨⟨c, h₁⟩, hcell, hput⟩ := exists_of_bind_eq_ok hrun
  obtain ⟨hc, rfl⟩ := get?_of_cell hcell
  cases hput
  obtain ⟨c', hc', hrel⟩ := hrep.exists_get? hc
  rw [wp_bind]
  exact wp_cell hc' ⟨(), _, rfl, rfl, hrep.put (Heap.lt_size_of_get? hc) (hf c' c hrel)⟩

theorem refines_write {n' : N'} {n : N} (hn : rel n' n) :
    Refines rel Eq (write a n' : Prog ε N' Unit) (write a n) :=
  refines_put fun _ _ hcell ↦ .some ⟨hcell.refcount_eq, hn⟩

theorem refines_free : Refines rel Eq (free a : Prog ε N' Unit) (free a : Prog ε N Unit) :=
  refines_put fun _ _ _ ↦ .none

theorem refines_refInc : Refines rel Eq (refInc a : Prog ε N' Unit) (refInc a : Prog ε N Unit) :=
  refines_put fun _ _ hcell ↦ .some ⟨congrArg (· + 1) hcell.refcount_eq, hcell.node⟩

omit [HeapFault ε] in
theorem refines_alloc {n' : N'} {n : N} (hn : rel n' n) :
    Refines rel Eq (alloc n' : Prog ε N' Addr) (alloc n : Prog ε N Addr) := by
  intro h' h hrep b k hrun
  cases hrun
  exact ⟨h'.size, _, rfl, hrep.size_eq, hrep.push ⟨rfl, hn⟩⟩

theorem refines_refDec : Refines rel Eq (refDec a : Prog ε N' Bool) (refDec a : Prog ε N Bool) := by
  intro h' h hrep b k hrun
  obtain ⟨⟨c, h₁⟩, hcell, hdec⟩ := exists_of_bind_eq_ok hrun
  obtain ⟨hc, rfl⟩ := get?_of_cell hcell
  obtain ⟨c', hc', hrel⟩ := hrep.exists_get? hc
  rw [refDec, wp_bind]
  refine wp_cell hc' ?_
  rw [hrel.refcount_eq]
  by_cases hone : c.refcount = 1
  · rw [if_pos hone]
    simp only [if_pos hone] at hdec
    cases hdec
    exact (wp_pure _ _ _).mpr ⟨rfl, hrep⟩
  · rw [if_neg hone]
    simp only [if_neg hone] at hdec
    cases hdec
    exact ⟨true, _, rfl, rfl, hrep.put (Heap.lt_size_of_get? hc) (.some ⟨rfl, hrel.node⟩)⟩

theorem refines_refAll (as : List Addr) :
    Refines rel Eq (refAll as : Prog ε N' Unit) (refAll as : Prog ε N Unit) := by
  induction as with
  | nil => exact refines_pure rfl
  | cons a as ih => exact refines_refInc.bind_eq fun _ ↦ ih

end Steps

end RefHeap
