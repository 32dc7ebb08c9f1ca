import CordRs.RefHeap.Owned

/-!
# Programs over a reference counted heap

A program is a state transformer over heaps that may stop with a fault. `wp m Q h` says that `m`
run on `h` returns, without a fault, a value and a heap that satisfy `Q`; it is a total
correctness predicate. The primitive steps check that the cell they work on is live, and each of
them has a rule in terms of `RefHeap.Owned`.

## Main definitions

* `RefHeap.Prog`, `RefHeap.wp`, `RefHeap.Throws`.
* `RefHeap.read`, `RefHeap.write`, `RefHeap.alloc`, `RefHeap.free`, `RefHeap.refInc`,
  `RefHeap.refDec`, `RefHeap.refIsOne`.

## Main results

* `RefHeap.wp_bind`, `RefHeap.wp_mono`: the rules for composition and consequence.
* `RefHeap.wp_alloc`, `RefHeap.wp_write`, `RefHeap.wp_free`, `RefHeap.wp_refInc`,
  `RefHeap.wp_refDec`: the rules for the primitive steps.
-/

namespace RefHeap

/-- A fault type with a fault for the use of a released cell. -/
class HeapFault (ε : Type*) where
  /-- A released cell was used. -/
  dangling : ε

/-- A program over a heap that returns a value or stops with a fault. -/
abbrev Prog (ε N α : Type) := StateT (Heap N) (Except ε) α

section Wp

variable {σ ε α β : Type}

@[simp] theorem ok_bind (a : α) (f : α → Except ε β) : (Except.ok a >>= f) = f a := rfl

theorem exists_of_bind_eq_ok {x : Except ε α} {f : α → Except ε β} {b : β}
    (h : x >>= f = .ok b) : ∃ a, x = .ok a ∧ f a = .ok b := by
  cases x with
  | error e => cases h
  | ok a => exact ⟨a, rfl, h⟩

/-- The program returns from `s` without a fault, with a value and a state satisfying `Q`. -/
def wp (m : StateT σ (Except ε) α) (Q : α → σ → Prop) (s : σ) : Prop :=
  ∃ a s', m s = .ok (a, s') ∧ Q a s'

@[simp] theorem wp_pure (a : α) (Q : α → σ → Prop) (s : σ) :
    wp (pure a : StateT σ (Except ε) α) Q s ↔ Q a s := by
  constructor
  · rintro ⟨a', s', hrun, hQ⟩
    cases hrun
    exact hQ
  · exact fun hQ ↦ ⟨a, s, rfl, hQ⟩

@[simp] theorem wp_bind (m : StateT σ (Except ε) α) (f : α → StateT σ (Except ε) β)
    (Q : β → σ → Prop) (s : σ) : wp (m >>= f) Q s ↔ wp m (fun a s' ↦ wp (f a) Q s') s := by
  constructor
  · rintro ⟨b, s'', hrun, hQ⟩
    cases hm : m s with
    | error e =>
      have : (m >>= f) s = .error e := by
        change (m s >>= fun p ↦ f p.1 p.2) = .error e
        rw [hm]
        rfl
      rw [this] at hrun
      cases hrun
    | ok p =>
      have : (m >>= f) s = f p.1 p.2 := by
        change (m s >>= fun p ↦ f p.1 p.2) = f p.1 p.2
        rw [hm]
        rfl
      exact ⟨p.1, p.2, hm, b, s'', this ▸ hrun, hQ⟩
  · rintro ⟨a, s', hm, b, s'', hf, hQ⟩
    refine ⟨b, s'', ?_, hQ⟩
    change (m s >>= fun p ↦ f p.1 p.2) = .ok (b, s'')
    rw [hm]
    exact hf

theorem wp_mono {m : StateT σ (Except ε) α} {P Q : α → σ → Prop} {s : σ} (hm : wp m P s)
    (hPQ : ∀ a s', P a s' → Q a s') : wp m Q s := by
  obtain ⟨a, s', hrun, hP⟩ := hm
  exact ⟨a, s', hrun, hPQ a s' hP⟩

/-- A program has one result. -/
theorem wp_and {m : StateT σ (Except ε) α} {P Q : α → σ → Prop} {s : σ} (hP : wp m P s)
    (hQ : wp m Q s) : wp m (fun a s' ↦ P a s' ∧ Q a s') s := by
  obtain ⟨a, s', hrun, hPa⟩ := hP
  obtain ⟨b, s'', hrun', hQb⟩ := hQ
  rw [hrun] at hrun'
  cases hrun'
  exact ⟨a, s', hrun, hPa, hQb⟩

@[simp] theorem wp_map (g : α → β) (m : StateT σ (Except ε) α) (Q : β → σ → Prop) (s : σ) :
    wp (g <$> m) Q s ↔ wp m (fun a s' ↦ Q (g a) s') s := by
  rw [map_eq_pure_bind, wp_bind]
  simp only [wp_pure]

/-- A computation that does not touch the state. -/
@[simp] theorem wp_liftM (m : Except ε α) (Q : α → σ → Prop) (s : σ) :
    wp (liftM m : StateT σ (Except ε) α) Q s ↔ ∃ a, m = .ok a ∧ Q a s := by
  constructor
  · rintro ⟨a, s', hrun, hQ⟩
    cases m with
    | error e => cases hrun
    | ok b =>
      cases hrun
      exact ⟨a, rfl, hQ⟩
  · rintro ⟨a, rfl, hQ⟩
    exact ⟨a, s, rfl, hQ⟩

/-- The program stops with a fault. -/
def Throws (m : StateT σ (Except ε) α) (e : ε) (s : σ) : Prop := m s = .error e

theorem throws_throw (e : ε) (s : σ) : Throws (throw e : StateT σ (Except ε) α) e s := rfl

theorem Throws.bind {m : StateT σ (Except ε) α} {e : ε} {s : σ} (hm : Throws m e s)
    (f : α → StateT σ (Except ε) β) : Throws (m >>= f) e s := by
  change (m s >>= fun p ↦ f p.1 p.2) = .error e
  rw [show m s = .error e from hm]
  rfl

/-- A program that returns is followed by one that stops. -/
theorem throws_bind {m : StateT σ (Except ε) α} {f : α → StateT σ (Except ε) β} {e : ε} {s : σ}
    (hm : wp m (fun a s' ↦ Throws (f a) e s') s) : Throws (m >>= f) e s := by
  obtain ⟨a, s', hrun, hf⟩ := hm
  change (m s >>= fun p ↦ f p.1 p.2) = .error e
  rw [hrun]
  exact hf

theorem throws_liftM {m : Except ε α} {e : ε} (hm : m = .error e) (s : σ) :
    Throws (liftM m : StateT σ (Except ε) α) e s := by
  subst hm
  rfl

end Wp

/-! ### Primitive steps -/

section Steps

variable {ε N : Type} [HeapFault ε]

/-- The live cell at an address. -/
def cell (a : Addr) : Prog ε N (Cell N) := fun h ↦
  match h.get? a with
  | some c => .ok (c, h)
  | none => .error HeapFault.dangling

/-- Read the node at an address. -/
def read (a : Addr) : Prog ε N N := do
  let c ← cell a
  pure c.node

/-- Overwrite the node at an address. -/
def write (a : Addr) (n : N) : Prog ε N Unit := do
  let c ← cell a
  modify fun h ↦ h.put a (some ⟨c.refcount, n⟩)

/-- Allocate a cell with a count of one. -/
def alloc (n : N) : Prog ε N Addr := fun h ↦ .ok (h.size, h.push ⟨1, n⟩)

/-- Release a cell. -/
def free (a : Addr) : Prog ε N Unit := do
  let _ ← (cell a : Prog ε N (Cell N))
  modify fun h ↦ h.put a none

/-- Add a reference to a cell. -/
def refInc (a : Addr) : Prog ε N Unit := do
  let c ← cell a
  modify fun h ↦ h.put a (some ⟨c.refcount + 1, c.node⟩)

/-- Drop a reference to a cell unless it is the last one, and say whether others remain. -/
def refDec (a : Addr) : Prog ε N Bool := do
  let c ← cell a
  if c.refcount = 1 then
    pure false
  else
    modify fun h ↦ h.put a (some ⟨c.refcount - 1, c.node⟩)
    pure true

/-- Whether a cell has exactly one reference. -/
def refIsOne (a : Addr) : Prog ε N Bool := do
  let c ← (cell a : Prog ε N (Cell N))
  pure (c.refcount = 1)

variable {h : Heap N} {a : Addr} {n : N}

theorem wp_cell {c : Cell N} (ha : h.get? a = some c) {Q : Cell N → Heap N → Prop} (hQ : Q c h) :
    wp (cell a : Prog ε N (Cell N)) Q h := by
  refine ⟨c, h, ?_, hQ⟩
  simp only [cell, ha]

omit [HeapFault ε] in
private theorem wp_modify {f : Heap N → Heap N} {Q : Unit → Heap N → Prop} (hQ : Q () (f h)) :
    wp (modify f : Prog ε N Unit) Q h := ⟨(), f h, rfl, hQ⟩

theorem wp_read (ha : h.node? a = some n) {Q : N → Heap N → Prop} (hQ : Q n h) :
    wp (read a : Prog ε N N) Q h := by
  obtain ⟨r, hc⟩ := Heap.exists_get?_of_node? ha
  rw [read, wp_bind]
  refine wp_cell hc ?_
  rw [wp_pure]
  exact hQ

theorem wp_refIsOne (ha : h.node? a = some n) {Q : Bool → Heap N → Prop}
    (hQ : Q (decide (h.rc a = 1)) h) : wp (refIsOne a : Prog ε N Bool) Q h := by
  obtain ⟨r, hc⟩ := Heap.exists_get?_of_node? ha
  rw [refIsOne, wp_bind]
  refine wp_cell hc ?_
  rw [wp_pure]
  rwa [Heap.rc_of_get? hc] at hQ

variable [Pointers N] {Z : List Addr} {R : Multiset Addr}

omit [HeapFault ε] in
/-- A new cell is at an address without a live one and handed out opened. -/
theorem wp_alloc_new (ho : Owned h Z R) {Q : Addr → Heap N → Prop}
    (hQ : ∀ a h', h.node? a = none → Owned h' (a :: Z) R → Grows h h' → h'.node? a = some n →
      Q a h') :
    wp (alloc n : Prog ε N Addr) Q h := by
  refine ⟨h.size, h.push ⟨1, n⟩, rfl, hQ _ _ ?_ (ho.push n) (Grows.push h _) ?_⟩
  · rw [Heap.node?, Heap.get?_size, Option.map_none]
  · exact Heap.node?_of_get? (Heap.get?_push_self _)

omit [HeapFault ε] in
theorem wp_alloc (ho : Owned h Z R) {Q : Addr → Heap N → Prop}
    (hQ : ∀ a h', Owned h' (a :: Z) R → Grows h h' → h'.node? a = some n → Q a h') :
    wp (alloc n : Prog ε N Addr) Q h :=
  wp_alloc_new ho fun a h' _ ↦ hQ a h'

/-- Overwriting an opened cell changes nothing else. -/
theorem wp_write_only (ho : Owned h Z R) (ha : a ∈ Z) {Q : Unit → Heap N → Prop}
    (hQ : ∀ h', Owned h' Z R → (∀ x ≠ a, h'.get? x = h.get? x) →
      h'.node? a = some n → Q () h') :
    wp (write a n : Prog ε N Unit) Q h := by
  have hperm := List.perm_cons_erase ha
  have ho' := ho.perm hperm
  have hlt := ho'.lt_size_of_opened List.mem_cons_self
  have hone := ho'.one a List.mem_cons_self
  cases hc : h.get? a with
  | none => simp [Heap.rc, hc] at hone
  | some c =>
    rw [Heap.rc_of_get? hc] at hone
    rw [write, wp_bind]
    refine wp_cell hc (wp_modify ?_)
    rw [hone]
    exact hQ _ ((ho'.putOpened n).perm hperm.symm) (fun x hx ↦ Heap.get?_put_ne hx _)
      (Heap.node?_of_get? (Heap.get?_put_self hlt _))

theorem wp_write (ho : Owned h Z R) (ha : a ∈ Z) {Q : Unit → Heap N → Prop}
    (hQ : ∀ h', Owned h' Z R → (∀ x ≠ a, h'.node? x = h.node? x) →
      h'.node? a = some n → Q () h') :
    wp (write a n : Prog ε N Unit) Q h :=
  wp_write_only ho ha fun h' ho' hne ↦
    hQ h' ho' fun x hx ↦ Heap.node?_eq_of_get?_eq (hne x hx)

omit [Pointers N] in
/-- Releasing a live cell changes nothing else, whoever refers to it. -/
theorem wp_free_only (ha : h.node? a = some n) {Q : Unit → Heap N → Prop}
    (hQ : ∀ h', h'.get? a = none → (∀ x ≠ a, h'.get? x = h.get? x) → Q () h') :
    wp (free a : Prog ε N Unit) Q h := by
  obtain ⟨r, hc⟩ := Heap.exists_get?_of_node? ha
  rw [free, wp_bind]
  exact wp_cell hc (wp_modify (hQ _ (Heap.get?_put_self (Heap.lt_size_of_get? hc) _)
    fun x hx ↦ Heap.get?_put_ne hx _))

theorem wp_free (ho : Owned h (a :: Z) R) {Q : Unit → Heap N → Prop}
    (hQ : ∀ h', Owned h' Z R → (∀ x ≠ a, h'.node? x = h.node? x) → Q () h') :
    wp (free a : Prog ε N Unit) Q h := by
  have hone := ho.one a List.mem_cons_self
  cases hc : h.get? a with
  | none => simp [Heap.rc, hc] at hone
  | some c =>
    refine wp_free_only (Heap.node?_of_get? hc) fun h' hnone hne ↦ hQ h' ?_ fun x hx ↦
      Heap.node?_eq_of_get?_eq (hne x hx)
    refine Owned.of_released (U := [a]) ho (fun x hx ↦ ?_) fun x hx ↦ ?_
    · rw [List.mem_singleton.mp hx, hnone]
    · exact hne x fun hxa ↦ hx (List.mem_singleton.mpr hxa)

/-- A reference may be added to whatever is reachable from the references held. -/
theorem wp_refInc (ho : Owned h Z R) (ha : Reach h R a) {Q : Unit → Heap N → Prop}
    (hQ : ∀ h', Owned h' Z (a ::ₘ R) → (∀ x, h'.node? x = h.node? x) → Q () h') :
    wp (refInc a : Prog ε N Unit) Q h := by
  obtain ⟨haZ, n, hn⟩ := ho.of_reach ha
  obtain ⟨r, hc⟩ := Heap.exists_get?_of_node? hn
  rw [refInc, wp_bind]
  exact wp_cell hc (wp_modify (hQ _ (ho.incr hc haZ) (Heap.node?_put_same hc)))

/-- Dropping a reference keeps the cell when others remain and changes nothing otherwise. -/
theorem wp_refDec (ho : Owned h Z (a ::ₘ R)) {Q : Bool → Heap N → Prop}
    (hlast : h.rc a = 1 → Q false h)
    (hmore : ∀ h', Owned h' Z R → (∀ x, h'.node? x = h.node? x) → Q true h') :
    wp (refDec a : Prog ε N Bool) Q h := by
  obtain ⟨-, n, hn⟩ := ho.of_mem (Multiset.mem_cons_self a R)
  obtain ⟨r, hc⟩ := Heap.exists_get?_of_node? hn
  have hpos := ho.pos a _ hc
  rw [refDec, wp_bind]
  refine wp_cell hc ?_
  by_cases hr : r = 1
  · rw [if_pos hr, wp_pure]
    exact hlast ((Heap.rc_of_get? hc).trans hr)
  · rw [if_neg hr, wp_bind]
    obtain ⟨k, rfl⟩ : ∃ k, r = k + 1 := ⟨r - 1, by simp only at hpos; omega⟩
    have hk : 0 < k := by omega
    refine wp_modify ?_
    rw [wp_pure]
    exact hmore _ (ho.decr hc hk) (Heap.node?_put_same hc)

/-- Add a reference to each of a list of cells. -/
def refAll : List Addr → Prog ε N Unit
  | [] => pure ()
  | a :: as => do
    refInc a
    refAll as

theorem wp_refAll {as : List Addr} (ho : Owned h Z R) (has : ∀ a ∈ as, Reach h R a)
    {Q : Unit → Heap N → Prop}
    (hQ : ∀ h', Owned h' Z ((as : Multiset Addr) + R) → (∀ x, h'.node? x = h.node? x) → Q () h') :
    wp (refAll as : Prog ε N Unit) Q h := by
  induction as generalizing h R with
  | nil => exact (wp_pure _ _ _).mpr (hQ h (by simpa using ho) fun _ ↦ rfl)
  | cons a as ih =>
    rw [refAll, wp_bind]
    refine wp_refInc ho (has a List.mem_cons_self) fun h₁ ho₁ hn₁ ↦ ?_
    refine ih ho₁ (fun b hb ↦ ?_) fun h₂ ho₂ hn₂ ↦ ?_
    · exact ((has b (List.mem_cons_of_mem _ hb)).transfer fun x _ ↦ hn₁ x).mono
        (Multiset.le_cons_self _ _)
    · refine hQ h₂ (ho₂.congr ?_) fun x ↦ (hn₂ x).trans (hn₁ x)
      rw [← Multiset.cons_coe, Multiset.cons_add, Multiset.add_cons]

end Steps

end RefHeap
