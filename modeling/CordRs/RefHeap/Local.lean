import CordRs.RefHeap.Program

/-!
# Programs that stay in their part of the heap

A heap may be split into two parts that have no cell in common. A program is *local* if what it does
on one part it does on the whole heap, and leaves the other part as it is: it gets to a cell by a
reference or by allocating it, never by its place. The primitive steps are local, and so is what is
put together from local programs.

If nothing is reachable both from the references `R₁` and from `R₂`, the cells of `R₁` are a part
whose counts are exact for `R₁` alone. So what is proved about a local program while nobody else
holds a reference holds beside others from whose cells it is apart, and it stays apart from them.

## Main definitions

* `RefHeap.Heap.Splits`, `RefHeap.Local`, `RefHeap.Apart`, `RefHeap.Heap.within`.

## Main results

* `RefHeap.Local.wp_splits`: what a local program does on one part, it does on the whole heap.
* `RefHeap.Owned.within`: the counts are exact on the part of some of the references.
* `RefHeap.Heap.Splits.apart`: references into one part are apart from references into the other.
-/

namespace RefHeap

variable {ε N α β : Type}

/-- The cells of the heap are those of two parts that have no cell in common; what is allocated next
belongs to the first part. -/
structure Heap.Splits (h mine rest : Heap N) : Prop where
  size : h.size = mine.size
  le_size : rest.size ≤ mine.size
  get? : ∀ a, h.get? a = (mine.get? a).or (rest.get? a)
  disjoint : ∀ a c, mine.get? a = some c → rest.get? a = none

namespace Heap.Splits

variable {h mine rest : Heap N} {a : Addr} {c : Cell N} {n : N}

theorem get?_mine (hs : h.Splits mine rest) (ha : mine.get? a = some c) : h.get? a = some c := by
  rw [hs.get?, ha, Option.some_or]

theorem get?_rest (hs : h.Splits mine rest) (ha : rest.get? a = some c) : h.get? a = some c := by
  cases hmine : mine.get? a with
  | none => rw [hs.get?, hmine, Option.none_or, ha]
  | some d =>
    rw [hs.disjoint a d hmine] at ha
    cases ha

theorem node?_mine (hs : h.Splits mine rest) (ha : mine.node? a = some n) : h.node? a = some n := by
  obtain ⟨r, hr⟩ := Heap.exists_get?_of_node? ha
  exact Heap.node?_of_get? (hs.get?_mine hr)

theorem node?_rest (hs : h.Splits mine rest) (ha : rest.node? a = some n) : h.node? a = some n := by
  obtain ⟨r, hr⟩ := Heap.exists_get?_of_node? ha
  exact Heap.node?_of_get? (hs.get?_rest hr)

/-- A cell of the first part is overwritten or released. -/
theorem put (hs : h.Splits mine rest) (ha : mine.get? a = some c) (d : Option (Cell N)) :
    (h.put a d).Splits (mine.put a d) rest where
  size := by rw [Heap.size_put, Heap.size_put, hs.size]
  le_size := by rw [Heap.size_put]; exact hs.le_size
  get? b := by
    have hlt := Heap.lt_size_of_get? ha
    by_cases hb : b = a
    · subst hb
      rw [Heap.get?_put_self (hs.size ▸ hlt), Heap.get?_put_self hlt, hs.disjoint b c ha,
        Option.or_none]
    · rw [Heap.get?_put_ne hb, Heap.get?_put_ne hb, hs.get?]
  disjoint b e hb := by
    by_cases hba : b = a
    · exact hba ▸ hs.disjoint a c ha
    · rw [Heap.get?_put_ne hba] at hb
      exact hs.disjoint b e hb

/-- A new cell belongs to the first part. -/
theorem push (hs : h.Splits mine rest) (c : Cell N) : (h.push c).Splits (mine.push c) rest where
  size := by rw [Heap.size_push, Heap.size_push, hs.size]
  le_size := by rw [Heap.size_push]; exact hs.le_size.trans (Nat.le_succ _)
  get? a := by
    by_cases ha : a = mine.size
    · have hrest : rest.get? mine.size = none := by
        cases hget : rest.get? mine.size with
        | none => rfl
        | some d => exact absurd (Heap.lt_size_of_get? hget) (Nat.not_lt_of_le hs.le_size)
      rw [ha, Heap.get?_push_self, hrest, ← hs.size, Heap.get?_push_self, Option.or_none]
    · rw [Heap.get?_push_ne ha, Heap.get?_push_ne (hs.size ▸ ha), hs.get?]
  disjoint a d ha := by
    by_cases hsize : a = mine.size
    · cases hget : rest.get? a with
      | none => rfl
      | some e =>
        exact absurd (Heap.lt_size_of_get? hget) (Nat.not_lt_of_le (hsize ▸ hs.le_size))
    · rw [Heap.get?_push_ne hsize] at ha
      exact hs.disjoint a d ha

end Heap.Splits

/-- What the program does on one part of a heap, it does on the whole heap, and it leaves the other
part as it is. -/
class Local (p : Prog ε N α) : Prop where
  splits {h mine rest mine' : Heap N} {x : α} : h.Splits mine rest → p mine = .ok (x, mine') →
    ∃ h', p h = .ok (x, h') ∧ h'.Splits mine' rest

namespace Local

/-- A result on one part of the heap is a result on the whole heap. -/
theorem wp_splits {h mine rest : Heap N} {p : Prog ε N α} [hp : Local p]
    (hs : h.Splits mine rest) {Q : α → Heap N → Prop} (hQ : wp p Q mine) :
    wp p (fun x h' ↦ ∃ mine', h'.Splits mine' rest ∧ Q x mine') h := by
  obtain ⟨x, mine', hrun, hx⟩ := hQ
  obtain ⟨h', hrun', hs'⟩ := hp.splits hs hrun
  exact ⟨x, h', hrun', mine', hs', hx⟩

/-! ### Composition -/

instance pure (x : α) : Local (Pure.pure x : Prog ε N α) where
  splits {h _ _ _ _} hs hrun := by
    cases hrun
    exact ⟨h, rfl, hs⟩

instance throw (e : ε) : Local (MonadExcept.throw e : Prog ε N α) where
  splits _ hrun := by cases hrun

instance liftM (m : Except ε α) : Local (liftM m : Prog ε N α) where
  splits {h _ _ _ _} hs hrun := by
    cases m with
    | error e => cases hrun
    | ok y =>
      cases hrun
      exact ⟨h, rfl, hs⟩

instance bind (p : Prog ε N α) (f : α → Prog ε N β) [hp : Local p] [hf : ∀ x, Local (f x)] :
    Local (p >>= f) where
  splits {h mine rest mine' y} hs hrun := by
    obtain ⟨⟨x, mine₁⟩, hx, hy⟩ := exists_of_bind_eq_ok hrun
    obtain ⟨h₁, hx', hs₁⟩ := hp.splits hs hx
    obtain ⟨h', hy', hs'⟩ := (hf x).splits hs₁ hy
    refine ⟨h', ?_, hs'⟩
    change (p h >>= fun q ↦ f q.1 q.2) = .ok (y, h')
    rw [hx']
    exact hy'

/-- A local program goes on with one that is local whatever comes back. -/
theorem andThen {p : Prog ε N α} {f : α → Prog ε N β} [Local p] (hf : ∀ x, Local (f x)) :
    Local (p >>= f) := bind p f

instance ite (c : Prop) [Decidable c] (p q : Prog ε N α) [hp : Local p] [hq : Local q] :
    Local (if c then p else q) := by
  by_cases hc : c
  · rwa [if_pos hc]
  · rwa [if_neg hc]

/-! ### The primitive steps -/

variable [HeapFault ε]

instance cell (a : Addr) : Local (RefHeap.cell a : Prog ε N (Cell N)) where
  splits {h mine rest mine' c} hs hrun := by
    cases ha : mine.get? a with
    | none => simp [RefHeap.cell, ha] at hrun
    | some d =>
      simp only [RefHeap.cell, ha, Except.ok.injEq, Prod.mk.injEq] at hrun
      obtain ⟨rfl, rfl⟩ := hrun
      exact ⟨h, by simp only [RefHeap.cell, hs.get?_mine ha], hs⟩

/-- A cell is changed, or released. -/
theorem change (a : Addr) (f : Cell N → Option (Cell N)) :
    Local (do
      let c ← (RefHeap.cell a : Prog ε N (Cell N))
      modify fun h ↦ h.put a (f c)) where
  splits {h mine rest mine' x} hs hrun := by
    obtain ⟨⟨c, mine₁⟩, hc, hput⟩ := exists_of_bind_eq_ok hrun
    cases ha : mine.get? a with
    | none => simp [RefHeap.cell, ha] at hc
    | some d =>
      simp only [RefHeap.cell, ha, Except.ok.injEq, Prod.mk.injEq] at hc
      obtain ⟨rfl, rfl⟩ := hc
      cases hput
      refine ⟨h.put a (f d), ?_, hs.put ha (f d)⟩
      change (RefHeap.cell a h >>= fun q ↦ _) = _
      simp only [RefHeap.cell, hs.get?_mine ha]
      rfl

instance read (a : Addr) : Local (RefHeap.read a : Prog ε N N) := by
  unfold RefHeap.read
  infer_instance

instance write (a : Addr) (n : N) : Local (RefHeap.write a n : Prog ε N Unit) :=
  change a fun c ↦ some ⟨c.refcount, n⟩

instance free (a : Addr) : Local (RefHeap.free a : Prog ε N Unit) :=
  change a fun _ ↦ none

instance refInc (a : Addr) : Local (RefHeap.refInc a : Prog ε N Unit) :=
  change a fun c ↦ some ⟨c.refcount + 1, c.node⟩

omit [HeapFault ε] in
instance alloc (n : N) : Local (RefHeap.alloc n : Prog ε N Addr) where
  splits {h mine rest mine' a} hs hrun := by
    cases hrun
    refine ⟨h.push ⟨1, n⟩, ?_, hs.push _⟩
    rw [RefHeap.alloc, hs.size]

instance refDec (a : Addr) : Local (RefHeap.refDec a : Prog ε N Bool) where
  splits {h mine rest mine' x} hs hrun := by
    obtain ⟨⟨c, mine₁⟩, hc, hrest⟩ := exists_of_bind_eq_ok hrun
    cases ha : mine.get? a with
    | none => simp [RefHeap.cell, ha] at hc
    | some d =>
      simp only [RefHeap.cell, ha, Except.ok.injEq, Prod.mk.injEq] at hc
      obtain ⟨rfl, rfl⟩ := hc
      have hcell : (RefHeap.cell a : Prog ε N (Cell N)) h = .ok (d, h) := by
        simp only [RefHeap.cell, hs.get?_mine ha]
      by_cases hone : d.refcount = 1
      · simp only [hone, if_true] at hrest
        cases hrest
        refine ⟨h, ?_, hs⟩
        change (RefHeap.cell a h >>= fun q ↦ _) = _
        rw [hcell]
        simp only [ok_bind, hone, if_true]
        rfl
      · simp only [hone, if_false] at hrest
        cases hrest
        refine ⟨h.put a _, ?_, hs.put ha _⟩
        change (RefHeap.cell a h >>= fun q ↦ _) = _
        rw [hcell]
        simp only [ok_bind, hone, if_false]
        rfl

instance refIsOne (a : Addr) : Local (RefHeap.refIsOne a : Prog ε N Bool) := by
  unfold RefHeap.refIsOne
  infer_instance

instance refAll (as : List Addr) : Local (RefHeap.refAll as : Prog ε N Unit) := by
  induction as with
  | nil => exact Local.pure ()
  | cons a as ih =>
    unfold RefHeap.refAll
    infer_instance

end Local

/-! ### The part of some of the references -/

namespace Heap

variable (h : Heap N) (S : Set Addr) {a : Addr}

/-- The cells of a heap at the addresses of a set. -/
noncomputable def within : Heap N := by
  classical
  exact ⟨h.cells.mapIdx fun a c ↦ if a ∈ S then c else none⟩

@[simp] theorem size_within : (h.within S).size = h.size := by simp [within, size]

theorem get?_within_of_mem (ha : a ∈ S) : (h.within S).get? a = h.get? a := by
  simp [within, get?, ha]

theorem get?_within_of_notMem (ha : a ∉ S) : (h.within S).get? a = none := by
  cases hget : h.cells[a]? with
  | none => simp [within, get?, hget]
  | some c => simp [within, get?, hget, ha]

theorem node?_within_of_mem (ha : a ∈ S) : (h.within S).node? a = h.node? a :=
  node?_eq_of_get?_eq (get?_within_of_mem h S ha)

theorem node?_within_of_notMem (ha : a ∉ S) : (h.within S).node? a = none := by
  rw [node?, get?_within_of_notMem h S ha, Option.map_none]

/-- A heap splits into the cells of a set and the others. -/
theorem splits_within : h.Splits (h.within S) (h.within Sᶜ) where
  size := (size_within h S).symm
  le_size := by rw [size_within, size_within]
  get? a := by
    by_cases ha : a ∈ S
    · rw [get?_within_of_mem h S ha, get?_within_of_notMem h Sᶜ (not_not.mpr ha), Option.or_none]
    · rw [get?_within_of_notMem h S ha, get?_within_of_mem h Sᶜ ha, Option.none_or]
  disjoint a c hc := by
    by_cases ha : a ∈ S
    · exact get?_within_of_notMem h Sᶜ (not_not.mpr ha)
    · rw [get?_within_of_notMem h S ha] at hc
      cases hc

end Heap

section Apart

variable [Pointers N]

/-- Nothing is reachable both from the references `A` and from `B`. -/
def Apart (h : Heap N) (A B : Multiset Addr) : Prop := ∀ a, Reach h A a → ¬Reach h B a

variable {h h' mine rest : Heap N} {Y Z : List Addr} {A B : Multiset Addr} {a : Addr}

/-- What is reachable from two lots of references is reachable from one of them. -/
theorem Reach.or_of_add (ha : Reach h (A + B) a) : Reach h A a ∨ Reach h B a := by
  induction ha with
  | root ha => exact (Multiset.mem_add.mp ha).imp .root .root
  | child _ hn hc ih => exact ih.imp (fun hb ↦ hb.child hn hc) fun hb ↦ hb.child hn hc

/-- The cells that the references `A` reach, with the opened cells `Y`. -/
def partOf (h : Heap N) (Y : List Addr) (A : Multiset Addr) : Set Addr := {a | Reach h A a ∨ a ∈ Y}

namespace Owned

/-- A cell that is referred to from outside the part of `A` is not in it. -/
private theorem notMem_partOf (ho : Owned h (Y ++ Z) (A + B)) (hapart : Apart h A B) {b : Addr}
    {n : N} (hb : b ∉ partOf h Y A) (hbZ : b ∉ Z) (hn : h.node? b = some n)
    (ha : a ∈ Pointers.children n) : a ∉ partOf h Y A := by
  have hnot := not_or.mp hb
  have hbYZ : b ∉ Y ++ Z := by simp [hnot.2, hbZ]
  have hreach : Reach h B b := (ho.reach_of_live hbYZ hn).or_of_add.resolve_left hnot.1
  rintro (haA | haY)
  · exact hapart a haA (hreach.child hn ha)
  · refine (ho.of_reach (a := a) ?_).1 (List.mem_append_left Z haY)
    exact (hreach.child hn ha).mono (Multiset.le_add_left B A)

/-- A reference from the part of `A` leads into it. -/
private theorem mem_partOf {b : Addr} {n : N} (hb : b ∈ partOf h Y A) (hbY : b ∉ Y) (hn : h.node? b = some n)
    (ha : a ∈ Pointers.children n) : a ∈ partOf h Y A :=
  .inl ((hb.resolve_right hbY).child hn ha)

private theorem notMem_of_mem_partOf (ho : Owned h (Y ++ Z) (A + B)) (ha : a ∈ partOf h Y A) :
    a ∉ Z := by
  intro haZ
  rcases ha with haA | haY
  · have hreach : Reach h (A + B) a := haA.mono (Multiset.le_add_right A B)
    exact (ho.of_reach hreach).1 (List.mem_append_right Y haZ)
  · exact (List.nodup_append.mp ho.nodup).2.2 a haY a haZ rfl

/-- The cells of the part refer to one of its cells as often as all cells do, and to no other. -/
private theorem count_slotsOutside (ho : Owned h (Y ++ Z) (A + B)) (hapart : Apart h A B)
    (x i : Addr) [Decidable (x ∈ partOf h Y A)] :
    ((h.within (partOf h Y A)).slotsOutside Y i).count x =
      if x ∈ partOf h Y A then (h.slotsOutside (Y ++ Z) i).count x else 0 := by
  by_cases hi : i ∈ partOf h Y A
  · by_cases hY : i ∈ Y
    · simp [Heap.slotsOutside, hY]
    · have hYZ : i ∉ Y ++ Z := by simp [hY, ho.notMem_of_mem_partOf hi]
      rw [Heap.slotsOutside, Heap.slotsOutside, if_neg hY, if_neg hYZ,
        Heap.node?_within_of_mem h _ hi]
      split_ifs with hx
      · rfl
      · cases hn : h.node? i with
        | none => rfl
        | some n => exact List.count_eq_zero.mpr fun hc ↦ hx (mem_partOf hi hY hn hc)
  · have hnone : (h.within (partOf h Y A)).slotsOutside Y i = [] := by
      rw [Heap.slotsOutside, Heap.node?_within_of_notMem h _ hi]
      split_ifs <;> rfl
    rw [hnone, List.count_nil]
    split_ifs with hx
    · rw [Heap.slotsOutside]
      split_ifs with hYZ
      · rfl
      · have hZ : i ∉ Z := fun hmem ↦ hYZ (List.mem_append_right Y hmem)
        cases hn : h.node? i with
        | none => rfl
        | some n =>
          exact (List.count_eq_zero.mpr fun hc ↦ ho.notMem_partOf hapart hi hZ hn hc hx).symm
    · rfl

/-- The counts are exact for the references `A` on their part of the heap. -/
theorem within (ho : Owned h (Y ++ Z) (A + B)) (hapart : Apart h A B) :
    Owned (h.within (partOf h Y A)) Y A where
  nodup := (List.nodup_append.mp ho.nodup).1
  one z hz := by
    have hmem : z ∈ partOf h Y A := .inr hz
    rw [Heap.rc_eq_of_get?_eq (Heap.get?_within_of_mem h _ hmem)]
    exact ho.one z (List.mem_append_left Z hz)
  pos x c hc := by
    by_cases hx : x ∈ partOf h Y A
    · rw [Heap.get?_within_of_mem h _ hx] at hc
      exact ho.pos x c hc
    · rw [Heap.get?_within_of_notMem h _ hx] at hc
      cases hc
  count x := by
    classical
    have hcount := ho.count x
    simp only [Heap.inDegree, Heap.size_within, ho.count_slotsOutside hapart]
    by_cases hx : x ∈ partOf h Y A
    · have hB : B.count x = 0 := by
        refine Multiset.count_eq_zero_of_notMem fun hmem ↦ ?_
        rcases hx with hA | hY
        · exact hapart x hA (.root hmem)
        · exact (ho.of_mem (Multiset.mem_add.mpr (.inr hmem))).1 (List.mem_append_left Z hY)
      have hZ := ho.notMem_of_mem_partOf hx
      rw [Multiset.count_add, hB, add_zero, Heap.inDegree] at hcount
      simp only [List.mem_append, hZ, or_false] at hcount
      simp only [if_pos hx, Heap.rc_eq_of_get?_eq (Heap.get?_within_of_mem h _ hx)]
      exact hcount
    · have hA : A.count x = 0 := Multiset.count_eq_zero_of_notMem fun hmem ↦ hx (.inl (.root hmem))
      have hrc : (h.within (partOf h Y A)).rc x = 0 := by
        rw [Heap.rc, Heap.get?_within_of_notMem h _ hx]
        rfl
      simp only [if_neg hx, hrc, hA, Finset.sum_const_zero, ite_self]
  fits x n hxY hx := by
    by_cases hmem : x ∈ partOf h Y A
    · rw [Heap.node?_within_of_mem h _ hmem] at hx
      have hxYZ : x ∉ Y ++ Z := by simp [hxY, ho.notMem_of_mem_partOf hmem]
      refine (ho.fits x n hxYZ hx).congr fun a ha m hm ↦ ?_
      exact (Heap.node?_within_of_mem h _ (mem_partOf hmem hxY hx ha)).trans hm
    · rw [Heap.node?_within_of_notMem h _ hmem] at hx
      cases hx

/-- What the references `B` reach in the other part is live there. -/
private theorem live_rest (ho : Owned h (Y ++ Z) (A + B)) (hapart : Apart h A B)
    (ha : Reach (h.within (partOf h Y A)ᶜ) B a) :
    ∃ n, (h.within (partOf h Y A)ᶜ).node? a = some n := by
  have hs := h.splits_within (partOf h Y A)
  have hB : Reach h B a := by
    induction ha with
    | root ha => exact .root ha
    | child _ hn hc ih => exact ih.child (hs.node?_rest hn) hc
  obtain ⟨hYZ, n, hn⟩ := ho.of_reach (hB.mono (Multiset.le_add_left B A))
  have hmem : a ∉ partOf h Y A := by
    rintro (hA | hY)
    · exact hapart a hA hB
    · exact hYZ (List.mem_append_left Z hY)
  exact ⟨n, (Heap.node?_within_of_mem h _ hmem).trans hn⟩

end Owned

/-- What is reached in one part of the heap, and only that, is reached in the whole heap. -/
private theorem reach_part {part : Heap N} (hpart : ∀ b n, part.node? b = some n → h.node? b = some n)
    (hlive : ∀ b, Reach part A b → ∃ n, part.node? b = some n) (ha : Reach h A a) :
    Reach part A a := by
  induction ha with
  | root ha => exact .root ha
  | child _ hn hc ih =>
    obtain ⟨m, hm⟩ := hlive _ ih
    obtain rfl := Option.some.inj (hn.symm.trans (hpart _ m hm))
    exact ih.child hm hc

/-- References into one part of the heap are apart from references into the other. -/
theorem Heap.Splits.apart (hs : h.Splits mine rest) (ho : Owned mine Y A)
    (hB : ∀ b, Reach rest B b → ∃ n, rest.node? b = some n) : Apart h A B := by
  intro a haA haB
  have hA : ∀ b, Reach mine A b → ∃ n, mine.node? b = some n := fun b hb ↦ (ho.of_reach hb).2
  obtain ⟨n, hn⟩ := hA a (reach_part (fun _ _ ↦ hs.node?_mine) hA haA)
  obtain ⟨m, hm⟩ := hB a (reach_part (fun _ _ ↦ hs.node?_rest) hB haB)
  obtain ⟨r, hr⟩ := Heap.exists_get?_of_node? hn
  rw [Heap.node?, hs.disjoint a _ hr] at hm
  cases hm

/-- What a local program does on the part of the references `A` it does on the whole heap, and what
it is left with there is apart from the references `B`. -/
theorem Local.wp_within {ε α : Type} {p : Prog ε N α} [Local p] (ho : Owned h (Y ++ Z) (A + B))
    (hapart : Apart h A B) {Q : α → Heap N → Prop} (hQ : wp p Q (h.within (partOf h Y A))) :
    wp p (fun x h' ↦ ∃ mine, Q x mine ∧ ∀ Y' A', Owned mine Y' A' → Apart h' A' B) h := by
  refine wp_mono (wp_splits (h.splits_within _) hQ) ?_
  rintro x h' ⟨mine, hs, hx⟩
  exact ⟨mine, hx, fun Y' A' ho' ↦ hs.apart ho' fun b hb ↦ ho.live_rest hapart hb⟩

end Apart

end RefHeap
