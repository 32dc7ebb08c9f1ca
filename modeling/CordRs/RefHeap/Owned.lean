import CordRs.RefHeap.Basic

/-!
# Exact counts, opened cells and the frame of a program

`Owned h Z R` says that the counts of `h` are exact for the references `R` held from outside the
heap, when the cells of `Z` are *opened*. An opened cell has one reference, which its opener
holds; its own references are not counted as references of the heap but are handed to the opener
and appear in `R`. The opener may overwrite or release the cell freely: no other reference leads
to it. Every cell that is not opened is well formed. With `Z = []` the predicate says that every
count equals the number of references.

A program that runs while its caller holds `R` and has opened `Z` must leave both alone:
`Frame Z R h h'` says that the opened cells are untouched and that every node reachable from `R`
is the same node afterwards.

## Main definitions

* `RefHeap.Owned`, `RefHeap.Reach`, `RefHeap.Frame`, `RefHeap.Grows`.

## Main results

* `RefHeap.Owned.openCell`, `RefHeap.Owned.closeCell`: trade a reference for the references of
  its cell.
* `RefHeap.Owned.putOpened`, `RefHeap.Owned.push`, `RefHeap.Owned.of_released`,
  `RefHeap.Owned.incr`, `RefHeap.Owned.decr`: the steps of a program.
* `RefHeap.Owned.of_reach`: what is reachable from the references held is live and not opened.
* `RefHeap.Owned.reach_of_live`: what is live and not opened is reachable from them.
* `RefHeap.Owned.reach_of_shared`, `RefHeap.Owned.not_reach_of_one`: whether others reach a cell.
-/

namespace RefHeap

variable {N : Type*} [Pointers N]

/-- The references of `n` lead to live nodes above which `n` is well formed. -/
def FitsIn (h : Heap N) (n : N) : Prop :=
  ∃ ms, (Pointers.children n).map h.node? = ms.map some ∧ Pointers.Fits n ms

/-- The counts of `h` are exact for the references `R` from outside and the opened cells `Z`. -/
structure Owned (h : Heap N) (Z : List Addr) (R : Multiset Addr) : Prop where
  nodup : Z.Nodup
  one : ∀ z ∈ Z, h.rc z = 1
  pos : ∀ x c, h.get? x = some c → 0 < c.refcount
  count : ∀ x, (if x ∈ Z then 0 else h.rc x) = h.inDegree Z x + R.count x
  fits : ∀ x n, x ∉ Z → h.node? x = some n → FitsIn h n

theorem coe_cons_add (a : Addr) (as : List Addr) (R : Multiset Addr) :
    ((a :: as : List Addr) : Multiset Addr) + R = a ::ₘ ((as : Multiset Addr) + R) := by
  rw [← Multiset.cons_coe, Multiset.cons_add]

/-- The addresses reachable from the references `R`. -/
inductive Reach (h : Heap N) (R : Multiset Addr) : Addr → Prop
  | root {a : Addr} (ha : a ∈ R) : Reach h R a
  | child {b c : Addr} {n : N} (hb : Reach h R b) (hn : h.node? b = some n)
      (hc : c ∈ Pointers.children n) : Reach h R c

/-- The opened cells are untouched and everything reachable from `R` is the same node. -/
structure Frame (Z : List Addr) (R : Multiset Addr) (h h' : Heap N) : Prop where
  opened : ∀ z ∈ Z, h'.node? z = h.node? z
  kept : ∀ a, Reach h R a → h'.node? a = h.node? a

/-- Every live node is still there: the program only allocated and counted. -/
def Grows (h h' : Heap N) : Prop := ∀ a n, h.node? a = some n → h'.node? a = some n

/-! ### Reachability -/

theorem Reach.mono {h : Heap N} {R S : Multiset Addr} (hRS : R ≤ S) {a : Addr}
    (ha : Reach h R a) : Reach h S a := by
  induction ha with
  | root ha => exact .root (Multiset.mem_of_le hRS ha)
  | child _ hn hc ih => exact .child ih hn hc

theorem Reach.trans {h : Heap N} {R : Multiset Addr} {a b : Addr} (hb : Reach h R b)
    (ha : Reach h {b} a) : Reach h R a := by
  induction ha with
  | root ha => exact Multiset.mem_singleton.mp ha ▸ hb
  | child _ hn hc ih => exact .child ih hn hc

theorem Reach.transfer {h h' : Heap N} {R : Multiset Addr}
    (hk : ∀ a, Reach h R a → h'.node? a = h.node? a) {a : Addr} (ha : Reach h R a) :
    Reach h' R a := by
  induction ha with
  | root ha => exact .root ha
  | child hb hn hc ih => exact .child ih ((hk _ hb).trans hn) hc

theorem not_reach_zero {h : Heap N} {a : Addr} : ¬Reach h 0 a := by
  intro ha
  induction ha with
  | root ha => exact Multiset.notMem_zero _ ha
  | child _ _ _ ih => exact ih

/-! ### Frames and growing heaps -/

namespace Frame

variable {h h' h'' : Heap N} {Z Z' : List Addr} {R S : Multiset Addr}

theorem refl (h : Heap N) : Frame Z R h h := ⟨fun _ _ ↦ rfl, fun _ _ ↦ rfl⟩

theorem trans (h₁ : Frame Z R h h') (h₂ : Frame Z R h' h'') : Frame Z R h h'' where
  opened z hz := (h₂.opened z hz).trans (h₁.opened z hz)
  kept a ha := (h₂.kept a (ha.transfer h₁.kept)).trans (h₁.kept a ha)

theorem mono (hf : Frame Z' S h h') (hZ : Z ⊆ Z') (hR : R ≤ S) : Frame Z R h h' where
  opened z hz := hf.opened z (hZ hz)
  kept a ha := hf.kept a (ha.mono hR)

/-- What is reachable afterwards was reachable before. -/
theorem reach (hf : Frame Z R h h') {a : Addr} (ha : Reach h' R a) : Reach h R a := by
  induction ha with
  | root ha => exact .root ha
  | child _ hn hc ih => exact .child ih (hf.kept _ ih ▸ hn) hc

end Frame

namespace Grows

variable {h h' h'' : Heap N}

omit [Pointers N] in
theorem refl (h : Heap N) : Grows h h := fun _ _ hn ↦ hn

omit [Pointers N] in
theorem trans (h₁ : Grows h h') (h₂ : Grows h' h'') : Grows h h'' :=
  fun a n hn ↦ h₂ a n (h₁ a n hn)

omit [Pointers N] in
theorem of_node?_eq (hn : ∀ a, h'.node? a = h.node? a) : Grows h h' :=
  fun a _ ha ↦ (hn a).trans ha

omit [Pointers N] in
theorem push (h : Heap N) (c : Cell N) : Grows h (h.push c) := by
  intro a n ha
  obtain ⟨r, hr⟩ := Heap.exists_get?_of_node? ha
  exact Heap.node?_of_get? (Heap.get?_push_of_some hr)

end Grows

theorem FitsIn.congr {h h' : Heap N} {n : N} (hf : FitsIn h n)
    (hg : ∀ c ∈ Pointers.children n, ∀ m, h.node? c = some m → h'.node? c = some m) :
    FitsIn h' n := by
  obtain ⟨ms, hms, hfit⟩ := hf
  refine ⟨ms, ?_, hfit⟩
  rw [← hms]
  refine List.map_congr_left fun c hc ↦ ?_
  obtain ⟨m, -, hm⟩ := List.mem_map.mp (hms ▸ List.mem_map_of_mem hc)
  rw [← hm]
  exact hg c hc m hm.symm

/-! ### What exact counts give -/

namespace Owned

variable {h h' : Heap N} {Z Z' : List Addr} {R S : Multiset Addr} {a b x : Addr} {n m : N}

omit [Pointers N] in
private theorem live_of_rc_pos (hx : 0 < h.rc x) : ∃ n, h.node? x = some n := by
  cases hc : h.get? x with
  | none => simp [Heap.rc, hc] at hx
  | some c => exact ⟨c.node, Heap.node?_of_get? hc⟩

private theorem of_referenced (ho : Owned h Z R) (hx : 0 < h.inDegree Z x + R.count x) :
    x ∉ Z ∧ ∃ n, h.node? x = some n := by
  have hcount := ho.count x
  by_cases hz : x ∈ Z
  · rw [if_pos hz] at hcount
    omega
  · rw [if_neg hz] at hcount
    exact ⟨hz, live_of_rc_pos (by omega)⟩

theorem of_mem (ho : Owned h Z R) (ha : a ∈ R) : a ∉ Z ∧ ∃ n, h.node? a = some n := by
  apply ho.of_referenced
  have := Multiset.count_pos.mpr ha
  omega

/-- What is reachable from the references held is live and not opened. -/
theorem of_reach (ho : Owned h Z R) (ha : Reach h R a) : a ∉ Z ∧ ∃ n, h.node? a = some n := by
  induction ha with
  | root ha => exact ho.of_mem ha
  | @child b c n hb hn hc ih =>
    apply ho.of_referenced
    have hle := Heap.count_le_inDegree ih.1 hn c
    have := List.count_pos_iff.mpr hc
    omega

theorem inDegree_opened (ho : Owned h Z R) (ha : a ∈ Z) :
    h.inDegree Z a = 0 ∧ R.count a = 0 := by
  have hcount := ho.count a
  rw [if_pos ha] at hcount
  omega

theorem lt_size_of_opened (ho : Owned h Z R) (ha : a ∈ Z) : a < h.size := by
  obtain ⟨n, hn⟩ := live_of_rc_pos (by rw [ho.one a ha]; exact Nat.one_pos : 0 < h.rc a)
  obtain ⟨r, hc⟩ := Heap.exists_get?_of_node? hn
  exact Heap.lt_size_of_get? hc

private theorem not_child_of_opened (ho : Owned h Z R) (ha : a ∈ Z) (hb : b ∉ Z)
    (hn : h.node? b = some n) : a ∉ Pointers.children n := by
  intro hmem
  have hle := Heap.count_le_inDegree hb hn a
  have := List.count_pos_iff.mpr hmem
  have := (ho.inDegree_opened ha).1
  omega

private theorem exists_rank_le (h : Heap N) :
    ∃ k, ∀ a n, h.node? a = some n → Pointers.rank n ≤ k := by
  let f : Addr → ℕ := fun a ↦ ((h.node? a).map Pointers.rank).getD 0
  refine ⟨(Finset.range h.size).sup f, fun a n ha ↦ ?_⟩
  obtain ⟨r, hc⟩ := Heap.exists_get?_of_node? ha
  have hmem : a ∈ Finset.range h.size := Finset.mem_range.mpr (Heap.lt_size_of_get? hc)
  have hle := Finset.le_sup (f := f) hmem
  simpa only [f, ha, Option.map_some, Option.getD_some] using hle

private theorem exists_parent (hx : 0 < h.inDegree Z x) :
    ∃ b n, b ∉ Z ∧ h.node? b = some n ∧ x ∈ Pointers.children n := by
  by_contra hno
  push Not at hno
  refine hx.ne' (Finset.sum_eq_zero fun i _ ↦ ?_)
  rw [List.count_eq_zero, Heap.slotsOutside]
  split_ifs with hi
  · exact List.not_mem_nil
  · cases hn : h.node? i with
    | none => simp
    | some n => simpa using hno i n hi hn

theorem rank_lt_of_child (ho : Owned h Z R) (hb : b ∉ Z) (hn : h.node? b = some n)
    (hx : x ∈ Pointers.children n) (hm : h.node? x = some m) :
    Pointers.rank m < Pointers.rank n := by
  obtain ⟨ms, hms, hfit⟩ := ho.fits b n hb hn
  obtain ⟨m', hm', hxm⟩ := List.mem_map.mp (hms ▸ List.mem_map_of_mem (f := h.node?) hx)
  rw [hm] at hxm
  exact Pointers.rank_lt hfit m (Option.some.inj hxm ▸ hm')

/-- No cell is leaked: what is live and not opened is reachable from the references held. -/
theorem reach_of_live (ho : Owned h Z R) (hxZ : x ∉ Z) (hx : h.node? x = some n) :
    Reach h R x := by
  obtain ⟨k, hk⟩ := exists_rank_le h
  -- Climb from a cell to a cell that refers to it: ranks go up and are bounded.
  obtain ⟨d, hd⟩ : ∃ d, k - Pointers.rank n = d := ⟨_, rfl⟩
  induction d using Nat.strong_induction_on generalizing x n with
  | _ d ih =>
    have hcount := ho.count x
    rw [if_neg hxZ] at hcount
    obtain ⟨r, hc⟩ := Heap.exists_get?_of_node? hx
    have hpos := ho.pos x _ hc
    rw [Heap.rc_of_get? hc] at hcount
    by_cases hR : x ∈ R
    · exact .root hR
    · rw [Multiset.count_eq_zero_of_notMem hR] at hcount
      obtain ⟨b, m, hb, hm, hmem⟩ := exists_parent (Z := Z) (by omega : 0 < h.inDegree Z x)
      have hlt := ho.rank_lt_of_child hb hm hmem hx
      have hle := hk b m hm
      exact .child (ih _ (by omega) hb hm rfl) hm hmem

/-! ### Opening and closing cells -/

/-- Without references and opened cells, nothing is live. -/
theorem node?_eq_none (ho : Owned h [] 0) (a : Addr) : h.node? a = none := by
  by_contra hlive
  obtain ⟨n, hn⟩ := Option.ne_none_iff_exists'.mp hlive
  exact not_reach_zero (ho.reach_of_live List.not_mem_nil hn)

omit [Pointers N] in
private theorem lt_size_of_rc_pos (hx : 0 < h.rc x) : x < h.size := by
  obtain ⟨n, hn⟩ := live_of_rc_pos hx
  obtain ⟨r, hr⟩ := Heap.exists_get?_of_node? hn
  exact Heap.lt_size_of_get? hr

/-- Counts that are exact at every address handed out are exact. -/
theorem of_lt_size (hR : ∀ a ∈ R, a < h.size) (hpos : ∀ x < h.size, 0 < h.rc x)
    (hcount : ∀ x < h.size, h.rc x = h.inDegree [] x + R.count x)
    (hfits : ∀ x n, h.node? x = some n → FitsIn h n) : Owned h [] R where
  nodup := List.nodup_nil
  one z hz := absurd hz List.not_mem_nil
  pos x c hc := by
    have hx := hpos x (Heap.lt_size_of_get? hc)
    rwa [Heap.rc_of_get? hc] at hx
  count x := by
    rw [if_neg List.not_mem_nil]
    by_cases hx : x < h.size
    · exact hcount x hx
    · -- Nothing leads to an address that was not handed out.
      have hin : h.inDegree [] x = 0 := by
        refine Nat.eq_zero_of_not_pos fun hin ↦ hx ?_
        obtain ⟨b, n, -, hn, hchild⟩ := exists_parent hin
        obtain ⟨ms, hms, -⟩ := hfits b n hn
        obtain ⟨m, -, hm⟩ := List.mem_map.mp (hms ▸ List.mem_map_of_mem hchild)
        obtain ⟨r, hr⟩ := Heap.exists_get?_of_node? hm.symm
        exact Heap.lt_size_of_get? hr
      rw [hin, Multiset.count_eq_zero.mpr fun hmem ↦ hx (hR x hmem)]
      exact Nat.eq_zero_of_not_pos fun hrc ↦ hx (lt_size_of_rc_pos hrc)
  fits x n _ hn := hfits x n hn

/-- Nothing refers to the heap without cells. -/
theorem empty : Owned (Heap.empty : Heap N) [] 0 :=
  of_lt_size (by simp) (fun _ hx ↦ absurd hx (Nat.not_lt_zero _))
    (fun _ hx ↦ absurd hx (Nat.not_lt_zero _)) fun x n hn ↦ by
      simp [Heap.node?, Heap.get?, Heap.empty] at hn

theorem congr (ho : Owned h Z R) (hR : R = S) : Owned h Z S := hR ▸ ho

theorem perm (ho : Owned h Z R) (hZ : Z.Perm Z') : Owned h Z' R where
  nodup := hZ.nodup_iff.mp ho.nodup
  one z hz := ho.one z (hZ.mem_iff.mpr hz)
  pos := ho.pos
  count x := by
    rw [← Heap.inDegree_perm hZ, ← ho.count x]
    simp only [hZ.mem_iff]
  fits x n hx := ho.fits x n fun hz ↦ hx (hZ.mem_iff.mp hz)

/-- Give up the only reference to a cell and take over the references the cell holds. -/
theorem openCell (ho : Owned h Z (a ::ₘ R)) (hn : h.node? a = some n) (hr : h.rc a = 1) :
    Owned h (a :: Z) (((Pointers.children n : List Addr) : Multiset Addr) + R) where
  nodup := List.nodup_cons.mpr ⟨(ho.of_mem (Multiset.mem_cons_self a R)).1, ho.nodup⟩
  one z hz := by
    rcases List.mem_cons.mp hz with rfl | hz
    · exact hr
    · exact ho.one z hz
  pos := ho.pos
  count x := by
    have haZ := (ho.of_mem (Multiset.mem_cons_self a R)).1
    have hcount := ho.count x
    rw [Heap.inDegree_cons haZ hn] at hcount
    rw [Multiset.count_add, Multiset.coe_count]
    by_cases hxa : x = a
    · subst hxa
      rw [if_neg haZ, hr, Multiset.count_cons_self] at hcount
      rw [if_pos List.mem_cons_self]
      omega
    · rw [Multiset.count_cons_of_ne hxa] at hcount
      simp only [List.mem_cons, hxa, false_or]
      omega
  fits x m hx := ho.fits x m fun hz ↦ hx (List.mem_cons_of_mem _ hz)

/-- Hand the references of an opened cell back to it, once it is well formed. -/
theorem closeCell (ho : Owned h (a :: Z) S) (hn : h.node? a = some n) (hfit : FitsIn h n)
    (hS : S = ((Pointers.children n : List Addr) : Multiset Addr) + R) :
    Owned h Z (a ::ₘ R) where
  nodup := (List.nodup_cons.mp ho.nodup).2
  one z hz := ho.one z (List.mem_cons_of_mem _ hz)
  pos := ho.pos
  count x := by
    have haZ := (List.nodup_cons.mp ho.nodup).1
    have hcount := ho.count x
    rw [hS, Multiset.count_add, Multiset.coe_count] at hcount
    rw [Heap.inDegree_cons haZ hn]
    by_cases hxa : x = a
    · subst hxa
      rw [if_pos List.mem_cons_self] at hcount
      rw [if_neg haZ, ho.one x List.mem_cons_self, Multiset.count_cons_self]
      omega
    · rw [Multiset.count_cons_of_ne hxa]
      simp only [List.mem_cons, hxa, false_or] at hcount
      omega
  fits x m hx hm := by
    by_cases hxa : x = a
    · subst hxa
      exact Option.some.inj (hm.symm.trans hn) ▸ hfit
    · exact ho.fits x m (by simp [hxa, hx]) hm

/-! ### The steps of a program -/

/-- Nothing outside the list of opened cells changes when one of them is overwritten. -/
private theorem of_opened_changed (ho : Owned h (a :: Z) R) (hne : ∀ x ≠ a, h'.get? x = h.get? x)
    (hone : h'.rc a = 1) : Owned h' (a :: Z) R where
  nodup := ho.nodup
  one z hz := by
    by_cases hza : z = a
    · exact hza ▸ hone
    · rw [Heap.rc_eq_of_get?_eq (hne z hza)]
      exact ho.one z hz
  pos x c hc := by
    by_cases hxa : x = a
    · subst hxa
      rw [Heap.rc_of_get? hc] at hone
      omega
    · exact ho.pos x c (hne x hxa ▸ hc)
  count x := by
    have hin : h'.inDegree (a :: Z) x = h.inDegree (a :: Z) x :=
      Heap.inDegree_congr (fun i hi ↦ Heap.node?_eq_of_get?_eq
        (hne i fun hia ↦ hi (hia ▸ List.mem_cons_self))) x
    rw [hin, ← ho.count x]
    by_cases hxa : x = a
    · simp only [hxa, List.mem_cons_self, if_pos]
    · rw [Heap.rc_eq_of_get?_eq (hne x hxa)]
  fits x m hx hm := by
    have hxa : x ≠ a := fun hxa ↦ hx (hxa ▸ List.mem_cons_self)
    rw [Heap.node?_eq_of_get?_eq (hne x hxa)] at hm
    refine (ho.fits x m hx hm).congr fun c hc m' hm' ↦ ?_
    have hca : c ≠ a := fun hca ↦ ho.not_child_of_opened List.mem_cons_self hx hm (hca ▸ hc)
    rw [Heap.node?_eq_of_get?_eq (hne c hca), hm']

theorem putOpened (ho : Owned h (a :: Z) R) (n : N) :
    Owned (h.put a (some ⟨1, n⟩)) (a :: Z) R := by
  have hlt := ho.lt_size_of_opened (List.mem_cons_self)
  refine ho.of_opened_changed (fun x hx ↦ Heap.get?_put_ne hx _) ?_
  rw [Heap.rc_of_get? (Heap.get?_put_self hlt _)]

/-- Opened cells may be released. -/
theorem of_released {U : List Addr} (ho : Owned h (U ++ Z) R) (hU : ∀ x ∈ U, h'.get? x = none)
    (hne : ∀ x ∉ U, h'.get? x = h.get? x) : Owned h' Z R := by
  obtain ⟨-, hnd, hdisj⟩ := List.nodup_append'.mp ho.nodup
  have hnone : ∀ x ∈ U, h'.node? x = none := fun x hx ↦ by
    rw [Heap.node?, hU x hx, Option.map_none]
  constructor
  · exact hnd
  · intro z hz
    rw [Heap.rc_eq_of_get?_eq (hne z fun hzU ↦ hdisj hzU hz)]
    exact ho.one z (List.mem_append_right _ hz)
  · intro x c hc
    by_cases hxU : x ∈ U
    · rw [hU x hxU] at hc
      simp at hc
    · exact ho.pos x c (hne x hxU ▸ hc)
  · intro x
    have hin : h'.inDegree (U ++ Z) x = h.inDegree (U ++ Z) x :=
      Heap.inDegree_congr (fun i hi ↦ Heap.node?_eq_of_get?_eq
        (hne i fun hiU ↦ hi (List.mem_append_left _ hiU))) x
    have hcount := ho.count x
    rw [Heap.inDegree_append_of_none hnone, hin, ← hcount]
    by_cases hxU : x ∈ U
    · rw [if_neg (hdisj hxU), if_pos (List.mem_append_left _ hxU), Heap.rc, hU x hxU,
        Option.map_none, Option.getD_none]
    · rw [Heap.rc_eq_of_get?_eq (hne x hxU)]
      simp only [List.mem_append, hxU, false_or]
  · intro x m hx hm
    have hxU : x ∉ U := fun hxU ↦ by
      rw [hnone x hxU] at hm
      simp at hm
    have hx' : x ∉ U ++ Z := by simp [hxU, hx]
    rw [Heap.node?_eq_of_get?_eq (hne x hxU)] at hm
    refine (ho.fits x m hx' hm).congr fun c hc m' hm' ↦ ?_
    have hcU : c ∉ U := fun hcU ↦
      ho.not_child_of_opened (List.mem_append_left _ hcU) hx' hm hc
    rw [Heap.node?_eq_of_get?_eq (hne c hcU), hm']

theorem push (ho : Owned h Z R) (n : N) : Owned (h.push ⟨1, n⟩) (h.size :: Z) R := by
  have hfresh : h.size ∉ Z := fun hz ↦ lt_irrefl _ (ho.lt_size_of_opened hz)
  have hself : (h.push ⟨1, n⟩).get? h.size = some ⟨1, n⟩ := Heap.get?_push_self _
  have hne : ∀ x ≠ h.size, (h.push ⟨1, n⟩).get? x = h.get? x := fun x hx ↦ Heap.get?_push_ne hx _
  have hnode : h.node? h.size = none := by rw [Heap.node?, Heap.get?_size, Option.map_none]
  constructor
  · exact List.nodup_cons.mpr ⟨hfresh, ho.nodup⟩
  · intro z hz
    rcases List.mem_cons.mp hz with rfl | hz
    · rw [Heap.rc_of_get? hself]
    · rw [Heap.rc_eq_of_get?_eq (hne z fun hza ↦ hfresh (hza ▸ hz))]
      exact ho.one z hz
  · intro x c hc
    by_cases hxa : x = h.size
    · subst hxa
      rw [hself] at hc
      exact Option.some.inj hc ▸ Nat.one_pos
    · exact ho.pos x c (hne x hxa ▸ hc)
  · intro x
    have hin : (h.push ⟨1, n⟩).inDegree (h.size :: Z) x = h.inDegree (h.size :: Z) x :=
      Heap.inDegree_congr (fun i hi ↦ Heap.node?_eq_of_get?_eq
        (hne i fun hia ↦ hi (hia ▸ List.mem_cons_self))) x
    have hcount := ho.count x
    rw [hin, ← Heap.inDegree_cons_of_none hnode, ← hcount]
    by_cases hxa : x = h.size
    · subst hxa
      rw [if_neg hfresh, if_pos List.mem_cons_self, Heap.rc, Heap.get?_size, Option.map_none,
        Option.getD_none]
    · rw [Heap.rc_eq_of_get?_eq (hne x hxa)]
      simp only [List.mem_cons, hxa, false_or]
  · intro x m hx hm
    have hxa : x ≠ h.size := fun hxa ↦ hx (hxa ▸ List.mem_cons_self)
    have hx' : x ∉ Z := fun hz ↦ hx (List.mem_cons_of_mem _ hz)
    rw [Heap.node?_eq_of_get?_eq (hne x hxa)] at hm
    exact (ho.fits x m hx' hm).congr fun c _ m' hm' ↦ Grows.push h _ c m' hm'

/-- The counts stay exact when the count of one cell and the references held change together. -/
private theorem of_recount (ho : Owned h Z R) {r : ℕ} (ha : h.get? a = some ⟨r, n⟩) (haZ : a ∉ Z)
    {k : ℕ} (hk : 0 < k) (hself : k + R.count a = r + S.count a)
    (hne : ∀ x ≠ a, S.count x = R.count x) : Owned (h.put a (some ⟨k, n⟩)) Z S := by
  have hput : (h.put a (some ⟨k, n⟩)).get? a = some ⟨k, n⟩ :=
    Heap.get?_put_self (Heap.lt_size_of_get? ha) _
  have hother : ∀ x ≠ a, (h.put a (some ⟨k, n⟩)).get? x = h.get? x :=
    fun x hx ↦ Heap.get?_put_ne hx _
  have hnode : ∀ x, (h.put a (some ⟨k, n⟩)).node? x = h.node? x := Heap.node?_put_same ha
  constructor
  · exact ho.nodup
  · intro z hz
    rw [Heap.rc_eq_of_get?_eq (hother z fun hza ↦ haZ (hza ▸ hz))]
    exact ho.one z hz
  · intro x c hc
    by_cases hxa : x = a
    · rw [hxa, hput] at hc
      exact Option.some.inj hc ▸ hk
    · exact ho.pos x c (hother x hxa ▸ hc)
  · intro x
    have hcount := ho.count x
    rw [Heap.inDegree_congr (fun i _ ↦ hnode i) x]
    by_cases hxa : x = a
    · subst hxa
      rw [if_neg haZ, Heap.rc_of_get? ha] at hcount
      rw [if_neg haZ, Heap.rc_of_get? hput]
      simp only at hcount ⊢
      omega
    · rw [hne x hxa, Heap.rc_eq_of_get?_eq (hother x hxa)]
      exact hcount
  · intro x m hx hm
    rw [hnode] at hm
    exact (ho.fits x m hx hm).congr fun c _ m' hm' ↦ (hnode c).trans hm'

theorem incr (ho : Owned h Z R) {r : ℕ} (ha : h.get? a = some ⟨r, n⟩) (haZ : a ∉ Z) :
    Owned (h.put a (some ⟨r + 1, n⟩)) Z (a ::ₘ R) := by
  refine ho.of_recount ha haZ (Nat.succ_pos r) ?_ fun x hx ↦ Multiset.count_cons_of_ne hx R
  rw [Multiset.count_cons_self]
  omega

theorem decr (ho : Owned h Z (a ::ₘ R)) {r : ℕ} (ha : h.get? a = some ⟨r + 1, n⟩) (hr : 0 < r) :
    Owned (h.put a (some ⟨r, n⟩)) Z R := by
  have haZ := (ho.of_mem (Multiset.mem_cons_self a R)).1
  refine ho.of_recount ha haZ hr ?_ fun x hx ↦ (Multiset.count_cons_of_ne hx R).symm
  rw [Multiset.count_cons_self]
  omega

/-- A cell with more than one reference is reachable without the one that is held. -/
theorem reach_of_shared (ho : Owned h Z (a ::ₘ R)) (ha : h.rc a ≠ 1) : Reach h R a := by
  obtain ⟨haZ, n, hn⟩ := ho.of_mem (Multiset.mem_cons_self a R)
  obtain ⟨r, hc⟩ := Heap.exists_get?_of_node? hn
  have hpos := ho.pos a _ hc
  rw [Heap.rc_of_get? hc] at ha
  obtain ⟨k, rfl⟩ : ∃ k, r = k + 1 := ⟨r - 1, by simp only at hpos; omega⟩
  have hsame : ∀ x, (h.put a (some ⟨k, n⟩)).node? x = h.node? x := Heap.node?_put_same hc
  have hk : 0 < k := by
    simp only at ha
    omega
  exact ((ho.decr hc hk).reach_of_live haZ ((hsame a).trans hn)).transfer fun x _ ↦ (hsame x).symm

/-- A cell with a single reference is not reachable without it. -/
theorem not_reach_of_one (ho : Owned h Z (a ::ₘ R)) (hone : h.rc a = 1) : ¬Reach h R a := by
  intro ha
  obtain ⟨-, n, hn⟩ := ho.of_mem (Multiset.mem_cons_self a R)
  have hopen := ho.openCell hn hone
  exact (hopen.of_reach (ha.mono (Multiset.le_add_left _ _))).1 List.mem_cons_self

/-- A cell that cannot be reached is released. -/
theorem get?_eq_none (ho : Owned h Z R) (haZ : a ∉ Z) (ha : ¬Reach h R a) : h.get? a = none := by
  by_contra hne
  obtain ⟨c, hc⟩ := Option.ne_none_iff_exists'.mp hne
  have hn : h.node? a = some c.node := by rw [Heap.node?, hc, Option.map_some]
  exact ha (ho.reach_of_live haZ hn)

/-- References that are added to the only one of a cell are all that it has. -/
theorem rc_of_replicate (ho : Owned h Z (a ::ₘ R)) (hone : h.rc a = 1)
    (hn : ∀ x, h'.node? x = h.node? x) {k : ℕ} (ho' : Owned h' Z (Multiset.replicate k a + R)) :
    h'.rc a = k := by
  have haZ := (ho.of_mem (Multiset.mem_cons_self a R)).1
  have hcount := ho.count a
  have hcount' := ho'.count a
  rw [if_neg haZ, Multiset.count_cons_self] at hcount
  rw [if_neg haZ, Heap.inDegree_congr fun x _ ↦ hn x, Multiset.count_add,
    Multiset.count_replicate_self] at hcount'
  omega

/-! ### Frames of the steps -/

theorem frame_of_grows (ho : Owned h Z R) (hg : Grows h h') : Frame Z R h h' := by
  refine ⟨fun z hz ↦ ?_, fun x hx ↦ ?_⟩
  · obtain ⟨m, hm⟩ := live_of_rc_pos (by rw [ho.one z hz]; exact Nat.one_pos : 0 < h.rc z)
    rw [hm, hg z m hm]
  · obtain ⟨m, hm⟩ := (ho.of_reach hx).2
    rw [hm, hg x m hm]

/-- A step that changes nothing but a cell opened by the program itself. -/
theorem frame_of_opened (ho : Owned h Z R) (ha : a ∈ Z) (haZ : a ∉ Z')
    (hne : ∀ x ≠ a, h'.node? x = h.node? x) : Frame Z' R h h' where
  opened z hz := hne z fun hza ↦ haZ (hza ▸ hz)
  kept x hx := hne x fun hxa ↦ (ho.of_reach hx).1 (hxa ▸ ha)

/-- Steps that change nothing but some of the opened cells. -/
theorem frame_of_outside {U W : List Addr} (ho : Owned h Z R) (hZ : Z.Perm (U ++ W))
    (hne : ∀ x ∉ U, h'.node? x = h.node? x) : Frame W R h h' where
  opened z hz := hne z fun hU ↦
    (List.disjoint_of_nodup_append (hZ.nodup_iff.mp ho.nodup)) hU hz
  kept x hx := hne x fun hU ↦
    (ho.of_reach hx).1 (hZ.mem_iff.mpr (List.mem_append_left _ hU))

theorem frame_of_node?_eq (hn : ∀ x, h'.node? x = h.node? x) : Frame Z R h h' :=
  ⟨fun z _ ↦ hn z, fun x _ ↦ hn x⟩

end Owned

end RefHeap
