import CordRs.Store.Handout

/-!
# Cords near the largest length

A cord is not added to another one if their combined length is more than the largest `usize`: this
is checked before anything is done. Bytes that are in no cord are added without the check, and then
the lengths that are stored wrap. A cord whose stored length is zero is taken for an empty one, and
is overwritten without being given up. As long as no such bytes are added, all lengths and all counts
are exact.

## Main definitions

* `CordRs.Cord.addWholeCaught`, `CordRs.Store.addCaught`: adding, with the panic caught.
* `CordRs.Store.AddsExactly`: what a client may expect of the lengths.
* `CordRs.Store.Counted`: the counts are the numbers of references.

## Main results

* `CordRs.Store.lengths_are_exact`, `CordRs.Store.counts_are_exact`: programs keep lengths and counts.
* `CordRs.Store.lengths_wrap`, `CordRs.Store.counts_lost`: programs that add too many bytes do not.
-/

namespace CordRs

open RefHeap LevelTree Store

variable {ι κ : Type} [Target]

/-! ### Caught panics -/

namespace Cord

variable {h : Heap Node} {Z : List Addr} {R : Multiset Addr} {c src : Cord Rep} {back moved : Bool}

end Cord

namespace Store

end Store

/-! ### Lengths -/

/-- The number of bytes that are added. -/
def CordSource.len (s : Store ι κ) : CordSource ι κ → ℕ
  | slice data | owned data _ | global data _ => data.length
  | cord y | cloned y | moved y => (s.cordAt y).len
  | buffer b =>
    match (s.buffers b).len s.heap with
    | .ok (len, _) => len
    | .error _ => 0

namespace Store

section Lengths

variable [Fintype ι] [Fintype κ] {s₀ s : Store ι κ} {Y : Set ι} {v : Values ι κ} {n : ι → ℕ} {x : ι}
  {back moved : Bool} {src : CordSource ι κ}

theorem World.len_eq (hw : World s₀ Y s v n [] 0) : src.len s = (src.bytes v).length := by
  cases src with
  | cord y | cloned y | moved y => exact (hw.cordAt y).2.len
  | buffer b =>
    obtain ⟨len, h', hrun, rfl⟩ := CordBuffer.wp_len (Q := fun len _ ↦ len = _) (hw.buffers b) rfl
    rw [CordSource.len, hrun]
    rfl
  | slice | owned | global => rfl

variable [DecidableEq ι] [DecidableEq κ]

end Lengths

/-! ### Counts -/

section Counts

variable [Fintype ι] [Fintype κ] {s₀ s : Store ι κ} {Y : Set ι} {v : Values ι κ} {n : ι → ℕ}

/-- The counts are the numbers of references, nothing that can be reached was released, and everything
that is live can be reached or is the flat of a buffer. -/
structure Counted (s : Store ι κ) : Prop where
  count : ∀ a ∉ s.cells, s.heap.rc a = s.heap.inDegree s.cells a + s.refs.count a
  live : ∀ a, Reach s.heap s.refs a → ∃ node, s.heap.node? a = some node
  reached : ∀ a node, s.heap.node? a = some node → a ∈ s.cells ∨ Reach s.heap s.refs a

theorem World.counted (hw : World s₀ Y s v n [] 0) : s.Counted where
  count a ha := by
    have hcount := hw.owned_only.count a
    rwa [if_neg ha] at hcount
  live a ha := (hw.owned_only.of_reach ha).2
  reached a node hnode := by
    by_cases hcell : a ∈ s.cells
    · exact .inl hcell
    · exact .inr (hw.owned_only.reach_of_live hcell hnode)

variable [DecidableEq ι] [DecidableEq κ]

/-- From any well formed store on, the counts stay exact: they are after a program, and after one more
statement, which changes no node that a cord reaches whose variable it does not change; or the
statement panics. -/
theorem counts_are_exact {ops : List (StoreOp ι κ)} {op : StoreOp ι κ} {answers : List Answer}
    (hs : s₀.WellFormed) (hcords : ∀ x, v.cords x = (s₀.cordAt x).bytes)
    (hbuffers : ∀ b, (s₀.buffers b).Holds s₀.heap (v.buffers b).1 (v.buffers b).2) (hshort : v.Short)
    (hadmits : language.Admits (ops ++ [op]) s₀ v)
    (hrun : language.runAll ops s₀ = .ok (answers, s)) :
    s.Counted ∧ (wp op.run (fun _ s' ↦ s'.Counted ∧ ∀ y ∉ op.writes, s'.cords y = s.cords y ∧
      Kept (s.cords y).root s.heap s'.heap) s ∨ ∃ message, Throws op.run (.panic message) s) := by
  have hbefore := hadmits.of_append
  have hw₀ : Rest s₀ ∅ s₀ v := ⟨hs.world ∅ hcords hbuffers, hshort⟩
  obtain ⟨v₁, hmeans, hw⟩ := (simulates s₀ ∅).of_runAll (fun _ _ _ _ ↦ Set.notMem_empty _) hw₀
    hbefore.1 hrun
  obtain ⟨hfits, -⟩ := hbefore.2 _ _ _ hrun hmeans
  have hw' : Rest s {y | y ∉ op.writes} s v₁ := hw.rebase
  have hwrites : ∀ x ∈ op.writes, x ∉ {y | y ∉ op.writes} := fun x hx hnot ↦ hnot hx
  refine ⟨hw.toWorld.counted, ?_⟩
  cases hgo : op.refuses v₁ with
  | none =>
    left
    apply wp_mono (op.wp_run hw'.toWorld hw'.short hwrites hfits hgo)
    rintro _ s' ⟨v', n', -, hw₁⟩
    exact ⟨hw₁.counted, fun y hy ↦ hw₁.kept y hy⟩
  | some e =>
    obtain ⟨message, rfl⟩ := StoreOp.panics_of_refuses hgo
    exact .inr ⟨message, op.throws_run hw'.toWorld hwrites hfits hgo⟩

omit [Target] in
/-- The tree that two cords share stays counted when the first one loses bytes. -/
theorem counts_are_exact_sharing :
    letI : Target := ⟨64, .inr rfl⟩
    ∃ answers s, language.runAll sharing initial = .ok (answers, s) ∧ s.Counted ∧
      wp (StoreOp.advance 0 1).run (fun _ s' ↦ s'.Counted ∧ s'.cords 1 = s.cords 1) s := by
  let _ : Target := ⟨64, .inr rfl⟩
  have hadmits : language.Admits (sharing ++ [.advance 0 1]) initial .initial := admits_sharing 1
  have hw : Rest (initial : Store (Fin 2) (Fin 1)) ∅ initial .initial := rest_initial
  obtain ⟨hcounted, hstep | ⟨message, hthrows⟩⟩ := counts_are_exact hw.toWorld.wellFormed
    (fun x ↦ (hw.cordAt x).2.bytes.symm) hw.buffers hw.short hadmits rfl
  · refine ⟨_, _, rfl, hcounted, wp_mono hstep ?_⟩
    rintro _ s' ⟨hcounted', hkept⟩
    exact ⟨hcounted', (hkept 1 (by simp [StoreOp.writes])).1⟩
  · cases hthrows

end Counts

/-! ### A program that adds too many bytes -/

/-- As many bytes as an allocation of a 32 bit target has at most. -/
def huge : Bytes := List.replicate (2 ^ 31 - 1) 0

omit [Target] in
theorem length_huge : huge.length = 2 ^ 31 - 1 := List.length_replicate

/-- A cord that has these bytes twice. -/
def doubling : List (StoreOp Bool Empty) :=
  [.make false (.owner huge), .add true false (.cloned false)]

/-- Two bytes are added, which makes the length of the cord zero, and then another cord. -/
def leaking : List (StoreOp Bool Empty) :=
  [.add true false (.slice [1, 2]), .make true (.slice [3]), .add true false (.cord true)]

/-- A heap with the bytes, which a number of references lead to. -/
def hugeHeap (count : ℕ) : Heap Node := ⟨[some ⟨count, .payload (.external huge none)⟩]⟩

/-- A heap with a node that has the bytes as both of its edges. -/
def twiceHuge : Heap Node :=
  ⟨[some ⟨2, .payload (.external huge none)⟩, some ⟨1, .btree ⟨2 ^ 32 - 2, 0, 0, [0, 0]⟩⟩]⟩

/-- The first variable has a cord. -/
def holding (h : Heap Node) (c : Cord Addr) : Store Bool Empty where
  heap := h
  cords x := if x then .inline .new else c
  buffers b := b.elim

omit [Target] in
private theorem eq_holding {h : Heap Node} {c : Cord Addr} {cords : Bool → Cord Addr}
    {buffers : Empty → CordBuffer} (hc : cords false = c) (hnew : cords true = .inline .new) :
    Store.mk h cords buffers = holding h c := by
  rw [holding]
  congr 1
  · funext x
    cases x with
    | false => exact hc
    | true => exact hnew
  · funext b
    exact b.elim

omit [Target] in
private theorem wp_makeHuge :
    letI : Target := ⟨32, .inl rfl⟩
    wp (StoreOp.make false (.owner huge)).run
      (fun answer s ↦ answer = .unit ∧ s = holding (hugeHeap 1) (.tree 0)) initial := by
  let _ : Target := ⟨32, .inl rfl⟩
  have hne : huge.length ≠ 0 := by
    rw [length_huge]
    decide
  rw [StoreOp.run, CordFrom.make, Cord.fromOwner, if_neg hne]
  exact ⟨_, _, rfl, rfl, eq_holding rfl rfl⟩

omit [Target] in
private theorem wp_appendHuge :
    letI : Target := ⟨32, .inl rfl⟩
    wp (Cord.appendWhole true (.tree 0) (.tree 0)) (fun c h ↦ c = .tree 1 ∧ h = twiceHuge)
      (hugeHeap 2) := by
  let _ : Target := ⟨32, .inl rfl⟩
  have hmax : usizeMax = 2 ^ 32 - 1 := rfl
  have hload : (Cord.tree 0).loadLen (hugeHeap 2) = .ok (2 ^ 31 - 1, hugeHeap 2) := by
    rw [← length_huge]
    rfl
  have hsum : addUsize huge.length huge.length = 2 ^ 32 - 2 := by
    rw [length_huge]
    rfl
  rw [Cord.appendWhole, wp_bind]
  refine ⟨_, _, hload, ?_⟩
  beta_reduce
  rw [if_neg (by decide), wp_bind]
  refine ⟨_, _, hload, ?_⟩
  beta_reduce
  rw [if_neg (by rw [hmax]; decide), if_neg (by decide), if_neg (by decide), twiceHuge, ← hsum]
  exact ⟨_, _, rfl, rfl, rfl⟩

omit [Target] in
private theorem wp_doubleHuge :
    letI : Target := ⟨32, .inl rfl⟩
    wp (StoreOp.add true false (.cloned false)).run
      (fun answer s ↦ answer = .unit ∧ s = holding twiceHuge (.tree 1))
      (holding (hugeHeap 1) (.tree 0)) := by
  let _ : Target := ⟨32, .inl rfl⟩
  obtain ⟨_, _, happend, rfl, rfl⟩ := wp_appendHuge
  rw [StoreOp.run, CordSource.prepare, bind_assoc, wp_bind, wp_borrow, bind_assoc, wp_bind, wp_onHeap]
  refine ⟨.tree 0, hugeHeap 2, rfl, ?_⟩
  beta_reduce
  rw [pure_bind, modifyCord, wp_bind]
  refine ⟨_, _, rfl, ?_⟩
  beta_reduce
  rw [silent, wp_bind, wp_onHeap, wp_bind]
  refine ⟨_, _, happend, ?_⟩
  beta_reduce
  rw [wp_pure]
  exact ⟨_, _, rfl, rfl, eq_holding rfl rfl⟩

omit [Target] in
private theorem runAll_doubling :
    letI : Target := ⟨32, .inl rfl⟩
    language.runAll doubling initial = .ok ([.unit, .unit], holding twiceHuge (.tree 1)) := by
  let _ : Target := ⟨32, .inl rfl⟩
  obtain ⟨_, _, hmake, rfl, rfl⟩ := wp_makeHuge
  obtain ⟨_, _, hdouble, rfl, rfl⟩ := wp_doubleHuge
  have hrun : wp (language.runAll doubling) (fun answers s ↦ answers = [.unit, .unit] ∧
      s = holding twiceHuge (.tree 1)) initial := by
    simp only [doubling, Language.runAll, wp_bind, wp_pure]
    exact ⟨_, _, hmake, _, _, hdouble, rfl, rfl⟩
  obtain ⟨_, _, hrun, rfl, rfl⟩ := hrun
  exact hrun

/-- Both cords are inline, and the node is there. -/
def Lost (s : Store Bool Empty) : Prop :=
  (∀ x, (s.cords x).root = 0) ∧ (s.heap.node? 1).isSome

omit [Target] in
instance (s : Store Bool Empty) : Decidable (Lost s) := inferInstanceAs (Decidable (_ ∧ _))

omit [Target] in
/-- A cord with the length zero is overwritten, and its tree is never released. -/
theorem counts_lost :
    letI : Target := ⟨32, .inl rfl⟩
    ∃ answers s, language.runAll (doubling ++ leaking) initial = .ok (answers, s) ∧ ¬s.Counted := by
  let _ : Target := ⟨32, .inl rfl⟩
  have hleak : (language.runAll leaking (holding twiceHuge (.tree 1)) >>= fun q ↦
      .ok (decide (Lost q.2)) : Except Fault Bool) = .ok true := by
    decide +kernel
  obtain ⟨q, hrun, hlost⟩ := exists_of_bind_eq_ok hleak
  obtain ⟨hroots, hlive⟩ := of_decide_eq_true (Except.ok.inj hlost)
  have hall : wp (language.runAll (doubling ++ leaking)) (fun _ s ↦ s = q.2) initial := by
    rw [Language.runAll_append, wp_bind]
    refine ⟨_, _, runAll_doubling, ?_⟩
    beta_reduce
    rw [wp_bind]
    exact ⟨_, _, hrun, (wp_pure _ _ _).mpr rfl⟩
  obtain ⟨answers, _, hrun', rfl⟩ := hall
  refine ⟨answers, q.2, hrun', fun hcounted ↦ ?_⟩
  obtain ⟨node, hnode⟩ := Option.isSome_iff_exists.mp hlive
  have hrefs : q.2.refs = 0 := refsAll_eq_zero hroots
  rcases hcounted.reached 1 node hnode with hcell | hreach
  · rw [cells, cellsAll_eq_nil fun b ↦ b.elim] at hcell
    cases hcell
  · rw [hrefs] at hreach
    exact not_reach_zero hreach

end Store

end CordRs
