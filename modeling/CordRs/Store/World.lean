import CordRs.Cord.AppendCord
import CordRs.RefHeap.Family

/-!
# Variables of a client program

A client holds cords and buffers in variables that share one heap. A statement takes values out of
variables, works on them, and puts values back; what it has in its hands meanwhile is not in any
variable. `Store.World` says what each variable stands for, that the counts of the heap are exact for
the variables and the hands, and that the cords of some variables are the same as they were at an
earlier time, node by node.

## Main definitions

* `CordRs.Store`, `CordRs.StoreM`, `CordRs.Store.takeCord`, `CordRs.Store.assign`.
* `CordRs.Values`: the bytes of the cords, and the bytes and capacities of the buffers.
* `CordRs.Store.World`.

## Main results

* `CordRs.Store.World.wp_takeCord`, `CordRs.Store.World.wp_putCord`,
  `CordRs.Store.World.wp_assign` and their counterparts for buffers.
* `CordRs.Store.World.of_new`: the heap got a new cord.
-/

namespace CordRs

open RefHeap LevelTree

/-- The variables of a client and the heap they share. -/
structure Store (ι κ : Type) where
  heap : Heap Node
  cords : ι → Cord Addr
  buffers : κ → CordBuffer

/-- The statements of a client. -/
abbrev StoreM (ι κ α : Type) := StateT (Store ι κ) (Except Fault) α

/-- What the variables stand for: the bytes of the cords, and the bytes and the capacities of the
buffers. -/
structure Values (ι κ : Type) where
  cords : ι → Bytes
  buffers : κ → Bytes × ℕ

variable {ι κ : Type}

namespace Store

/-- Run a program on the heap. -/
def onHeap {α : Type} (m : HeapM α) : StoreM ι κ α := fun s ↦ do
  let (a, h) ← m s.heap
  pure (a, { s with heap := h })

/-- Look at a cord. -/
def borrow (x : ι) : StoreM ι κ (Cord Addr) := do
  let s ← get
  pure (s.cords x)

/-- The store before the client does anything. -/
def initial : Store ι κ where
  heap := Heap.empty
  cords _ := .inline .new
  buffers _ := .new

end Store

section Cords

variable [DecidableEq ι]

/-- Give a cord variable other bytes. -/
def Values.setCord (v : Values ι κ) (x : ι) (bs : Bytes) : Values ι κ :=
  { v with cords := Function.update v.cords x bs }

@[simp] theorem Values.setCord_setCord (v : Values ι κ) (x : ι) (bs bs' : Bytes) :
    (v.setCord x bs).setCord x bs' = v.setCord x bs' := by
  simp only [setCord, Function.update_idem]

namespace Store

/-- Put a cord into a variable without one. -/
def putCord (x : ι) (c : Cord Addr) : StoreM ι κ Unit :=
  modify fun s ↦ { s with cords := Function.update s.cords x c }

/-- Take the cord out of a variable. -/
def takeCord (x : ι) : StoreM ι κ (Cord Addr) := do
  let c ← borrow x
  putCord x (.inline .new)
  pure c

/-- Put a cord into a variable and drop the one it had. -/
def assign (x : ι) (c : Cord Addr) : StoreM ι κ Unit := do
  let old ← takeCord x
  onHeap old.drop
  putCord x c

end Store

end Cords

section Buffers

variable [DecidableEq κ]

/-- Give a buffer variable other bytes and another capacity. -/
def Values.setBuffer (v : Values ι κ) (b : κ) (bs : Bytes) (cap : ℕ) : Values ι κ :=
  { v with buffers := Function.update v.buffers b (bs, cap) }

namespace Store

/-- Put a buffer into a variable without one. -/
def putBuffer (b : κ) (buffer : CordBuffer) : StoreM ι κ Unit :=
  modify fun s ↦ { s with buffers := Function.update s.buffers b buffer }

/-- Take the buffer out of a variable. -/
def takeBuffer (b : κ) : StoreM ι κ CordBuffer := do
  let s ← get
  putBuffer b .new
  pure (s.buffers b)

/-- Put a buffer into a variable and drop the one it had. -/
def assignBuffer (b : κ) (buffer : CordBuffer) : StoreM ι κ Unit := do
  let old ← takeBuffer b
  onHeap old.drop
  putBuffer b buffer

end Store

end Buffers

/-! ### What the variables stand for -/

/-- The heap holds a valid cord with the bytes `bs` in at most `n` data edges. -/
structure Cord.Stands [Target] (c : Cord Rep) (h : Heap Node) (bs : Bytes) (n : ℕ) : Prop where
  held : ∀ t, c = .tree t → t.Held h
  valid : c.Valid
  bytes : c.bytes = bs
  edges : c.edgeCount ≤ n

namespace Store

variable [Fintype ι] [Fintype κ]

/-- The references of the cords. -/
def refs (s : Store ι κ) : Multiset Addr := refsAll Cord.root s.cords

/-- The cells of the buffers. -/
noncomputable def cells (s : Store ι κ) : List Addr := cellsAll CordBuffer.cells s.buffers

/-- The variables stand for the values `v`, the cords in at most `n` data edges, while the client
has the opened cells `Z` and the references `R` in its hands. The cords of the variables in `Y` are
those of the store `s₀`, node by node. -/
structure World [Target] (s₀ : Store ι κ) (Y : Set ι) (s : Store ι κ) (v : Values ι κ) (n : ι → ℕ)
    (Z : List Addr) (R : Multiset Addr) : Prop where
  owned : Owned s.heap (s.cells ++ Z) (s.refs + R)
  cords : ∀ x, ∃ c : Cord Rep, c.handle = s.cords x ∧ c.Stands s.heap (v.cords x) (n x)
  buffers : ∀ b, (s.buffers b).Holds s.heap (v.buffers b).1 (v.buffers b).2
  kept : ∀ x ∈ Y, s.cords x = s₀.cords x ∧ Kept (s₀.cords x).root s₀.heap s.heap

section Rules

variable [Target] {s₀ s : Store ι κ} {Y : Set ι} {v : Values ι κ} {n : ι → ℕ} {Z Z' : List Addr}
  {R R' : Multiset Addr} {h' : Heap Node} {c : Cord Rep} {bs : Bytes} {m cap : ℕ} {α : Type}

omit [Target] [Fintype ι] [Fintype κ] in
@[simp] theorem wp_onHeap {p : HeapM α} {Q : α → Store ι κ → Prop} :
    wp (onHeap p) Q s ↔ wp p (fun a h ↦ Q a { s with heap := h }) s.heap := by
  constructor
  · rintro ⟨a, s', hrun, hQ⟩
    obtain ⟨q, hp, hrest⟩ := exists_of_bind_eq_ok hrun
    cases hrest
    exact ⟨q.1, q.2, hp, hQ⟩
  · rintro ⟨a, h, hp, hQ⟩
    refine ⟨a, { s with heap := h }, ?_, hQ⟩
    change (p s.heap >>= fun q ↦ _) = _
    rw [hp]
    rfl

omit [Target] [Fintype ι] [Fintype κ] in
@[simp] theorem wp_borrow {x : ι} {Q : Cord Addr → Store ι κ → Prop} :
    wp (borrow x) Q s ↔ Q (s.cords x) s := by
  constructor
  · rintro ⟨a, s', hrun, hQ⟩
    cases hrun
    exact hQ
  · intro hQ
    exact ⟨_, s, rfl, hQ⟩

omit [Target] [Fintype ι] [Fintype κ] in
theorem throws_onHeap {p : HeapM α} {f : Fault} (hp : Throws p f s.heap) :
    Throws (onHeap p : StoreM ι κ α) f s := by
  change (p s.heap >>= fun q ↦ _) = _
  rw [show p s.heap = .error f from hp]
  rfl

/-- The values may be written in another way. -/
theorem World.congr {v' : Values ι κ} {n' : ι → ℕ} (hw : World s₀ Y s v n Z R) (hv : v = v')
    (hn : n = n') : World s₀ Y s v' n' Z R := hv ▸ hn ▸ hw

/-- A program on the heap leaves the variables alone. -/
theorem World.step (hw : World s₀ Y s v n Z R) (ho : Owned h' (s.cells ++ Z') (s.refs + R'))
    (hf : Frame s.cells s.refs s.heap h') : World s₀ Y { s with heap := h' } v n Z' R' where
  owned := ho
  cords x := by
    obtain ⟨c, hc, hs⟩ := hw.cords x
    have hx : c.refs ≤ s.refs := by
      rw [← Cord.root_handle, hc]
      exact refs_le_refsAll x
    refine ⟨c, hc, fun t ht ↦ ?_, hs.valid, hs.bytes, hs.edges⟩
    apply (hs.held t ht).frame (hf.mono (List.Subset.refl _) hx)
    exact .root (by simp [ht, Cord.refs])
  buffers b := by
    apply (hw.buffers b).congr
    intro a ha
    exact hf.opened a (cells_subset_cellsAll b ha)
  kept x hx := by
    obtain ⟨hcord, hkept⟩ := hw.kept x hx
    refine ⟨hcord, hkept.trans (hf.kept' ?_)⟩
    rw [← hcord]
    exact refs_le_refsAll x

/-- A cord in a variable, which others may look at. -/
theorem World.shared (hw : World s₀ Y s v n Z R) (x : ι) : ∃ c : Cord Rep, c.handle = s.cords x ∧
    c.Shared s.heap s.refs ∧ c.Stands s.heap (v.cords x) (n x) := by
  obtain ⟨c, hc, hs⟩ := hw.cords x
  refine ⟨c, hc, ⟨?_, hs.held⟩, hs⟩
  rintro t rfl
  have hx : (s.cords x).root ≤ s.refs := refs_le_refsAll x
  rw [← hc] at hx
  exact .root (Multiset.mem_of_le hx (Multiset.mem_singleton_self _))

/-- A cord in the hands of the client. -/
theorem World.owns (hw : World s₀ Y s v n Z (c.refs + R)) (hs : c.Stands s.heap bs m) :
    c.Owns s.heap (s.cells ++ Z) (s.refs + R) :=
  ⟨hw.owned.congr (add_left_comm _ _ _), hs.held, hs.valid⟩

/-- The heap got a new cord, which is in the hands of the client. -/
theorem World.of_new (hw : World s₀ Y s v n Z R)
    (hnew : c.New bs s.heap (s.cells ++ Z') (s.refs + R') h') :
    World s₀ Y { s with heap := h' } v n Z' (c.refs + R') :=
  hw.step (hnew.owns.owned.congr (add_left_comm _ _ _))
    (hnew.frame.mono (List.subset_append_left _ _) (Multiset.le_add_right _ _))

theorem stands_of_new {h : Heap Node} {k : ℕ} (hnew : c.New bs h Z R h') (hedges : c.edgeCount ≤ k) :
    c.Stands h' bs k :=
  ⟨hnew.owns.held, hnew.owns.valid, hnew.bytes, hedges⟩

/-! ### Cords -/

section Cords

variable [DecidableEq ι] {x : ι}

omit [Target] [Fintype κ] in
private theorem refs_update (c' : Cord Addr) : (s.cords x).root +
    refs { s with cords := Function.update s.cords x c' } = c'.root + s.refs :=
  refsAll_update x c'

/-- A cord is taken out of its variable, which is left without bytes. -/
theorem World.wp_takeCord (hw : World s₀ Y s v n Z R) (hx : x ∉ Y)
    {Q : Cord Addr → Store ι κ → Prop}
    (hQ : ∀ (c : Cord Rep) s', c.handle = s.cords x → c.Stands s'.heap (v.cords x) (n x) →
      s'.cords x = .inline .new → s'.heap = s.heap → (∀ y ≠ x, s'.cords y = s.cords y) →
      World s₀ Y s' (v.setCord x []) (Function.update n x 0) Z (c.refs + R) → Q c.handle s') :
    wp (takeCord x) Q s := by
  obtain ⟨c, hc, hs⟩ := hw.cords x
  refine ⟨c.handle, { s with cords := Function.update s.cords x (.inline .new) }, ?_, ?_⟩
  · rw [hc]
    rfl
  refine hQ c _ hc hs (Function.update_self x _ s.cords) rfl
    (fun y hy ↦ Function.update_of_ne hy _ _) ?_
  have hrefs : c.refs + refs { s with cords := Function.update s.cords x (.inline .new) } =
      s.refs := by
    rw [← Cord.root_handle, hc, refs_update]
    exact zero_add _
  refine ⟨?_, fun y ↦ ?_, hw.buffers, fun y hy ↦ ?_⟩
  · apply hw.owned.congr
    rw [← hrefs, add_left_comm, add_assoc]
  · by_cases hy : y = x
    · subst hy
      refine ⟨.inline .new, ?_, ?_⟩
      · exact (Function.update_self y _ s.cords).symm
      · have hempty := Cord.new_empty hw.owned (.refl s.heap)
        simp only [Values.setCord, Function.update_self]
        exact stands_of_new hempty le_rfl
    · simp only [Values.setCord, Function.update_of_ne hy]
      exact hw.cords y
  · have hne : y ≠ x := fun heq ↦ hx (heq ▸ hy)
    simp only [Function.update_of_ne hne]
    exact hw.kept y hy

/-- A cord is put into a variable without one. -/
theorem World.wp_putCord (hw : World s₀ Y s v n Z (c.refs + R)) (hs : c.Stands s.heap bs m)
    (hx : x ∉ Y) (hempty : s.cords x = .inline .new) {Q : Unit → Store ι κ → Prop}
    (hQ : ∀ s', World s₀ Y s' (v.setCord x bs) (Function.update n x m) Z R →
      s'.heap = s.heap → s'.cords = Function.update s.cords x c.handle → Q () s') :
    wp (putCord x c.handle) Q s := by
  refine ⟨(), { s with cords := Function.update s.cords x c.handle }, rfl, ?_⟩
  have hrefs : refs { s with cords := Function.update s.cords x c.handle } = c.refs + s.refs := by
    have hupdate := refs_update (s := s) (x := x) c.handle
    rw [hempty, Cord.root_handle] at hupdate
    exact (zero_add _).symm.trans hupdate
  refine hQ _ ⟨?_, fun y ↦ ?_, hw.buffers, fun y hy ↦ ?_⟩ rfl rfl
  · apply hw.owned.congr
    rw [hrefs, add_left_comm, add_assoc]
  · by_cases hy : y = x
    · subst hy
      simp only [Values.setCord, Function.update_self]
      exact ⟨c, rfl, hs⟩
    · simp only [Values.setCord, Function.update_of_ne hy]
      exact hw.cords y
  · have hne : y ≠ x := fun heq ↦ hx (heq ▸ hy)
    simp only [Function.update_of_ne hne]
    exact hw.kept y hy

/-- A cord is put into a variable, and the one it had is dropped. -/
theorem World.wp_assign (hw : World s₀ Y s v n Z (c.refs + R)) (hs : c.Stands s.heap bs m)
    (hx : x ∉ Y) {Q : Unit → Store ι κ → Prop}
    (hQ : ∀ s', World s₀ Y s' (v.setCord x bs) (Function.update n x m) Z R →
      (∀ y ≠ x, s'.cords y = s.cords y) → Q () s') :
    wp (assign x c.handle) Q s := by
  rw [assign, wp_bind]
  apply hw.wp_takeCord hx
  intro old s₁ hold hs₁ hempty hheap hothers hw₁
  have howns := hw₁.owns hs₁
  rw [wp_bind, wp_onHeap]
  apply Cord.wp_drop howns
  intro h₂ ho₂ hf₂
  have hmem : c.refs ≤ s₁.refs + (c.refs + R) :=
    (Multiset.le_add_right _ _).trans (Multiset.le_add_left _ _)
  have hs₂ : c.Stands h₂ bs m := by
    refine ⟨fun t ht ↦ ?_, hs.valid, hs.bytes, hs.edges⟩
    have hheld := hs.held t ht
    rw [← hheap] at hheld
    exact hheld.frame (hf₂.mono (List.Subset.refl _) hmem) (.root (by simp [ht, Cord.refs]))
  have hw₂ := hw₁.step ho₂ (hf₂.mono (List.subset_append_left _ _) (Multiset.le_add_right _ _))
  apply hw₂.wp_putCord hs₂ hx hempty
  intro s₃ hw₃ hheap₃ hcords₃
  apply hQ s₃
  · rw [Values.setCord_setCord, Function.update_idem] at hw₃
    exact hw₃
  · intro y hy
    rw [hcords₃, Function.update_of_ne hy]
    exact hothers y hy

end Cords

/-! ### Buffers -/

section Buffers

variable [DecidableEq κ] {b : κ} {buffer : CordBuffer}

omit [Target] [Fintype ι] in
private theorem cells_update (b' : CordBuffer) : ((s.buffers b).cells ++
    cells { s with buffers := Function.update s.buffers b b' }).Perm (b'.cells ++ s.cells) :=
  cellsAll_update b b'

/-- A buffer is taken out of its variable, which is left with the buffer without a flat. -/
theorem World.wp_takeBuffer (hw : World s₀ Y s v n Z R) {Q : CordBuffer → Store ι κ → Prop}
    (hQ : ∀ buffer s', buffer.Holds s'.heap (v.buffers b).1 (v.buffers b).2 →
      s'.buffers b = .new → s'.heap = s.heap → s'.cords = s.cords →
      (∀ b' ≠ b, s'.buffers b' = s.buffers b') →
      World s₀ Y s' (v.setBuffer b [] maxInline) n (buffer.cells ++ Z) R → Q buffer s') :
    wp (takeBuffer b) Q s := by
  refine ⟨s.buffers b, { s with buffers := Function.update s.buffers b .new }, rfl, ?_⟩
  refine hQ _ _ (hw.buffers b) (Function.update_self b _ s.buffers) rfl rfl
    (fun b' hb' ↦ Function.update_of_ne hb' _ _) ?_
  refine ⟨?_, hw.cords, fun b' ↦ ?_, hw.kept⟩
  · have hperm := cells_update (s := s) (b := b) .new
    apply hw.owned.perm
    rw [← List.append_assoc]
    exact (hperm.symm.trans List.perm_append_comm).append_right Z
  · by_cases hb : b' = b
    · subst hb
      simp only [Values.setBuffer, Function.update_self]
      exact ⟨Nat.zero_le _, rfl, rfl⟩
    · simp only [Values.setBuffer, Function.update_of_ne hb]
      exact hw.buffers b'

/-- A buffer is put into a variable without a flat. -/
theorem World.wp_putBuffer (hw : World s₀ Y s v n (buffer.cells ++ Z) R)
    (hb : buffer.Holds s.heap bs cap) (hempty : s.buffers b = .new) {Q : Unit → Store ι κ → Prop}
    (hQ : ∀ s', World s₀ Y s' (v.setBuffer b bs cap) n Z R → s'.cords = s.cords →
      s'.heap = s.heap → Q () s') :
    wp (putBuffer b buffer) Q s := by
  refine ⟨(), { s with buffers := Function.update s.buffers b buffer }, rfl, ?_⟩
  refine hQ _ ⟨?_, hw.cords, fun b' ↦ ?_, hw.kept⟩ rfl rfl
  · have hperm := cells_update (s := s) (b := b) buffer
    rw [hempty] at hperm
    apply hw.owned.perm
    rw [← List.append_assoc]
    exact (List.perm_append_comm.trans hperm.symm).append_right Z
  · by_cases hb' : b' = b
    · subst hb'
      simp only [Values.setBuffer, Function.update_self]
      exact hb
    · simp only [Values.setBuffer, Function.update_of_ne hb']
      exact hw.buffers b'

/-- A buffer is put into a variable, and the one it had is dropped. -/
theorem World.wp_assignBuffer (hw : World s₀ Y s v n (buffer.cells ++ Z) R)
    (hb : buffer.Holds s.heap bs cap) {Q : Unit → Store ι κ → Prop}
    (hQ : ∀ s', World s₀ Y s' (v.setBuffer b bs cap) n Z R → s'.cords = s.cords →
      Kept s.refs s.heap s'.heap → Q () s') :
    wp (assignBuffer b buffer) Q s := by
  rw [assignBuffer, wp_bind]
  apply hw.wp_takeBuffer
  intro old s₁ hold hempty hheap hcords _ hw₁
  have ho₁ : Owned s₁.heap (old.cells ++ (s₁.cells ++ (buffer.cells ++ Z))) (s₁.refs + R) :=
    hw₁.owned.perm (List.perm_append_comm_assoc _ _ _)
  rw [wp_bind, wp_onHeap]
  apply CordBuffer.wp_drop ho₁
  intro h₂ ho₂ hf₂
  have hw₂ := hw₁.step ho₂ (hf₂.mono (List.subset_append_left _ _) (Multiset.le_add_right _ _))
  have hb₂ : buffer.Holds h₂ bs cap := by
    rw [← hheap] at hb
    apply hb.congr
    intro a ha
    exact hf₂.opened a (List.mem_append_right _ (List.mem_append_left _ ha))
  apply hw₂.wp_putBuffer hb₂ hempty
  intro s₃ hw₃ hcords₃ hheap₃
  have hrefs : s₁.refs = s.refs := by rw [refs, hcords, refs]
  apply hQ s₃
  · simp only [Values.setBuffer, Function.update_idem] at hw₃ ⊢
    exact hw₃
  · exact hcords₃.trans hcords
  · rw [hheap₃, ← hheap, ← hrefs]
    exact hf₂.kept' (Multiset.le_add_right _ _)

end Buffers

end Rules

end Store

end CordRs
