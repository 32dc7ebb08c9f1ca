import CordRs.Store.Run

/-!
# The end of a cord among others

The end of a cord is taken to a buffer while any number of other cords share its nodes. The other
cords are left alone if and only if no node that is given up at the top of what is left is shared,
which is so if the cord shares nothing.

## Main definitions

* `CordRs.Store.WellFormed`: counts are exact, and cords and buffers are well formed.
* `CordRs.Store.EndTaken`: what a client may expect of taking the end of a cord.
* `CordRs.Store.apart`: the statements of a client that takes the end only of cords that share
  nothing.

## Main results

* `CordRs.Store.take_append_buffer_respects_sharing`: the client gets what it expects if and only if
  nothing shared is given up.
* `CordRs.Store.programs_keep_shape`: cords that are cut and put together stay well formed.
-/

namespace CordRs

open RefHeap LevelTree

variable {ι κ : Type}

namespace Store

variable [Target] [Fintype ι] [Fintype κ] {s₀ s s' : Store ι κ} {Y : Set ι} {v : Values ι κ}
  {n : ι → ℕ} {x : ι} {b : κ} {blockSize capacity minCapacity : ℕ}

/-- The counts are exact for the cords and the buffers, the heap holds the trees of the cords, these
are valid, and so are the buffers. -/
structure WellFormed (s : Store ι κ) : Prop where
  owned : Owned s.heap s.cells s.refs
  handle : ∀ x, (s.cordAt x).handle = s.cords x
  held : ∀ x, (s.cordAt x).Held s.heap
  valid : ∀ x, (s.cordAt x).Valid
  buffers : ∀ b, ∃ bs cap, (s.buffers b).Holds s.heap bs cap

theorem World.wellFormed (hw : World s₀ Y s v n [] 0) : s.WellFormed where
  owned := hw.owned_only
  handle x := (hw.cordAt x).1
  held x := (hw.cordAt x).2.isHeld
  valid x := (hw.cordAt x).2.valid
  buffers b := ⟨_, _, hw.buffers b⟩

theorem WellFormed.held_tree (hs : s.WellFormed) (t : Rep) (ht : s.cordAt x = .tree t) :
    t.Held s.heap := by
  have hheld := hs.held x
  rw [ht] at hheld
  exact hheld

/-- The variables of a well formed store stand for the bytes of its cords and buffers. -/
theorem WellFormed.world (hs : s.WellFormed) (Y : Set ι)
    (hcords : ∀ x, v.cords x = (s.cordAt x).bytes)
    (hbuffers : ∀ b, (s.buffers b).Holds s.heap (v.buffers b).1 (v.buffers b).2) :
    World s Y s v s.edgeCount [] 0 where
  owned := by
    rw [List.append_nil, add_zero]
    exact hs.owned
  cords x := ⟨s.cordAt x, hs.handle x, hs.held_tree, hs.valid x, (hcords x).symm, le_rfl⟩
  buffers := hbuffers
  kept _ _ := ⟨rfl, .refl _ _⟩

theorem WellFormed.exists_world (hs : s.WellFormed) (Y : Set ι) : ∃ v : Values ι κ,
    (∀ x, v.cords x = (s.cordAt x).bytes) ∧ World s Y s v s.edgeCount [] 0 := by
  choose bs cap hbuffers using hs.buffers
  exact ⟨⟨fun x ↦ (s.cordAt x).bytes, fun b ↦ (bs b, cap b)⟩, fun _ ↦ rfl,
    hs.world Y (fun _ ↦ rfl) hbuffers⟩

/-- The end of the cord in `x` was taken to the buffer in `b`: the bytes that are left and those of
the buffer are the bytes before, a cord from which nothing was taken is as it was, the other cords
have their handles, their nodes and their bytes, and the counts are exact. -/
structure EndTaken (b : κ) (x : ι) (s s' : Store ι κ) : Prop where
  wellFormed : s'.WellFormed
  bytes : ∃ bs cap, (s'.buffers b).Holds s'.heap bs cap ∧
    (s'.cordAt x).bytes ++ bs = (s.cordAt x).bytes ∧
    (bs = [] → s'.cords x = s.cords x ∧ Kept (s.cords x).root s.heap s'.heap)
  others : ∀ y ≠ x, s'.cords y = s.cords y ∧ Kept (s.cords y).root s.heap s'.heap ∧
    (s'.cordAt y).bytes = (s.cordAt y).bytes

variable [DecidableEq ι] [DecidableEq κ]

/-- Programs keep the store well formed. -/
theorem wellFormed_of_runAll {ops : List (StoreOp ι κ)} {answers : List Answer}
    (hadmits : language.Admits ops (initial : Store ι κ) .initial)
    (hrun : language.runAll ops (initial : Store ι κ) = .ok (answers, s)) : s.WellFormed := by
  obtain ⟨v, _, hw⟩ := (simulates initial ∅).of_runAll (fun _ _ _ _ ↦ Set.notMem_empty _)
    rest_initial hadmits hrun
  exact hw.toWorld.wellFormed

omit [Target] in
/-- What was released stays released while a buffer is dropped. -/
private theorem wp_drop_released {buffer : CordBuffer} {h : Heap Node} {a : Addr}
    (ha : h.node? a = none) {Q : Unit → Heap Node → Prop} (hrun : wp buffer.drop Q h) :
    wp buffer.drop (fun u h' ↦ Q u h' ∧ h'.node? a = none) h := by
  apply wp_and hrun
  cases buffer with
  | short data => exact (wp_pure _ _ _).mpr ha
  | long rep =>
    cases hrep : h.node? rep with
    | none =>
      obtain ⟨_, _, hfree, -⟩ := hrun
      have hget : h.get? rep = none := by simpa [Heap.node?] using hrep
      have hstop : (free rep : HeapM Unit) h = .error HeapFault.dangling := by
        simp only [free, bind, StateT.bind, cell, hget]
        rfl
      rw [CordBuffer.drop, hstop] at hfree
      cases hfree
    | some node =>
      apply wp_free_only hrep
      intro h' hnone hne
      by_cases heq : a = rep
      · rw [heq, Heap.node?, hnone, Option.map_none]
      · rw [Heap.node?_eq_of_get?_eq (hne a heq), ha]

/-- When a shared node is given up, a cord loses a node. -/
private theorem exists_lost (hw : World s₀ Y s v n [] 0) (hx : x ∉ Y)
    (hblock : ¬(s.cordAt x).Extractable s.heap minCapacity → Cord.LegalBlockSize blockSize)
    (hshared : ¬(s.cordAt x).KeepsShared s.heap minCapacity) {Q : Answer → Store ι κ → Prop}
    (hrun : wp (StoreOp.takeAppendBuffer b x blockSize capacity minCapacity).run Q s) :
    ∃ answer s', Q answer s' ∧ ∃ y ≠ x, ∃ a, Reach s.heap (s.cords y).root a ∧
      s'.heap.node? a = none := by
  have hlost : wp (takeCord x) (fun c s₁ ↦
      wp (Cord.takeAppendBufferWith c blockSize capacity minCapacity) (fun _ h' ↦ ∃ y ≠ x, ∃ a,
        Reach s.heap (s.cords y).root a ∧ h'.node? a = none) s₁.heap) s := by
    apply hw.wp_takeCord hx
    intro c s₁ hcord hs₁ hempty hheap hothers hw₁
    have hc : s.cordAt x = c := cordAt_eq hcord (hheap ▸ hs₁)
    rw [hc, ← hheap] at hshared hblock
    have howns := hw₁.owns hs₁
    rw [List.append_nil, add_zero] at howns
    apply Cord.wp_takeAppendBufferWith howns hblock (fun hkeeps ↦ absurd hkeeps hshared)
    intro _ _ a h' hreach hnone
    obtain ⟨y, hy⟩ := exists_reach_of_refsAll hreach
    have hne : y ≠ x := by
      rintro rfl
      rw [hempty] at hy
      exact not_reach_zero hy
    rw [hothers y hne, hheap] at hy
    exact ⟨y, hne, a, hy, hnone⟩
  rw [StoreOp.run, wp_bind] at hrun
  obtain ⟨c, s₁, -, hrest, hlost⟩ := wp_and hrun hlost
  rw [wp_bind, wp_onHeap] at hrest
  obtain ⟨⟨c', buffer⟩, h', -, hrest, y, hy, a, hreach, hnone⟩ := wp_and hrest hlost
  rw [wp_bind] at hrest
  obtain ⟨_, s₂, hput, hrest⟩ := hrest
  cases hput
  rw [wp_bind, assignBuffer, wp_bind] at hrest
  obtain ⟨old, s₃, htake, hrest⟩ := hrest
  cases htake
  rw [wp_bind, wp_onHeap] at hrest
  obtain ⟨_, h₃, -, hrest, hgone⟩ := wp_drop_released hnone hrest
  obtain ⟨_, s₄, hput, hrest⟩ := hrest
  cases hput
  rw [wp_pure] at hrest
  exact ⟨_, _, hrest, y, hy, a, hreach, hgone⟩

/-- Taking the end of a cord to a buffer leaves the other cords alone if and only if no node that is
given up at the top of what is left is shared. -/
theorem take_append_buffer_respects_sharing (hs : s.WellFormed)
    (hblock : ¬(s.cordAt x).Extractable s.heap minCapacity → Cord.LegalBlockSize blockSize) :
    wp (StoreOp.takeAppendBuffer b x blockSize capacity minCapacity).run
      (fun _ s' ↦ EndTaken b x s s') s ↔ (s.cordAt x).KeepsShared s.heap minCapacity := by
  obtain ⟨v, hv, hw⟩ := hs.exists_world {y | y ≠ x}
  have hx : x ∉ {y | y ≠ x} := fun hne ↦ hne rfl
  constructor
  · intro hrun
    by_contra hkeeps
    obtain ⟨_, s', htaken, y, hy, a, hreach, hnone⟩ := exists_lost hw hx hblock hkeeps hrun
    obtain ⟨-, node, hnode⟩ := hs.owned.of_reach (hreach.mono (refs_le_refsAll y))
    rw [(htaken.others y hy).2.1 a hreach, hnode] at hnone
    cases hnone
  · intro hkeeps
    apply wp_runTakeAppendBuffer hw hx hblock hkeeps rfl
    intro rest s₁ hrest hw₁ hkept
    refine ⟨hw₁.wellFormed, ⟨_, _, hw₁.buffers b, ?_, fun hnil ↦ ?_⟩, fun y hy ↦ ?_⟩
    · have hbytes := (hw₁.cordAt x).2.bytes
      simp only [Values.setBuffer, Values.setCord, Function.update_self] at hbytes ⊢
      rw [hbytes, hrest, hv]
    · simp only [Values.setBuffer, Function.update_self] at hnil
      exact hkept hnil
    · obtain ⟨hcord, hnodes⟩ := hw₁.kept y hy
      have hbytes := (hw₁.cordAt y).2.bytes
      simp only [Values.setBuffer, Values.setCord, Function.update_of_ne hy] at hbytes
      exact ⟨hcord, hnodes, hbytes.trans (hv y)⟩

/-! ### A program that loses a node -/

/-- Put bytes into a buffer, and the buffer at the end of a cord. -/
def appendFilled (x : Fin 3) (n : ℕ) (byte : UInt8) : List (StoreOp (Fin 3) (Fin 1)) :=
  [.newBuffer 0 100, .onBuffer 0 (.putSlice (List.replicate n byte)), .add true x (.buffer 0)]

/-- A node full of flats at the end of the third cord. -/
def appendNode : List (StoreOp (Fin 3) (Fin 1)) :=
  (List.replicate 6 (appendFilled 2 90 0)).flatten

/-- The first cord ends up with a node of a flat and one more node, the second cord with a node that
is full and the node of that flat. -/
def shareNode : List (StoreOp (Fin 3) (Fin 1)) :=
  appendFilled 0 20 1 ++ appendNode ++ [.add true 0 (.moved 2), .clone 1 0] ++ appendNode ++
    [.add false 1 (.moved 2), .truncate 1 560, .truncate 0 110]

/-- The second cord has the node 17 at its root and below it the node 8. -/
def HasShared (s : Store (Fin 3) (Fin 1)) : Prop :=
  (s.cords 1).root = {17} ∧ 8 ∈ ((s.heap.node? 17).map Node.children).getD [] ∧
    (s.heap.node? 8).isSome

instance (s : Store (Fin 3) (Fin 1)) : Decidable (HasShared s) :=
  inferInstanceAs (Decidable (_ ∧ _))

omit [Target] in
/-- The end of the first cord is taken after the program, and the second cord loses a node. -/
theorem take_append_buffer_loses_shared :
    letI : Target := ⟨64, .inr rfl⟩
    ∃ answers s, language.runAll shareNode initial = .ok (answers, s) ∧
      ¬wp (StoreOp.takeAppendBuffer 0 0 0 100 16).run (fun _ s' ↦ EndTaken 0 0 s s') s := by
  let _ : Target := ⟨64, .inr rfl⟩
  have hrun : (language.runAll shareNode initial >>= fun q ↦
      (StoreOp.takeAppendBuffer 0 0 0 100 16).run q.2 >>= fun q' ↦
        .ok (decide (HasShared q.2 ∧ (q'.2.heap.node? 8).isNone)) : Except Fault Bool) = .ok true := by
    decide +kernel
  obtain ⟨q, hbefore, hrun⟩ := exists_of_bind_eq_ok hrun
  obtain ⟨q', htake, hrun⟩ := exists_of_bind_eq_ok hrun
  obtain ⟨⟨hroot, hchild, hlive⟩, hgone⟩ := of_decide_eq_true (Except.ok.inj hrun)
  refine ⟨q.1, q.2, hbefore, ?_⟩
  rintro ⟨answer, s', hrun', htaken⟩
  rw [htake] at hrun'
  cases hrun'
  cases hnode : q.2.heap.node? 17 with
  | none =>
    rw [hnode] at hchild
    cases hchild
  | some node =>
    rw [hnode] at hchild
    have hreach : Reach q.2.heap (q.2.cords 1).root 8 :=
      .child (.root (by rw [hroot]; exact Multiset.mem_singleton_self 17)) hnode hchild
    have hkept := (htaken.others 1 (by decide)).2.1 8 hreach
    rw [← hkept, Option.isNone_iff_eq_none.mp hgone] at hlive
    cases hlive

/-- A cord has a node with a flat, and another cord has that node and one more. -/
def siblings : Store Bool Unit :=
  ⟨sharedSibling, fun x ↦ if x then .tree 4 else .tree 2, fun _ ↦ .new⟩

/-- The trees of the two cords. -/
def siblingReps (x : Bool) : Rep :=
  if x then siblingTree else .node ⟨2, 2, 0, 0⟩ [.leaf (.whole 0 (.flat 6 [1, 2]))]

omit [Target] in
private theorem stands_siblings (x : Bool) :
    letI : Target := ⟨64, .inr rfl⟩
    (Cord.tree (siblingReps x)).Stands siblings.heap (siblingReps x).bytes 2 := by
  let _ : Target := ⟨64, .inr rfl⟩
  obtain ⟨-, hheld, hv, hdepth⟩ := holding_sharedSibling
  refine ⟨?_, ?_, rfl, ?_⟩
  · rintro _ ⟨⟩
    cases x with
    | false => exact (Rep.held_node.mp hheld).2 _ List.mem_cons_self
    | true => exact hheld
  · cases x with
    | false => exact ⟨1, by decide, (Rep.Valid.node_iff.mp hv).2.2.2.2 _ List.mem_cons_self⟩
    | true => exact ⟨2, hdepth, hv⟩
  · cases x <;> decide

omit [Target] in
private theorem world_siblings :
    letI : Target := ⟨64, .inr rfl⟩
    World siblings ∅ siblings ⟨fun x ↦ (siblingReps x).bytes, fun _ ↦ ([], maxInline)⟩ (fun _ ↦ 2) []
      0 := by
  let _ : Target := ⟨64, .inr rfl⟩
  have hcells : siblings.cells = [] := cellsAll_eq_nil fun _ ↦ rfl
  refine ⟨?_, fun x ↦ ⟨.tree (siblingReps x), ?_, stands_siblings x⟩,
    fun _ ↦ ⟨Nat.zero_le _, rfl, rfl⟩, fun _ hy ↦ absurd hy (Set.notMem_empty _)⟩
  · rw [hcells]
    exact holding_sharedSibling.owned
  · cases x <;> rfl

omit [Target] in
/-- The node is given up with the end of the cord that has another one, and not with its own. -/
theorem take_append_buffer_respects_sharing_siblings :
    letI : Target := ⟨64, .inr rfl⟩
    (¬wp (StoreOp.takeAppendBuffer () true 0 16 1).run (fun _ s' ↦ EndTaken () true siblings s')
      siblings) ∧
    wp (StoreOp.takeAppendBuffer () false 0 16 1).run (fun _ s' ↦ EndTaken () false siblings s')
      siblings := by
  let _ : Target := ⟨64, .inr rfl⟩
  have hcord (x : Bool) : siblings.cordAt x = .tree (siblingReps x) :=
    cordAt_eq (by cases x <;> rfl) (stands_siblings x)
  have hiff (x : Bool) := @take_append_buffer_respects_sharing _ _ _ _ _ siblings x () 0 16 1 _ _
    world_siblings.wellFormed fun _ ↦ .inl rfl
  rw [hiff, hiff, hcord, hcord]
  refine ⟨fun hkeeps ↦ ?_, fun hext ↦ ?_⟩
  · have hextract : siblingTree.Extractable sharedSibling 1 := by decide
    have hremains : siblingTree.remains = some (.node ⟨4, 2, 1, 0⟩
        [.node ⟨2, 2, 0, 0⟩ [.leaf (.whole 0 (.flat 6 [1, 2]))]]) := rfl
    have hrc := hkeeps hextract _ hremains 2 (.tail _ (.head _))
    cases hrc
  · exact absurd hext (by decide)

/-! ### Cords that share nothing -/

omit [DecidableEq κ] in
/-- A cord that shares nothing gives up nothing that is shared. -/
theorem WellFormed.keepsShared (hs : s.WellFormed) (hapart : s.Apart x) :
    (s.cordAt x).KeepsShared s.heap minCapacity := by
  have hrefs := @refsAll_update _ _ _ Cord.root s.cords _ x (.inline .new)
  rw [show (Cord.inline .new : Cord Addr).root = 0 from rfl, zero_add, ← hs.handle x,
    Cord.root_handle] at hrefs
  have hroot : (s.cords x).root = (s.cordAt x).refs := by rw [← hs.handle x, Cord.root_handle]
  have howns : (s.cordAt x).Owns s.heap s.cells
      (refsAll Cord.root (Function.update s.cords x (.inline .new))) :=
    ⟨hs.owned.congr hrefs.symm, hs.held_tree, hs.valid x⟩
  apply Cord.keepsShared_of_apart howns
  rw [← hroot]
  exact hapart.of_taken

/-- As `StoreOp.Fits`, but the end is taken only of cords that share nothing. -/
def FitsApart (op : StoreOp ι κ) (s : Store ι κ) (v : Values ι κ) : Prop :=
  match op with
  | .takeAppendBuffer _ x blockSize _ _ => Cord.LegalBlockSize blockSize ∧ s.Apart x
  | op => op.Fits s v

/-- The statements of a client that takes the end only of cords that share nothing. -/
def apart : Language (Store ι κ) (Values ι κ) (StoreOp ι κ) Answer Fault :=
  { language with Fits := FitsApart }

theorem simulates_apart (s₀ : Store ι κ) (Y : Set ι) :
    (apart : Language _ _ (StoreOp ι κ) _ _).Simulates (fun op ↦ ∀ x ∈ op.writes, x ∉ Y)
      (Rest s₀ Y) := by
  have hfits {op : StoreOp ι κ} {s : Store ι κ} {v : Values ι κ} (hw : Rest s₀ Y s v)
      (hfits : FitsApart op s v) : op.Fits s v := by
    cases op with
    | takeAppendBuffer b x blockSize capacity minCapacity =>
      exact ⟨hfits.1, hw.toWorld.wellFormed.keepsShared hfits.2⟩
    | _ => exact hfits
  have hsim : (language : Language _ _ (StoreOp ι κ) _ _).Simulates _ (Rest s₀ Y) := simulates s₀ Y
  exact ⟨fun op s v hwrites hw h hgo ↦ hsim.step op s v hwrites hw (hfits hw h) hgo,
    fun op s v e hwrites hw h hrefuses ↦ hsim.stop op s v e hwrites hw (hfits hw h) hrefuses⟩

/-- After a program the cords are well formed, at every node of their trees. -/
theorem programs_keep_shape {ops : List (StoreOp ι κ)} {answers : List Answer} (x : ι)
    (hadmits : apart.Admits ops (initial : Store ι κ) .initial)
    (hrun : apart.runAll ops (initial : Store ι κ) = .ok (answers, s)) :
    (s.cordAt x).handle = s.cords x ∧ (s.cordAt x).Held s.heap ∧ (s.cordAt x).Valid := by
  obtain ⟨v, _, hw⟩ := (simulates_apart initial ∅).of_runAll (fun _ _ _ _ ↦ Set.notMem_empty _)
    rest_initial hadmits hrun
  have hs := hw.toWorld.wellFormed
  exact ⟨hs.handle x, hs.held x, hs.valid x⟩

/-- The flat of a cord is taken to a buffer. -/
def takeFlat : List (StoreOp Bool Unit) :=
  [.make false (.slice (List.replicate 20 0)), .takeAppendBuffer () false 0 100 0]

omit [Target] in
private theorem admits_takeFlat :
    letI : Target := ⟨64, .inr rfl⟩
    apart.Admits takeFlat initial .initial := by
  let _ : Target := ⟨64, .inr rfl⟩
  refine ⟨⟨trivial, by decide, by decide⟩, ?_⟩
  rintro - _ s₁ v₁ hrun₁ -
  have hcord : s₁.cords true = .inline .new := by
    cases hrun₁
    rfl
  refine ⟨⟨.inl rfl, fun y hy a _ ha ↦ ?_⟩, fun _ _ _ _ _ _ ↦ trivial⟩
  rw [Bool.eq_true_of_not_eq_false hy, hcord] at ha
  exact not_reach_zero ha

omit [Target] in
/-- The cord is well formed after that. -/
theorem programs_keep_shape_taken :
    letI : Target := ⟨64, .inr rfl⟩
    ∃ answers s, apart.runAll takeFlat initial = .ok (answers, s) ∧
      (s.cordAt false).handle = s.cords false ∧ (s.cordAt false).Held s.heap ∧
        (s.cordAt false).Valid := by
  let _ : Target := ⟨64, .inr rfl⟩
  have hok : (apart.runAll takeFlat initial).isOk := by decide +kernel
  cases hrun : apart.runAll takeFlat initial with
  | error e =>
    rw [hrun] at hok
    cases hok
  | ok q => exact ⟨q.1, q.2, rfl, programs_keep_shape false admits_takeFlat hrun⟩

end Store

end CordRs
