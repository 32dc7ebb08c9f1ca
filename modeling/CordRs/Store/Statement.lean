import CordRs.Store.Step

/-!
# One statement of a client

## Main results

* `CordRs.StoreOp.wp_run`: a statement that is not refused does to the heap what it means on the
  bytes, and the counts stay exact.
* `CordRs.StoreOp.throws_run`: a statement that is refused panics.
-/

namespace CordRs

open RefHeap LevelTree Store

variable {ι κ : Type} [Fintype ι] [Fintype κ] [DecidableEq ι] [DecidableEq κ] [Target]
  {s₀ s : Store ι κ} {Y : Set ι} {v : Values ι κ} {n : ι → ℕ} {x y : ι} {b : κ}

/-- The cords have lengths that a cord can have. -/
def Values.Short (v : Values ι κ) : Prop := ∀ x, (v.cords x).length ≤ usizeMax

omit [Fintype ι] [Fintype κ] [DecidableEq κ] in
theorem Values.Short.setCord {bs : Bytes} (hv : v.Short) (hbs : bs.length ≤ usizeMax) :
    (v.setCord x bs).Short := by
  intro y
  by_cases hy : y = x
  · subst hy
    simp only [Values.setCord, Function.update_self]
    exact hbs
  · simp only [Values.setCord, Function.update_of_ne hy]
    exact hv y

/-- What a statement leaves behind. -/
def StoreOp.Done (op : StoreOp ι κ) (s₀ : Store ι κ) (Y : Set ι) (s : Store ι κ) (v : Values ι κ)
    (answer : Answer) (s' : Store ι κ) : Prop :=
  ∃ v' n', op.Means s v answer v' ∧ World s₀ Y s' v' n' [] 0

omit [DecidableEq κ] in
/-- A cord is split in two. -/
private theorem wp_assignSplit (hw : World s₀ Y s v n [] 0) (hx : x ∉ Y) (hy : y ∉ Y)
    {f : Cord Addr → HeapM (Cord Addr × Cord Addr)} {bs₁ bs₂ : Bytes}
    (hf : ∀ (c : Cord Rep) (s' : Store ι κ), c.Stands s'.heap (v.cords x) (n x) →
      c.Owns s'.heap s'.cells s'.refs →
      wp (f c.handle) (fun q h' ↦ ∃ c₁ c₂ : Cord Rep, q = (c₁.handle, c₂.handle) ∧
        Cord.Split c c₁ c₂ bs₁ bs₂ s'.heap s'.cells s'.refs h') s'.heap)
    {Q : Answer → Store ι κ → Prop}
    (hQ : ∀ s', World s₀ Y s' ((v.setCord x bs₁).setCord y bs₂) (Function.update n y (n x)) [] 0 →
      Q .unit s') :
    wp (do
      let c ← takeCord x
      let (c, rest) ← onHeap (f c)
      putCord x c
      assign y rest
      pure .unit) Q s := by
  rw [wp_bind]
  apply hw.wp_takeCord hx
  intro c s₁ _ hs₁ hempty _ _ hw₁
  have howns := hw₁.owns hs₁
  rw [List.append_nil, add_zero] at howns
  rw [wp_bind, wp_onHeap]
  apply wp_mono (hf c s₁ hs₁ howns)
  rintro _ h₂ ⟨c₁, c₂, rfl, hsplit⟩
  have ho₂ : Owned h₂ (s₁.cells ++ []) (s₁.refs + (c₁.refs + (c₂.refs + 0))) := by
    apply (hsplit.owned.congr _).perm (.of_eq (List.append_nil _).symm)
    rw [add_zero, ← add_assoc, add_comm]
  have hw₂ := hw₁.step ho₂ hsplit.frame
  have hs₂ : c₁.Stands h₂ bs₁ (n x) :=
    ⟨hsplit.held₁, hsplit.valid₁, hsplit.bytes₁, hsplit.edges₁.trans hs₁.edges⟩
  rw [wp_bind]
  apply hw₂.wp_putCord hs₂ hx hempty
  intro s₃ hw₃ hheap₃ _
  have hs₃ : c₂.Stands s₃.heap bs₂ (n x) := by
    rw [hheap₃]
    exact ⟨hsplit.held₂, hsplit.valid₂, hsplit.bytes₂, hsplit.edges₂.trans hs₁.edges⟩
  rw [wp_bind]
  apply hw₃.wp_assign hs₃ hy
  intro s₄ hw₄ _
  rw [wp_pure]
  apply hQ
  rw [Values.setCord_setCord, Function.update_idem, Function.update_eq_self] at hw₄
  exact hw₄

/-- A buffer is taken out of a cord, which stays as it is if the buffer has no bytes. -/
theorem wp_runTakeAppendBuffer (hw : World s₀ Y s v n [] 0) (hx : x ∉ Y)
    {blockSize capacity minCapacity : ℕ} {given : Bytes × ℕ}
    (hblock : ¬(s.cordAt x).Extractable s.heap minCapacity → Cord.LegalBlockSize blockSize)
    (hshared : (s.cordAt x).KeepsShared s.heap minCapacity)
    (hgiven : (s.cordAt x).handedOut s.heap blockSize capacity minCapacity = given)
    {Q : Answer → Store ι κ → Prop}
    (hQ : ∀ rest s', rest ++ given.1 = v.cords x →
      World s₀ Y s' ((v.setCord x rest).setBuffer b given.1 given.2) n [] 0 →
      (given.1 = [] → s'.cords x = s.cords x ∧ Kept (s.cords x).root s.heap s'.heap) → Q .unit s') :
    wp ((StoreOp.takeAppendBuffer b x blockSize capacity minCapacity).run) Q s := by
  rw [StoreOp.run, wp_bind]
  apply hw.wp_takeCord hx
  intro c s₁ hcord hs₁ hempty hheap _ hw₁
  have hc : s.cordAt x = c := cordAt_eq hcord (hheap ▸ hs₁)
  rw [hc, ← hheap] at hshared hgiven hblock
  have howns := hw₁.owns hs₁
  rw [List.append_nil, add_zero] at howns
  rw [wp_bind, wp_onHeap]
  apply Cord.wp_takeAppendBufferWith howns hblock
  swap
  · exact fun hbad ↦ absurd hshared hbad
  intro _ c' buffer h₂ hedges htaken
  rw [hgiven] at htaken
  have ho₂ : Owned h₂ (s₁.cells ++ (buffer.cells ++ [])) (s₁.refs + (c'.refs + 0)) := by
    rw [List.append_nil, add_zero]
    exact (htaken.owns.owned.congr (add_comm _ _)).perm List.perm_append_comm
  have hw₂ := hw₁.step ho₂ htaken.frame
  have hs₂ : c'.Stands h₂ c'.bytes (n x) :=
    ⟨htaken.owns.held, htaken.owns.valid, rfl, hedges.trans hs₁.edges⟩
  rw [wp_bind]
  apply hw₂.wp_putCord hs₂ hx hempty
  intro s₃ hw₃ hheap₃ hcords₃
  rw [wp_bind]
  have hb₃ : buffer.Holds s₃.heap given.1 given.2 := by
    rw [hheap₃]
    exact htaken.holds
  apply hw₃.wp_assignBuffer hb₃
  intro s₄ hw₄ hcords₄ hkept₄
  rw [wp_pure]
  apply hQ c'.bytes s₄ (htaken.bytes.trans hs₁.bytes)
  · rw [Values.setCord_setCord, Function.update_idem, Function.update_eq_self] at hw₄
    exact hw₄
  · intro hnil
    obtain ⟨rfl, hf⟩ := htaken.kept hnil
    have hcord₃ : s₃.cords x = s.cords x := by rw [hcords₃, Function.update_self, hcord]
    have hle : (s.cords x).root ≤ s₃.refs := by
      rw [← hcord₃]
      exact refs_le_refsAll x
    refine ⟨by rw [hcords₄, hcord₃], ?_⟩
    have hkept : Kept (s.cords x).root s.heap h₂ := by
      rw [← hheap, ← hcord, Cord.root_handle]
      exact hf.kept' (Multiset.le_add_right _ _)
    rw [hheap₃] at hkept₄
    exact hkept.trans fun a ha ↦ hkept₄ a (ha.mono hle)

omit [DecidableEq ι] in
/-- A new buffer is put into a variable. -/
private theorem wp_assignNewBuffer (hw : World s₀ Y s v n [] 0) {p : HeapM CordBuffer} {cap : ℕ}
    (hp : wp p (fun buffer h' ↦ buffer.Holds h' [] cap ∧
      Owned h' (buffer.cells ++ s.cells) s.refs ∧ Grows s.heap h') s.heap)
    {Q : Answer → Store ι κ → Prop}
    (hQ : ∀ s', World s₀ Y s' (v.setBuffer b [] cap) n [] 0 → Q .unit s') :
    wp (do
      let buffer ← onHeap p
      assignBuffer b buffer
      pure .unit) Q s := by
  rw [wp_bind, wp_onHeap]
  apply wp_mono hp
  rintro buffer h₁ ⟨hb, ho₁, hg⟩
  have ho₁' : Owned h₁ (s.cells ++ (buffer.cells ++ [])) (s.refs + 0) := by
    rw [List.append_nil, add_zero]
    exact ho₁.perm List.perm_append_comm
  have hw₁ := hw.step ho₁' (hw.owned_only.frame_of_grows hg)
  rw [wp_bind]
  apply hw₁.wp_assignBuffer hb
  intro s₂ hw₂ _ _
  rw [wp_pure]
  exact hQ s₂ hw₂

omit [DecidableEq ι] [DecidableEq κ] [Target] [Fintype ι] [Fintype κ] in
/-- The variables of an addition. -/
private theorem writes_add {back : Bool} {src : CordSource ι κ}
    (hwrites : ∀ z ∈ (StoreOp.add back x src).writes, z ∉ Y) :
    x ∉ Y ∧ ∀ y, src = .moved y → y ∉ Y := by
  constructor
  · cases src with
    | moved y => exact hwrites x (.inl rfl)
    | _ => exact hwrites x rfl
  · rintro y rfl
    exact hwrites y (.inr rfl)

omit [Target] in
private theorem eq_of_faultOf {α : Type} {p : Except Fault α} {f : Fault}
    (hp : faultOf p = some f) : p = .error f := by
  cases p with
  | error f' =>
    cases hp
    rfl
  | ok a => cases hp

omit [Target] in
private theorem exists_of_faultOf {α : Type} {p : Except Fault α} (hp : faultOf p = none) :
    ∃ a, p = .ok a := by
  cases p with
  | error f => simp [faultOf] at hp
  | ok a => exact ⟨a, rfl⟩

omit [Fintype ι] [Fintype κ] in
/-- The cords are not too long after a statement, either. -/
theorem StoreOp.Means.short {op : StoreOp ι κ} {answer : Answer} {v' : Values ι κ} (hv : v.Short)
    (hfits : op.Fits s v) (hgo : op.refuses v = none) (hmeans : op.Means s v answer v') :
    v'.Short := by
  have htake (x : ι) (bs : Bytes) (hbs : bs.length ≤ (v.cords x).length) : bs.length ≤ usizeMax :=
    hbs.trans (hv x)
  cases op with
  | make x src =>
    obtain ⟨-, rfl⟩ := hmeans
    cases src <;> exact Values.Short.setCord hv hfits.2.1
  | clone x y | cloneFrom x y =>
    obtain ⟨-, rfl⟩ := hmeans
    exact hv.setCord (hv y)
  | clear x | intoVec x memory =>
    obtain ⟨-, rfl⟩ := hmeans
    exact hv.setCord (Nat.zero_le _)
  | add back x src =>
    obtain ⟨-, rfl⟩ := hmeans
    have hlen : (join back (v.cords x) (src.bytes v)).length ≤ usizeMax := by
      rw [length_join]
      exact (hfits.2 hgo).1
    cases src with
    | moved y => exact (hv.setCord (Nat.zero_le _)).setCord hlen
    | _ => exact Values.Short.setCord hv hlen
  | extend x bytes panics =>
    obtain ⟨-, rfl⟩ := hmeans
    apply hv.setCord
    rw [List.length_append]
    exact hfits.1
  | advance x k =>
    obtain ⟨-, rfl⟩ := hmeans
    exact hv.setCord (htake x _ (by simp))
  | truncate x len =>
    obtain ⟨-, rfl⟩ := hmeans
    exact hv.setCord (htake x _ (by simp))
  | slice x y range =>
    obtain ⟨-, pos, k, -, rfl⟩ := hmeans
    exact hv.setCord (htake y _ (by simp))
  | get x y range =>
    rw [Means] at hmeans
    split at hmeans
    · obtain ⟨-, rfl⟩ := hmeans
      exact hv.setCord (htake y _ (by simp))
    · obtain ⟨-, rfl⟩ := hmeans
      exact hv
  | splitOff x y pos | splitTo x y pos =>
    obtain ⟨-, rfl⟩ := hmeans
    exact (hv.setCord (htake x _ (by simp))).setCord (htake x _ (by simp))
  | readCord x y pos k =>
    obtain ⟨-, rfl⟩ := hmeans
    exact hv.setCord (htake y _ (by simp))
  | makeContiguous x memory =>
    obtain ⟨-, rfl⟩ := hmeans
    exact hv
  | deserialize x seq =>
    rw [Means] at hmeans
    split at hmeans
    · obtain ⟨-, rfl⟩ := hmeans
      exact hv.setCord hfits.1
    · obtain ⟨-, rfl⟩ := hmeans
      exact hv
  | write x calls =>
    obtain ⟨⟨answers, w, -, hcalls⟩, rfl⟩ := hmeans
    have hbytes : w.bytes = v.cords x ++ calls.flatMap WriterOp.written :=
      CordWriter.bytes_of_meansAll (fun _ _ _ _ _ hop ↦ hop) hcalls
    rw [← hbytes]
    exact hv.setCord (CordWriter.length_le_of_meansAll (hv x) hfits.2.1 hcalls)
  | newBuffer b capacity | newBufferWithBlockSize b capacity blockSize
  | cloneBuffer b d | onBuffer b call =>
    obtain ⟨-, rfl⟩ := hmeans
    exact hv
  | takeAppendBuffer b x blockSize capacity minCapacity =>
    obtain ⟨-, rest, hrest, rfl⟩ := hmeans
    have hle : rest.length ≤ (v.cords x).length := by
      rw [← hrest, List.length_append]
      exact Nat.le_add_right _ _
    exact hv.setCord (htake x _ hle)
  | query q =>
    obtain ⟨-, rfl⟩ := hmeans
    exact hv

/-- A statement that is not refused does to the heap what it means on the bytes, and the counts stay
exact. -/
theorem StoreOp.wp_run (hw : World s₀ Y s v n [] 0) (hv : v.Short) {op : StoreOp ι κ}
    (hwrites : ∀ x ∈ op.writes, x ∉ Y) (hfits : op.Fits s v) (hgo : op.refuses v = none) :
    wp op.run (op.Done s₀ Y s v) s := by
  have ho := hw.owned_only
  replace hw := hw.tighten
  cases op with
  | make x src =>
    obtain ⟨hsound, hlimits⟩ := hfits
    rw [run, wp_bind]
    apply src.wp_make hw hsound hlimits
    intro c s₁ hw₁ hs₁
    rw [wp_bind]
    apply hw₁.wp_assign hs₁ (hwrites x rfl)
    intro s₂ hw₂ _
    rw [wp_pure]
    exact ⟨_, _, ⟨rfl, rfl⟩, hw₂⟩
  | clone x y =>
    obtain ⟨c, hc, hshared, hs⟩ := hw.shared y
    rw [run, wp_bind, wp_borrow, ← hc]
    apply hw.wp_assignNew (hwrites x rfl)
    · apply Cord.wp_clone (hshared.borrowed ho) hs.valid
      intro h₁ hnew
      rw [hs.bytes] at hnew
      exact hnew.makes hs.edges
    · exact fun s₁ hw₁ ↦ ⟨_, _, ⟨rfl, rfl⟩, hw₁⟩
  | cloneFrom x y =>
    rw [run, wp_bind, wp_borrow]
    apply hw.wp_modifyCord (m := s.edgeCount y) (hwrites x rfl) _ fun s₁ hw₁ ↦ ⟨_, _, ⟨rfl, rfl⟩, hw₁⟩
    intro c s₁ hs hheap hothers hc hw₁
    obtain ⟨src, hsrc, hshared, hstands⟩ := hw₁.shared y
    rw [hothers y (Ne.symm hfits)] at hsrc
    simp only [Values.setCord, Function.update_of_ne (Ne.symm hfits)] at hstands
    rw [List.nil_append, zero_add] at hc
    rw [← hsrc]
    apply wp_silent
    apply Cord.wp_cloneFrom hc hshared hstands.valid
    intro h₂ hnew
    rw [hstands.bytes] at hnew
    exact hnew.makes hstands.edges
  | clear x =>
    apply hw.wp_change (hwrites x rfl)
    · intro c s₁ hs hc
      apply Cord.wp_clear hc
      intro h₂ hnew
      exact hnew.makes Cord.edgeCount_new.le
    · exact fun s₁ hw₁ ↦ ⟨_, _, ⟨rfl, rfl⟩, hw₁⟩
  | add back x src =>
    obtain ⟨hsound, hlimits⟩ := hfits
    obtain ⟨hx, hy⟩ := writes_add hwrites
    apply src.wp_add hw hx hy hsound (hlimits hgo)
    exact fun s₁ _ hw₁ ↦ ⟨_, _, ⟨rfl, rfl⟩, hw₁⟩
  | extend x bytes panics =>
    apply hw.wp_change (hwrites x rfl)
    · intro c s₁ hs hc
      apply Cord.wp_extend hc
      · rw [hs.len]
        exact hfits.1
      · exact (Nat.add_le_add_right hs.edges _).trans hfits.2
      intro c' h₂ hnew hedges
      rw [hs.bytes] at hnew
      exact hnew.makes (hedges.trans (Nat.add_le_add_right hs.edges _))
    · exact fun s₁ hw₁ ↦ ⟨_, _, ⟨rfl, rfl⟩, hw₁⟩
  | advance x k =>
    have hle : k ≤ (v.cords x).length := by
      by_contra hlt
      simp [refuses, hlt] at hgo
    apply hw.wp_change (m := s.edgeCount x) (hwrites x rfl)
    · intro c s₁ hs hc
      apply Cord.wp_advance hc (hs.len ▸ hle)
      intro c' h₂ hpart
      rw [hs.bytes] at hpart
      exact hpart.makes hs.edges
    · intro s₁ hw₁
      rw [Function.update_eq_self] at hw₁
      exact ⟨_, _, ⟨rfl, rfl⟩, hw₁⟩
  | truncate x len =>
    apply hw.wp_change (m := s.edgeCount x) (hwrites x rfl)
    · intro c s₁ hs hc
      apply Cord.wp_truncate hc
      intro c' h₂ hpart
      rw [hs.bytes] at hpart
      exact hpart.makes hs.edges
    · intro s₁ hw₁
      rw [Function.update_eq_self] at hw₁
      exact ⟨_, _, ⟨rfl, rfl⟩, hw₁⟩
  | slice x y range =>
    obtain ⟨c, hc, hshared, hs⟩ := hw.shared y
    obtain ⟨⟨pos, k⟩, hrange⟩ := exists_of_faultOf hgo
    rw [run, wp_bind, wp_borrow, ← hc]
    apply hw.wp_assignNew (hwrites x rfl)
    · apply Cord.wp_slice (hshared.borrowed ho) hs.valid (hs.len ▸ hrange)
      intro c' h₁ hpart
      rw [hs.bytes] at hpart
      exact hpart.makes hs.edges
    · exact fun s₁ hw₁ ↦ ⟨_, _, ⟨rfl, pos, k, hrange, rfl⟩, hw₁⟩
  | get x y range =>
    obtain ⟨c, hc, hshared, hs⟩ := hw.shared y
    rw [run, wp_bind, wp_borrow, ← hc, wp_bind, wp_onHeap]
    apply Cord.wp_getRange (hshared.borrowed ho) hs.valid
    · rintro ⟨f, hrange⟩
      rw [hs.len] at hrange
      rw [wp_pure]
      refine ⟨v, _, ?_, hw⟩
      rw [Means, hrange]
      exact ⟨rfl, rfl⟩
    · intro pos k hrange c' h₁ hpart
      rw [hs.len] at hrange
      have hnew := hpart.toNew
      rw [hs.bytes] at hnew
      have hs₁ := stands_of_new hnew (hpart.edges.trans hs.edges)
      simp only [wp_bind]
      apply (hw.of_new_only hnew).wp_assign hs₁ (hwrites x rfl)
      intro s₂ hw₂ _
      rw [wp_pure]
      refine ⟨_, _, ?_, hw₂⟩
      rw [Means, hrange]
      exact ⟨rfl, rfl⟩
  | splitOff x y pos =>
    have hle : pos ≤ (v.cords x).length := by
      by_contra hlt
      simp [refuses, hlt] at hgo
    apply wp_assignSplit hw (hwrites x (.inl rfl)) (hwrites y (.inr rfl))
    · intro c s₁ hs hc
      apply Cord.wp_splitOff hc (hs.len ▸ hle)
      intro c₁ c₂ h₂ hsplit
      rw [hs.bytes] at hsplit
      exact ⟨c₁, c₂, rfl, hsplit⟩
    · exact fun s₁ hw₁ ↦ ⟨_, _, ⟨rfl, rfl⟩, hw₁⟩
  | splitTo x y pos =>
    have hle : pos ≤ (v.cords x).length := by
      by_contra hlt
      simp [refuses, hlt] at hgo
    apply wp_assignSplit hw (hwrites x (.inl rfl)) (hwrites y (.inr rfl))
    · intro c s₁ hs hc
      apply Cord.wp_splitTo hc (hs.len ▸ hle)
      intro c₁ c₂ h₂ hsplit
      rw [hs.bytes] at hsplit
      exact ⟨c₁, c₂, rfl, hsplit⟩
    · exact fun s₁ hw₁ ↦ ⟨_, _, ⟨rfl, rfl⟩, hw₁⟩
  | readCord x y pos k =>
    obtain ⟨c, hc, hshared, hs⟩ := hw.shared y
    have hle : pos + k ≤ (v.cords y).length := by
      simp only [refuses] at hgo
      split_ifs at hgo with hpos hk
      omega
    rw [run, wp_bind, wp_borrow, ← hc]
    apply hw.wp_assignNew (hwrites x rfl)
    · exact Cord.readRange_makes hshared ho hs (hv y) hle
    · exact fun s₁ hw₁ ↦ ⟨_, _, ⟨rfl, rfl⟩, hw₁⟩
  | makeContiguous x memory =>
    apply hw.wp_modifyCord (m := s.edgeCount x) (hwrites x rfl)
    · intro c s₁ hs _ _ hc _
      rw [List.nil_append, zero_add] at hc
      exact Cord.flatten_makes hc hs
    · intro s₁ hw₁
      rw [Function.update_eq_self] at hw₁
      refine ⟨v, _, ⟨rfl, rfl⟩, hw₁.congr ?_ rfl⟩
      rw [Values.setCord, Function.update_eq_self]
  | intoVec x memory =>
    apply hw.wp_modifyCord (hwrites x rfl)
    · intro c s₁ hs _ _ hc _
      rw [List.nil_append, zero_add] at hc
      exact Cord.consume_makes hc hs
    · exact fun s₁ hw₁ ↦ ⟨_, _, ⟨rfl, rfl⟩, hw₁⟩
  | deserialize x seq =>
    rw [run, wp_bind, wp_onHeap]
    apply wp_deserialized ho hfits
    · intro e he h₁ ho₁ hf₁
      have ho₁' : Owned h₁ (s.cells ++ []) (s.refs + 0) := by
        rw [List.append_nil, add_zero]
        exact ho₁
      rw [wp_pure]
      refine ⟨v, _, ?_, hw.step ho₁' hf₁⟩
      rw [Means, he]
      exact ⟨rfl, rfl⟩
    · intro hnone c h₁ hnew hedges
      simp only [wp_bind]
      apply (hw.of_new_only hnew).wp_assign (stands_of_new hnew hedges) (hwrites x rfl)
      intro s₂ hw₂ _
      rw [wp_pure]
      refine ⟨_, _, ?_, hw₂⟩
      rw [Means, hnone]
      exact ⟨rfl, rfl⟩
  | write x calls =>
    obtain ⟨hapart, hadmits, hgo⟩ := hfits
    apply hw.wp_modify (P := fun answer ↦ ∃ answers w, answer = .calls answers ∧
      (CordWriter.apart 0).MeansAll calls (s.writer x) ⟨v.cords x, none⟩ answers w) (hwrites x rfl)
    · intro c s₁ hs hheap hcords hc howns _
      rw [List.nil_append, zero_add] at howns
      rw [writer, ← hc, ← hheap] at hadmits hgo ⊢
      refine Cord.write_makes howns hs ?_ (hv x) hadmits hgo
      rw [← Cord.root_handle, hc, hheap, refs, hcords]
      exact hapart.of_taken
    · rintro answer s₁ hanswer hw₁
      exact ⟨_, _, ⟨hanswer, rfl⟩, hw₁⟩
  | newBuffer b capacity =>
    apply wp_assignNewBuffer hw
    · apply CordBuffer.wp_withCapacity ho
      intro buffer h₁ hb ho₁ hg
      exact ⟨hb, ho₁, hg⟩
    · exact fun s₁ hw₁ ↦ ⟨_, _, ⟨rfl, rfl⟩, hw₁⟩
  | newBufferWithBlockSize b capacity blockSize =>
    apply wp_assignNewBuffer hw
    · apply CordBuffer.wp_withCapacityAndBlockSize hfits.1 hfits.2 ho
      intro buffer h₁ hb ho₁ hg
      exact ⟨hb, ho₁, hg⟩
    · exact fun s₁ hw₁ ↦ ⟨_, _, ⟨rfl, rfl⟩, hw₁⟩
  | cloneBuffer b d =>
    rw [run, wp_bind]
    apply hw.wp_takeBuffer
    intro buffer s₁ hb hempty _ _ _ hw₁
    rw [wp_bind, wp_onHeap]
    apply CordBuffer.wp_clone hb (hw₁.owned_buffer)
    intro new h₂ hnew₂ hb₂ ho₂ hf₂
    have ho₂' : Owned h₂ (s₁.cells ++ (buffer.cells ++ (new.cells ++ []))) (s₁.refs + 0) := by
      rw [List.append_nil, add_zero]
      refine ho₂.perm ?_
      rw [← List.append_assoc]
      exact List.perm_append_comm
    have hw₂ := hw₁.step ho₂' (hf₂.mono (List.subset_append_right _ _) le_rfl)
    rw [wp_bind]
    apply hw₂.wp_putBuffer hb₂ hempty
    intro s₃ hw₃ _ hheap₃
    have hnew₃ : new.Holds s₃.heap (v.buffers d).1 (v.buffers d).2 := by
      rw [hheap₃]
      exact hnew₂
    rw [wp_bind]
    apply hw₃.wp_assignBuffer hnew₃
    intro s₄ hw₄ _ _
    rw [wp_pure]
    refine ⟨_, s.edgeCount, ⟨rfl, rfl⟩, hw₄.congr ?_ rfl⟩
    simp only [Values.setBuffer, Function.update_idem, Function.update_eq_self]
  | onBuffer b call =>
    rw [run, wp_bind]
    apply hw.wp_takeBuffer
    intro buffer s₁ hb hempty _ _ _ hw₁
    rw [wp_bind, wp_onHeap]
    apply CordBuffer.wp_step (v := v.filled b) hb hw₁.owned_buffer hgo
    intro buffer' h₂ hb₂ ho₂ hf₂
    have ho₂' : Owned h₂ (s₁.cells ++ (buffer'.cells ++ [])) (s₁.refs + 0) := by
      rw [List.append_nil, add_zero]
      exact ho₂.perm List.perm_append_comm
    rw [wp_bind]
    apply (hw₁.step ho₂' hf₂).wp_putBuffer hb₂ hempty
    intro s₃ hw₃ _ _
    rw [wp_pure]
    refine ⟨_, s.edgeCount, ⟨rfl, rfl⟩, ?_⟩
    simp only [Values.setBuffer, Function.update_idem] at hw₃
    exact hw₃
  | takeAppendBuffer b x blockSize capacity minCapacity =>
    apply wp_runTakeAppendBuffer hw (hwrites x rfl) (fun _ ↦ hfits.1) hfits.2 rfl
    intro rest s₁ hrest hw₁ _
    exact ⟨_, _, ⟨rfl, rest, hrest, rfl⟩, hw₁⟩
  | query q =>
    apply wp_mono (q.wp_run hw)
    rintro _ _ ⟨rfl, rfl⟩
    exact ⟨v, _, ⟨rfl, rfl⟩, hw⟩

/-! ### Refused statements -/

omit [DecidableEq κ] in
/-- A change of a cord that panics. -/
private theorem throws_takeCord {α : Type} {Z : List Addr} {R : Multiset Addr}
    (hw : World s₀ Y s v n Z R) (hx : x ∉ Y)
    {f : Cord Addr → StoreM ι κ α} {e : Fault}
    (hf : ∀ (c : Cord Rep) (s' : Store ι κ), c.Stands s'.heap (v.cords x) (n x) →
      s'.heap = s.heap → (∀ y ≠ x, s'.cords y = s.cords y) → Throws (f c.handle) e s') :
    Throws (do
      let c ← takeCord x
      f c) e s := by
  apply throws_bind
  apply hw.wp_takeCord hx
  intro c s₁ _ hs₁ _ hheap hothers _
  exact hf c s₁ hs₁ hheap hothers

omit [DecidableEq κ] in
/-- A cord in the hands that makes the length overflow is not added. -/
private theorem throws_addHeld {src : Cord Rep} {m : ℕ} {bs : Bytes} {back : Bool}
    (hw : World s₀ Y s v n [] (src.refs + 0)) (hsrc : src.Stands s.heap bs m) (hx : x ∉ Y)
    (hne : bs ≠ []) (hover : usizeMax < (v.cords x).length + bs.length) :
    Throws (modifyCord x (silent fun c ↦ c.addWhole back true src.handle))
      (.panic "Cord length overflow") s := by
  apply throws_takeCord hw hx
  intro c s₁ hs hheap _
  rw [← hheap] at hsrc
  apply Throws.bind
  exact throws_onHeap ((Cord.throws_addWhole hs hsrc hne hover).bind _)

/-- A cord that makes the length overflow is not added. -/
private theorem throws_add (hw : World s₀ Y s v n [] 0) {back : Bool} {src : CordSource ι κ}
    (hx : x ∉ Y) (hy : ∀ y, src = .moved y → y ∉ Y) (hsound : src.Sound x)
    (hcord : src.isCord = true) (hover : usizeMax < (v.cords x).length + (src.bytes v).length)
    (hne : src.bytes v ≠ []) :
    Throws ((StoreOp.add back x src).run) (.panic "Cord length overflow") s := by
  cases src with
  | cord y =>
    obtain ⟨src, hsrc, _, hstands⟩ := hw.shared y
    simp only [StoreOp.run, CordSource.prepare, bind_assoc, pure_bind]
    apply throws_bind
    rw [wp_borrow, ← hsrc]
    apply throws_takeCord hw hx
    intro c s₁ hs hheap _
    rw [← hheap] at hstands
    apply Throws.bind
    exact throws_onHeap ((Cord.throws_addWhole hs hstands hne hover).bind _)
  | cloned y =>
    obtain ⟨src, hsrc, hshared, hstands⟩ := hw.shared y
    simp only [StoreOp.run, CordSource.prepare, bind_assoc, pure_bind]
    apply throws_bind
    rw [wp_borrow, ← hsrc]
    apply throws_bind
    rw [wp_onHeap]
    apply Cord.wp_clone (hshared.borrowed hw.owned_only) hstands.valid
    intro h₁ hnew
    have hstands₁ := stands_of_new hnew hstands.edges
    rw [hstands.bytes] at hstands₁
    exact throws_addHeld (hw.of_new_only hnew) hstands₁ hx hne hover
  | moved y =>
    simp only [StoreOp.run, CordSource.prepare, bind_assoc, pure_bind]
    apply throws_bind
    apply hw.wp_takeCord (hy y rfl)
    intro src s₁ _ hstands _ _ _ hw₁
    have hvx : (v.setCord y []).cords x = v.cords x := Function.update_of_ne hsound _ _
    apply throws_addHeld hw₁ hstands hx hne
    rw [hvx]
    exact hover
  | slice data => cases hcord
  | owned data capacity => cases hcord
  | global data allocationSize => cases hcord
  | buffer b => cases hcord

/-- A statement that is refused panics. -/
theorem StoreOp.throws_run (hw : World s₀ Y s v n [] 0) {op : StoreOp ι κ}
    (hwrites : ∀ x ∈ op.writes, x ∉ Y) (hfits : op.Fits s v) {f : Fault}
    (hrefuses : op.refuses v = some f) : Throws op.run f s := by
  cases op with
  | add back x src =>
    obtain ⟨hx, hy⟩ := writes_add hwrites
    simp only [refuses] at hrefuses
    split_ifs at hrefuses with hif
    cases hrefuses
    exact throws_add hw hx hy hfits.1 hif.1 hif.2.1 hif.2.2
  | advance x k =>
    simp only [refuses] at hrefuses
    split_ifs at hrefuses with hle
    cases hrefuses
    apply throws_takeCord hw (hwrites x rfl)
    intro c s₁ hs _ _
    apply Throws.bind
    apply throws_onHeap
    apply Throws.bind
    rw [← hs.len] at hle ⊢
    exact Cord.throws_advance hs.held (Nat.lt_of_not_le hle)
  | slice x y range =>
    obtain ⟨c, hc, _, hs⟩ := hw.shared y
    have hrange := eq_of_faultOf hrefuses
    rw [run]
    apply throws_bind
    rw [wp_borrow, ← hc]
    apply Throws.bind
    apply throws_onHeap
    exact Cord.throws_slice hs.held (hs.len ▸ hrange)
  | splitOff x y pos =>
    simp only [refuses] at hrefuses
    split_ifs at hrefuses with hle
    cases hrefuses
    apply throws_takeCord hw (hwrites x (.inl rfl))
    intro c s₁ hs _ _
    apply Throws.bind
    apply throws_onHeap
    rw [← hs.len] at hle ⊢
    exact Cord.throws_splitOff hs.held (Nat.lt_of_not_le hle)
  | splitTo x y pos =>
    simp only [refuses] at hrefuses
    split_ifs at hrefuses with hle
    cases hrefuses
    apply throws_takeCord hw (hwrites x (.inl rfl))
    intro c s₁ hs _ _
    apply Throws.bind
    apply throws_onHeap
    rw [← hs.len] at hle ⊢
    exact Cord.throws_splitTo hs.held (Nat.lt_of_not_le hle)
  | readCord x y pos k =>
    obtain ⟨c, hc, _, hs⟩ := hw.shared y
    rw [run]
    apply throws_bind
    rw [wp_borrow, ← hc]
    apply Throws.bind
    apply throws_onHeap
    simp only [refuses] at hrefuses
    split_ifs at hrefuses with hpos hk
    · cases hrefuses
      exact Cord.throws_readRange_advance hs hpos
    · cases hrefuses
      exact Cord.throws_readRange_read hs (Nat.le_of_not_lt hpos) hk
  | onBuffer b call =>
    rw [run]
    apply throws_bind
    apply hw.wp_takeBuffer
    intro buffer s₁ hb _ _ _ _ hw₁
    apply Throws.bind
    exact throws_onHeap (CordBuffer.throws_step (v := v.filled b) hb hw₁.owned_buffer hrefuses)
  | _ => cases hrefuses

omit [Fintype ι] [Fintype κ] [DecidableEq ι] [DecidableEq κ] in
/-- A statement is refused with a panic. -/
theorem StoreOp.panics_of_refuses {op : StoreOp ι κ} {f : Fault} (hrefuses : op.refuses v = some f) :
    ∃ message, f = .panic message := by
  cases op with
  | slice x y range => exact Cord.resolveRange_panics (eq_of_faultOf hrefuses)
  | onBuffer b call => exact call.panics_of_refuses hrefuses
  | add | advance | splitOff | splitTo | readCord =>
    simp only [refuses] at hrefuses
    split_ifs at hrefuses <;> cases hrefuses <;> exact ⟨_, rfl⟩
  | _ => cases hrefuses

end CordRs
