import CordRs.Store.Run

/-!
# Cords as independent values

## Main definitions

* `CordRs.StoreOp.apply`: what a statement does to byte lists that share nothing.
* `CordRs.StoreOp.Accepted`: statements that do not ask for too much.

## Main results

* `CordRs.Store.cords_are_values`: cords that share a heap are such byte lists.
-/

namespace CordRs

open RefHeap LevelTree Store

variable {ι κ : Type} [Target] [DecidableEq ι] [DecidableEq κ]

namespace StoreOp

/-- What a statement does to byte lists. What is handed out to append to is left out: it is not
determined by the bytes. -/
def apply (v : Values ι κ) : StoreOp ι κ → Values ι κ
  | make x src => (src.taken v).setCord x (src.bytes v)
  | clone x y | cloneFrom x y => v.setCord x (v.cords y)
  | clear x | intoVec x _ => v.setCord x []
  | add back x src => (src.taken v).setCord x (join back (v.cords x) (src.bytes v))
  | extend x bytes _ => v.setCord x (v.cords x ++ bytes)
  | advance x n => v.setCord x ((v.cords x).drop n)
  | truncate x len => v.setCord x ((v.cords x).take len)
  | slice x y range | get x y range =>
    match resolveRange range (v.cords y).length with
    | .ok (pos, n) => v.setCord x (((v.cords y).drop pos).take n)
    | .error _ => v
  | splitOff x y pos => (v.setCord x ((v.cords x).take pos)).setCord y ((v.cords x).drop pos)
  | splitTo x y pos => (v.setCord x ((v.cords x).drop pos)).setCord y ((v.cords x).take pos)
  | readCord x y pos n => v.setCord x (((v.cords y).drop pos).take n)
  | deserialize x seq =>
    match seq.error with
    | none => v.setCord x seq.items
    | some _ => v
  | write x calls => v.setCord x (v.cords x ++ calls.flatMap WriterOp.written)
  | newBuffer b capacity => v.setBuffer b [] (CordBuffer.capacityOf capacity)
  | newBufferWithBlockSize b capacity blockSize =>
    v.setBuffer b [] (CordBuffer.blockCapacity capacity blockSize)
  | cloneBuffer b d => v.setBuffer b (v.buffers d).1 (v.buffers d).2
  | onBuffer b call => v.setBuffer b (call.bytes (v.filled b)) (v.buffers b).2
  | makeContiguous _ _ | takeAppendBuffer _ _ _ _ _ | query _ => v

/-- No statement asks for too much, and none takes the end of a cord to append to it. -/
def Accepted : List (StoreOp ι κ) → Values ι κ → Prop
  | [], _ => True
  | takeAppendBuffer _ _ _ _ _ :: _, _ => False
  | op :: ops, v => op.refuses v = none ∧ Accepted ops (op.apply v)

variable {op : StoreOp ι κ} {ops : List (StoreOp ι κ)} {s : Store ι κ} {v v' : Values ι κ}
  {answer : Answer}

theorem Accepted.head (haccepted : Accepted (op :: ops) v) :
    op.refuses v = none ∧ Accepted ops (op.apply v) := by
  cases op with
  | takeAppendBuffer => exact haccepted.elim
  | _ => exact haccepted

/-- A statement means what it does to byte lists. -/
theorem Accepted.eq_apply (haccepted : Accepted (op :: ops) v) (hmeans : op.Means s v answer v') :
    v' = op.apply v := by
  cases op with
  | takeAppendBuffer => exact haccepted.elim
  | slice x y range =>
    obtain ⟨-, pos, n, hrange, rfl⟩ := hmeans
    rw [apply, hrange]
  | get x y range =>
    rw [Means] at hmeans
    rw [apply]
    cases hrange : resolveRange range (v.cords y).length with
    | ok q =>
      rw [hrange] at hmeans
      exact hmeans.2
    | error e =>
      rw [hrange] at hmeans
      exact hmeans.2
  | deserialize x seq =>
    rw [Means] at hmeans
    rw [apply]
    cases hend : seq.error with
    | none =>
      rw [hend] at hmeans
      exact hmeans.2
    | some e =>
      rw [hend] at hmeans
      exact hmeans.2
  | _ => exact hmeans.2

end StoreOp

namespace Store

variable [Fintype ι] [Fintype κ] {s₀ s : Store ι κ} {v : Values ι κ} {ops : List (StoreOp ι κ)}

private theorem wp_runAccepted (hw : Rest s₀ ∅ s v) (haccepted : StoreOp.Accepted ops v)
    (hadmits : language.Admits ops s v) :
    wp (language.runAll ops) (fun _ s' ↦ Rest s₀ ∅ s' (ops.foldl StoreOp.apply v)) s := by
  induction ops generalizing s v with
  | nil => exact (wp_pure _ _ _).mpr hw
  | cons op ops ih =>
    obtain ⟨hgo, hrest⟩ := haccepted.head
    obtain ⟨hfits, hnext⟩ := hadmits
    obtain ⟨answer, s₁, hrun, v₁, hmeans, hw₁⟩ :=
      (simulates s₀ ∅).step op s v (fun _ _ ↦ Set.notMem_empty _) hw hfits hgo
    have hadmits₁ := hnext hgo answer s₁ v₁ hrun hmeans
    rw [haccepted.eq_apply hmeans] at hw₁ hadmits₁
    simp only [Language.runAll, wp_bind, wp_pure]
    exact ⟨answer, s₁, hrun, ih hw₁ hrest hadmits₁⟩

/-- After any statements each cord has the bytes that a byte list of its own would have, whatever
the cords share. -/
theorem cords_are_values (haccepted : StoreOp.Accepted ops (.initial : Values ι κ))
    (hadmits : language.Admits ops (initial : Store ι κ) .initial) :
    wp (language.runAll ops) (fun _ s ↦ ∀ x, (s.cordAt x).handle = s.cords x ∧
      (s.cordAt x).Held s.heap ∧ (s.cordAt x).bytes = (ops.foldl StoreOp.apply .initial).cords x)
      (initial : Store ι κ) := by
  apply wp_mono (wp_runAccepted rest_initial haccepted hadmits)
  intro _ s hw x
  obtain ⟨hcord, hs⟩ := hw.cordAt x
  exact ⟨hcord, hs.isHeld, hs.bytes⟩

omit [Target] in
/-- A cord that shares its tree keeps its bytes while the other one loses some. -/
theorem cords_are_values_sharing :
    letI : Target := ⟨64, .inr rfl⟩
    wp (language.runAll (sharing ++ cutting 1)) (fun _ s ↦ (s.cordAt 0).bytes = [2, 3] ∧
      (s.cordAt 1).bytes = [1, 2, 3]) initial := by
  let _ : Target := ⟨64, .inr rfl⟩
  have haccepted : StoreOp.Accepted (sharing ++ cutting 1) .initial := ⟨rfl, rfl, rfl, trivial⟩
  apply wp_mono (cords_are_values haccepted (admits_sharing 1))
  intro _ s hcords
  exact ⟨(hcords 0).2.2, (hcords 1).2.2⟩

end Store

end CordRs
