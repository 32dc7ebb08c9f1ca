import CordRs.Cord.AppendCord
import CordRs.Cord.Deserialize
import CordRs.Cord.Split

/-!
# Serialization

A cord is serialized as its bytes. A data format hands them back as a slice, as a vector that is moved
in, or one by one, with or without a hint of their number.

## Main definitions

* `CordRs.Cord.serialize`, `CordRs.Delivery`, `CordRs.Cord.deserialize`.

## Main results

* `CordRs.Cord.deserialize_serialize`: a cord that was serialized comes back with the same bytes.
-/

namespace CordRs

open RefHeap

/-- How a data format hands bytes back. -/
inductive Delivery where
  | bytes
  | byteBuf (capacity : ℕ)
  | str
  | string (capacity : ℕ)
  | seq (sizeHint : Option ℕ)

/-- The capacity of a vector is not less than its length. -/
def Delivery.Sound (n : ℕ) : Delivery → Prop
  | byteBuf capacity | string capacity => n ≤ capacity
  | _ => True

namespace Cord

section Target

variable [Target]

/-- The bytes that are handed to the serializer. -/
def serialize (spare : Bytes) (c : Cord Rep) : Except Fault Bytes :=
  match c.asContiguous with
  | some flat => pure flat
  | none => c.toVec spare

/-- The visitor's answer to the bytes. -/
def deserialize {ε : Type} (data : Bytes) : Delivery → HeapM (Except ε (Cord Addr))
  | .bytes | .str => do
    let c ← copyFromSlice data
    pure (.ok c)
  | .byteBuf capacity | .string capacity => do
    let c ← fromGlobal data capacity
    pure (.ok c)
  | .seq sizeHint => visitSeq ⟨data, none, sizeHint⟩

end Target

section Rules

variable [Target] {h : Heap Node} {Z : List Addr} {R : Multiset Addr} {c : Cord Rep}
  {data spare : Bytes} {ε : Type}

theorem serialize_eq (hc : c.Valid) (hspare : c.len ≤ spare.length) :
    c.serialize spare = .ok c.bytes := by
  rw [serialize]
  cases hflat : c.asContiguous with
  | none => exact toVec_spec hc hspare
  | some flat => rw [asContiguous_spec hflat]; rfl

/-- Bytes become a cord, however they are handed back. -/
theorem wp_deserialize {delivery : Delivery} (ho : Owned h Z R) (hsound : delivery.Sound data.length)
    (hlen : data.length ≤ usizeMax) (hcount : flatsFor data.length + 1 ≤ maxCapacity ^ maxDepth)
    {Q : Except ε (Cord Addr) → Heap Node → Prop}
    (hQ : ∀ (c : Cord Rep) h', c.New data h Z R h' → Q (.ok c.handle) h') :
    wp (deserialize data delivery) Q h := by
  have hslice : wp (copyFromSlice data) (fun c h' ↦ Q (.ok c) h') h := by
    refine wp_copyFromSlice ho hlen (by omega) fun c h' hc hchunks hf ↦ hQ c h' ⟨hc, ?_, hf⟩
    rw [← flatten_chunks c hc.valid, hchunks]
    exact @CordRs.flatten_chunks true _ data
  have hvec {capacity : ℕ} (hcap : data.length ≤ capacity) :
      wp (fromGlobal data capacity) (fun c h' ↦ Q (.ok c) h') h := by
    have hmoved := movedEdges_le data capacity
    refine wp_fromRep ho hlen (by omega) (fun n hn ↦ ?_) fun c h' hnew _ ↦ hQ c h' hnew
    obtain rfl := Option.some.inj hn
    exact hcap
  cases delivery with
  | bytes | str => exact (wp_bind _ _ _ _).mpr (wp_mono hslice fun _ _ hend ↦ (wp_pure _ _ _).mpr hend)
  | byteBuf capacity | string capacity =>
    exact (wp_bind _ _ _ _).mpr (wp_mono (hvec hsound) fun _ _ hend ↦ (wp_pure _ _ _).mpr hend)
  | seq sizeHint =>
    refine wp_visitSeq ho hlen hcount (fun e he ↦ absurd he.symm (Option.some_ne_none e)) ?_
    exact fun _ c h' hc hbytes _ hf ↦ hQ c h' ⟨hc, hbytes, hf⟩

/-- A cord that is serialized comes back with the same bytes, however the format hands them back, and
the cord that was serialized is as it was. -/
theorem deserialize_serialize (ε : Type) (delivery : Delivery) (hc : c.Owns h Z R)
    (hsound : delivery.Sound c.len) (hspare : c.len ≤ spare.length) (hlen : c.len ≤ usizeMax)
    (hcount : flatsFor c.len + 1 ≤ maxCapacity ^ maxDepth) :
    ∃ data, c.serialize spare = .ok data ∧
      wp (deserialize data delivery) (fun (r : Except ε (Cord Addr)) h' ↦ ∃ c' : Cord Rep,
        r = .ok c'.handle ∧ c'.bytes = c.bytes ∧ c'.Owns h' Z (c.refs + R) ∧
        c.Owns h' Z (c'.refs + R) ∧ Frame Z (c.refs + R) h h') h := by
  rw [len_eq hc.valid] at hsound hlen hcount
  refine ⟨c.bytes, serialize_eq hc.valid hspare, ?_⟩
  refine wp_deserialize hc.owned hsound hlen hcount fun c' h' hnew ↦ ?_
  exact ⟨c', rfl, hnew.bytes, hnew.owns, hc.of_new hnew, hnew.frame⟩

end Rules

/-- Two flats come back one byte after the other. -/
theorem deserialize_serialize_pair :
    letI : Target := ⟨64, .inr rfl⟩
    ∃ data, serialize [0, 0, 0] (.tree pairTree) = .ok data ∧
      wp (deserialize data (.seq none)) (fun (r : Except Empty (Cord Addr)) _ ↦ ∃ c' : Cord Rep,
        r = .ok c'.handle ∧ c'.bytes = [1, 2, 3]) sharedPair := by
  let _ : Target := ⟨64, .inr rfl⟩
  have hc : Owns sharedPair [] {2} (.tree pairTree) := owns_tree holding_sharedPair
  have hlen : len (.tree pairTree) ≤ usizeMax := by
    rw [usizeMax]
    decide
  have hcount : flatsFor (len (.tree pairTree)) + 1 ≤ maxCapacity ^ maxDepth := by decide
  have hspare : len (.tree pairTree) ≤ [(0 : UInt8), 0, 0].length := le_rfl
  obtain ⟨data, hrun, hwp⟩ := deserialize_serialize Empty (.seq none) hc trivial hspare hlen hcount
  refine ⟨data, hrun, wp_mono hwp ?_⟩
  rintro r h' ⟨c', rfl, hbytes, -⟩
  exact ⟨c', rfl, hbytes⟩

end Cord

end CordRs
