import CordRs.RefHeap.Simulation
import CordRs.Store.Step

/-!
# A cord as a source of bytes

Bytes are taken off the front of a cord, and handed out without a copy where they are contiguous: what
is handed out keeps the cord that was split off, and with it a reference to its tree. The byte strings
that are handed out belong to another library, of which only what it documents is assumed.

## Main definitions

* `CordRs.FlatCord`: a cord that is kept for its bytes.
* `CordRs.SharedBytes`, `CordRs.SharedBytes.Documented`: the byte strings of the other library.
* `CordRs.SharedBytes.fromCord`, `CordRs.Cord.copyToBytes`.
* `CordRs.Drain`, `CordRs.BufOp.step`: a cord, and what was handed out of it.
* `CordRs.Drain.language`: what the calls mean on the bytes.

## Main results

* `CordRs.Drain.hands_out_in_order`: the bytes come out in their order, and what was handed out stays
  as it was while the cord goes on being emptied.
-/

namespace CordRs

open RefHeap

/-- A cord whose bytes are in one place. -/
structure FlatCord where
  cord : Cord Addr

/-- Byte strings of another library: copies, and views of what an owner lends. -/
structure SharedBytes (β : Type) where
  copyFromSlice : Bytes → β
  fromVec : Bytes → β
  fromOwner : FlatCord → HeapM β
  asRef : β → HeapM Bytes
  drop : β → HeapM Unit

section Target

variable [Target] {β : Type}

namespace FlatCord

/-- The bytes of the cord. -/
def asRef (owner : FlatCord) : HeapM Bytes := do
  let c ← owner.cord.view
  match c.asContiguous with
  | some flat => pure flat
  | none => throw (.panic "FlatCord holds a flat cord")

/-- Give the cord up. -/
def drop (owner : FlatCord) : HeapM Unit := owner.cord.drop

end FlatCord

namespace SharedBytes

/-- What the library says about its byte strings, some of which have an owner. A copy has none. A byte
string that is made of an owner asks it for what it lends, is read where that is, and drops the owner
with itself. -/
structure Documented (lib : SharedBytes β) (owner? : β → Option FlatCord) : Prop where
  copyFromSlice : ∀ data, owner? (lib.copyFromSlice data) = none ∧
    lib.asRef (lib.copyFromSlice data) = pure data
  fromVec : ∀ vec, owner? (lib.fromVec vec) = none ∧ lib.asRef (lib.fromVec vec) = pure vec
  fromOwner : ∀ (owner : FlatCord) data h h', owner.asRef h = .ok (data, h') →
    ∃ b, lib.fromOwner owner h = .ok (b, h') ∧ owner? b = some owner
  asRef : ∀ b owner, owner? b = some owner → lib.asRef b = owner.asRef
  drop : ∀ b, lib.drop b = match owner? b with
    | none => pure ()
    | some owner => owner.drop

variable (lib : SharedBytes β)

/-- Hand out the bytes of a cord, which is given up. -/
def fromCord (memory : ℕ → UInt8) (cord : Cord Addr) : HeapM β := do
  let c ← cord.view
  match c.asContiguous with
  | some flat =>
    if flat.length ≤ maxInline ∨ c.isTree = false then
      cord.drop
      pure (lib.copyFromSlice flat)
    else
      lib.fromOwner ⟨cord⟩
  | none =>
    let vec ← liftM (c.toVec (freshMemory memory c.len))
    cord.drop
    pure (lib.fromVec vec)

end SharedBytes

variable (lib : SharedBytes β)

/-- Split off the first bytes of a cord and hand them out. -/
def Cord.copyToBytes (memory : ℕ → UInt8) (c : Cord Addr) (len : ℕ) : HeapM (Cord Addr × β) := do
  let remaining ← c.loadLen
  if len ≤ remaining then
    let (c, head) ← c.splitTo len
    let bytes ← lib.fromCord memory head
    pure (c, bytes)
  else
    throw (.panic
      s!"cannot advance past the end of a Cord: len = {len}, remaining = {remaining}")

/-- A cord, and what was handed out of it. -/
structure Drain (β : Type) where
  cord : Cord Addr
  out : List β

/-- A call to the cord, or to one of the byte strings that were handed out. -/
inductive BufOp where
  | remaining
  | chunk
  | advance (n : ℕ)
  | copyToBytes (len : ℕ) (memory : ℕ → UInt8)
  | asRef (k : ℕ)
  | drop (k : ℕ)

/-- What a call returns. -/
inductive BufAnswer where
  | unit
  | number (n : ℕ)
  | bytes (data : Bytes)

/-- Run a call. -/
def BufOp.step : BufOp → Drain β → HeapM (Drain β × BufAnswer)
  | remaining, d => do
    let len ← d.cord.loadLen
    pure (d, .number len)
  | chunk, d => do
    let c ← d.cord.view
    let data ← liftM c.firstChunk
    pure (d, .bytes data)
  | advance n, d => do
    let cord ← d.cord.advance n
    pure ({ d with cord := cord }, .unit)
  | copyToBytes len memory, d => do
    let (cord, bytes) ← d.cord.copyToBytes lib memory len
    pure (⟨cord, d.out ++ [bytes]⟩, .unit)
  | asRef k, d =>
    match d.out[k]? with
    | none => throw .unreachable
    | some bytes => do
      let data ← lib.asRef bytes
      pure (d, .bytes data)
  | drop k, d =>
    match d.out[k]? with
    | none => throw .unreachable
    | some bytes => do
      lib.drop bytes
      pure ({ d with out := d.out.eraseIdx k }, .unit)

/-- Give up the bytes that were handed out. -/
def dropAll : List β → HeapM Unit
  | [] => pure ()
  | bytes :: out => do
    lib.drop bytes
    dropAll out

/-- Give up the cord and the bytes that were handed out. -/
def Drain.release (d : Drain β) : HeapM Unit := do
  d.cord.drop
  dropAll lib d.out

end Target

/-! ### Meaning -/

/-- The bytes that are left in the cord, and those that were handed out. -/
structure Drained where
  rest : Bytes
  out : List Bytes

/-- The panic of a call for more bytes than there are. -/
def BufOp.refuses (v : Drained) : BufOp → Option Fault
  | advance n =>
    if v.rest.length < n then
      some (.panic s!"cannot advance past end of Cord: n = {n}, len = {v.rest.length}")
    else none
  | copyToBytes len _ =>
    if v.rest.length < len then
      some (.panic
        s!"cannot advance past the end of a Cord: len = {len}, remaining = {v.rest.length}")
    else none
  | _ => none

/-- What a call does to the bytes, and what it answers. The bytes that are seen at once are those of
the first chunk. -/
def BufOp.Means [Target] {β : Type} (s : Drain β × Heap Node) (v : Drained) (answer : BufAnswer)
    (v' : Drained) : BufOp → Prop
  | remaining => answer = .number v.rest.length ∧ v' = v
  | chunk =>
    let data := (s.1.cord.seen s.2).chunks.headD []
    answer = .bytes data ∧ data <+: v.rest ∧ (data = [] → v.rest = []) ∧ v' = v
  | advance n => answer = .unit ∧ v' = ⟨v.rest.drop n, v.out⟩
  | copyToBytes len _ => answer = .unit ∧ v' = ⟨v.rest.drop len, v.out ++ [v.rest.take len]⟩
  | asRef k => ∃ data, v.out[k]? = some data ∧ answer = .bytes data ∧ v' = v
  | drop k => answer = .unit ∧ v' = ⟨v.rest, v.out.eraseIdx k⟩

/-- How many bytes a call takes off. -/
def BufOp.amount : BufOp → ℕ
  | advance n | copyToBytes n _ => n
  | _ => 0

/-- A call to what was handed out finds it. -/
def BufOp.Fits (v : Drained) : BufOp → Prop
  | asRef k | drop k => k < v.out.length
  | _ => True

/-- The calls as a language. -/
def Drain.language [Target] {β : Type} (lib : SharedBytes β) :
    Language (Drain β × Heap Node) Drained BufOp BufAnswer Fault where
  run op := runOn (op.step lib)
  Means op s v answer v' := op.Means s v answer v'
  refuses op v := op.refuses v
  Fits op _ v := op.Fits v

/-! ### What is handed out -/

section Rules

variable [Target] {h h₀ h' : Heap Node} {Z : List Addr} {R S : Multiset Addr} {c : Cord Rep}
  {β : Type} {lib : SharedBytes β} {owner? : β → Option FlatCord} {b : β} {out : List β}
  {bs : Bytes} {bss : List Bytes} {memory : ℕ → UInt8} {len k : ℕ}

/-- The first chunk of a cord. -/
theorem Cord.firstChunk_eq (hv : c.Valid) : c.firstChunk = .ok (c.chunks.headD []) := by
  match c with
  | inline d =>
    rw [firstChunk, chunks]
    split_ifs with hzero
    · have hlen := InlineData.WellFormed.length_inlineSlice hv
      rw [List.length_eq_zero_iff.mp (hlen.trans hzero)]
      rfl
    · rfl
  | tree (.leaf e) => rfl
  | tree (.node hd es) =>
    obtain ⟨e, rest, hrun, hleaves⟩ := firstData_spec (Source.Valid.node hv).1
    rw [firstChunk, hrun, chunks, hleaves]
    rfl

namespace FlatCord

/-- The cord has the bytes `bs` in one place. -/
def Stands (h : Heap Node) (bs : Bytes) (owner : FlatCord) : Prop :=
  ∃ c : Cord Rep, c.handle = owner.cord ∧ (∀ t, c = .tree t → t.Held h) ∧ c.Valid ∧
    c.asContiguous = some bs

theorem Stands.frame {owner : FlatCord} (hown : owner.Stands h bs) (hf : Frame Z R h h')
    (hle : owner.cord.root ≤ R) : owner.Stands h' bs := by
  obtain ⟨c, hhandle, hheld, hv, hflat⟩ := hown
  refine ⟨c, hhandle, fun t ht ↦ (hheld t ht).frame hf (.root ?_), hv, hflat⟩
  refine Multiset.mem_of_le hle ?_
  rw [← hhandle, Cord.root_handle]
  simp [ht, Cord.refs]

theorem Stands.wp_asRef {owner : FlatCord} (hown : owner.Stands h bs)
    {Q : Bytes → Heap Node → Prop} (hQ : Q bs h) : wp owner.asRef Q h := by
  obtain ⟨c, hhandle, hheld, hv, hflat⟩ := hown
  rw [asRef, ← hhandle, wp_bind]
  refine Cord.wp_view hheld hv ?_
  rw [hflat]
  exact (wp_pure _ _ _).mpr hQ

end FlatCord

namespace SharedBytes

/-- The reference that is held for the bytes. -/
def refs (owner? : β → Option FlatCord) (b : β) : Multiset Addr :=
  match owner? b with
  | none => 0
  | some owner => owner.cord.root

/-- The bytes are `bs`. -/
def Stands (lib : SharedBytes β) (owner? : β → Option FlatCord) (h : Heap Node) (b : β)
    (bs : Bytes) : Prop :=
  match owner? b with
  | none => lib.asRef b = pure bs
  | some owner => owner.Stands h bs

theorem Stands.frame (hb : lib.Stands owner? h b bs) (hf : Frame Z R h h')
    (hle : refs owner? b ≤ R) : lib.Stands owner? h' b bs := by
  rw [Stands] at hb ⊢
  rw [refs] at hle
  cases hown : owner? b with
  | none => simpa only [hown] using hb
  | some owner =>
    simp only [hown] at hb hle ⊢
    exact hb.frame hf hle

theorem wp_asRef (hlib : lib.Documented owner?) (hb : lib.Stands owner? h b bs)
    {Q : Bytes → Heap Node → Prop} (hQ : Q bs h) : wp (lib.asRef b) Q h := by
  rw [Stands] at hb
  cases hown : owner? b with
  | none =>
    simp only [hown] at hb
    exact hb ▸ (wp_pure _ _ _).mpr hQ
  | some owner =>
    simp only [hown] at hb
    rw [hlib.asRef b owner hown]
    exact hb.wp_asRef hQ

theorem wp_drop (hlib : lib.Documented owner?) (hb : lib.Stands owner? h b bs)
    (ho : Owned h Z (refs owner? b + R)) {Q : Unit → Heap Node → Prop}
    (hQ : ∀ h', Owned h' Z R → Frame Z R h h' → Q () h') : wp (lib.drop b) Q h := by
  rw [Stands] at hb
  rw [refs] at ho
  rw [hlib.drop]
  cases hown : owner? b with
  | none =>
    simp only [hown, zero_add] at ho
    exact (wp_pure _ _ _).mpr (hQ h ho (.refl h))
  | some owner =>
    simp only [hown] at hb ho
    obtain ⟨c, hhandle, hheld, hv, -⟩ := hb
    rw [← hhandle, Cord.root_handle] at ho
    change wp owner.cord.drop Q h
    rw [← hhandle]
    exact Cord.wp_drop ⟨ho, hheld, hv⟩ hQ

/-- The bytes of a cord are handed out. -/
theorem wp_fromCord (hlib : lib.Documented owner?) (hc : c.Owns h Z R) {Q : β → Heap Node → Prop}
    (hQ : ∀ b h', lib.Stands owner? h' b c.bytes → Owned h' Z (refs owner? b + R) →
      Frame Z R h h' → Q b h') :
    wp (lib.fromCord memory c.handle) Q h := by
  have hcopied (b : β) (hb : owner? b = none ∧ lib.asRef b = pure c.bytes) :
      wp (do
        c.handle.drop
        pure b) Q h := by
    rw [wp_bind]
    refine Cord.wp_drop hc fun h' ho' hf' ↦ (wp_pure _ _ _).mpr (hQ _ h' ?_ ?_ hf')
    · simp only [Stands, hb]
    · rwa [refs, hb.1, zero_add]
  rw [fromCord, wp_bind]
  refine Cord.wp_view hc.held hc.valid ?_
  cases hflat : c.asContiguous with
  | none =>
    simp only [wp_bind, wp_liftM]
    refine ⟨c.bytes, Cord.toVec_spec hc.valid (length_freshMemory memory c.len).ge, ?_⟩
    exact (wp_bind _ _ _ _).mp (hcopied _ (hlib.fromVec c.bytes))
  | some flat =>
    have hbytes := Cord.asContiguous_spec hflat
    dsimp only
    split_ifs with hcopy
    · rw [hbytes]
      exact hcopied _ (hlib.copyFromSlice c.bytes)
    · have hown : FlatCord.Stands h c.bytes ⟨c.handle⟩ :=
        ⟨c, rfl, hc.held, hc.valid, hbytes ▸ hflat⟩
      obtain ⟨data, h₁, hrun, rfl, rfl⟩ :=
        hown.wp_asRef (Q := fun data h' ↦ data = c.bytes ∧ h' = h) ⟨rfl, rfl⟩
      obtain ⟨b, hfrom, hb⟩ := hlib.fromOwner _ _ _ _ hrun
      refine ⟨b, h₁, hfrom, hQ b h₁ ?_ ?_ (.refl h₁)⟩
      · simpa only [Stands, hb] using hown
      · simpa only [refs, hb, Cord.root_handle] using hc.owned

end SharedBytes

/-- The references that are held for what was handed out. -/
def outRefs (owner? : β → Option FlatCord) (out : List β) : Multiset Addr :=
  (out.map (SharedBytes.refs owner?)).sum

/-- What was handed out is `bss`. -/
def StandsAll (lib : SharedBytes β) (owner? : β → Option FlatCord) (h : Heap Node) (out : List β)
    (bss : List Bytes) : Prop :=
  List.Forall₂ (lib.Stands owner? h) out bss

theorem StandsAll.frame (hout : StandsAll lib owner? h out bss) (hf : Frame Z R h h')
    (hle : outRefs owner? out ≤ R) : StandsAll lib owner? h' out bss := by
  induction hout with
  | nil => exact .nil
  | cons hb _ ih =>
    rw [outRefs, List.map_cons, List.sum_cons] at hle
    exact .cons (hb.frame hf (le_of_add_le_left hle)) (ih (le_of_add_le_right hle))

omit [Target] in
theorem outRefs_eraseIdx (hk : out[k]? = some b) :
    outRefs owner? out = SharedBytes.refs owner? b + outRefs owner? (out.eraseIdx k) := by
  obtain ⟨hlt, rfl⟩ := List.getElem?_eq_some_iff.mp hk
  have hperm := (List.getElem_cons_eraseIdx_perm hlt).map (SharedBytes.refs owner?)
  rw [outRefs, outRefs, ← hperm.sum_eq, List.map_cons, List.sum_cons]

theorem StandsAll.get (hout : StandsAll lib owner? h out bss) (hk : k < bss.length) :
    ∃ b bs, out[k]? = some b ∧ bss[k]? = some bs ∧ lib.Stands owner? h b bs := by
  have hlt : k < out.length := hout.length_eq ▸ hk
  exact ⟨_, _, List.getElem?_eq_getElem hlt, List.getElem?_eq_getElem hk, List.Forall₂.get hout hlt hk⟩

theorem StandsAll.eraseIdx (hout : StandsAll lib owner? h out bss) (k : ℕ) :
    StandsAll lib owner? h (out.eraseIdx k) (bss.eraseIdx k) := by
  induction hout generalizing k with
  | nil => exact .nil
  | cons hb hout ih =>
    cases k with
    | zero => exact hout
    | succ k => exact .cons hb (ih k)

namespace Drain

variable {d : Drain β} {v : Drained} {n : ℕ}

/-- The cord has the bytes that are left, what was handed out stands, and others find everything as
it was. -/
structure Drains (lib : SharedBytes β) (owner? : β → Option FlatCord) (h₀ : Heap Node)
    (Z : List Addr) (R : Multiset Addr) (s : Drain β × Heap Node) (v : Drained) : Prop where
  cord : ∃ c : Cord Rep, c.handle = s.1.cord ∧ c.Owns s.2 Z (outRefs owner? s.1.out + R) ∧ c.bytes = v.rest
  out : StandsAll lib owner? s.2 s.1.out v.out
  frame : Frame Z R h₀ s.2

/-- The cord is another one, and nothing was handed out. -/
theorem Drains.of_new (hd : Drains lib owner? h₀ Z R (d, h) v)
    (hnew : c.New bs h Z (outRefs owner? d.out + R) h') :
    Drains lib owner? h₀ Z R ({ d with cord := c.handle }, h') { v with rest := bs } where
  cord := ⟨c, rfl, hnew.owns, hnew.bytes⟩
  out := hd.out.frame hnew.frame (Multiset.le_add_right _ _)
  frame := hd.frame.trans (hnew.frame.mono (List.Subset.refl _) (Multiset.le_add_left _ _))

/-- The first bytes of the cord are handed out. -/
theorem Drains.wp_copyToBytes (hlib : lib.Documented owner?)
    (hd : Drains lib owner? h₀ Z R (d, h) v) (hle : len ≤ v.rest.length)
    {Q : Cord Addr × β → Heap Node → Prop}
    (hQ : ∀ cord b h', Drains lib owner? h₀ Z R (⟨cord, d.out ++ [b]⟩, h')
      ⟨v.rest.drop len, v.out ++ [v.rest.take len]⟩ → Q (cord, b) h') :
    wp (Cord.copyToBytes lib memory d.cord len) Q h := by
  obtain ⟨c, hhandle, hc, hbytes⟩ := hd.cord
  rw [← hhandle, Cord.copyToBytes, wp_bind]
  refine Cord.wp_loadLen hc.held ?_
  have hlen : len ≤ c.len := by rwa [Cord.len_eq hc.valid, hbytes]
  rw [if_pos hlen, wp_bind]
  refine Cord.wp_splitTo hc hlen fun c₁ c₂ h₁ hsplit ↦ ?_
  rw [hbytes] at hsplit
  have hhead : c₂.Owns h₁ Z (c₁.refs + (outRefs owner? d.out + R)) :=
    ⟨hsplit.owned.congr (add_left_comm _ _ _), hsplit.held₂, hsplit.valid₂⟩
  rw [wp_bind]
  refine SharedBytes.wp_fromCord hlib hhead fun b h₂ hb ho₂ hf₂ ↦ (wp_pure _ _ _).mpr (hQ _ b h₂ ?_)
  have hrefs : outRefs owner? (d.out ++ [b]) = SharedBytes.refs owner? b + outRefs owner? d.out := by
    rw [outRefs, List.map_append, List.sum_append, List.map_singleton, List.sum_singleton, add_comm]
    rfl
  have hrest : outRefs owner? d.out + R ≤ c₁.refs + (outRefs owner? d.out + R) := Multiset.le_add_left _ _
  have hf : Frame Z (outRefs owner? d.out + R) h h₂ :=
    hsplit.frame.trans (hf₂.mono (List.Subset.refl _) hrest)
  refine ⟨⟨c₁, rfl, ⟨?_, fun t ht ↦ ?_, hsplit.valid₁⟩, hsplit.bytes₁⟩, ?_, ?_⟩
  · refine ho₂.congr ?_
    rw [hrefs, add_left_comm, add_assoc]
  · exact (hsplit.held₁ t ht).frame hf₂ (.root (by simp [ht, Cord.refs]))
  · rw [hsplit.bytes₂] at hb
    exact List.rel_append (hd.out.frame hf (Multiset.le_add_right _ _)) (.cons hb .nil)
  · exact hd.frame.trans (hf.mono (List.Subset.refl _) (Multiset.le_add_left _ _))

/-- What was handed out is given up. -/
theorem Drains.wp_drop (hlib : lib.Documented owner?)
    (hd : Drains lib owner? h₀ Z R (d, h) v) (hk : d.out[k]? = some b)
    (hb : lib.Stands owner? h b bs) {Q : Unit → Heap Node → Prop}
    (hQ : ∀ h', Drains lib owner? h₀ Z R ({ d with out := d.out.eraseIdx k }, h')
      ⟨v.rest, v.out.eraseIdx k⟩ → Q () h') : wp (lib.drop b) Q h := by
  obtain ⟨c, hhandle, hc, hbytes⟩ := hd.cord
  have ho : Owned h Z (SharedBytes.refs owner? b + (c.refs + (outRefs owner? (d.out.eraseIdx k) + R))) := by
    refine hc.owned.congr ?_
    rw [outRefs_eraseIdx hk, add_assoc, add_left_comm]
  refine SharedBytes.wp_drop hlib hb ho fun h' ho' hf' ↦ hQ h' ?_
  have hrest := Multiset.le_add_left (outRefs owner? (d.out.eraseIdx k) + R) c.refs
  have hf : Frame Z (outRefs owner? (d.out.eraseIdx k) + R) h h' := hf'.mono (List.Subset.refl _) hrest
  refine ⟨⟨c, hhandle, hc.frame ho' hf', hbytes⟩, ?_, ?_⟩
  · exact (hd.out.eraseIdx k).frame hf (Multiset.le_add_right _ _)
  · exact hd.frame.trans (hf.mono (List.Subset.refl _) (Multiset.le_add_left _ _))

/-- Every call keeps what the cord and the bytes that were handed out stand for. -/
theorem simulates (hlib : lib.Documented owner?) :
    (language lib).Simulates (fun _ ↦ True) (Drains lib owner? h₀ Z R) where
  step op s v _ hd hfits hgo := by
    obtain ⟨d, h⟩ := s
    obtain ⟨c, hhandle, hc, hbytes⟩ := hd.cord
    have hlen : c.len = v.rest.length := by rw [Cord.len_eq hc.valid, hbytes]
    refine wp_runOn.mpr ?_
    cases op with
    | remaining =>
      rw [BufOp.step, wp_bind, ← hhandle]
      refine Cord.wp_loadLen hc.held ((wp_pure _ _ _).mpr ⟨v, ⟨?_, rfl⟩, hd⟩)
      rw [hlen]
    | chunk =>
      obtain ⟨chunk, hrun, hprefix, hnil⟩ := Cord.firstChunk_spec hc.valid
      obtain rfl := Except.ok.inj (hrun.symm.trans (Cord.firstChunk_eq hc.valid))
      have hseen : d.cord.seen h = c := by rw [← hhandle, Cord.seen_handle hc.held hc.valid]
      rw [hbytes] at hprefix hnil
      rw [BufOp.step, wp_bind, ← hhandle]
      refine Cord.wp_view hc.held hc.valid ?_
      simp only [wp_bind, wp_liftM, wp_pure]
      refine ⟨_, hrun, v, ?_, hd⟩
      simp only [language, BufOp.Means, hseen]
      exact ⟨trivial, hprefix, hnil, trivial⟩
    | advance n =>
      have hle : n ≤ c.len := by
        by_contra hlt
        simp [language, BufOp.refuses, hlen ▸ not_le.mp hlt] at hgo
      rw [BufOp.step, wp_bind, ← hhandle]
      refine Cord.wp_advance hc hle fun c' h' hpart ↦ (wp_pure _ _ _).mpr ⟨_, ⟨rfl, rfl⟩, ?_⟩
      rw [hbytes] at hpart
      exact hd.of_new hpart.toNew
    | copyToBytes len memory =>
      have hle : len ≤ v.rest.length := by
        by_contra hlt
        simp [language, BufOp.refuses, not_le.mp hlt] at hgo
      rw [BufOp.step, wp_bind]
      refine hd.wp_copyToBytes hlib hle fun cord b h' hd' ↦ (wp_pure _ _ _).mpr ?_
      exact ⟨_, ⟨rfl, rfl⟩, hd'⟩
    | asRef k =>
      obtain ⟨b, bs, hb, hbs, hstands⟩ := hd.out.get hfits
      simp only [BufOp.step, hb, wp_bind]
      refine SharedBytes.wp_asRef hlib hstands ((wp_pure _ _ _).mpr ?_)
      exact ⟨v, ⟨bs, hbs, rfl, rfl⟩, hd⟩
    | drop k =>
      obtain ⟨b, bs, hb, hbs, hstands⟩ := hd.out.get hfits
      simp only [BufOp.step, hb, wp_bind]
      refine hd.wp_drop hlib hb hstands fun h' hd' ↦ (wp_pure _ _ _).mpr ?_
      exact ⟨_, ⟨rfl, rfl⟩, hd'⟩
  stop op s v e _ hd _ hrefuses := by
    obtain ⟨d, h⟩ := s
    obtain ⟨c, hhandle, hc, hbytes⟩ := hd.cord
    have hlen : c.len = v.rest.length := by rw [Cord.len_eq hc.valid, hbytes]
    cases op with
    | advance n =>
      simp only [language, BufOp.refuses] at hrefuses
      split_ifs at hrefuses with hlt
      obtain rfl := Option.some.inj hrefuses
      refine throws_runOn (Throws.bind ?_ _)
      rw [← hlen] at hlt ⊢
      exact hhandle ▸ Cord.throws_advance hc.held hlt
    | copyToBytes len memory =>
      simp only [language, BufOp.refuses] at hrefuses
      split_ifs at hrefuses with hlt
      obtain rfl := Option.some.inj hrefuses
      refine throws_runOn (Throws.bind ?_ _)
      rw [← hlen] at hlt ⊢
      refine throws_bind (hhandle ▸ Cord.wp_loadLen hc.held ?_)
      rw [if_neg (not_le.mpr hlt)]
      exact throws_throw _ _
    | _ => cases hrefuses

/-- A call takes bytes off the front. -/
theorem rest_of_means {op : BufOp} {s : Drain β × Heap Node} {answer : BufAnswer} {v' : Drained}
    (hmeans : op.Means s v answer v') : v'.rest = v.rest.drop op.amount := by
  cases op with
  | remaining =>
    obtain ⟨-, rfl⟩ := hmeans
    rfl
  | chunk =>
    obtain ⟨-, -, -, rfl⟩ := hmeans
    rfl
  | advance n | copyToBytes n memory | drop n =>
    obtain ⟨-, rfl⟩ := hmeans
    rfl
  | asRef k =>
    obtain ⟨_, -, -, rfl⟩ := hmeans
    rfl

theorem rest_of_meansAll {ops : List BufOp} {s : Drain β × Heap Node} {answers : List BufAnswer}
    {v' : Drained} (hmeans : (language lib).MeansAll ops s v answers v') :
    v'.rest = v.rest.drop (ops.map BufOp.amount).sum := by
  induction ops generalizing s v answers with
  | nil =>
    obtain ⟨-, rfl⟩ := hmeans
    rfl
  | cons op ops ih =>
    obtain ⟨-, _, _, s₁, v₁, -, -, hop, hops⟩ := hmeans
    rw [ih hops, rest_of_means hop, List.drop_drop, List.map_cons, List.sum_cons]

/-- The byte strings that were handed out are given up. -/
theorem wp_dropAll (hlib : lib.Documented owner?) (hout : StandsAll lib owner? h out bss)
    (ho : Owned h Z (outRefs owner? out + R))
    {Q : Unit → Heap Node → Prop} (hQ : ∀ h', Owned h' Z R → Frame Z R h h' → Q () h') :
    wp (dropAll lib out) Q h := by
  induction out generalizing h bss with
  | nil => exact (wp_pure _ _ _).mpr (hQ h (by simpa [outRefs] using ho) (.refl h))
  | cons b out ih =>
    cases hout with
    | cons hb hout =>
      rw [outRefs, List.map_cons, List.sum_cons, add_assoc] at ho
      rw [dropAll, wp_bind]
      refine SharedBytes.wp_drop hlib hb ho fun h₁ ho₁ hf₁ ↦ ?_
      have hout₁ := StandsAll.frame hout hf₁ (Multiset.le_add_right _ _)
      refine ih hout₁ ho₁ fun h₂ ho₂ hf₂ ↦ hQ h₂ ho₂ ?_
      exact (hf₁.mono (List.Subset.refl _) (Multiset.le_add_left _ _)).trans hf₂

/-- The bytes of a cord come out in their order, what was handed out is not changed by what happens
to the cord, and every reference that was taken for it is given back once. -/
theorem hands_out_in_order (hlib : lib.Documented owner?) {ops : List BufOp} (hc : c.Owns h Z R)
    (hadmits : (language lib).Admits ops (⟨c.handle, []⟩, h) ⟨c.bytes, []⟩) :
    wp ((language lib).runAll ops) (fun answers s ↦
        ∃ v, (language lib).MeansAll ops (⟨c.handle, []⟩, h) ⟨c.bytes, []⟩ answers v ∧
          v.rest = c.bytes.drop (ops.map BufOp.amount).sum ∧
          (∃ c' : Cord Rep, c'.handle = s.1.cord ∧ c'.bytes = v.rest ∧
            c'.Owns s.2 Z (outRefs owner? s.1.out + R)) ∧
          StandsAll lib owner? s.2 s.1.out v.out ∧
          wp (s.1.release lib) (fun _ h' ↦ Owned h' Z R ∧ Frame Z R h h') s.2)
        (⟨c.handle, []⟩, h) ∨
      ∃ e, Throws ((language lib).runAll ops) e (⟨c.handle, []⟩, h) ∧
        (language lib).Stops ops (⟨c.handle, []⟩, h) ⟨c.bytes, []⟩ e := by
  have hd : Drains lib owner? h Z R (⟨c.handle, []⟩, h) ⟨c.bytes, []⟩ := by
    refine ⟨⟨c, rfl, ?_, rfl⟩, .nil, .refl h⟩
    rw [outRefs, List.map_nil, List.sum_nil, zero_add]
    exact hc
  refine ((simulates hlib).runAll (fun _ _ ↦ trivial) hd hadmits).imp_left
    fun hrun ↦ wp_mono hrun ?_
  rintro answers ⟨d, h₁⟩ ⟨v, hmeans, hd₁⟩
  obtain ⟨c₁, hhandle, hc₁, hbytes⟩ := hd₁.cord
  refine ⟨v, hmeans, rest_of_meansAll hmeans, ⟨c₁, hhandle, hbytes, hc₁⟩, hd₁.out, ?_⟩
  rw [release, wp_bind, ← hhandle]
  refine Cord.wp_drop hc₁ fun h₂ ho₂ hf₂ ↦ ?_
  refine wp_dropAll hlib (hd₁.out.frame hf₂ (Multiset.le_add_right _ _)) ho₂ fun h₃ ho₃ hf₃ ↦ ?_
  refine ⟨ho₃, hd₁.frame.trans (.trans (hf₂.mono (List.Subset.refl _) ?_) hf₃)⟩
  exact Multiset.le_add_left _ _

end Drain

end Rules

/-- A copy, or the cord that lends the bytes. -/
inductive OwnedBytes where
  | copied (data : Bytes)
  | lent (owner : FlatCord)

/-- The owner, if there is one. -/
def OwnedBytes.owner? : OwnedBytes → Option FlatCord
  | .copied _ => none
  | .lent owner => some owner

/-- Byte strings that are read by asking their owner again. -/
def ownedBytes [Target] : SharedBytes OwnedBytes where
  copyFromSlice := .copied
  fromVec := .copied
  fromOwner owner := do
    let _ ← owner.asRef
    pure (.lent owner)
  asRef
    | .copied data => pure data
    | .lent owner => owner.asRef
  drop
    | .copied _ => pure ()
    | .lent owner => owner.drop

theorem documented_ownedBytes [Target] : ownedBytes.Documented OwnedBytes.owner? where
  copyFromSlice _ := ⟨rfl, rfl⟩
  fromVec _ := ⟨rfl, rfl⟩
  fromOwner owner data h h' hrun := by
    refine ⟨.lent owner, ?_, rfl⟩
    change (owner.asRef h >>= fun _ ↦ _) = _
    rw [hrun]
    rfl
  asRef b owner hown := by
    cases b with
    | copied data => cases hown
    | lent owner =>
      cases hown
      rfl
  drop b := by cases b <;> rfl

/-- Two bytes are handed out, and looked at after the cord was advanced. -/
theorem Drain.hands_out_in_order_pair :
    letI : Target := ⟨64, .inr rfl⟩
    wp ((language ownedBytes).runAll [.copyToBytes 2 fun _ ↦ 0, .advance 1, .asRef 0])
      (fun answers s ↦ answers = [.unit, .unit, .bytes [1, 2]] ∧
        wp (s.1.release ownedBytes) (fun _ h' ↦ Owned h' [] {2}) s.2) (⟨.tree 2, []⟩, sharedPair) := by
  let _ : Target := ⟨64, .inr rfl⟩
  have hc : Cord.Owns sharedPair [] {2} (.tree pairTree) := Cord.owns_tree holding_sharedPair
  have hadmits : (language ownedBytes).Admits [.copyToBytes 2 fun _ ↦ 0, .advance 1, .asRef 0]
      (⟨.tree 2, []⟩, sharedPair) ⟨[1, 2, 3], []⟩ := by
    refine ⟨trivial, ?_⟩
    rintro - _ _ _ - ⟨-, rfl⟩
    refine ⟨trivial, ?_⟩
    rintro - _ _ _ - ⟨-, rfl⟩
    exact ⟨Nat.one_pos, fun _ _ _ _ _ _ ↦ trivial⟩
  rcases hands_out_in_order documented_ownedBytes hc hadmits with hrun | ⟨e, -, hstops⟩
  · refine wp_mono hrun ?_
    rintro answers s ⟨v, hmeans, -, -, -, hrelease⟩
    obtain ⟨-, _, _, _, _, rfl, -, ⟨rfl, rfl⟩, -, _, _, _, _, rfl, -, ⟨rfl, rfl⟩, -, _, _, _, _,
      rfl, -, ⟨data, hdata, rfl, -⟩, rfl, -⟩ := hmeans
    obtain rfl := Option.some.inj hdata
    exact ⟨rfl, wp_mono hrelease fun _ _ hend ↦ hend.1⟩
  · have hgo : none ≠ some e := (Option.some_ne_none e).symm
    obtain ⟨-, _, _, _, -, ⟨-, rfl⟩, hstops⟩ := hstops.resolve_left hgo
    obtain ⟨-, _, _, _, -, ⟨-, rfl⟩, hstops⟩ := hstops.resolve_left hgo
    obtain ⟨-, _, _, _, -, -, hstops⟩ := hstops.resolve_left hgo
    exact hstops.elim

end CordRs
