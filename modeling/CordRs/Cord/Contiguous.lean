import CordRs.Cord.Append

/-!
# Contiguous cords

The bytes of a cord can be brought into one buffer, which is a flat if they fit in the largest one
and a vector otherwise; the tree of the cord is given up for it. When a cord is given up for a
vector, the allocation of a vector or string that was moved into it is taken out again if nothing
else refers to it, and the bytes are copied otherwise.

## Main definitions

* `CordRs.Cord.flattenSlowPath`, `CordRs.Cord.makeContiguous`: a cord becomes one buffer.
* `CordRs.Cord.intoVec`: a cord becomes a vector.

## Main results

* `CordRs.Cord.wp_makeContiguous`, `CordRs.Cord.wp_intoVec`.
* `CordRs.Cord.reads_agree`: what the read paths of a valid cord give.
-/

namespace CordRs

open RefHeap

section Target

variable [Target]

namespace Cord

/-- A new flat, or a vector if they are too many for one, with the bytes of a cord. What is in the
fresh memory is `spare`. -/
def newBuffer (c : Cord Rep) (spare : Bytes) : HeapM Edge := do
  let totalSize := c.len
  if totalSize ≤ maxFlatLength then
    let tag := newTag maxFlatSize totalSize
    let rep ← alloc (.payload (.flat tag []))
    let data ← liftM (c.copyToUninit (spare.take totalSize))
    write rep (.payload (.flat tag data))
    pure (.whole rep (.flat tag data))
  else
    let buffer ← liftM (c.copyToUninit spare)
    let data := buffer.take totalSize
    let rep ← alloc (.payload (.external data (some spare.length)))
    pure (.whole rep (.external data (some spare.length)))

/-- Replace the tree of a cord by one buffer. -/
def flattenSlowPath (c : Cord Rep) (spare : Bytes) : HeapM (Cord Rep) := do
  let buffer ← newBuffer c spare
  c.handle.drop
  pure (.tree (.leaf buffer))

/-- Bring the bytes of a cord into one buffer, and return them. -/
def makeContiguous (c : Cord Rep) (spare : Bytes) : HeapM (Cord Rep × Bytes) := do
  if c.asContiguous.isNone then
    let c ← c.flattenSlowPath spare
    pure (c, c.asContiguous.getD [])
  else
    pure (c, c.asContiguous.getD [])

/-- Whether a tree is the allocation of a vector, string or boxed slice. -/
def isGlobal : Rep → Bool
  | .leaf (.whole _ (.external _ (some _))) => true
  | _ => false

/-- Take the allocation out of a node to which there is one reference. -/
def intoGlobalVec (rep : Addr) : HeapM Bytes := do
  match ← read rep with
  | .payload (.external data _) =>
    free rep
    pure data
  | _ => throw .unreachable

/-- Give up a cord for a vector with its bytes. -/
def intoVec (c : Cord Rep) (spare : Bytes) : HeapM Bytes := do
  match c with
  | .tree root =>
    let unique ← refIsOne root.addr
    if unique && isGlobal root then
      intoGlobalVec root.addr
    else
      let vec ← liftM (c.toVec spare)
      c.handle.drop
      pure vec
  | .inline _ => liftM (c.toVec spare)

end Cord

end Target

namespace Cord

section Rules

variable [Target] {h h' : Heap Node} {Z : List Addr} {R : Multiset Addr} {c : Cord Rep}
  {spare : Bytes}

omit [Target] in
/-- Fresh memory that is filled exactly. -/
private theorem writeAt_full {dst bs : Bytes} (hlen : dst.length = bs.length) :
    writeAt dst 0 bs = bs := by
  rw [writeAt, List.take_zero, List.nil_append, Nat.zero_add, ← hlen, List.drop_length,
    List.append_nil]

/-- The new buffer has the bytes of the cord. -/
private theorem wp_newBuffer (hc : c.Owns h Z R) (hne : c.bytes ≠ [])
    (hspare : c.len ≤ spare.length) {Q : Edge → Heap Node → Prop}
    (hQ : ∀ (e : Edge) h', e.Held h' → e.Valid → Owned h' Z (e.addr ::ₘ (c.refs + R)) →
      Frame Z (c.refs + R) h h' → e.data = c.bytes → Q e h') :
    wp (newBuffer c spare) Q h := by
  have hlen := len_eq hc.valid
  have hpos := List.length_pos_iff.mpr hne
  rw [newBuffer]
  by_cases hle : c.len ≤ maxFlatLength
  · have hcopy : c.copyToUninit (spare.take c.len) = .ok c.bytes := by
      have htake : (spare.take c.len).length = c.bytes.length := by
        rw [List.length_take]
        omega
      rw [copyToUninit_spec hc.valid htake.ge, writeAt_full htake]
    obtain ⟨hlo, hhi, hmin, -, -⟩ := newTag_spec c.len
    have hv : Payload.Valid (.flat (newTag maxFlatSize c.len) c.bytes) :=
      ⟨hlo, hhi, hpos, by omega⟩
    rw [if_pos hle, wp_bind]
    refine wp_alloc hc.owned fun a h₁ ho₁ hg₁ ha₁ ↦ ?_
    simp only [wp_bind, wp_liftM, wp_pure]
    refine ⟨_, hcopy, wp_write ho₁ List.mem_cons_self fun h₂ ho₂ hn₂ ha₂ ↦ ?_⟩
    refine hQ (.whole a (.flat _ _)) h₂ ⟨ha₂, ha₂⟩ hv
      (ho₂.closeCell ha₂ ⟨[], rfl, hv, rfl⟩ (zero_add _).symm) ?_ rfl
    exact (hc.owned.frame_of_grows hg₁).trans
      (ho₁.frame_of_opened List.mem_cons_self (List.nodup_cons.mp ho₁.nodup).1 hn₂)
  · have hcopy : c.copyToUninit spare = .ok (writeAt spare 0 c.bytes) :=
      copyToUninit_spec hc.valid (by omega)
    have hdata : (writeAt spare 0 c.bytes).take c.len = c.bytes := by
      rw [writeAt, hlen]
      simp
    have hv : Payload.Valid (.external c.bytes (some spare.length)) := by
      refine ⟨hpos, ?_⟩
      rintro n ⟨rfl⟩
      omega
    rw [if_neg hle]
    simp only [wp_bind, wp_liftM, wp_pure]
    refine ⟨_, hcopy, ?_⟩
    rw [hdata]
    refine wp_alloc hc.owned fun a h₁ ho₁ hg₁ ha₁ ↦ ?_
    exact hQ (.whole a (.external _ _)) h₁ ⟨ha₁, ha₁⟩ hv
      (ho₁.closeCell ha₁ ⟨[], rfl, hv, rfl⟩ (zero_add _).symm) (hc.owned.frame_of_grows hg₁) rfl

/-- A cord becomes one buffer with its bytes, which are returned. -/
theorem wp_makeContiguous (hc : c.Owns h Z R) (hspare : c.len ≤ spare.length)
    {Q : Cord Rep × Bytes → Heap Node → Prop}
    (hQ : ∀ (c' : Cord Rep) h', c'.Owns h' Z R → c'.asContiguous = some c.bytes →
      Frame Z R h h' → Q (c', c.bytes) h') :
    wp (makeContiguous c spare) Q h := by
  rw [makeContiguous]
  cases hflat : c.asContiguous with
  | some flat =>
    obtain rfl := asContiguous_spec hflat
    rw [if_neg (by simp), wp_pure, Option.getD_some]
    exact hQ c h hc hflat (.refl h)
  | none =>
    have hne : c.bytes ≠ [] := by
      intro hnil
      have hlen := len_eq hc.valid
      rw [hnil, List.length_nil] at hlen
      cases c with
      | inline d => cases hflat
      | tree t =>
        obtain ⟨k, ht⟩ := hc.holding
        exact absurd hlen ht.valid.length_pos.ne'
    rw [Option.isNone_none, if_pos rfl, wp_bind, flattenSlowPath]
    simp only [wp_bind, wp_pure]
    refine wp_newBuffer hc hne hspare fun e h₁ he₁ hv₁ ho₁ hf₁ hdata ↦ ?_
    have hc₁ : Owns h₁ Z (e.addr ::ₘ R) c :=
      ⟨ho₁.congr (by rw [Multiset.add_cons]),
        fun t ht ↦ (hc.held t ht).frame hf₁ (.root (by simp [ht, refs])), hc.valid⟩
    refine wp_drop hc₁ fun h₂ ho₂ hf₂ ↦ ?_
    have hheld : Rep.Held h₂ (.leaf e) :=
      (Rep.held_leaf.mpr he₁).frame hf₂ (.root (Multiset.mem_cons_self _ _))
    have hflat' : (tree (.leaf e)).asContiguous = some c.bytes := by
      rw [asContiguous, getFlatAux, hdata]
    rw [hflat', Option.getD_some]
    have ht : Holding h₂ Z R 0 (.leaf e) :=
      ⟨ho₂, hheld, Rep.Valid.leaf_iff.mpr ⟨rfl, hv₁⟩, Nat.zero_le _⟩
    refine hQ _ h₂ (owns_tree ht) hflat' ?_
    exact (hf₁.mono (List.Subset.refl _) (Multiset.le_add_left _ _)).trans
      (hf₂.mono (List.Subset.refl _) (Multiset.le_cons_self _ _))

omit [Target] in
private theorem exists_of_isGlobal {t : Rep} (ht : isGlobal t = true) :
    ∃ a data n, t = .leaf (.whole a (.external data (some n))) := by
  cases t with
  | node hd es => cases ht
  | leaf e =>
    cases e with
    | part a length start child p => cases ht
    | whole a p =>
      cases p with
      | flat tag data => cases ht
      | external data allocation =>
        cases allocation with
        | none => cases ht
        | some n => exact ⟨a, data, n, rfl⟩

/-- A cord becomes a vector with its bytes, whichever way they get there. -/
theorem wp_intoVec (hc : c.Owns h Z R) (hspare : c.len ≤ spare.length)
    {Q : Bytes → Heap Node → Prop}
    (hQ : ∀ h', Owned h' Z R → Frame Z R h h' → Q c.bytes h') : wp (intoVec c spare) Q h := by
  have hcopy := toVec_spec hc.valid hspare
  cases c with
  | inline d =>
    rw [intoVec, wp_liftM]
    exact ⟨_, hcopy, hQ h hc.inline (.refl h)⟩
  | tree root =>
    have ho : Owned h Z (root.addr ::ₘ R) := hc.owned.congr (Multiset.singleton_add _ _)
    have hheld := hc.held root rfl
    rw [intoVec, wp_bind]
    refine wp_refIsOne hheld.node? ?_
    by_cases hsteal : (decide (h.rc root.addr = 1) && isGlobal root) = true
    · obtain ⟨hone, hglobal⟩ := Bool.and_eq_true_iff.mp hsteal
      obtain ⟨a, data, n, rfl⟩ := exists_of_isGlobal hglobal
      have hn : h.node? a = some (.payload (.external data (some n))) := (Rep.held_leaf.mp hheld).1
      have hopen := ho.openCell hn (of_decide_eq_true hone)
      have haZ := (ho.of_mem (Multiset.mem_cons_self _ _)).1
      rw [if_pos hsteal, intoGlobalVec, wp_bind]
      refine wp_read hn ?_
      change wp (free a >>= fun _ ↦ pure data) Q h
      rw [wp_bind]
      refine wp_free hopen fun h' ho' hn' ↦ ?_
      have hchildren : ((Pointers.children (Node.payload (.external data (some n))) : List Addr) :
        Multiset Addr) = 0 := rfl
      rw [hchildren, zero_add] at ho' hopen
      have hbytes : bytes (.tree (.leaf (.whole a (.external data (some n))))) = data := by
        rw [bytes, source, Source.bytes, Rep.bytes_leaf]
        rfl
      rw [wp_pure, ← hbytes]
      exact hQ h' ho' (hopen.frame_of_opened List.mem_cons_self haZ hn')
    · rw [if_neg hsteal]
      simp only [wp_bind, wp_liftM, wp_pure]
      exact ⟨_, hcopy, wp_drop hc hQ⟩

/-- All read paths of a valid cord agree with the bytes of its data edges in order, and so do the
buffer and the vector it becomes. -/
theorem reads_agree (hc : c.Owns h Z R) :
    c.chunks.flatten = c.bytes ∧ c.len = c.bytes.length ∧
      (∀ spare, c.len ≤ spare.length → c.toVec spare = .ok c.bytes) ∧
      (∃ cs cs' chunks, Chunks.new c = .ok cs ∧
        Chunks.drain (List.replicate c.len false) cs = .ok (cs', chunks) ∧
        cs'.next = .ok (cs', none) ∧ chunks.flatten = c.bytes) ∧
      (∃ it, BytesIter.new c = .ok it ∧ it.collect (c.len + 1) = .ok c.bytes) ∧
      (∀ i, c.getByte i = .ok c.bytes[i]?) ∧
      (∀ dst : Bytes, c.copyPrefixTo dst =
        .ok (c.bytes.take (min c.len dst.length) ++ dst.drop (min c.len dst.length),
          min c.len dst.length)) ∧
      (∃ chunk, c.firstChunk = .ok chunk ∧ chunk <+: c.bytes ∧ (chunk = [] → c.bytes = [])) ∧
      (∀ flat, c.asContiguous = some flat → flat = c.bytes) ∧
      ∀ spare, c.len ≤ spare.length →
        wp (makeContiguous c spare) (fun q h' ↦ q.2 = c.bytes ∧ q.1.bytes = c.bytes ∧
          q.1.asContiguous = some c.bytes ∧ q.1.Owns h' Z R ∧ Frame Z R h h') h ∧
        wp (intoVec c spare) (fun vec h' ↦ vec = c.bytes ∧ Owned h' Z R ∧ Frame Z R h h') h := by
  have hv := hc.valid
  have hlen := len_eq hv
  refine ⟨flatten_chunks c hv, hlen, fun spare ↦ toVec_spec hv, ?_, ?_, getByte_spec hv,
    fun dst ↦ ?_, firstChunk_spec hv, fun flat ↦ asContiguous_spec, fun spare hspare ↦ ⟨?_, ?_⟩⟩
  · obtain ⟨cs, hnew, hd⟩ := Chunks.new_spec hv.source
    obtain ⟨cs', chunks, hdrain, hend, hflat⟩ := Chunks.drain_front_spec hd le_rfl
    exact ⟨cs, cs', chunks, hnew, hlen ▸ hdrain, Chunks.next_of_nil hend, hflat⟩
  · obtain ⟨it, hnew, hd⟩ := BytesIter.new_spec hv.source
    exact ⟨it, hnew, BytesIter.collect_spec hd (by omega)⟩
  · rw [copyPrefixTo_spec hv dst, writeAt, hlen]
    simp
  · exact wp_makeContiguous hc hspare fun c' h' hc' hflat hf ↦
      ⟨rfl, (asContiguous_spec hflat).symm, hflat, hc', hf⟩
  · exact wp_intoVec hc hspare fun h' ho hf ↦ ⟨rfl, ho, hf⟩

end Rules

/-- A tree that another cord shares is copied to a vector and kept for that cord. -/
theorem reads_agree_pair :
    letI : Target := ⟨64, .inr rfl⟩
    len (.tree pairTree) = 3 ∧
      wp (intoVec (.tree pairTree) [0, 0, 0]) (fun vec h' ↦ vec = [1, 2, 3] ∧ Owned h' [] {2} ∧
        Frame [] {2} sharedPair h') sharedPair := by
  let _ : Target := ⟨64, .inr rfl⟩
  obtain ⟨-, hlen, -, -, -, -, -, -, -, hwp⟩ := reads_agree (owns_tree holding_sharedPair)
  exact ⟨hlen, (hwp [0, 0, 0] (by decide)).2⟩

end Cord

end CordRs
