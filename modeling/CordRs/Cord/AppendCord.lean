import CordRs.Cord.AppendSlice
import CordRs.Cord.Buffer
import CordRs.Cord.Slice

/-!
# Adding cords and owned buffers to a cord

The bytes of a short cord are copied, chunk by chunk, and a long cord shares its tree or gives it
up. A buffer that was moved in becomes a data edge, unless its bytes are few or fill less than half
of it.

## Main definitions

* `CordRs.Cord.appendCord`, `CordRs.Cord.appendOwnedCord`, `CordRs.Cord.prependCord`,
  `CordRs.Cord.prependOwnedCord`.
* `CordRs.repFromOwned`, `CordRs.repFromGlobal` and the operations that use them.
* `CordRs.Cord.prependBuffer`.

## Main results

* `CordRs.Cord.wp_appendWhole`, `CordRs.Cord.wp_prependWhole`, `CordRs.Cord.wp_addMoved`,
  `CordRs.Cord.wp_prependBuffer`: the bytes and the number of data edges of the cord that comes out.
* `CordRs.Cord.throws_appendWhole`, `CordRs.Cord.throws_prependWhole`: a cord that would be too long.
-/

namespace CordRs

open RefHeap LevelTree

section Target

variable [Target]

/-- A tree with bytes that were moved in. Few bytes, and those that fill less than half of their
buffer, are copied. -/
def repFrom (data : Bytes) (capacity : ℕ) (allocation : Option ℕ) : HeapM Addr :=
  if data.length ≤ maxBytesToCopy ∨ data.length < capacity / 2 then
    newTree data 0
  else
    alloc (.payload (.external data allocation))

/-- A tree with the bytes of a buffer that was moved in. -/
def repFromOwned (data : Bytes) (capacity : ℕ) : HeapM Addr := repFrom data capacity none

/-- A tree with the bytes of a vector, string or boxed slice that was moved in. -/
def repFromGlobal (data : Bytes) (allocationSize : ℕ) : HeapM Addr :=
  repFrom data allocationSize (some allocationSize)

/-- The number of data edges that bytes that were moved in come to: one, unless they are copied. -/
def movedEdges (data : Bytes) (capacity : ℕ) : ℕ :=
  if data.length ≤ maxBytesToCopy ∨ data.length < capacity / 2 then flatsFor data.length else 1

/-- A length and a number of data edges that a cord can have. -/
def Limits (len n : ℕ) : Prop := len ≤ usizeMax ∧ n ≤ maxCapacity ^ maxDepth

namespace Cord

/-- Append the chunks that an iteration has left, of which there are fewer than the fuel. -/
def appendChunks : ℕ → ForwardChunks → Cord Addr → HeapM (Cord Addr)
  | 0, _, _ => throw .unreachable
  | fuel + 1, it, c => do
    match ← liftM it.nextChunk with
    | (_, none) => pure c
    | (it, some chunk) =>
      let c ← c.appendSlice chunk
      appendChunks fuel it c

/-- Append a copy of the bytes of a cord. -/
def appendCopy (c src : Cord Addr) : HeapM (Cord Addr) := do
  match src with
  | .inline d => c.appendSlice d.inlineSlice
  | .tree rep =>
    match ← read rep with
    | .payload (.flat _ data) => c.appendSlice data
    | _ =>
      let tree ← view src
      let it ← liftM (ForwardChunks.new tree)
      appendChunks (it.bytesRemaining + 1) it c

/-- A reference to a tree that is given up or kept. -/
def takeTree (moved : Bool) (rep : Addr) : HeapM Addr := if moved then pure rep else refRep rep

/-- What becomes of a cord whose bytes were copied. -/
def leave (moved : Bool) (src : Cord Addr) : HeapM Unit := if moved then src.drop else pure ()

/-- Append a cord that is given up or kept. -/
def appendWhole (moved : Bool) (c src : Cord Addr) : HeapM (Cord Addr) := do
  let srcLen ← src.loadLen
  if srcLen = 0 then
    leave moved src
    pure c
  else
    let len ← c.loadLen
    if usizeMax - len < srcLen then
      throw (.panic "Cord length overflow")
    else if len = 0 then
      if moved then pure src else src.clone
    else if srcLen ≤ maxBytesToCopy then
      let c ← c.appendCopy src
      leave moved src
      pure c
    else
      match src with
      | .tree rep =>
        let tree ← takeTree moved rep
        c.appendTree tree
      | .inline _ => throw (.panic "cord larger than MAX_BYTES_TO_COPY must be a tree")

/-- Append a cord. -/
def appendCord (c src : Cord Addr) : HeapM (Cord Addr) := appendWhole false c src

/-- Append a cord that is given up. -/
def appendOwnedCord (c src : Cord Addr) : HeapM (Cord Addr) := appendWhole true c src

/-- Prepend a cord that is given up or kept. -/
def prependWhole (moved : Bool) (c src : Cord Addr) : HeapM (Cord Addr) := do
  let srcLen ← src.loadLen
  if srcLen = 0 then
    leave moved src
    pure c
  else
    let len ← c.loadLen
    if usizeMax - len < srcLen then
      throw (.panic "Cord length overflow")
    else
      match src with
      | .tree rep =>
        let tree ← takeTree moved rep
        c.prependTree tree
      | .inline d => c.prependSlice d.inlineSlice

/-- Prepend a cord. -/
def prependCord (c src : Cord Addr) : HeapM (Cord Addr) := prependWhole false c src

/-- Prepend a cord that is given up. -/
def prependOwnedCord (c src : Cord Addr) : HeapM (Cord Addr) := prependWhole true c src

/-- Add bytes at one end. -/
def addSlice (back : Bool) (c : Cord Addr) (src : Bytes) : HeapM (Cord Addr) :=
  if back then c.appendSlice src else c.prependSlice src

/-- Add bytes that were moved in at one end. Few bytes are copied. -/
def addMoved (back : Bool) (c : Cord Addr) (data : Bytes) (rep : HeapM Addr) :
    HeapM (Cord Addr) := do
  if data.length ≤ maxBytesToCopy then
    addSlice back c data
  else
    let tree ← rep
    addTree back c tree

/-- Append the bytes of a buffer that was moved in. -/
def appendOwned (c : Cord Addr) (data : Bytes) (capacity : ℕ) : HeapM (Cord Addr) :=
  addMoved true c data (repFromOwned data capacity)

/-- Append the bytes of a vector, string or boxed slice that was moved in. -/
def appendGlobal (c : Cord Addr) (data : Bytes) (allocationSize : ℕ) : HeapM (Cord Addr) :=
  addMoved true c data (repFromGlobal data allocationSize)

/-- Prepend the bytes of a buffer that was moved in. -/
def prependOwned (c : Cord Addr) (data : Bytes) (capacity : ℕ) : HeapM (Cord Addr) :=
  addMoved false c data (repFromOwned data capacity)

/-- Prepend the bytes of a vector, string or boxed slice that was moved in. -/
def prependGlobal (c : Cord Addr) (data : Bytes) (allocationSize : ℕ) : HeapM (Cord Addr) :=
  addMoved false c data (repFromGlobal data allocationSize)

/-- A cord with bytes that are stored inline if they are few. -/
def fromMoved (data : Bytes) (rep : HeapM Addr) : HeapM (Cord Addr) := do
  if data.length ≤ maxInline then
    pure (.inline (.inlineFrom data))
  else
    let tree ← rep
    pure (.tree tree)

/-- A cord with the bytes of a buffer that was moved in. -/
def fromOwned (data : Bytes) (capacity : ℕ) : HeapM (Cord Addr) :=
  fromMoved data (repFromOwned data capacity)

/-- A cord with the bytes of a vector, string or boxed slice that was moved in. -/
def fromGlobal (data : Bytes) (allocationSize : ℕ) : HeapM (Cord Addr) :=
  fromMoved data (repFromGlobal data allocationSize)

/-- A cord with bytes that are never freed. -/
def fromStatic (data : Bytes) : HeapM (Cord Addr) :=
  fromMoved data (alloc (.payload (.external data none)))

/-- A cord with the bytes of an owner, however few they are. -/
def fromOwner (data : Bytes) : HeapM (Cord Addr) := do
  if data.length = 0 then
    pure (.inline .new)
  else
    let tree ← alloc (.payload (.external data none))
    pure (.tree tree)

/-- Prepend at most as many bytes as a flat holds, in a flat that is no larger than it must be. -/
def prependPrecise (c : Cord Addr) (src : Bytes) : HeapM (Cord Addr) := do
  if src.length ≤ c.remainingInlineCapacity then
    match c with
    | .inline d => pure (.inline (d.pushFrontInline src))
    | .tree _ => throw .unreachable
  else
    let flat ← createFlat src 0
    prependTree c flat

/-- Prepend the bytes of a buffer, which is given up. -/
def prependBuffer (c : Cord Addr) (buffer : CordBuffer) : HeapM (Cord Addr) := do
  let len ← buffer.len
  if len = 0 then
    buffer.drop
    pure c
  else
    match buffer with
    | .long rep => c.prependTree rep
    | .short data => c.prependPrecise data

end Cord

end Target

/-! ### The chunks of a borrowed cord -/

section Chunks

variable [Target] {c : Cord Rep} {cs : List Bytes} {it : ForwardChunks}

/-- The chunks of a valid cord have bytes. -/
theorem Cord.ne_nil_of_mem_chunks (hv : c.Valid) {chunk : Bytes} (hmem : chunk ∈ c.chunks) :
    chunk ≠ [] := by
  cases c with
  | inline d =>
    have hlen := InlineData.WellFormed.length_inlineSlice hv
    rw [Cord.chunks] at hmem
    split_ifs at hmem with hd
    · cases hmem
    · obtain rfl := List.mem_singleton.mp hmem
      rw [← List.length_pos_iff]
      omega
  | tree t =>
    obtain ⟨k, -, ht⟩ := hv
    obtain ⟨e, he, rfl⟩ := List.mem_map.mp hmem
    have hev := ht.leaves_valid e he
    rw [← List.length_pos_iff, hev.length_data]
    exact hev.length_pos

/-- An iteration at the start of one of the chunks is at that chunk. -/
private theorem currentChunk_eq {seen rest : List Bytes} {chunk : Bytes} (hv : c.Valid)
    (hsplit : c.chunks = seen ++ chunk :: rest) (hon : it.On c.source seen.flatten.length) :
    it.currentChunk = chunk := by
  -- A cord with one chunk is at its start.
  have hone : ∀ bs : Bytes, c.chunks = [bs] → seen = [] ∧ chunk = bs := by
    intro bs hbs
    obtain ⟨rfl, hcons⟩ | ⟨rfl, hcons⟩ := List.append_eq_singleton_iff.mp (hsplit.symm.trans hbs)
    · exact ⟨rfl, (List.cons.inj hcons).1⟩
    · cases hcons
  cases c with
  | inline d =>
    obtain ⟨-, -, hchunk, hlt⟩ := hon
    have hd : d.size ≠ 0 := by
      intro hd
      rw [Cord.chunks, if_pos hd] at hsplit
      simp at hsplit
    obtain ⟨rfl, rfl⟩ := hone d.inlineSlice (if_neg hd)
    exact hchunk
  | tree t =>
    cases t with
    | leaf e =>
      obtain ⟨-, -, hchunk, -⟩ := hon
      obtain ⟨rfl, rfl⟩ := hone e.data rfl
      exact hchunk
    | node hd es =>
      obtain ⟨e, n, hr, hn, hchunk, hpos⟩ := hon
      obtain ⟨as, bs, hleaves, hseen, hbs⟩ := List.map_eq_append_iff.mp hsplit
      obtain ⟨e', bs, rfl, rfl, -⟩ := List.map_eq_cons_iff.mp hbs
      obtain ⟨k, -, ht⟩ := hv
      have hes : ∀ a ∈ as ++ e' :: bs, a.Valid := fun a ha ↦ ht.leaves_valid a (hleaves ▸ ha)
      have hlen : seen.flatten.length = edgesLength as := by
        rw [← hseen, ← List.flatMap_def]
        exact ForwardChunks.flatMap_data_length fun a ha ↦ hes a (List.mem_append_left _ ha)
      have he' := (hes e' (by simp)).length_pos
      obtain ⟨hbefore, rfl, -⟩ := BtreeReader.edges_unique (hr.1.leaves_eq.symm.trans hleaves) hn he'
        (by omega)
      obtain rfl : n = 0 := by
        rw [hbefore] at hpos
        omega
      exact hchunk

/-- The iteration is at the first of the chunks of a cord that are left. -/
def ForwardChunks.Left (it : ForwardChunks) (c : Cord Rep) (cs : List Bytes) : Prop :=
  ∃ seen, c.chunks = seen ++ cs ∧ it.Inv c.source seen.flatten.length 0

theorem ForwardChunks.new_left (hv : c.Valid) : ∃ it, new c = .ok it ∧ it.Left c c.chunks := by
  obtain ⟨it, hrun, hi⟩ := new_spec hv.source
  exact ⟨it, hrun, [], rfl, hi⟩

/-- The chunks that are left come out one after the other. -/
theorem ForwardChunks.Left.nextChunk (hl : it.Left c cs) (hv : c.Valid) :
    (cs = [] ∧ it.nextChunk = .ok (it, none)) ∨ ∃ chunk rest it', cs = chunk :: rest ∧
      it.nextChunk = .ok (it', some chunk) ∧ it'.Left c rest := by
  obtain ⟨seen, hsplit, hi⟩ := hl
  have htotal := hi.total
  have hflat := Cord.flatten_chunks c hv
  rw [hsplit, List.flatten_append] at hflat
  have hlen : c.source.bytes.length = seen.flatten.length + cs.flatten.length := by
    rw [← List.length_append, hflat]
    rfl
  cases cs with
  | nil =>
    have hz : it.bytesRemaining = 0 := by
      rw [List.flatten_nil, List.length_nil] at hlen
      omega
    left
    refine ⟨rfl, ?_⟩
    rw [ForwardChunks.nextChunk, if_pos hz]
    rfl
  | cons chunk rest =>
    have hne := Cord.ne_nil_of_mem_chunks hv (hsplit ▸ List.mem_append_right _ List.mem_cons_self)
    have hpos := List.length_pos_iff.mpr hne
    rw [List.flatten_cons, List.length_append] at hlen
    right
    rcases nextChunk_spec hi hv.source with ⟨hz, -⟩ | ⟨it', hrun, -, hi'⟩
    · omega
    · have hchunk := currentChunk_eq hv hsplit (hi.on (by omega))
      rw [hchunk] at hrun hi'
      refine ⟨chunk, rest, it', rfl, hrun, seen ++ [chunk], ?_, ?_⟩
      · rw [hsplit, List.append_assoc, List.singleton_append]
      · simpa using hi'

end Chunks

/-! ### What the operations do -/

section Rules

variable [Target] {h h' : Heap Node} {Z : List Addr} {R : Multiset Addr} {j k : ℕ}
  {c src : Cord Rep} {s : Rep} {data : Bytes} {moved back : Bool}

namespace Cord

/-- A cord whose length is zero has no tree. -/
theorem exists_inline (hv : c.Valid) (hlen : c.len = 0) : ∃ d, c = .inline d := by
  cases c with
  | inline d => exact ⟨d, rfl⟩
  | tree t =>
    obtain ⟨k, -, ht⟩ := hv
    exact absurd hlen ht.length_pos.ne'

/-- The references that come with a cord that is given up. -/
def given (moved : Bool) (src : Cord Rep) : Multiset Addr := if moved then src.refs else 0

/-- A new cord stays when another one is given up or kept. -/
theorem New.wp_leave {bs : Bytes} {h₁ : Heap Node} (hnew : New c bs h Z (given moved src + R) h₁)
    {Q : Unit → Heap Node → Prop} (hQ : ∀ h', New c bs h Z R h' → Q () h') :
    wp (leave moved src.handle) Q h₁ := by
  cases moved with
  | true => exact hnew.wp_drop hQ
  | false =>
    have hzero : given false src + R = R := zero_add R
    rw [hzero] at hnew
    exact (wp_pure _ _ _).mpr (hQ h₁ hnew)

/-- A reference to the tree of a cord that is given up or kept. -/
private theorem wp_takeTree (hc : Owns h Z (given moved (.tree s) + R) c)
    (hs : Shared (.tree s) h (given moved (.tree s) + R)) {Q : Addr → Heap Node → Prop}
    (hQ : ∀ h', Owns h' Z (s.addr ::ₘ R) c → s.Held h' → Frame Z R h h' → Q s.addr h') :
    wp (takeTree moved s.addr) Q h := by
  cases moved with
  | true =>
    have hrefs : given true (.tree s) + R = s.addr ::ₘ R := Multiset.singleton_add _ _
    rw [hrefs] at hc
    exact (wp_pure _ _ _).mpr (hQ h hc (hs.held s rfl) (.refl h))
  | false =>
    have hzero : given false (.tree s) + R = R := zero_add R
    rw [hzero] at hc hs
    apply wp_refRep hc.owned ((hs.reach s rfl).mono (Multiset.le_add_left _ _))
    intro h₁ ho₁ hn₁
    have hg := Grows.of_node?_eq hn₁
    have hf : Frame Z (c.refs + R) h h₁ := hc.owned.frame_of_grows hg
    have ho : Owned h₁ Z (c.refs + (s.addr ::ₘ R)) := ho₁.congr (Multiset.add_cons _ _ _).symm
    exact hQ h₁ ⟨ho, fun t ht ↦ (hc.held t ht).grows hg, hc.valid⟩ ((hs.held s rfl).grows hg)
      (hf.mono (List.Subset.refl _) (Multiset.le_add_left _ _))

/-- Adding a tree at one end of a cord. -/
theorem wp_addTree_new (hc : Owns h Z (s.addr ::ₘ R) c) (hs : s.Held h) (hsv : s.Valid j)
    (hj : j ≤ maxDepth) (hlen : c.len + s.length ≤ usizeMax)
    (hcount : c.edgeCount + s.leaves.length ≤ maxCapacity ^ maxDepth)
    {Q : Cord Addr → Heap Node → Prop}
    (hQ : ∀ (c' : Cord Rep) h', New c' (join back c.bytes s.bytes) h Z R h' →
      c'.edgeCount = c.edgeCount + s.leaves.length → Q c'.handle h') :
    wp (addTree back c.handle s.addr) Q h := by
  apply wp_addTree hc hs hsv hj hlen hcount
  intro t' k' h₁ ht' hchunks hf
  have hedges := length_join_chunks hchunks
  rw [List.length_map] at hedges
  exact hQ (.tree t') h₁ (new_tree ht' (bytes_join_chunks hc.valid hchunks) hf) hedges

/-- The tree of a cord that is given up or kept is added at one end of another cord. -/
private theorem wp_addTaken (hc : Owns h Z (given moved (.tree s) + R) c)
    (hs : Shared (.tree s) h (given moved (.tree s) + R)) (hv : (Cord.tree s).Valid)
    (hlen : c.len + s.length ≤ usizeMax)
    (hcount : c.edgeCount + edgeCount (.tree s) ≤ maxCapacity ^ maxDepth)
    {Q : Cord Addr → Heap Node → Prop}
    (hQ : ∀ (c' : Cord Rep) h', New c' (join back c.bytes s.bytes) h Z R h' →
      c'.edgeCount ≤ c.edgeCount + edgeCount (.tree s) → Q c'.handle h') :
    wp (do
      let tree ← takeTree moved s.addr
      addTree back c.handle tree) Q h := by
  obtain ⟨k, hk, hsv⟩ := hv
  have hleaves : edgeCount (.tree s) = s.leaves.length := List.length_map _
  rw [hleaves] at hcount hQ
  rw [wp_bind]
  apply wp_takeTree hc hs
  intro h₁ hc₁ hs₁ hf₁
  apply wp_addTree_new hc₁ hs₁ hsv hk hlen hcount
  intro c' h₂ hnew hedges
  exact hQ c' h₂ ⟨hnew.owns, hnew.bytes, hf₁.trans hnew.frame⟩ hedges.le

/-! ### Copying the chunks of a cord -/

/-- Chunks that each fit in a flat are appended one after the other. -/
private theorem wp_appendChunks {fuel : ℕ} {it : ForwardChunks} {cs : List Bytes}
    (hl : it.Left src cs) (hv : src.Valid) (hc : Owns h Z R c) (hfuel : cs.length < fuel)
    (hsmall : ∀ chunk ∈ cs, chunk.length ≤ maxFlatLength)
    (hlen : c.len + cs.flatten.length ≤ usizeMax)
    (hcount : c.edgeCount + cs.length ≤ maxCapacity ^ maxDepth) {Q : Cord Addr → Heap Node → Prop}
    (hQ : ∀ (c' : Cord Rep) h', New c' (c.bytes ++ cs.flatten) h Z R h' →
      c'.edgeCount ≤ c.edgeCount + cs.length → Q c'.handle h') :
    wp (appendChunks fuel it c.handle) Q h := by
  induction fuel generalizing h it c cs with
  | zero => exact absurd hfuel (Nat.not_lt_zero _)
  | succ fuel ih =>
    rcases hl.nextChunk hv with ⟨rfl, hrun⟩ | ⟨chunk, rest, it', rfl, hrun, hl'⟩
    · rw [appendChunks, wp_bind, wp_liftM]
      refine ⟨_, hrun, ?_⟩
      rw [wp_pure]
      exact hQ c h ⟨hc, by simp, .refl h⟩ (Nat.le_add_right _ _)
    · have hfits := flatsFor_le_one (hsmall chunk List.mem_cons_self)
      have hless : flatsFor (chunk.length - c.room h) ≤ flatsFor chunk.length :=
        flatsFor_mono (Nat.sub_le _ _)
      rw [List.length_cons] at hcount hfuel
      rw [List.flatten_cons, List.length_append] at hlen
      rw [appendChunks, wp_bind, wp_liftM]
      refine ⟨_, hrun, ?_⟩
      simp only [wp_bind]
      apply wp_appendSlice hc (by omega) (by omega)
      intro c₁ h₁ hnew₁ hedges₁
      have hlen₁ : c₁.len = c.len + chunk.length := by
        rw [len_eq hnew₁.owns.valid, hnew₁.bytes, List.length_append, len_eq hc.valid]
      apply ih hl' hnew₁.owns (by omega)
        (fun chunk' hmem ↦ hsmall chunk' (List.mem_cons_of_mem _ hmem)) (by omega) (by omega)
      intro c₂ h₂ hnew₂ hedges₂
      refine hQ c₂ h₂ ⟨hnew₂.owns, ?_, hnew₁.frame.trans hnew₂.frame⟩ ?_
      · rw [hnew₂.bytes, hnew₁.bytes, List.flatten_cons, List.append_assoc]
      · rw [List.length_cons]
        omega

/-- A cord has no more chunks than bytes. -/
theorem edgeCount_le_length (hv : c.Valid) : c.edgeCount ≤ c.bytes.length := by
  have hone : ∀ n ∈ c.chunks.map List.length, 1 ≤ n := by
    intro n hn
    obtain ⟨chunk, hmem, rfl⟩ := List.mem_map.mp hn
    exact List.length_pos_iff.mpr (ne_nil_of_mem_chunks hv hmem)
  rw [← flatten_chunks c hv, List.length_flatten, edgeCount, ← List.length_map List.length]
  exact List.length_le_sum_of_one_le _ hone

theorem maxBytesToCopy_le_maxFlatLength : maxBytesToCopy ≤ maxFlatLength := by
  simp only [maxBytesToCopy, maxFlatLength, maxFlatSize]
  rcases flatOverhead_eq with ho | ho <;> omega

/-- The bytes of a cord of few bytes are copied. -/
private theorem wp_appendCopy (hc : Owns h Z R c) (hs : src.Shared h (c.refs + R)) (hv : src.Valid)
    (hsmall : src.len ≤ maxBytesToCopy) (hlen : c.len + src.len ≤ usizeMax)
    (hcount : c.edgeCount + src.edgeCount ≤ maxCapacity ^ maxDepth)
    {Q : Cord Addr → Heap Node → Prop}
    (hQ : ∀ (c' : Cord Rep) h', New c' (c.bytes ++ src.bytes) h Z R h' →
      c'.edgeCount ≤ c.edgeCount + src.edgeCount → Q c'.handle h') :
    wp (appendCopy c.handle src.handle) Q h := by
  have hfit := maxBytesToCopy_le_maxFlatLength
  have hsrc := len_eq hv
  have hbytes := flatten_chunks src hv
  have hchunk : ∀ chunk ∈ src.chunks, chunk.length ≤ maxFlatLength := by
    intro chunk hmem
    have hle := (List.sublist_flatten_of_mem hmem).length_le
    rw [hbytes] at hle
    omega
  -- A cord with one chunk at most is copied in one go.
  have hslice : src.edgeCount ≤ 1 → wp (appendSlice c.handle src.bytes) Q h := by
    intro hone
    have hflats : flatsFor (src.bytes.length - c.room h) ≤ src.edgeCount := by
      by_cases hnil : src.bytes = []
      · simp [hnil]
      · have hpos := edgeCount_pos hv hnil
        have := flatsFor_le_one (show src.bytes.length - c.room h ≤ maxFlatLength by omega)
        omega
    apply wp_appendSlice hc (hsrc ▸ hlen) (by omega)
    intro c' h₁ hnew hedges
    exact hQ c' h₁ hnew (by omega)
  have hloop : ∀ t, src = .tree t → wp (do
      let tree ← view src.handle
      let it ← liftM (ForwardChunks.new tree)
      appendChunks (it.bytesRemaining + 1) it c.handle) Q h := by
    intro t ht
    obtain ⟨it, hrun, hl⟩ := ForwardChunks.new_left hv
    have hremaining : it.bytesRemaining = src.bytes.length := by
      obtain ⟨seen, hsplit, hi⟩ := hl
      obtain rfl := List.self_eq_append_left.mp hsplit
      exact hi.total
    have hedges := edgeCount_le_length hv
    rw [edgeCount] at hedges hcount hQ
    rw [wp_bind]
    apply wp_view hs.held hv
    rw [wp_bind, wp_liftM]
    refine ⟨it, hrun, ?_⟩
    rw [← hbytes] at hQ
    exact wp_appendChunks hl hv hc (by omega) hchunk (by rw [hbytes]; omega) hcount hQ
  cases src with
  | inline d => exact hslice (edgeCount_inline_le d)
  | tree t =>
    rw [handle, appendCopy, wp_bind]
    apply wp_read (hs.held t rfl).node?
    cases t with
    | node hd es => exact hloop _ rfl
    | leaf e =>
      cases e with
      | part a length start child p => exact hloop _ rfl
      | whole a p =>
        cases p with
        | external data allocation => exact hloop _ rfl
        | flat tag data =>
          have hdata : bytes (.tree (.leaf (.whole a (.flat tag data)))) = data := Rep.bytes_leaf _
          rw [hdata] at hslice
          exact hslice le_rfl

/-! ### Adding a cord -/

/-- The length of a sum that does not overflow. -/
private theorem not_overflows {m n : ℕ} (hlen : m + n ≤ usizeMax) : ¬usizeMax - m < n := by
  omega

/-- A cord that is given up or kept is appended: its bytes come behind, and its data edges. -/
theorem wp_appendWhole (hc : Owns h Z (given moved src + R) c)
    (hs : src.Shared h (given moved src + R)) (hv : src.Valid) (hlen : c.len + src.len ≤ usizeMax)
    (hcount : c.edgeCount + src.edgeCount ≤ maxCapacity ^ maxDepth)
    {Q : Cord Addr → Heap Node → Prop}
    (hQ : ∀ (c' : Cord Rep) h', New c' (c.bytes ++ src.bytes) h Z R h' →
      c'.edgeCount ≤ c.edgeCount + src.edgeCount → Q c'.handle h') :
    wp (appendWhole moved c.handle src.handle) Q h := by
  have hsrc := len_eq hv
  have hclen := len_eq hc.valid
  unfold appendWhole
  rw [wp_bind]
  apply wp_loadLen hs.held
  by_cases hnil : src.len = 0
  · obtain hbytes : src.bytes = [] := List.length_eq_zero_iff.mp (by omega)
    rw [if_pos hnil, wp_bind]
    rw [hbytes, List.append_nil] at hQ
    have hself : New c c.bytes h Z (given moved src + R) h := ⟨hc, rfl, .refl h⟩
    apply hself.wp_leave
    intro h₁ hnew
    rw [wp_pure]
    exact hQ c h₁ hnew (Nat.le_add_right _ _)
  rw [if_neg hnil, wp_bind]
  apply wp_loadLen hc.held
  rw [if_neg (not_overflows hlen)]
  by_cases hempty : c.len = 0
  · obtain hbytes : c.bytes = [] := List.length_eq_zero_iff.mp (by omega)
    obtain ⟨d, rfl⟩ := exists_inline hc.valid hempty
    rw [if_pos hempty]
    rw [hbytes, List.nil_append] at hQ
    cases moved with
    | true =>
      have hnew : New src src.bytes h Z R h := ⟨⟨hc.inline, hs.held, hv⟩, rfl, .refl h⟩
      exact (wp_pure _ _ _).mpr (hQ src h hnew (Nat.le_add_left _ _))
    | false =>
      have hzero : given false src + R = R := zero_add R
      have ho := hc.inline
      rw [hzero] at ho hs
      apply wp_clone (hs.borrowed ho) hv
      intro h₁ hnew
      exact hQ src h₁ hnew (Nat.le_add_left _ _)
  rw [if_neg hempty]
  by_cases hsmall : src.len ≤ maxBytesToCopy
  · rw [if_pos hsmall, wp_bind]
    apply wp_appendCopy hc (hs.mono (Multiset.le_add_left _ _)) hv hsmall hlen hcount
    intro c₁ h₁ hnew hedges
    rw [wp_bind]
    have hnew₁ : New c₁ (c.bytes ++ src.bytes) h Z (given moved src + R) h₁ := hnew
    apply hnew₁.wp_leave
    intro h₂ hnew₂
    rw [wp_pure]
    exact hQ c₁ h₂ hnew₂ hedges
  · rw [if_neg hsmall]
    cases src with
    | inline d =>
      -- Inline bytes are always few.
      have hd : d.size ≤ maxInline := hv.1
      have hfew : maxInline ≤ maxBytesToCopy := by decide
      exact absurd (hd.trans hfew) hsmall
    | tree s =>
      have hadd : ∀ tree, appendTree c.handle tree = addTree true c.handle tree := by
        intro tree
        cases c <;> rfl
      simp only [handle] at hadd ⊢
      simp only [hadd]
      exact wp_addTaken hc hs hv hlen hcount hQ

/-- A cord that is given up or kept is prepended: its bytes come before, and its data edges. -/
theorem wp_prependWhole (hc : Owns h Z (given moved src + R) c)
    (hs : src.Shared h (given moved src + R)) (hv : src.Valid) (hlen : c.len + src.len ≤ usizeMax)
    (hcount : c.edgeCount + src.edgeCount ≤ maxCapacity ^ maxDepth)
    {Q : Cord Addr → Heap Node → Prop}
    (hQ : ∀ (c' : Cord Rep) h', New c' (src.bytes ++ c.bytes) h Z R h' →
      c'.edgeCount ≤ c.edgeCount + src.edgeCount → Q c'.handle h') :
    wp (prependWhole moved c.handle src.handle) Q h := by
  have hsrc := len_eq hv
  unfold prependWhole
  rw [wp_bind]
  apply wp_loadLen hs.held
  by_cases hnil : src.len = 0
  · obtain hbytes : src.bytes = [] := List.length_eq_zero_iff.mp (by omega)
    rw [if_pos hnil, wp_bind]
    rw [hbytes, List.nil_append] at hQ
    have hself : New c c.bytes h Z (given moved src + R) h := ⟨hc, rfl, .refl h⟩
    apply hself.wp_leave
    intro h₁ hnew
    rw [wp_pure]
    exact hQ c h₁ hnew (Nat.le_add_right _ _)
  rw [if_neg hnil, wp_bind]
  apply wp_loadLen hc.held
  rw [if_neg (not_overflows hlen)]
  cases src with
  | inline d =>
    have hzero : given moved (.inline d) + R = R := by
      cases moved <;> exact zero_add R
    rw [hzero] at hc
    have hd : d.size ≠ 0 := hnil
    have hslice : d.inlineSlice.length = d.size := InlineData.WellFormed.length_inlineSlice hv
    have hshort : d.size ≤ maxInline := hv.1
    have hfit := minFlatLength_pos.le.trans minFlatLength_le_maxFlatLength
    have hone : edgeCount (.inline d) = 1 := by rw [edgeCount, chunks, if_neg hd, List.length_singleton]
    have hflats : flatsFor d.inlineSlice.length ≤ 1 := flatsFor_le_one (by omega)
    rw [hone] at hcount hQ
    apply wp_prependSlice hc (hslice ▸ hlen) (by omega)
    intro c' h₁ hnew hedges
    exact hQ c' h₁ hnew (by omega)
  | tree s => exact wp_addTaken hc hs hv hlen hcount hQ

/-- A sum of lengths that overflows is refused before anything changes. -/
theorem throws_appendWhole (hc : ∀ t, c = .tree t → t.Held h) (hs : ∀ t, src = .tree t → t.Held h)
    (hpos : src.len ≠ 0) (hlen : usizeMax - c.len < src.len) :
    Throws (appendWhole moved c.handle src.handle) (.panic "Cord length overflow") h := by
  apply throws_bind
  apply wp_loadLen hs
  rw [if_neg hpos]
  apply throws_bind
  apply wp_loadLen hc
  rw [if_pos hlen]
  exact throws_throw _ h

theorem throws_prependWhole (hc : ∀ t, c = .tree t → t.Held h) (hs : ∀ t, src = .tree t → t.Held h)
    (hpos : src.len ≠ 0) (hlen : usizeMax - c.len < src.len) :
    Throws (prependWhole moved c.handle src.handle) (.panic "Cord length overflow") h := by
  apply throws_bind
  apply wp_loadLen hs
  rw [if_neg hpos]
  apply throws_bind
  apply wp_loadLen hc
  rw [if_pos hlen]
  exact throws_throw _ h

/-! ### Adding bytes that were moved in -/

/-- Few bytes that were moved in are copied. -/
theorem movedEdges_of_le {capacity : ℕ} (hsmall : data.length ≤ maxBytesToCopy) :
    movedEdges data capacity = flatsFor data.length := if_pos (.inl hsmall)

/-- Bytes that were moved in come to no more data edges than a copy. -/
theorem movedEdges_le (data : Bytes) (capacity : ℕ) :
    movedEdges data capacity ≤ flatsFor data.length := by
  by_cases hcopied : data.length ≤ maxBytesToCopy ∨ data.length < capacity / 2
  · exact (if_pos hcopied).le
  · rw [movedEdges, if_neg hcopied, flatsFor_of_pos (by omega)]
    exact Nat.le_add_right _ _

/-- A new tree with bytes that were moved in, in at most `n` data edges. -/
def Moved (data : Bytes) (n : ℕ) (h : Heap Node) (Z : List Addr) (R : Multiset Addr) (a : Addr)
    (h' : Heap Node) : Prop :=
  ∃ (t : Rep) (k : ℕ), t.addr = a ∧ Holding h' Z R k t ∧ t.bytes = data ∧
    t.leaves.length ≤ n ∧ Frame Z R h h'

private theorem wp_allocExternal {allocation : Option ℕ} (ho : Owned h Z R) (hdata : data ≠ [])
    (hcap : ∀ n ∈ allocation, data.length ≤ n) :
    wp (alloc (.payload (.external data allocation)) : HeapM Addr) (Moved data 1 h Z R) h := by
  have hpos := List.length_pos_iff.mpr hdata
  apply wp_alloc ho
  intro a h₁ ho₁ hg₁ ha₁
  have hv : Payload.Valid (.external data allocation) := ⟨hpos, hcap⟩
  have he : (Edge.whole a (.external data allocation)).Held h₁ := ⟨ha₁, ha₁⟩
  have ho₂ : Owned h₁ Z (a ::ₘ R) := ho₁.closeCell ha₁ ⟨[], rfl, hv, rfl⟩ (zero_add R).symm
  exact ⟨.leaf (.whole a (.external data allocation)), 0, rfl, ⟨ho₂, Rep.held_leaf.mpr he,
    Rep.Valid.leaf_iff.mpr ⟨rfl, hv⟩, Nat.zero_le _⟩, Rep.bytes_leaf _, le_rfl,
    ho.frame_of_grows hg₁⟩

/-- A copy of the bytes. -/
private theorem wp_copied (ho : Owned h Z R) (hdata : data ≠ []) (hlen : data.length ≤ usizeMax)
    (hcount : flatsFor data.length ≤ maxCapacity ^ maxDepth) :
    wp (newTree data 0) (Moved data (flatsFor data.length) h Z R) h := by
  apply wp_newTree ho hdata hlen hcount
  intro t k h₁ ht hchunks hf
  refine ⟨t, k, rfl, ht, ?_, ?_, hf⟩
  · rw [Rep.bytes, List.flatMap_def, hchunks]
    exact @CordRs.flatten_chunks true _ data
  · rw [← length_chunks, ← hchunks, List.length_map]

/-- A buffer that was moved in is copied or becomes a data edge. -/
theorem wp_repFrom {capacity : ℕ} {allocation : Option ℕ} (ho : Owned h Z R) (hdata : data ≠ [])
    (hlen : data.length ≤ usizeMax) (hcount : movedEdges data capacity ≤ maxCapacity ^ maxDepth)
    (hcap : ∀ n ∈ allocation, data.length ≤ n) :
    wp (repFrom data capacity allocation) (Moved data (movedEdges data capacity) h Z R) h := by
  rw [movedEdges] at hcount ⊢
  rw [repFrom]
  split_ifs at hcount ⊢
  · exact wp_copied ho hdata hlen hcount
  · exact wp_allocExternal ho hdata hcap

/-- Bytes are added at one end. -/
theorem wp_addSlice (hc : Owns h Z R c) (hlen : c.len + data.length ≤ usizeMax)
    (hcount : c.edgeCount + flatsFor data.length ≤ maxCapacity ^ maxDepth)
    {Q : Cord Addr → Heap Node → Prop}
    (hQ : ∀ (c' : Cord Rep) h', New c' (join back c.bytes data) h Z R h' →
      c'.edgeCount ≤ c.edgeCount + flatsFor data.length → Q c'.handle h') :
    wp (addSlice back c.handle data) Q h := by
  cases back with
  | true =>
    have hless : flatsFor (data.length - c.room h) ≤ flatsFor data.length :=
      flatsFor_mono (Nat.sub_le _ _)
    apply wp_appendSlice hc hlen (by omega)
    intro c' h₁ hnew hedges
    exact hQ c' h₁ hnew (by omega)
  | false => exact wp_prependSlice hc hlen hcount hQ

/-- Bytes that were moved in are added at one end. -/
theorem wp_addMoved {rep : HeapM Addr} {n : ℕ} (hc : Owns h Z R c)
    (hlen : c.len + data.length ≤ usizeMax) (hcount : c.edgeCount + n ≤ maxCapacity ^ maxDepth)
    (hsmall : data.length ≤ maxBytesToCopy → flatsFor data.length ≤ n)
    (hrep : maxBytesToCopy < data.length → wp rep (Moved data n h Z (c.refs + R)) h)
    {Q : Cord Addr → Heap Node → Prop}
    (hQ : ∀ (c' : Cord Rep) h', New c' (join back c.bytes data) h Z R h' →
      c'.edgeCount ≤ c.edgeCount + n → Q c'.handle h') :
    wp (addMoved back c.handle data rep) Q h := by
  rw [addMoved]
  by_cases hfew : data.length ≤ maxBytesToCopy
  · have hflats := hsmall hfew
    rw [if_pos hfew]
    apply wp_addSlice hc hlen (by omega)
    intro c' h₁ hnew hedges
    exact hQ c' h₁ hnew (by omega)
  · rw [if_neg hfew, wp_bind]
    apply wp_mono (hrep (Nat.lt_of_not_le hfew))
    rintro _ h₁ ⟨t, k, rfl, ht, rfl, hedges, hf⟩
    have hc₁ : Owns h₁ Z (t.addr ::ₘ R) c := ⟨ht.owned.congr (Multiset.add_cons _ _ _).symm,
      fun s hs ↦ (hc.held s hs).frame hf (.root (by simp [hs, refs])), hc.valid⟩
    rw [ht.valid.length_bytes] at hlen
    apply wp_addTree_new hc₁ ht.held ht.valid ht.depth hlen (by omega)
    intro c' h₂ hnew hedges'
    have hf₁ : Frame Z R h h₁ := hf.mono (List.Subset.refl _) (Multiset.le_add_left _ _)
    exact hQ c' h₂ ⟨hnew.owns, hnew.bytes, hf₁.trans hnew.frame⟩ (by omega)

/-- A buffer that was moved in is added at one end. -/
theorem wp_addRep {capacity : ℕ} {allocation : Option ℕ} (hc : Owns h Z R c)
    (hlen : c.len + data.length ≤ usizeMax)
    (hcount : c.edgeCount + movedEdges data capacity ≤ maxCapacity ^ maxDepth)
    (hcap : ∀ n ∈ allocation, data.length ≤ n) {Q : Cord Addr → Heap Node → Prop}
    (hQ : ∀ (c' : Cord Rep) h', New c' (join back c.bytes data) h Z R h' →
      c'.edgeCount ≤ c.edgeCount + movedEdges data capacity → Q c'.handle h') :
    wp (addMoved back c.handle data (repFrom data capacity allocation)) Q h := by
  apply wp_addMoved hc hlen hcount (fun hfew ↦ (movedEdges_of_le hfew).ge) _ hQ
  intro hlarge
  have hdata : data ≠ [] := List.length_pos_iff.mp (by omega)
  exact wp_repFrom hc.owned hdata (by omega) (by omega) hcap

/-- A cord of bytes that were moved in. -/
private theorem new_moved {a : Addr} {n : ℕ} (hmoved : Moved data n h Z R a h') :
    ∃ c' : Cord Rep, c'.handle = .tree a ∧ New c' data h Z R h' ∧ c'.edgeCount ≤ n := by
  obtain ⟨t, k, rfl, ht, hbytes, hedges, hf⟩ := hmoved
  refine ⟨.tree t, rfl, new_tree ht hbytes hf, ?_⟩
  rwa [edgeCount, chunks, List.length_map]

/-- A new cord with bytes that were moved in. -/
theorem wp_fromMoved {rep : HeapM Addr} {n : ℕ} (ho : Owned h Z R)
    (hfew : data.length ≤ maxInline → flatsFor data.length ≤ n)
    (hrep : maxInline < data.length → wp rep (Moved data n h Z R) h)
    {Q : Cord Addr → Heap Node → Prop}
    (hQ : ∀ (c' : Cord Rep) h', New c' data h Z R h' → c'.edgeCount ≤ n → Q c'.handle h') :
    wp (fromMoved data rep) Q h := by
  rw [fromMoved]
  by_cases hshort : data.length ≤ maxInline
  · rw [if_pos hshort, wp_pure, InlineData.inlineFrom_eq hshort]
    refine hQ (.inline (.ofBytes data)) h (new_inline ho hshort (.refl h)) ?_
    apply le_trans _ (hfew hshort)
    by_cases hnil : data = []
    · simp [edgeCount, chunks, hnil]
    · rw [flatsFor_of_pos (List.length_pos_iff.mpr hnil)]
      exact (edgeCount_inline_le _).trans (Nat.le_add_right _ _)
  · rw [if_neg hshort, wp_bind]
    apply wp_mono (hrep (Nat.lt_of_not_le hshort))
    intro a h₁ hmoved
    obtain ⟨c', hhandle, hnew, hedges⟩ := new_moved hmoved
    rw [wp_pure, ← hhandle]
    exact hQ c' h₁ hnew hedges

/-- A new cord with a buffer that was moved in. -/
theorem wp_fromRep {capacity : ℕ} {allocation : Option ℕ} (ho : Owned h Z R)
    (hlen : data.length ≤ usizeMax) (hcount : movedEdges data capacity ≤ maxCapacity ^ maxDepth)
    (hcap : ∀ n ∈ allocation, data.length ≤ n) {Q : Cord Addr → Heap Node → Prop}
    (hQ : ∀ (c' : Cord Rep) h', New c' data h Z R h' →
      c'.edgeCount ≤ movedEdges data capacity → Q c'.handle h') :
    wp (fromMoved data (repFrom data capacity allocation)) Q h := by
  have hinline : maxInline ≤ maxBytesToCopy := by decide
  apply wp_fromMoved ho _ _ hQ
  · intro hshort
    exact (movedEdges_of_le (hshort.trans hinline)).ge
  · intro hlarge
    exact wp_repFrom ho (List.length_pos_iff.mp (by omega)) hlen hcount hcap

/-- A new cord with bytes that are never freed. -/
theorem wp_fromStatic (ho : Owned h Z R) {Q : Cord Addr → Heap Node → Prop}
    (hQ : ∀ (c' : Cord Rep) h', New c' data h Z R h' → c'.edgeCount ≤ 1 → Q c'.handle h') :
    wp (fromStatic data) Q h := by
  have hfit := minFlatLength_pos.le.trans minFlatLength_le_maxFlatLength
  apply wp_fromMoved ho _ _ hQ
  · intro hshort
    exact flatsFor_le_one (hshort.trans hfit)
  · intro hlarge
    exact wp_allocExternal ho (List.length_pos_iff.mp (by omega)) (by simp)

/-- A new cord with the bytes of an owner. -/
theorem wp_fromOwner (ho : Owned h Z R) {Q : Cord Addr → Heap Node → Prop}
    (hQ : ∀ (c' : Cord Rep) h', New c' data h Z R h' → c'.edgeCount ≤ 1 → Q c'.handle h') :
    wp (fromOwner data) Q h := by
  rw [fromOwner]
  by_cases hnil : data.length = 0
  · obtain rfl := List.length_eq_zero_iff.mp hnil
    rw [if_pos hnil, wp_pure]
    exact hQ (.inline .new) h (new_empty ho (.refl h)) (Nat.zero_le _)
  · rw [if_neg hnil, wp_bind]
    apply wp_mono (wp_allocExternal ho (by simpa using hnil) (by simp))
    intro a h₁ hmoved
    obtain ⟨c', hhandle, hnew, hedges⟩ := new_moved hmoved
    rw [wp_pure, ← hhandle]
    exact hQ c' h₁ hnew hedges

/-! ### Prepending a buffer -/

/-- Few bytes are prepended inline or in a flat. -/
theorem wp_prependPrecise (hc : Owns h Z R c) (hdata : data ≠ [])
    (hmax : data.length ≤ maxFlatLength) (hlen : c.len + data.length ≤ usizeMax)
    (hcount : c.edgeCount + 1 ≤ maxCapacity ^ maxDepth) {Q : Cord Addr → Heap Node → Prop}
    (hQ : ∀ (c' : Cord Rep) h', New c' (data ++ c.bytes) h Z R h' →
      c'.edgeCount ≤ c.edgeCount + 1 → Q c'.handle h') :
    wp (prependPrecise c.handle data) Q h := by
  have hpos := List.length_pos_iff.mpr hdata
  unfold prependPrecise
  by_cases hroom : data.length ≤ c.handle.remainingInlineCapacity
  · rw [if_pos hroom]
    cases c with
    | tree t => exact absurd hroom (Nat.not_le_of_lt hpos)
    | inline d =>
      have hd : d.WellFormed := hc.valid
      have hle : d.size ≤ maxInline := hd.1
      change data.length ≤ maxInline - d.size at hroom
      have hfit : d.size + data.length ≤ maxInline := by omega
      obtain ⟨hwf, hbytes⟩ := wellFormed_pushFrontInline hd hfit
      refine (wp_pure _ _ _).mpr (hQ (.inline (d.pushFrontInline data)) h
        ⟨owns_inline hc.inline hwf, hbytes, .refl h⟩ ?_)
      exact (edgeCount_inline_le _).trans (Nat.le_add_left _ _)
  · rw [if_neg hroom, wp_bind]
    apply wp_createFlat hc.owned hdata hmax
    rintro e h₁ he₁ hv₁ ho₁ hg₁ rfl
    have hc₁ : Owns h₁ Z (e.addr ::ₘ R) c :=
      ⟨ho₁.congr (Multiset.add_cons _ _ _).symm, fun t ht ↦ (hc.held t ht).grows hg₁, hc.valid⟩
    have hf₁ : Frame Z R h h₁ := (hc.owned.frame_of_grows hg₁).mono (List.Subset.refl _)
      (Multiset.le_add_left _ _)
    rw [hv₁.length_data] at hlen
    apply wp_addTree_new (s := .leaf e) hc₁ (Rep.held_leaf.mpr he₁)
      (Rep.Valid.leaf_iff.mpr ⟨rfl, hv₁⟩) (Nat.zero_le _) hlen hcount
    intro c' h₂ hnew hedges
    rw [Rep.bytes_leaf] at hnew
    exact hQ c' h₂ ⟨hnew.owns, hnew.bytes, hf₁.trans hnew.frame⟩ hedges.le

/-- The bytes of a buffer that is given up are added at the end of a cord. -/
theorem wp_appendBuffer_new {b : CordBuffer} {bs : Bytes} {cap : ℕ}
    (hc : Owns h (b.cells ++ Z) R c) (hb : b.Holds h bs cap) (hlen : c.len + bs.length ≤ usizeMax)
    (hcount : c.edgeCount + 1 ≤ maxCapacity ^ maxDepth) {Q : Cord Addr → Heap Node → Prop}
    (hQ : ∀ (c' : Cord Rep) h', New c' (c.bytes ++ bs) h Z R h' →
      c'.edgeCount ≤ c.edgeCount + 1 → Q c'.handle h') :
    wp (appendBuffer c.handle b) Q h := by
  apply wp_appendBuffer hc hb hlen hcount
  · rintro rfl h₁ hc₁ hf₁
    exact hQ c h₁ ⟨hc₁, (List.append_nil _).symm, hf₁⟩ (Nat.le_succ _)
  · intro hne c' h₁ hc₁ hgrown hf₁
    rcases hgrown with ⟨htree, hchunks⟩ | ⟨d, rfl, hle, rfl⟩
    · refine hQ c' h₁ ⟨hc₁, ?_, hf₁⟩ ?_
      · rw [← flatten_chunks c' hc₁.valid, hchunks, List.flatten_append, flatten_chunks c hc.valid,
          List.flatten_singleton]
      · rw [edgeCount, hchunks, List.length_append, List.length_singleton, edgeCount]
    · exact hQ _ h₁ ⟨hc₁, (wellFormed_pushBackInline hc.valid hle).2, hf₁⟩
        ((edgeCount_inline_le _).trans (Nat.le_add_left _ _))

/-- The bytes of a buffer that is given up are added before those of a cord. -/
theorem wp_prependBuffer {b : CordBuffer} {bs : Bytes} {cap : ℕ}
    (hc : Owns h (b.cells ++ Z) R c) (hb : b.Holds h bs cap) (hlen : c.len + bs.length ≤ usizeMax)
    (hcount : c.edgeCount + 1 ≤ maxCapacity ^ maxDepth) {Q : Cord Addr → Heap Node → Prop}
    (hQ : ∀ (c' : Cord Rep) h', New c' (bs ++ c.bytes) h Z R h' →
      c'.edgeCount ≤ c.edgeCount + 1 → Q c'.handle h') :
    wp (prependBuffer c.handle b) Q h := by
  unfold prependBuffer
  rw [wp_bind]
  apply CordBuffer.wp_len hb
  by_cases hnil : bs = []
  · subst hnil
    rw [if_pos List.length_nil, wp_bind]
    apply wp_dropBuffer hc
    intro h₁ hc₁ hf₁
    rw [wp_pure]
    exact hQ c h₁ ⟨hc₁, rfl, hf₁⟩ (Nat.le_succ _)
  · rw [if_neg (by simpa using hnil)]
    cases b with
    | short data =>
      obtain ⟨hle, rfl, rfl⟩ := hb
      have hmin := minFlatLength_pos
      have hmax := minFlatLength_le_maxFlatLength
      exact wp_prependPrecise hc hnil (by omega) hlen hcount hQ
    | long rep =>
      obtain ⟨e, rfl, he, hv, rfl, ho⟩ := hb.exists_edge hnil hc.owned
      have hc₁ : Owns h Z (e.addr ::ₘ R) c := ⟨ho.congr (by rw [Multiset.add_cons]), hc.held, hc.valid⟩
      rw [hv.length_data] at hlen
      apply wp_addTree_new (s := .leaf e) hc₁ (Rep.held_leaf.mpr he)
        (Rep.Valid.leaf_iff.mpr ⟨rfl, hv⟩) (Nat.zero_le _) hlen hcount
      intro c' h₁ hnew hedges
      rw [Rep.bytes_leaf] at hnew
      exact hQ c' h₁ hnew hedges.le

end Cord

end Rules

end CordRs
