import CordRs.Store.Op

/-!
# What a statement of a client is made of

## Main definitions

* `CordRs.Cord.Makes`: a new cord with some bytes in a bounded number of data edges.

## Main results

* `CordRs.CordFrom.wp_make`, `CordRs.CordSource.wp_add`, `CordRs.Query.wp_run`: new cords, what is
  added to a cord, and what is asked of it.
* `CordRs.Store.World.wp_new`, `CordRs.Store.World.wp_modify`: a new cord is made, or the cord of a
  variable is changed, and the others are not.
-/

namespace CordRs

open RefHeap LevelTree

section Results

variable [Target] {h h' : Heap Node} {Z : List Addr} {R : Multiset Addr} {bs : Bytes} {m m' : ℕ}
  {c : Cord Rep}

/-- A result that is a new cord with the bytes `bs` in at most `m` data edges. -/
def Cord.Makes (bs : Bytes) (m : ℕ) (h : Heap Node) (Z : List Addr) (R : Multiset Addr)
    (c : Cord Addr) (h' : Heap Node) : Prop :=
  ∃ r : Cord Rep, r.handle = c ∧ r.New bs h Z R h' ∧ r.edgeCount ≤ m

theorem Cord.New.makes (hnew : c.New bs h Z R h') (hm : c.edgeCount ≤ m) :
    Makes bs m h Z R c.handle h' := ⟨c, rfl, hnew, hm⟩

theorem Cord.PartOf.makes {c' : Cord Rep} (hpart : c'.PartOf c bs h Z R h')
    (hm : c.edgeCount ≤ m) : Makes bs m h Z R c'.handle h' :=
  ⟨c', rfl, hpart.toNew, hpart.edges.trans hm⟩

/-- A change without an answer. -/
theorem Store.wp_silent {f : Cord Addr → HeapM (Cord Addr)} {c : Cord Addr}
    (hf : wp (f c) (Cord.Makes bs m h Z R) h) :
    wp (silent f c) (fun q h' ↦ q.2 = .unit ∧ Cord.Makes bs m h Z R q.1 h') h := by
  rw [silent, wp_bind]
  apply wp_mono hf
  intro c' h' hnew
  rw [wp_pure]
  exact ⟨rfl, hnew⟩

theorem Cord.Stands.len (hs : c.Stands h bs m) : c.len = bs.length := by
  rw [← hs.bytes, Cord.len_eq hs.valid]

/-- A copy of few bytes is a cord. -/
theorem Cord.copyFromSlice_makes (ho : Owned h Z R) (hlimits : Limits bs.length (flatsFor bs.length)) :
    wp (copyFromSlice bs) (Makes bs (flatsFor bs.length) h Z R) h := by
  apply wp_copyFromSlice ho hlimits.1 hlimits.2
  intro c' h₁ hc' hchunks hf
  refine New.makes ⟨hc', ?_, hf⟩ ?_
  · rw [← flatten_chunks c' hc'.valid, hchunks]
    exact @CordRs.flatten_chunks true _ bs
  · rw [edgeCount, hchunks, length_chunks]

omit [Target] in
/-- A contiguous cord has one data edge at most. -/
private theorem Cord.edgeCount_le_one {flat : Bytes} (hflat : c.asContiguous = some flat) :
    c.edgeCount ≤ 1 := by
  cases c with
  | inline d => exact edgeCount_inline_le d
  | tree t =>
    rw [asContiguous] at hflat
    rcases t with e | ⟨hd, _ | ⟨e | ⟨hd', es⟩, _ | ⟨t', es'⟩⟩⟩
    · exact le_rfl
    · simp [getFlatAux] at hflat
    · simp [edgeCount, chunks]
    all_goals simp [getFlatAux] at hflat

/-- A cord that is brought into one buffer has no more data edges than before. -/
theorem Cord.flatten_makes {memory : ℕ → UInt8} (hc : c.Owns h Z R) (hs : c.Stands h bs m) :
    wp (flatten memory c.handle) (fun q h' ↦ q.2 = .bytes bs ∧ Makes bs m h Z R q.1 h') h := by
  rw [flatten, wp_bind]
  apply wp_view hs.held hs.valid
  rw [wp_bind]
  apply wp_makeContiguous hc (length_freshMemory memory c.len).ge
  intro c' h₁ hc' hflat hf
  rw [wp_pure, hs.bytes]
  have hbytes : c'.bytes = bs := (asContiguous_spec hflat).symm.trans hs.bytes
  refine ⟨rfl, New.makes ⟨hc', hbytes, hf⟩ ?_⟩
  have hone := edgeCount_le_one hflat
  have hle := edgeCount_le_length hc'.valid
  rw [hbytes] at hle
  by_cases hnil : bs = []
  · rw [hnil, List.length_nil] at hle
    omega
  · have hpos := edgeCount_pos hs.valid (hs.bytes ▸ hnil)
    have hedges := hs.edges
    omega

/-- A cord that is given up for a vector is left without bytes. -/
theorem Cord.consume_makes {memory : ℕ → UInt8} (hc : c.Owns h Z R) (hs : c.Stands h bs m) :
    wp (consume memory c.handle) (fun q h' ↦ q.2 = .bytes bs ∧ Makes [] 0 h Z R q.1 h') h := by
  rw [consume, wp_bind]
  apply wp_view hs.held hs.valid
  rw [wp_bind]
  apply wp_intoVec hc (length_freshMemory memory c.len).ge
  intro h₁ ho₁ hf₁
  rw [wp_pure, hs.bytes]
  exact ⟨rfl, (new_empty ho₁ hf₁).makes le_rfl⟩

/-- A range that a cursor reads is a new cord. -/
theorem Cord.readRange_makes {pos k : ℕ} (hc : c.Shared h R) (ho : Owned h Z R)
    (hs : c.Stands h bs m) (hlen : bs.length ≤ usizeMax) (hle : pos + k ≤ bs.length) :
    wp (readRange c.handle pos k) (Makes ((bs.drop pos).take k) k h Z R) h := by
  have hclen := hs.len
  have hbytes := hs.bytes
  have hblen := congrArg List.length hbytes
  obtain ⟨it, hnew, hat⟩ := Cursor.new_at hs.valid
  obtain ⟨it₁, hadvance, hat₁⟩ := hat.advance (n := pos) hs.valid (by omega)
  rw [Nat.zero_add] at hat₁
  have hremaining := hat₁.remaining_eq hs.valid
  rw [Cursor.remaining, hbytes] at hremaining
  have hk : k ≤ it₁.chunks.bytesRemaining := by omega
  rw [readRange, wp_bind]
  apply wp_view hs.held hs.valid
  simp only [wp_bind, wp_liftM]
  refine ⟨it, hnew, it₁, hadvance, ?_⟩
  simp only [Cursor.readCord, if_pos hk, wp_bind, wp_pure]
  apply ForwardChunks.wp_readBytes hat₁.chunks hs.valid (by omega) (hc.borrowed ho) hk
  intro chunks c' h₁ hnew' _
  rw [hbytes] at hnew'
  refine hnew'.makes ?_
  have hedges := edgeCount_le_length hnew'.owns.valid
  rw [hnew'.bytes] at hedges
  exact hedges.trans (List.length_take_le _ _)

/-- A tree within the greatest depth has no more data edges than nodes of that depth have room for. -/
theorem Cord.edgeCount_le_max (hv : c.Valid) : c.edgeCount ≤ maxCapacity ^ maxDepth := by
  cases c with
  | inline d => exact (edgeCount_inline_le d).trans (by decide)
  | tree t =>
    obtain ⟨k, hk, hv⟩ := hv
    rw [edgeCount, chunks, List.length_map, ← Rep.leaves_outline]
    exact hv.leveled.length_leaves_le.trans (Nat.pow_le_pow_right (by decide) hk)

/-- What is written to a cord that shares nothing follows its bytes. -/
theorem Cord.write_makes {calls : List WriterOp} (hc : c.Owns h Z R) (hs : c.Stands h bs m)
    (hapart : RefHeap.Apart h c.refs R) (hlen : bs.length ≤ usizeMax)
    (hadmits : (CordWriter.apart 0).Admits calls (.new c.handle, h) ⟨bs, none⟩)
    (hgo : ∀ e, ¬(CordWriter.apart 0).Stops calls (.new c.handle, h) ⟨bs, none⟩ e) :
    wp (write calls c.handle) (fun q h' ↦
      (∃ answers w, q.2 = .calls answers ∧
        (CordWriter.apart 0).MeansAll calls (.new c.handle, h) ⟨bs, none⟩ answers w) ∧
      Makes (bs ++ calls.flatMap WriterOp.written) (maxCapacity ^ maxDepth) h Z R q.1 h') h := by
  obtain rfl := hs.bytes
  rw [write, wp_bind]
  apply CordWriter.wp_writeTo hc hapart ⟨hs.len ▸ hlen, edgeCount_le_max hs.valid⟩ hadmits hgo
  intro c' answers w h' hmeans hnew hedges
  rw [wp_pure]
  exact ⟨⟨answers, w, rfl, hmeans⟩, hnew.makes hedges⟩

/-- A cord is made of a sequence that ends. -/
theorem wp_deserialized {ε : Type} {seq : SeqAccess ε} (ho : Owned h Z R)
    (hlimits : Limits seq.items.length (flatsFor seq.items.length + 1))
    {Q : Except ε (Cord Addr) → Heap Node → Prop}
    (herr : ∀ e, seq.error = some e → ∀ h', Owned h' Z R → Frame Z R h h' → Q (.error e) h')
    (hok : seq.error = none → ∀ (c : Cord Rep) h', c.New seq.items h Z R h' →
      c.edgeCount ≤ flatsFor seq.items.length + 1 → Q (.ok c.handle) h') :
    wp (visitSeq seq) Q h := by
  apply wp_visitSeq ho hlimits.1 hlimits.2 herr
  intro hnone c' h' hc' hbytes hchunks hf'
  refine hok hnone c' h' ⟨hc', hbytes, hf'⟩ ?_
  rw [Cord.edgeCount, ← List.length_map List.length, hchunks]
  exact (length_cutLengths_le _ _ _).1

/-- A range that begins beyond the end is not read. -/
theorem Cord.throws_readRange_advance {pos k : ℕ} (hs : c.Stands h bs m) (hlt : bs.length < pos) :
    Throws (readRange c.handle pos k) (.panic ("cannot advance past the end of a Cord: n = " ++
      toString pos ++ ", remaining = " ++ toString bs.length)) h := by
  obtain ⟨it, hnew, hat⟩ := Cursor.new_at hs.valid
  have hremaining := hat.remaining_eq hs.valid
  rw [Cursor.remaining, hs.bytes, Nat.sub_zero] at hremaining
  rw [readRange]
  apply throws_bind
  apply wp_view hs.held hs.valid
  apply throws_bind
  rw [wp_liftM]
  refine ⟨it, hnew, ?_⟩
  apply Throws.bind
  apply throws_liftM
  rw [Cursor.advance, if_neg (by omega), hremaining]

/-- A range that ends beyond the end is not read. -/
theorem Cord.throws_readRange_read {pos k : ℕ} (hs : c.Stands h bs m) (hle : pos ≤ bs.length)
    (hlt : bs.length - pos < k) :
    Throws (readRange c.handle pos k) (.panic ("cannot read past the end of a Cord: n = " ++
      toString k ++ ", remaining = " ++ toString (bs.length - pos))) h := by
  have hblen := congrArg List.length hs.bytes
  obtain ⟨it, hnew, hat⟩ := Cursor.new_at hs.valid
  obtain ⟨it₁, hadvance, hat₁⟩ := hat.advance (n := pos) hs.valid (by omega)
  have hremaining := hat₁.remaining_eq hs.valid
  rw [Nat.zero_add, Cursor.remaining, hs.bytes] at hremaining
  rw [readRange]
  apply throws_bind
  apply wp_view hs.held hs.valid
  apply throws_bind
  rw [wp_liftM]
  refine ⟨it, hnew, ?_⟩
  apply throws_bind
  rw [wp_liftM]
  refine ⟨it₁, hadvance, ?_⟩
  apply Throws.bind
  rw [Cursor.readCord, if_neg (by omega), hremaining]
  exact throws_throw _ _

/-- A cord is added at one end. -/
theorem Cord.addWhole_makes {back moved : Bool} {src : Cord Rep} {bs' : Bytes}
    (hc : c.Owns h Z (given moved src + R)) (hsrc : src.Shared h (given moved src + R))
    (hs : c.Stands h bs m) (hs' : src.Stands h bs' m')
    (hlimits : Limits (bs.length + bs'.length) (m + m')) :
    wp (addWhole back moved c.handle src.handle) (Makes (join back bs bs') (m + m') h Z R) h := by
  have hlen : c.len + src.len ≤ usizeMax := by
    rw [hs.len, hs'.len]
    exact hlimits.1
  have hcount : c.edgeCount + src.edgeCount ≤ maxCapacity ^ maxDepth :=
    (Nat.add_le_add hs.edges hs'.edges).trans hlimits.2
  rw [← hs.bytes, ← hs'.bytes]
  cases back with
  | true =>
    apply wp_appendWhole hc hsrc hs'.valid hlen hcount
    intro c' h₁ hnew hedges
    exact hnew.makes (hedges.trans (Nat.add_le_add hs.edges hs'.edges))
  | false =>
    apply wp_prependWhole hc hsrc hs'.valid hlen hcount
    intro c' h₁ hnew hedges
    exact hnew.makes (hedges.trans (Nat.add_le_add hs.edges hs'.edges))

/-- A cord that makes the length overflow is not added. -/
theorem Cord.throws_addWhole {back moved : Bool} {src : Cord Rep} {bs' : Bytes}
    (hs : c.Stands h bs m) (hs' : src.Stands h bs' m') (hne : bs' ≠ [])
    (hover : usizeMax < bs.length + bs'.length) :
    Throws (addWhole back moved c.handle src.handle) (.panic "Cord length overflow") h := by
  have hpos := List.length_pos_iff.mpr hne
  have hlen := hs.len
  have hlen' := hs'.len
  cases back with
  | true => exact throws_appendWhole hs.held hs'.held (by omega) (by omega)
  | false => exact throws_prependWhole hs.held hs'.held (by omega) (by omega)

/-- A buffer is added at one end. -/
theorem Cord.addBuffer_makes {back : Bool} {buffer : CordBuffer} {bs' : Bytes} {cap : ℕ}
    (hc : c.Owns h (buffer.cells ++ Z) R) (hb : buffer.Holds h bs' cap) (hs : c.Stands h bs m)
    (hlimits : Limits (bs.length + bs'.length) (m + 1)) :
    wp (addBuffer back c.handle buffer) (Makes (join back bs bs') (m + 1) h Z R) h := by
  have hlen : c.len + bs'.length ≤ usizeMax := by
    rw [hs.len]
    exact hlimits.1
  have hcount : c.edgeCount + 1 ≤ maxCapacity ^ maxDepth :=
    (Nat.add_le_add_right hs.edges 1).trans hlimits.2
  rw [← hs.bytes]
  cases back with
  | true =>
    apply wp_appendBuffer_new hc hb hlen hcount
    intro c' h₁ hnew hedges
    exact hnew.makes (hedges.trans (Nat.add_le_add_right hs.edges 1))
  | false =>
    apply wp_prependBuffer hc hb hlen hcount
    intro c' h₁ hnew hedges
    exact hnew.makes (hedges.trans (Nat.add_le_add_right hs.edges 1))

/-- Bytes are added at one end. -/
theorem Cord.addSlice_makes {back : Bool} {data : Bytes} (hc : c.Owns h Z R)
    (hs : c.Stands h bs m)
    (hlimits : Limits (bs.length + data.length) (m + flatsFor data.length)) :
    wp (addSlice back c.handle data)
      (Makes (join back bs data) (m + flatsFor data.length) h Z R) h := by
  rw [← hs.bytes]
  apply wp_addSlice hc
  · rw [hs.len]
    exact hlimits.1
  · exact (Nat.add_le_add_right hs.edges _).trans hlimits.2
  intro c' h₁ hnew hedges
  exact hnew.makes (hedges.trans (Nat.add_le_add_right hs.edges _))

/-- Bytes that are given up are added at one end. -/
theorem Cord.addRep_makes {back : Bool} {data : Bytes} {capacity : ℕ} {allocation : Option ℕ}
    (hc : c.Owns h Z R) (hs : c.Stands h bs m)
    (hlimits : Limits (bs.length + data.length) (m + movedEdges data capacity))
    (hcap : ∀ k ∈ allocation, data.length ≤ k) :
    wp (addMoved back c.handle data (repFrom data capacity allocation))
      (Makes (join back bs data) (m + movedEdges data capacity) h Z R) h := by
  rw [← hs.bytes]
  apply wp_addRep hc _ _ hcap
  · intro c' h₁ hnew hedges
    exact hnew.makes (hedges.trans (Nat.add_le_add_right hs.edges _))
  · rw [hs.len]
    exact hlimits.1
  · exact (Nat.add_le_add_right hs.edges _).trans hlimits.2

end Results

variable {ι κ : Type} [Fintype ι] [Fintype κ] [Target]
  {s₀ s : Store ι κ} {Y : Set ι} {v : Values ι κ} {n : ι → ℕ} {Z : List Addr} {R : Multiset Addr}
  {x y : ι} {bs : Bytes} {m : ℕ}

namespace Store

omit [Fintype ι] [Fintype κ] in
/-- The cord that is seen in a variable is the one whose handle is in it. -/
theorem cordAt_eq {c : Cord Rep} (hc : c.handle = s.cords x) (hs : c.Stands s.heap bs m) :
    s.cordAt x = c := by
  rw [Store.cordAt, ← hc, Cord.seen_handle hs.held hs.valid]

/-- The cord that is seen in a variable is the one that the variable stands for. -/
theorem World.cordAt (hw : World s₀ Y s v n Z R) (x : ι) : (s.cordAt x).handle = s.cords x ∧
    (s.cordAt x).Stands s.heap (v.cords x) (s.edgeCount x) := by
  obtain ⟨c, hc, hs⟩ := hw.cords x
  rw [edgeCount, cordAt_eq hc hs]
  exact ⟨hc, hs.held, hs.valid, hs.bytes, le_rfl⟩

/-- The cords have as many data edges as they have. -/
theorem World.tighten (hw : World s₀ Y s v n Z R) : World s₀ Y s v s.edgeCount Z R where
  owned := hw.owned
  cords x := ⟨s.cordAt x, hw.cordAt x⟩
  buffers := hw.buffers
  kept := hw.kept

/-- The heap got a new cord while the hands of the client were empty. -/
theorem World.of_new_only {h' : Heap Node} {c : Cord Rep} (hw : World s₀ Y s v n Z R)
    (hnew : c.New bs s.heap s.cells s.refs h') :
    World s₀ Y { s with heap := h' } v n [] (c.refs + 0) := by
  have hnew' : c.New bs s.heap (s.cells ++ []) (s.refs + 0) h' := by
    rw [List.append_nil, add_zero]
    exact hnew
  exact hw.of_new hnew'

/-- The counts are exact for the variables when the hands of the client are empty. -/
theorem World.owned_only (hw : World s₀ Y s v n [] 0) : Owned s.heap s.cells s.refs := by
  have ho := hw.owned
  rwa [List.append_nil, add_zero] at ho

/-- The counts are exact for a buffer in the hands. -/
theorem World.owned_buffer {buffer : CordBuffer} (hw : World s₀ Y s v n (buffer.cells ++ []) 0) :
    Owned s.heap (buffer.cells ++ s.cells) s.refs := by
  have ho := hw.owned.perm List.perm_append_comm
  rwa [List.append_nil, add_zero] at ho

/-- A program on the heap makes a new cord. -/
theorem World.wp_new (hw : World s₀ Y s v n [] 0) {p : HeapM (Cord Addr)}
    (hp : wp p (Cord.Makes bs m s.heap s.cells s.refs) s.heap)
    {Q : Cord Addr → Store ι κ → Prop}
    (hQ : ∀ (c : Cord Rep) s', World s₀ Y s' v n [] (c.refs + 0) → c.Stands s'.heap bs m →
      s'.cords = s.cords → Q c.handle s') :
    wp (onHeap p) Q s := by
  rw [wp_onHeap]
  apply wp_mono hp
  rintro _ h₁ ⟨r, rfl, hnew, hedges⟩
  exact hQ r _ (hw.of_new_only hnew) (stands_of_new hnew hedges) rfl

variable [DecidableEq ι]

omit [Fintype κ] in
/-- A cord that shares nothing is apart from what the variables hold without it. -/
theorem Apart.of_taken (hapart : s.Apart x) : RefHeap.Apart s.heap (s.cords x).root
    (refsAll Cord.root (Function.update s.cords x (.inline .new))) := by
  intro a ha hothers
  obtain ⟨y, hy⟩ := exists_reach_of_refsAll hothers
  by_cases hyx : y = x
  · subst hyx
    rw [Function.update_self] at hy
    exact not_reach_zero hy
  · rw [Function.update_of_ne hyx] at hy
    exact hapart y hyx a ha hy

/-- The cord of a variable is changed by a program that consumes what is in the hands, and answers as
`P` says. -/
theorem World.wp_modify {α : Type} (hw : World s₀ Y s v n Z R) (hx : x ∉ Y)
    {f : Cord Addr → HeapM (Cord Addr × α)} {P : α → Prop}
    (hf : ∀ (c : Cord Rep) (s' : Store ι κ), c.Stands s'.heap (v.cords x) (n x) →
      s'.heap = s.heap → s'.cords = Function.update s.cords x (.inline .new) →
      c.handle = s.cords x → c.Owns s'.heap (Z ++ s'.cells) (R + s'.refs) →
      World s₀ Y s' (v.setCord x []) (Function.update n x 0) Z (c.refs + R) →
      wp (f c.handle) (fun q h' ↦ P q.2 ∧ Cord.Makes bs m s'.heap s'.cells s'.refs q.1 h') s'.heap)
    {Q : α → Store ι κ → Prop}
    (hQ : ∀ answer s', P answer → World s₀ Y s' (v.setCord x bs) (Function.update n x m) [] 0 →
      Q answer s') :
    wp (modifyCord x f) Q s := by
  rw [modifyCord, wp_bind]
  apply hw.wp_takeCord hx
  intro c s₁ hc hs₁ hempty hheap hothers hw₁
  have hcords : s₁.cords = Function.update s.cords x (.inline .new) := by
    funext y
    by_cases hy : y = x
    · subst hy
      rw [Function.update_self, hempty]
    · rw [Function.update_of_ne hy, hothers y hy]
  have howns : c.Owns s₁.heap (Z ++ s₁.cells) (R + s₁.refs) := by
    refine ⟨?_, hs₁.held, hs₁.valid⟩
    apply (hw₁.owned.perm List.perm_append_comm).congr
    rw [add_comm, add_assoc]
  rw [wp_bind, wp_onHeap]
  apply wp_mono (hf c s₁ hs₁ hheap hcords hc howns hw₁)
  rintro ⟨_, answer⟩ h₂ ⟨hanswer, r, rfl, hnew, hedges⟩
  have hw₂ := hw₁.of_new_only hnew
  rw [wp_bind]
  apply hw₂.wp_putCord (stands_of_new hnew hedges) hx hempty
  intro s₃ hw₃ _ _
  rw [Values.setCord_setCord, Function.update_idem] at hw₃
  rw [wp_pure]
  exact hQ answer s₃ hanswer hw₃

/-- The cord of a variable is changed by a program that consumes what is in the hands. -/
theorem World.wp_modifyCord (hw : World s₀ Y s v n Z R) (hx : x ∉ Y)
    {f : Cord Addr → HeapM (Cord Addr × Answer)} {answer : Answer}
    (hf : ∀ (c : Cord Rep) (s' : Store ι κ), c.Stands s'.heap (v.cords x) (n x) →
      s'.heap = s.heap → (∀ y ≠ x, s'.cords y = s.cords y) →
      c.Owns s'.heap (Z ++ s'.cells) (R + s'.refs) →
      World s₀ Y s' (v.setCord x []) (Function.update n x 0) Z (c.refs + R) →
      wp (f c.handle) (fun q h' ↦ q.2 = answer ∧ Cord.Makes bs m s'.heap s'.cells s'.refs q.1 h')
        s'.heap)
    {Q : Answer → Store ι κ → Prop}
    (hQ : ∀ s', World s₀ Y s' (v.setCord x bs) (Function.update n x m) [] 0 → Q answer s') :
    wp (modifyCord x f) Q s := by
  apply hw.wp_modify (P := fun a ↦ a = answer) hx
  · intro c s₁ hs hheap hcords _ howns hw₁
    refine hf c s₁ hs hheap (fun y hy ↦ ?_) howns hw₁
    rw [hcords, Function.update_of_ne hy]
  · rintro _ s₁ rfl hw₁
    exact hQ s₁ hw₁

/-- The cord of a variable is changed while the hands of the client are empty. -/
theorem World.wp_change (hw : World s₀ Y s v n [] 0) (hx : x ∉ Y)
    {f : Cord Addr → HeapM (Cord Addr)}
    (hf : ∀ (c : Cord Rep) (s' : Store ι κ), c.Stands s'.heap (v.cords x) (n x) →
      c.Owns s'.heap s'.cells s'.refs →
      wp (f c.handle) (Cord.Makes bs m s'.heap s'.cells s'.refs) s'.heap)
    {Q : Answer → Store ι κ → Prop}
    (hQ : ∀ s', World s₀ Y s' (v.setCord x bs) (Function.update n x m) [] 0 → Q .unit s') :
    wp (modifyCord x (silent f)) Q s := by
  apply hw.wp_modifyCord hx _ hQ
  intro c s' hs _ _ hc _
  rw [List.nil_append, zero_add] at hc
  exact wp_silent (hf c s' hs hc)

/-- A new cord is made and put into a variable. -/
theorem World.wp_assignNew (hw : World s₀ Y s v n [] 0) (hx : x ∉ Y) {p : HeapM (Cord Addr)}
    (hp : wp p (Cord.Makes bs m s.heap s.cells s.refs) s.heap) {answer : Answer}
    {Q : Answer → Store ι κ → Prop}
    (hQ : ∀ s', World s₀ Y s' (v.setCord x bs) (Function.update n x m) [] 0 → Q answer s') :
    wp (do
      let c ← onHeap p
      assign x c
      pure answer) Q s := by
  rw [wp_bind]
  apply hw.wp_new hp
  intro c s₁ hw₁ hs₁ _
  rw [wp_bind]
  apply hw₁.wp_assign hs₁ hx
  intro s₂ hw₂ _
  rw [wp_pure]
  exact hQ s₂ hw₂

end Store

/-! ### Making and adding -/

section Making

open Store

variable [DecidableEq κ]

/-- The cord with the bytes of a buffer. -/
private theorem wp_fromBuffer {h : Heap Node} {Z : List Addr} {R : Multiset Addr} {bs : Bytes}
    {cap : ℕ} {buffer : CordBuffer} (ho : Owned h (buffer.cells ++ Z) R)
    (hb : buffer.Holds h bs cap) (hlen : bs.length ≤ usizeMax) (hone : 1 ≤ maxCapacity ^ maxDepth) :
    wp (Cord.appendBuffer (.inline .new) buffer) (Cord.Makes bs 1 h Z R) h := by
  have hempty := (Cord.new_empty ho (.refl h)).owns
  apply Cord.wp_appendBuffer_new hempty hb
  · rwa [Cord.len_new, Nat.zero_add]
  · rwa [Cord.edgeCount_new, Nat.zero_add]
  intro c' h' hnew hedges
  rw [Cord.bytes_new, List.nil_append] at hnew
  rw [Cord.edgeCount_new, Nat.zero_add] at hedges
  exact hnew.makes hedges

/-- A new cord has the bytes it is made from. -/
theorem CordFrom.wp_make (hw : World s₀ Y s v n [] 0) {src : CordFrom κ} (hsound : src.Sound)
    (hlimits : Limits (src.bytes v).length src.edges) {Q : Cord Addr → Store ι κ → Prop}
    (hQ : ∀ (c : Cord Rep) s', World s₀ Y s' (src.taken v) n [] (c.refs + 0) →
      c.Stands s'.heap (src.bytes v) src.edges → Q c.handle s') :
    wp src.make Q s := by
  have ho := hw.owned_only
  obtain ⟨hlen, hcount⟩ := hlimits
  have hmake {p : HeapM (Cord Addr)} {bs : Bytes} {m : ℕ} (heq : src.bytes v = bs)
      (hm : src.edges = m) (htaken : src.taken v = v)
      (hp : wp p (Cord.Makes bs m s.heap s.cells s.refs) s.heap) : wp (onHeap p) Q s := by
    apply hw.wp_new hp
    intro c s' hw' hs' _
    apply hQ c s' _ (heq ▸ hm ▸ hs')
    rwa [htaken]
  cases src with
  | slice data => exact hmake rfl rfl rfl (Cord.copyFromSlice_makes ho ⟨hlen, hcount⟩)
  | owned data capacity =>
    apply hmake rfl rfl rfl
    apply Cord.wp_fromRep ho hlen hcount (by simp)
    intro c' h' hnew hedges
    exact hnew.makes hedges
  | global data allocationSize =>
    apply hmake rfl rfl rfl
    apply Cord.wp_fromRep ho hlen hcount
    · intro k hk
      rw [← Option.mem_some.mp hk]
      exact hsound
    intro c' h' hnew hedges
    exact hnew.makes hedges
  | static data =>
    apply hmake rfl rfl rfl
    apply Cord.wp_fromStatic ho
    intro c' h' hnew hedges
    exact hnew.makes hedges
  | owner data =>
    apply hmake rfl rfl rfl
    apply Cord.wp_fromOwner ho
    intro c' h' hnew hedges
    exact hnew.makes hedges
  | iter bytes =>
    apply hmake rfl rfl rfl
    apply Cord.wp_extend (Cord.new_empty ho (.refl s.heap)).owns
    · rwa [Cord.len_new, Nat.zero_add]
    · rwa [Cord.edgeCount_new, Nat.zero_add]
    intro c' h' hnew hedges
    rw [Cord.bytes_new, List.nil_append] at hnew
    rw [Cord.edgeCount_new, Nat.zero_add] at hedges
    exact hnew.makes hedges
  | buffer b =>
    rw [make, wp_bind]
    apply hw.wp_takeBuffer
    intro buffer s₁ hb _ hheap hcords _ hw₁
    rw [wp_onHeap]
    apply wp_mono (wp_fromBuffer hw₁.owned_buffer hb hlen hcount)
    rintro _ h₂ ⟨r, rfl, hnew, hedges⟩
    exact hQ r _ (hw₁.of_new_only hnew) (stands_of_new hnew hedges)

variable [DecidableEq ι]

omit [DecidableEq κ] in
/-- Adding a cord in the hands puts its bytes at one end. -/
private theorem wp_addHeld {src : Cord Rep} {m' : ℕ} {bs' : Bytes} {back : Bool}
    (hw : World s₀ Y s v n [] (src.refs + 0)) (hsrc : src.Stands s.heap bs' m') (hx : x ∉ Y)
    (hlimits : Limits ((v.cords x).length + bs'.length) (n x + m')) {Q : Answer → Store ι κ → Prop}
    (hQ : ∀ s', World s₀ Y s' (v.setCord x (join back (v.cords x) bs'))
      (Function.update n x (n x + m')) [] 0 → Q .unit s') :
    wp (modifyCord x (silent fun c ↦ c.addWhole back true src.handle)) Q s := by
  apply hw.wp_modifyCord hx _ hQ
  intro c s₁ hs hheap _ hc _
  rw [List.nil_append, add_zero] at hc
  rw [← hheap] at hsrc
  have hshared : src.Shared s₁.heap (src.refs + s₁.refs) := by
    apply Cord.Shared.mk _ hsrc.held
    rintro t rfl
    exact .root (Multiset.mem_add.mpr (.inl (Multiset.mem_singleton_self _)))
  exact wp_silent (Cord.addWhole_makes hc hshared hs hsrc hlimits)

/-- Adding to a cord puts the bytes at one end of it. -/
theorem CordSource.wp_add (hw : World s₀ Y s v n [] 0) {back : Bool} {src : CordSource ι κ}
    (hx : x ∉ Y) (hy : ∀ y, src = .moved y → y ∉ Y) (hsound : src.Sound x)
    (hlimits : Limits ((v.cords x).length + (src.bytes v).length) (n x + src.edges n))
    {Q : Answer → Store ι κ → Prop}
    (hQ : ∀ s' n', World s₀ Y s' ((src.taken v).setCord x (join back (v.cords x) (src.bytes v)))
      n' [] 0 → Q .unit s') :
    wp (do
      let f ← src.prepare back
      modifyCord x (silent f)) Q s := by
  cases src with
  | slice data =>
    rw [prepare, wp_bind, wp_pure]
    apply hw.wp_change (m := n x + flatsFor data.length) hx _ fun s' ↦ hQ s' _
    intro c s₁ hs hc
    exact Cord.addSlice_makes hc hs hlimits
  | owned data capacity =>
    rw [prepare, wp_bind, wp_pure]
    apply hw.wp_change (m := n x + movedEdges data capacity) hx _ fun s' ↦ hQ s' _
    intro c s₁ hs hc
    exact Cord.addRep_makes hc hs hlimits (by simp)
  | global data allocationSize =>
    rw [prepare, wp_bind, wp_pure]
    apply hw.wp_change (m := n x + movedEdges data allocationSize) hx _ fun s' ↦ hQ s' _
    intro c s₁ hs hc
    apply Cord.addRep_makes hc hs hlimits
    intro k hk
    rw [← Option.mem_some.mp hk]
    exact hsound
  | cord y =>
    rw [prepare, bind_assoc, wp_bind, wp_borrow, pure_bind]
    apply hw.wp_modifyCord (m := n x + n y) hx _ fun s' ↦ hQ s' _
    intro c s₁ hs hheap hothers hc hw₁
    obtain ⟨src, hsrc, hshared, hstands⟩ := hw₁.shared y
    rw [hothers y (Ne.symm hsound)] at hsrc
    rw [← hsrc]
    simp only [Values.setCord, Function.update_of_ne (Ne.symm hsound)] at hstands
    have hc' : c.Owns s₁.heap s₁.cells (Cord.given false src + s₁.refs) := by
      simpa [Cord.given] using hc
    have hshared' : src.Shared s₁.heap (Cord.given false src + s₁.refs) := by
      simpa [Cord.given] using hshared
    exact wp_silent (Cord.addWhole_makes hc' hshared' hs hstands hlimits)
  | cloned y =>
    obtain ⟨src, hsrc, hshared, hstands⟩ := hw.shared y
    rw [prepare, bind_assoc, wp_bind, wp_borrow, bind_assoc, wp_bind, wp_onHeap, ← hsrc]
    apply Cord.wp_clone (hshared.borrowed hw.owned_only) hstands.valid
    intro h₁ hnew
    have hstands₁ := stands_of_new hnew hstands.edges
    rw [hstands.bytes] at hstands₁
    rw [pure_bind]
    exact wp_addHeld (hw.of_new_only hnew) hstands₁ hx hlimits fun s' ↦ hQ s' _
  | moved y =>
    rw [prepare, bind_assoc, wp_bind]
    apply hw.wp_takeCord (hy y rfl)
    intro src s₁ _ hstands _ hheap₁ _ hw₁
    rw [pure_bind]
    have hvx : (v.setCord y []).cords x = v.cords x := Function.update_of_ne hsound _ _
    have hnx : Function.update n y 0 x = n x := Function.update_of_ne hsound _ _
    apply wp_addHeld hw₁ hstands hx
    · rw [hvx, hnx]
      exact hlimits
    · rw [hvx]
      exact fun s' ↦ hQ s' _
  | buffer b =>
    rw [prepare, bind_assoc, wp_bind]
    apply hw.wp_takeBuffer
    intro buffer s₁ hb _ hheap hcords _ hw₁
    rw [pure_bind]
    apply hw₁.wp_modifyCord (m := n x + 1) hx _ fun s' ↦ hQ s' _
    intro c s₂ hs hheap₂ _ hc _
    rw [List.append_nil, zero_add] at hc
    rw [← hheap₂] at hb
    exact wp_silent (Cord.addBuffer_makes hc hb hs hlimits)

end Making

/-! ### Asking -/

section Asking

open Store

/-- The tree of a cord in a variable. -/
theorem wp_viewOf (hw : World s₀ Y s v n Z R) {Q : Cord Rep → Store ι κ → Prop}
    (hQ : ∀ c : Cord Rep, c.Stands s.heap (v.cords x) (s.edgeCount x) → Q c s) :
    wp (view x) Q s := by
  obtain ⟨hc, hs⟩ := hw.cordAt x
  rw [view, wp_bind, wp_borrow, ← hc, wp_onHeap]
  apply Cord.wp_view hs.held hs.valid
  exact hQ _ hs

/-- A question about one cord. -/
private theorem wp_askOne {α : Type} (hw : World s₀ Y s v n Z R) {p : Cord Rep → Except Fault α}
    {f : α → Answer} {a : α}
    (hp : ∀ c : Cord Rep, c.Stands s.heap (v.cords x) (s.edgeCount x) → p c = .ok a) :
    wp (do
      let c ← view x
      let a ← liftM (p c)
      pure (f a) : StoreM ι κ Answer) (fun answer s' ↦ answer = f a ∧ s' = s) s := by
  rw [wp_bind]
  apply wp_viewOf hw
  intro c hc
  rw [wp_bind, wp_liftM]
  exact ⟨a, hp c hc, (wp_pure _ _ _).mpr ⟨rfl, rfl⟩⟩

/-- A question about two cords. -/
private theorem wp_askTwo {α : Type} (hw : World s₀ Y s v n Z R)
    {p : Cord Rep → Cord Rep → Except Fault α} {f : α → Answer} {a : α}
    (hp : ∀ c d : Cord Rep, c.Stands s.heap (v.cords x) (s.edgeCount x) →
      d.Stands s.heap (v.cords y) (s.edgeCount y) → p c d = .ok a) :
    wp (do
      let c ← view x
      let d ← view y
      let a ← liftM (p c d)
      pure (f a) : StoreM ι κ Answer) (fun answer s' ↦ answer = f a ∧ s' = s) s := by
  rw [wp_bind]
  apply wp_viewOf hw
  intro c hc
  exact wp_askOne hw fun d hd ↦ hp c d hc hd

/-- The heap holds what a cord stands for. -/
theorem Cord.Stands.isHeld {h : Heap Node} {c : Cord Rep} (hs : c.Stands h bs m) :
    c.Held h := by
  cases c with
  | inline d => trivial
  | tree t => exact hs.held t rfl

/-- A question is answered from the bytes, and nothing changes. -/
theorem Query.wp_run (hw : World s₀ Y s v n Z R) (q : Query ι) :
    wp (q.run : StoreM ι κ Answer) (fun answer s' ↦ answer = q.answer v ∧ s' = s) s := by
  cases q with
  | len x =>
    obtain ⟨c, hc, hs⟩ := hw.cords x
    rw [run, wp_bind, wp_borrow, ← hc, wp_bind, wp_onHeap]
    apply Cord.wp_loadLen hs.held
    rw [wp_pure, hs.len]
    exact ⟨rfl, rfl⟩
  | toVec x memory =>
    apply wp_askOne hw
    intro c hs
    rw [c.toVec_spec hs.valid (length_freshMemory memory c.len).ge, hs.bytes]
  | get x index =>
    apply wp_askOne hw
    intro c hs
    rw [c.getByte_spec hs.valid index, hs.bytes]
  | compare x y =>
    apply wp_askTwo hw
    intro c d hc hd
    have hvalid : (CordLike.cord d).Valid := hd.valid
    have hheld : (CordLike.cord d).Held s.heap := hd.isHeld
    rw [c.compare_eq hc.valid hvalid hc.isHeld hheld, CordLike.bytes, hc.bytes, hd.bytes]
  | equals x y =>
    apply wp_askTwo hw
    intro c d hc hd
    have hvalid : (CordLike.cord d).Valid := hd.valid
    have hheld : (CordLike.cord d).Held s.heap := hd.isHeld
    rw [c.equals_eq hc.valid hvalid hc.isHeld hheld]
    simp only [CordLike.bytes, hc.bytes, hd.bytes]
  | startsWith x y =>
    apply wp_askTwo hw
    intro c d hc hd
    have hvalid : (CordLike.cord d).Valid := hd.valid
    rw [c.startsWith_eq hc.valid hvalid]
    simp only [CordLike.bytes, hc.bytes, hd.bytes]
  | endsWith x y =>
    apply wp_askTwo hw
    intro c d hc hd
    have hvalid : (CordLike.cord d).Valid := hd.valid
    rw [c.endsWith_eq hc.valid hvalid]
    simp only [CordLike.bytes, hc.bytes, hd.bytes]

end Asking

end CordRs
