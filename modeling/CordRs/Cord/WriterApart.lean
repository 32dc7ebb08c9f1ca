import CordRs.Cord.Local
import CordRs.Cord.Writer

/-!
# A writer whose cord shares nothing

While no node can be reached both from the cord of a writer and from another cord, no buffer that
the writer takes gives up a shared node. The calls are local, so what they do in the part of the heap
that belongs to the cord and the buffer they do in the whole heap, and what the cord is made of
afterwards is again apart from the other cords.

## Main definitions

* `CordRs.CordWriter.held`: the bytes of the cord and the buffer.
* `CordRs.CordWriter.apart`: the calls of a writer, with no more conditions than lengths and numbers
  of data edges.

## Main results

* `CordRs.CordWriter.loses_nothing`: what is written follows what was there, whatever the calls.
-/

namespace CordRs

open RefHeap

namespace CordWriter

variable [Target]

/-! ### The calls are local -/

instance (w : CordWriter) : Local w.flush := by
  unfold flush
  cases w.buffer <;> infer_instance

instance (w : CordWriter) : Local w.isFull := by
  unfold isFull
  cases w.buffer <;> infer_instance

instance (w : CordWriter) : Local w.takeBuffer := by
  unfold takeBuffer
  infer_instance

instance (w : CordWriter) : Local w.bufferMut := by
  unfold bufferMut
  infer_instance

instance (w : CordWriter) (src : Bytes) : Local (w.putSlice src) := by
  unfold putSlice
  exact .andThen fun w' ↦ by cases w'.buffer <;> infer_instance

instance (w : CordWriter) : Local w.chunkMut := by
  unfold chunkMut
  exact .andThen fun w' ↦ by cases w'.buffer <;> infer_instance

instance (w : CordWriter) (written : Bytes) : Local (w.advanceMut written) := by
  unfold advanceMut
  cases w.buffer <;> infer_instance

instance (w : CordWriter) : Local w.remainingMut := by
  unfold remainingMut
  exact .andThen fun len ↦ by cases w.buffer <;> infer_instance

instance (op : WriterOp) (w : CordWriter) : Local (op.step w) := by
  cases op <;>
  · unfold WriterOp.step
    infer_instance

/-! ### The cord and the buffer -/

/-- The bytes in the buffer of a writer. -/
def buffered (s : CordWriter × Heap Node) : Bytes :=
  match s.1.buffer with
  | none => []
  | some buffer =>
    match buffer.asSlice s.2 with
    | .ok (data, _) => data
    | .error _ => []

/-- The bytes of the cord and the buffer of a writer. -/
def held (s : CordWriter × Heap Node) : Bytes := (s.1.cord.seen s.2).bytes ++ buffered s

/-- The results of a call are within the limits. -/
def WithinLimits (s : CordWriter × Heap Node) (v : Written) : WriterOp → Prop
  | .putSlice src =>
    Limits (v.bytes.length + src.length) (edgeCount s + 1 + flatsFor src.length)
  | .chunkMut => edgeCount s + 1 ≤ maxCapacity ^ maxDepth
  | .advanceMut written => v.bytes.length + written.length ≤ usizeMax
  | _ => True

/-- The calls of the writer of a cord that shares nothing with those of the references `R`. -/
def apart (R : Multiset Addr) : Language (CordWriter × Heap Node) Written WriterOp WriterAnswer Fault :=
  { language R with Fits := fun op s v ↦ WithinLimits s v op }

variable {h h₀ : Heap Node} {Z : List Addr} {R : Multiset Addr} {w : CordWriter} {v : Written}

/-- The opened cells of a writer. -/
def cells (w : CordWriter) : List Addr := w.buffer.elim [] CordBuffer.cells

/-- A writer that stands for some bytes has a cord and a buffer that hold them. -/
theorem Writes.exists_cord (hw : Writes h₀ Z R (w, h) v) : ∃ c : Cord Rep, w.cord = c.handle ∧
    c.Owns h (w.cells ++ Z) R ∧ edgeCount (w, h) = c.edgeCount + w.buffer.toList.length ∧
    held (w, h) = v.bytes := by
  obtain ⟨-, c, rfl, hc, hbytes, -⟩ | ⟨room, -, c, b, data, rfl, hc, hb, hbytes, -⟩ := hw.shape
  · refine ⟨c, rfl, hc, ?_, ?_⟩
    · rw [edgeCount, Cord.seen_handle hc.held hc.valid]
    · rw [held, Cord.seen_handle hc.held hc.valid, hbytes]
      exact List.append_nil _
  · refine ⟨c, rfl, hc, ?_, ?_⟩
    · rw [edgeCount, Cord.seen_handle hc.held hc.valid]
    · obtain ⟨_, h', hrun, rfl⟩ := CordBuffer.wp_asSlice (Q := fun bs _ ↦ bs = data) hb rfl
      rw [held, buffered, Cord.seen_handle hc.held hc.valid, ← hbytes]
      simp only [hrun]

/-- The part of the heap that belongs to the cord and the buffer of a writer. -/
noncomputable def part (s : CordWriter × Heap Node) : Heap Node :=
  s.2.within (partOf s.2 s.1.cells s.1.cord.root)

/-- In its part of the heap, a writer whose cord shares nothing stands for what it stands for. -/
theorem Writes.of_apart (hw : Writes h₀ Z R (w, h) v) (hapart : Apart h w.cord.root R) :
    Writes (part (w, h)) [] 0 (w, part (w, h)) v ∧ edgeCount (w, part (w, h)) = edgeCount (w, h) := by
  obtain ⟨c, hcord, hc, hcount, -⟩ := hw.exists_cord
  rw [hcord, Cord.root_handle] at hapart
  have hc' := hc.within hapart
  have hpart : part (w, h) = h.within (partOf h w.cells c.refs) := by
    rw [part, hcord, Cord.root_handle]
  rw [← hpart] at hc'
  have hsame : edgeCount (w, part (w, h)) = edgeCount (w, h) := by
    rw [hcount, edgeCount, hcord, Cord.seen_handle hc'.held hc'.valid]
  refine ⟨⟨?_, hsame.symm ▸ hw.limits, .refl _⟩, hsame⟩
  rw [hsame]
  obtain ⟨hnone, c₁, rfl, hc₁, hbytes, hedges⟩ | ⟨room, hsome, c₁, b, data, rfl, hc₁, hb, hbytes,
    hedges⟩ := hw.shape
  · obtain rfl := hc.unique hc₁ hcord.symm
    exact .inl ⟨hnone, c, rfl, hc', hbytes, hedges⟩
  · obtain rfl := hc.unique hc₁ hcord.symm
    refine .inr ⟨room, hsome, c, b, data, rfl, ?_, ?_, hbytes, hedges⟩
    · rw [List.append_nil]
      exact hc'
    · rw [hpart]
      exact hb.within

/-! ### Keeping apart -/

/-- What a local program makes of the cord in its part of the heap is apart from other cords. -/
theorem Writes.wp_apart {α : Type} {p : HeapM α} [Local p] (cord : α → Cord Addr)
    (hw : Writes h₀ Z R (w, h) v) (hapart : Apart h w.cord.root R)
    (hp : wp p (fun x h' ↦ ∃ Y, Owned h' Y (cord x).root) (part (w, h))) :
    wp p (fun x h' ↦ Apart h' (cord x).root R) h := by
  obtain ⟨c, hcord, hc, -⟩ := hw.exists_cord
  rw [part, hcord, Cord.root_handle] at hp
  rw [hcord, Cord.root_handle] at hapart
  refine wp_mono (Local.wp_within hc.owned hapart hp) ?_
  rintro x h' ⟨mine, ⟨Y, ho⟩, hmine⟩
  exact hmine Y _ ho

/-- The counts are exact for the cord of a writer when others hold nothing. -/
theorem Writes.owned_root (hw : Writes h₀ [] 0 (w, h) v) : ∃ Y, Owned h Y w.cord.root := by
  obtain ⟨c, hcord, hc, -⟩ := hw.exists_cord
  rw [hcord, Cord.root_handle]
  exact ⟨w.cells ++ [], hc.owned.congr (add_zero _)⟩

/-- A writer whose cord shares nothing gives up nothing that is shared for a buffer. -/
theorem Writes.takesUnshared (hw : Writes h₀ Z R (w, h) v) (hapart : Apart h w.cord.root R) :
    TakesUnshared R (w, h) := by
  right
  intro _
  obtain ⟨hpart, -⟩ := hw.of_apart hapart
  have hflush : wp w.flush (fun w' h' ↦ Apart h' w'.cord.root R) h := by
    refine Writes.wp_apart CordWriter.cord hw hapart (hpart.wp_flush ?_)
    rintro w' h' ⟨c, rfl, hc, -⟩ -
    exact ⟨[], Cord.root_handle c ▸ hc.owned.congr (add_zero _)⟩
  have hidle : wp w.flush (fun w' h' ↦ ∃ c : Cord Rep, w'.cord = c.handle ∧ c.Owns h' Z R) h := by
    refine hw.wp_flush ?_
    rintro w' h' ⟨c, rfl, hc, -⟩ -
    exact ⟨c, rfl, hc⟩
  obtain ⟨w₁, h₁, hrun, happart, c, hcord, hc⟩ := wp_and hflush hidle
  have hflushed : flushed (w, h) = (c, h₁) := by
    simp only [flushed, hrun, hcord, Cord.seen_handle hc.held hc.valid]
  rw [hflushed]
  rw [hcord, Cord.root_handle] at happart
  exact Cord.keepsShared_of_apart hc happart

/-- A call keeps the cord of a writer apart from other cords. -/
theorem Writes.wp_step_apart {op : WriterOp} (hw : Writes h₀ Z R (w, h) v)
    (hapart : Apart h w.cord.root R) (hlimits : WithinLimits (w, h) v op)
    (hgo : op.refuses v = none) :
    wp (op.step w) (fun r h' ↦ Apart h' r.1.cord.root R) h := by
  obtain ⟨hpart, hcount⟩ := hw.of_apart hapart
  have hfits : op.Fits 0 (w, part (w, h)) v := by
    cases op with
    | putSlice src => exact ⟨.inl rfl, by rw [hcount]; exact hlimits⟩
    | chunkMut => exact ⟨.inl rfl, by rw [hcount]; exact hlimits⟩
    | advanceMut written => exact hlimits
    | flush | remainingMut => trivial
  refine Writes.wp_apart (fun r : CordWriter × WriterAnswer ↦ r.1.cord) hw hapart ?_
  refine wp_mono (wp_runOn.mp (hpart.wp_step hfits hgo)) ?_
  rintro ⟨w', answer⟩ h' ⟨v', -, hw', -⟩
  exact hw'.owned_root

/-- Every call keeps what the writer and its cord stand for, and keeps the cord apart. -/
theorem simulates_apart : (apart R).Simulates (fun _ ↦ True) fun s v ↦
    Writes h₀ Z R s v ∧ Apart s.2 s.1.cord.root R where
  step op s v _ hw hlimits hgo := by
    obtain ⟨w, h⟩ := s
    obtain ⟨hw, hapart⟩ := hw
    have hfits : op.Fits R (w, h) v := by
      cases op with
      | putSlice src => exact ⟨hw.takesUnshared hapart, hlimits⟩
      | chunkMut => exact ⟨hw.takesUnshared hapart, hlimits⟩
      | advanceMut written => exact hlimits
      | flush | remainingMut => trivial
    have hkept : wp (runOn op.step) (fun _ s' ↦ Apart s'.2 s'.1.cord.root R) (w, h) :=
      wp_runOn.mpr (hw.wp_step_apart hapart hlimits hgo)
    refine wp_mono (wp_and (hw.wp_step hfits hgo) hkept) ?_
    rintro answer s' ⟨⟨v', hmeans, hw', -⟩, hapart'⟩
    exact ⟨v', hmeans, hw', hapart'⟩
  stop op s v e _ hw hlimits hrefuses := by
    have hfits : op.Fits R s v := by
      cases op with
      | advanceMut written => exact hlimits
      | _ => cases hrefuses
    exact (simulates (R := R)).stop op s v e trivial hw.1 hfits hrefuses

/-- A writer whose cord shares nothing loses and reorders nothing, whatever the calls: the cord and
the buffer always have the bytes that were there and those that were written, in the order of the
calls, and so has the cord in the end. Only taking over more bytes than there was room for panics,
and other cords stay as they are. -/
theorem loses_nothing {c : Cord Rep} {ops : List WriterOp} (hc : c.Owns h Z R)
    (hapart : Apart h c.refs R) (hlimits : Limits c.len c.edgeCount)
    (hadmits : (apart R).Admits ops (new c.handle, h) ⟨c.bytes, none⟩) :
    wp ((apart R).runAll ops) (fun answers s ↦
      (∃ v, (apart R).MeansAll ops (new c.handle, h) ⟨c.bytes, none⟩ answers v) ∧
        held s = c.bytes ++ ops.flatMap WriterOp.written ∧
        wp s.1.intoInner (fun cord h' ↦ ∃ c' : Cord Rep, c'.handle = cord ∧
          c'.New (c.bytes ++ ops.flatMap WriterOp.written) h Z R h') s.2) (new c.handle, h) ∨
      ∃ e, Throws ((apart R).runAll ops) e (new c.handle, h) ∧
        (apart R).Stops ops (new c.handle, h) ⟨c.bytes, none⟩ e := by
  have hlimits' : Limits c.bytes.length c.edgeCount := by rwa [← Cord.len_eq hc.valid]
  obtain ⟨hw, -⟩ := Writes.idle ⟨c, rfl, hc, rfl, le_rfl⟩ hlimits' (.refl h)
  have hstart : Apart h (new c.handle).cord.root R := by
    rw [show (new c.handle).cord = c.handle from rfl, Cord.root_handle]
    exact hapart
  refine (simulates_apart.runAll (fun _ _ ↦ trivial) ⟨hw, hstart⟩ hadmits).imp_left
    fun hrun ↦ wp_mono hrun ?_
  rintro answers ⟨w, h₁⟩ ⟨v, hmeans, hw₁, -⟩
  obtain ⟨-, -, -, -, hheld⟩ := hw₁.exists_cord
  rw [← bytes_of_meansAll (fun _ _ _ _ _ hop ↦ hop) hmeans]
  exact ⟨⟨v, hmeans⟩, hheld, hw₁.wp_intoInner fun c' h' hc' _ ↦ ⟨c', rfl, hc'⟩⟩

/-! ### Writing to a cord from beginning to end -/

/-- Admitted calls do not write more bytes than a cord can have. -/
theorem length_le_of_meansAll {ops : List WriterOp} {s : CordWriter × Heap Node}
    {answers : List WriterAnswer} {v' : Written} (hlen : v.bytes.length ≤ usizeMax)
    (hadmits : (apart R).Admits ops s v) (hmeans : (apart R).MeansAll ops s v answers v') :
    v'.bytes.length ≤ usizeMax := by
  induction ops generalizing s v answers with
  | nil =>
    obtain ⟨-, rfl⟩ := hmeans
    exact hlen
  | cons op ops ih =>
    obtain ⟨hlimits, hnext⟩ := hadmits
    obtain ⟨hgo, _, _, s₁, v₁, -, hrun, hop, hops⟩ := hmeans
    refine ih ?_ (hnext hgo _ _ _ hrun hop) hops
    rw [bytes_of_means hop, List.length_append]
    cases op with
    | putSlice src => exact hlimits.1
    | advanceMut written => exact hlimits
    | chunkMut | flush | remainingMut => exact hlen

/-- Run calls one after the other. -/
def runCalls : List WriterOp → CordWriter → HeapM (CordWriter × List WriterAnswer)
  | [], w => pure (w, [])
  | op :: ops, w => do
    let (w, answer) ← op.step w
    let (w, answers) ← runCalls ops w
    pure (w, answer :: answers)

/-- Make a writer of a cord, run calls, and give the cord back. -/
def writeTo (ops : List WriterOp) (c : Cord Addr) : HeapM (Cord Addr × List WriterAnswer) := do
  let (w, answers) ← runCalls ops (new c)
  let c ← w.intoInner
  pure (c, answers)

theorem wp_runCalls {ops : List WriterOp} {Q : CordWriter × List WriterAnswer → Heap Node → Prop}
    (hQ : wp ((apart R).runAll ops) (fun answers s ↦ Q (s.1, answers) s.2) (w, h)) :
    wp (runCalls ops w) Q h := by
  induction ops generalizing w h Q with
  | nil =>
    rw [Language.runAll, wp_pure] at hQ
    rw [runCalls, wp_pure]
    exact hQ
  | cons op ops ih =>
    rw [Language.runAll, wp_bind] at hQ
    rw [runCalls, wp_bind]
    refine wp_mono (wp_runOn.mp hQ) ?_
    rintro ⟨w', answer⟩ h' hrest
    rw [wp_bind] at hrest
    rw [wp_bind]
    refine ih (wp_mono hrest ?_)
    intro answers s hend
    rw [wp_pure] at hend
    rw [wp_pure]
    exact hend

/-- The cord that is given back has the bytes that were written behind its own. -/
theorem wp_writeTo {c : Cord Rep} {ops : List WriterOp} (hc : c.Owns h Z R)
    (hapart : Apart h c.refs R) (hlimits : Limits c.len c.edgeCount)
    (hadmits : (apart R).Admits ops (new c.handle, h) ⟨c.bytes, none⟩)
    (hgo : ∀ e, ¬(apart R).Stops ops (new c.handle, h) ⟨c.bytes, none⟩ e)
    {Q : Cord Addr × List WriterAnswer → Heap Node → Prop}
    (hQ : ∀ (c' : Cord Rep) answers v h',
      (apart R).MeansAll ops (new c.handle, h) ⟨c.bytes, none⟩ answers v →
      c'.New (c.bytes ++ ops.flatMap WriterOp.written) h Z R h' →
      c'.edgeCount ≤ maxCapacity ^ maxDepth → Q (c'.handle, answers) h') :
    wp (writeTo ops c.handle) Q h := by
  have hlimits' : Limits c.bytes.length c.edgeCount := by rwa [← Cord.len_eq hc.valid]
  obtain ⟨hw, -⟩ := Writes.idle ⟨c, rfl, hc, rfl, le_rfl⟩ hlimits' (.refl h)
  have hstart : Apart h (new c.handle).cord.root R := by
    rw [show (new c.handle).cord = c.handle from rfl, Cord.root_handle]
    exact hapart
  rw [writeTo, wp_bind]
  rcases simulates_apart.runAll (fun _ _ ↦ trivial) ⟨hw, hstart⟩ hadmits with hrun | ⟨e, -, hstops⟩
  · refine wp_runCalls (wp_mono hrun ?_)
    rintro answers ⟨w, h₁⟩ ⟨v, hmeans, hw₁, -⟩
    rw [wp_bind]
    refine hw₁.wp_intoInner fun c' h' hnew hedges ↦ (wp_pure _ _ _).mpr ?_
    rw [bytes_of_meansAll (fun _ _ _ _ _ hop ↦ hop) hmeans] at hnew
    exact hQ c' answers v h' hmeans hnew (hedges.trans hw₁.limits.2)
  · exact absurd hstops (hgo e)

/-! ### Beside a flat of another cord -/

/-- A cord with a byte in each of two flats, beside a flat of another cord. -/
def besideOther : Heap Node where
  cells := [some ⟨1, .payload (.flat 6 [9])⟩, some ⟨1, .payload (.flat 6 [1])⟩,
    some ⟨1, .payload (.flat 6 [2])⟩, some ⟨1, .btree ⟨2, 0, 0, [1, 2]⟩⟩]

/-- The tree of the two flats. -/
def flatPair : Rep :=
  .node ⟨3, 2, 0, 0⟩ [.leaf (.whole 1 (.flat 6 [1])), .leaf (.whole 2 (.flat 6 [2]))]

omit [Target] in
/-- The other cord holds the first flat. -/
theorem owns_besideOther :
    letI : Target := ⟨64, .inr rfl⟩
    (Cord.tree flatPair).Owns besideOther [] {0} := by
  let _ : Target := ⟨64, .inr rfl⟩
  refine Cord.owns_tree (k := 1) ⟨?_, ?_, ?_, by decide⟩
  · refine Owned.of_lt_size (by decide) (by decide) (by decide +kernel) fun x n hn ↦ ?_
    obtain _ | _ | _ | _ | x := x
    · obtain rfl := Option.some.inj hn
      exact ⟨[], rfl, ⟨by decide, by decide, by decide, by decide⟩, rfl⟩
    · obtain rfl := Option.some.inj hn
      exact ⟨[], rfl, ⟨by decide, by decide, by decide, by decide⟩, rfl⟩
    · obtain rfl := Option.some.inj hn
      exact ⟨[], rfl, ⟨by decide, by decide, by decide, by decide⟩, rfl⟩
    · obtain rfl := Option.some.inj hn
      exact ⟨[_, _], rfl, ⟨by decide, by decide, by decide, by decide⟩, rfl⟩
    · cases hn
  · refine Rep.held_node.mpr ⟨rfl, fun t ht ↦ ?_⟩
    rcases List.mem_pair.mp ht with rfl | rfl <;> exact Rep.held_leaf.mpr ⟨rfl, rfl⟩
  · refine Rep.Valid.node_iff.mpr ⟨rfl, by decide, by decide, rfl, fun t ht ↦ ?_⟩
    rcases List.mem_pair.mp ht with rfl | rfl <;>
      exact Rep.Valid.leaf_iff.mpr ⟨rfl, by decide, by decide, by decide, by decide⟩

/-- Nothing but the flat is reached from the other cord. -/
private theorem reach_other {a : Addr} (ha : Reach besideOther {0} a) : a = 0 := by
  induction ha with
  | root ha => exact Multiset.mem_singleton.mp ha
  | child _ hn hc ih =>
    subst ih
    obtain rfl := Option.some.inj hn
    cases hc

/-- The flat is not part of the cord. -/
private theorem reach_pair {a : Addr} (ha : Reach besideOther {3} a) : a ≠ 0 := by
  induction ha with
  | root ha => rw [Multiset.mem_singleton.mp ha]; decide
  | @child b c n _ hn hc ih =>
    obtain _ | _ | _ | _ | b := b
    · exact absurd rfl ih
    · obtain rfl := Option.some.inj hn
      cases hc
    · obtain rfl := Option.some.inj hn
      cases hc
    · obtain rfl := Option.some.inj hn
      rcases List.mem_pair.mp hc with rfl | rfl <;> decide
    · cases hn

omit [Target] in
/-- The second flat goes into the buffer and comes back with the byte that was written. -/
theorem loses_nothing_besideOther :
    letI : Target := ⟨64, .inr rfl⟩
    wp ((apart {0}).runAll [.putSlice [3], .remainingMut, .flush]) (fun _ s ↦ held s = [1, 2, 3] ∧
      wp s.1.intoInner (fun cord _ ↦ ∃ c : Cord Rep, c.handle = cord ∧ c.bytes = [1, 2, 3]) s.2)
      (new (.tree 3), besideOther) := by
  let _ : Target := ⟨64, .inr rfl⟩
  have hc := owns_besideOther
  have hseen : (Cord.tree 3).seen besideOther = .tree flatPair := Cord.seen_handle hc.held hc.valid
  have hapart : Apart besideOther (Cord.tree flatPair).refs {0} := fun a ha hother ↦
    reach_pair ha (reach_other hother)
  have hmax : 5 ≤ usizeMax := by
    rw [usizeMax]
    decide
  have hdepth : 5 ≤ maxCapacity ^ maxDepth := by decide
  have hlimits : Limits (Cord.tree flatPair).len (Cord.tree flatPair).edgeCount :=
    ⟨(by decide : 2 ≤ 5).trans hmax, (by decide : 2 ≤ 5).trans hdepth⟩
  have hadmits : (apart {0}).Admits [.putSlice [3], .remainingMut, .flush]
      (new (.tree 3), besideOther) ⟨(Cord.tree flatPair).bytes, none⟩ := by
    refine ⟨?_, fun _ _ _ _ _ _ ↦ ⟨trivial, fun _ _ _ _ _ _ ↦ ⟨trivial, fun _ _ _ _ _ _ ↦ trivial⟩⟩⟩
    have hcount : edgeCount (new (.tree 3), besideOther) = 2 := by
      rw [edgeCount, show (new (.tree 3)).cord = .tree 3 from rfl, hseen]
      rfl
    have hflats : flatsFor 1 ≤ 1 := flatsFor_le 1
    refine ⟨(by decide : 3 ≤ 5).trans hmax, ?_⟩
    rw [hcount]
    exact (Nat.add_le_add_left hflats 3).trans ((by decide : 4 ≤ 5).trans hdepth)
  rcases loses_nothing hc hapart hlimits hadmits with hrun | ⟨e, -, hstops⟩
  · refine wp_mono hrun ?_
    rintro _ s ⟨-, hheld, hinner⟩
    refine ⟨hheld, wp_mono hinner ?_⟩
    rintro _ _ ⟨c, hhandle, hc⟩
    exact ⟨c, hhandle, hc.bytes⟩
  · have hgo : none ≠ some e := (Option.some_ne_none e).symm
    obtain ⟨-, _, _, _, -, -, hstops⟩ := hstops.resolve_left hgo
    obtain ⟨-, _, _, _, -, -, hstops⟩ := hstops.resolve_left hgo
    obtain ⟨-, _, _, _, -, -, hstops⟩ := hstops.resolve_left hgo
    exact hstops.elim

end CordWriter

end CordRs
