import CordRs.Btree.ExtractBuffer
import CordRs.Cord.BlockSize

/-!
# Taking the end of a cord to write to

A cord hands out a buffer to append to: its inline bytes, moved to a buffer, the last flat of its
tree if that can be taken out, or a new buffer without bytes.

What is left of a tree may begin with nodes that have a single edge, and these are given up without
asking whether they are shared. Other cords are left alone if and only if none of them is.

## Main definitions

* `CordRs.Cord.takeAppendBuffer`, `CordRs.Cord.takeAppendBufferWith`.
* `CordRs.Cord.handedOut`: the bytes and the capacity of the buffer that is handed out.
* `CordRs.Cord.KeepsShared`: no node that is given up at the top of what is left is shared.
* `CordRs.Cord.Taken`: what a caller is promised.

## Main results

* `CordRs.Cord.wp_takeAppendBufferWith`: the bytes that are left and those of the buffer.
* `CordRs.Cord.take_append_buffer_keeps_shared`: the promise is kept if and only if nothing shared
  is given up.
-/

namespace CordRs

open RefHeap

namespace Cord

section Target

variable [Target]

/-- A cord with a tree, or without bytes. -/
def setTreeOrEmpty : Option Addr → Cord Addr
  | some rep => .tree rep
  | none => .inline .new

/-- Take the last flat out of a tree if nothing else refers to it or to a node on the way to it and
it has room for `minCapacity` more bytes. -/
def extractAppendBuffer (rep : Addr) (minCapacity : ℕ) : HeapM ExtractResult := do
  let node ← read rep
  if node.isBtree then
    CordRs.extractAppendBuffer rep minCapacity
  else
    let unique ← refIsOne rep
    match unique, node with
    | true, .payload (.flat tag data) =>
      if minCapacity ≤ tagToLength tag - data.length then
        pure ⟨none, some rep⟩
      else
        pure ⟨some rep, none⟩
    | _, _ => pure ⟨some rep, none⟩

/-- A new buffer, with a block size unless that is zero. -/
def newAppendBuffer (blockSize capacity : ℕ) : HeapM CordBuffer :=
  if blockSize ≠ 0 then
    CordBuffer.withCapacityAndBlockSize capacity blockSize
  else
    CordBuffer.withCapacity capacity

/-- Take a buffer from the end of a cord that has bytes. -/
def takeAppendBufferSlowPath (c : Cord Addr) (blockSize capacity minCapacity : ℕ) :
    HeapM (Cord Addr × CordBuffer) := do
  match c with
  | .tree rep =>
    let result ← extractAppendBuffer rep minCapacity
    match result.extracted with
    | some extracted => pure (setTreeOrEmpty result.tree, .long extracted)
    | none =>
      let buffer ← newAppendBuffer blockSize capacity
      pure (setTreeOrEmpty result.tree, buffer)
  | .inline d =>
    let size := d.size
    let maxCapacity := usizeMax - size
    let capacity := min capacity maxCapacity + size
    let buffer ← newAppendBuffer blockSize capacity
    let buffer ← buffer.putSlice d.inlineSlice
    pure (.inline .new, buffer)

/-- Take a buffer to append to, with room for `minCapacity` more bytes if it has bytes of a tree. -/
def takeAppendBufferWith (c : Cord Addr) (blockSize capacity minCapacity : ℕ) :
    HeapM (Cord Addr × CordBuffer) := do
  let len ← c.loadLen
  if len = 0 then
    let buffer ← newAppendBuffer blockSize capacity
    pure (c, buffer)
  else
    c.takeAppendBufferSlowPath blockSize capacity minCapacity

/-- Take a buffer to append to. -/
def takeAppendBuffer (c : Cord Addr) (capacity : ℕ) : HeapM (Cord Addr × CordBuffer) := do
  let len ← c.loadLen
  if len = 0 then
    let buffer ← CordBuffer.withCapacity capacity
    pure (c, buffer)
  else
    c.takeAppendBufferSlowPath 0 capacity 16

end Target

variable [Target] {h h' : Heap Node} {Z : List Addr} {R : Multiset Addr} {c : Cord Rep}
  {blockSize capacity minCapacity : ℕ}

/-- Whether the last flat of a cord can be taken out. -/
def Extractable (h : Heap Node) (minCapacity : ℕ) : Cord Rep → Prop
  | .inline _ => False
  | .tree t => t.Extractable h minCapacity

instance (h : Heap Node) (minCapacity : ℕ) : (c : Cord Rep) → Decidable (c.Extractable h minCapacity)
  | .inline _ => inferInstanceAs (Decidable False)
  | .tree _ => inferInstanceAs (Decidable (Rep.Extractable ..))

/-- The capacity of a new buffer, with a block size unless that is zero. -/
def newCapacity (blockSize capacity : ℕ) : ℕ :=
  if blockSize = 0 then CordBuffer.capacityOf capacity
  else CordBuffer.blockCapacity capacity blockSize

/-- The bytes of the buffer that a cord hands out, and the capacity of the buffer. -/
def handedOut (h : Heap Node) (blockSize capacity minCapacity : ℕ) : Cord Rep → Bytes × ℕ
  | .inline d =>
    if d.size = 0 then ([], newCapacity blockSize capacity)
    else (d.inlineSlice, newCapacity blockSize (min capacity (usizeMax - d.size) + d.size))
  | .tree t =>
    if t.Extractable h minCapacity then
      match t.leaves.getLast? with
      | some (.whole _ (.flat tag data)) => (data, tagToLength tag)
      | _ => ([], 0)
    else ([], newCapacity blockSize capacity)

/-- A block size that buffers can be made with. -/
def LegalBlockSize (blockSize : ℕ) : Prop :=
  blockSize = 0 ∨ blockSize.isPowerOfTwo ∧ flatOverhead < blockSize

/-- If the last flat is taken out, no node with a single edge at the top of the rest is shared. -/
def KeepsShared (h : Heap Node) (minCapacity : ℕ) : Cord Rep → Prop
  | .inline _ => True
  | .tree t => t.Extractable h minCapacity → ∀ t' ∈ t.remains, ∀ a ∈ t'.chain, h.rc a = 1

/-- The buffer has the given bytes and capacity, the rest of the cord has the bytes before them, the
counts are exact, others see no change, and a cord from which nothing was taken is as it was. -/
structure Taken (h : Heap Node) (Z : List Addr) (R : Multiset Addr) (c c' : Cord Rep)
    (b : CordBuffer) (given : Bytes × ℕ) (h' : Heap Node) : Prop where
  owns : Owns h' (b.cells ++ Z) R c'
  holds : b.Holds h' given.1 given.2
  bytes : c'.bytes ++ given.1 = c.bytes
  kept : given.1 = [] → c' = c ∧ Frame Z (c.refs + R) h h'
  frame : Frame Z R h h'

/-- A new buffer has room for what a cord stores inline. -/
theorem maxInline_le_newCapacity (hblock : LegalBlockSize blockSize) :
    maxInline ≤ newCapacity blockSize capacity ∧
      (maxInline < capacity → maxInline < newCapacity blockSize capacity) := by
  have hmin := minFlatLength_pos
  rw [newCapacity]
  rcases hblock with rfl | ⟨hpow, hover⟩
  · have hmax := minFlatLength_le_maxFlatLength
    have hcap := CordBuffer.le_capacityOf capacity
    have hinline := CordBuffer.maxInline_le_capacityOf capacity
    rw [if_pos rfl]
    exact ⟨hinline, fun hlt ↦ by omega⟩
  · have hle := @CordBuffer.minFlatLength_le_blockCapacity _ capacity _ hpow hover
    rw [if_neg (by omega)]
    exact ⟨by omega, fun _ ↦ by omega⟩

/-- A new buffer is empty. -/
theorem wp_newAppendBuffer (ho : Owned h Z R) (hblock : LegalBlockSize blockSize)
    {Q : CordBuffer → Heap Node → Prop}
    (hQ : ∀ b h', b.Holds h' [] (newCapacity blockSize capacity) → Owned h' (b.cells ++ Z) R →
      Grows h h' → Q b h') :
    wp (newAppendBuffer blockSize capacity) Q h := by
  rw [newAppendBuffer]
  rw [newCapacity] at hQ
  rcases hblock with rfl | ⟨hpow, hover⟩
  · rw [if_neg (not_not.mpr rfl)]
    rw [if_pos rfl] at hQ
    exact CordBuffer.wp_withCapacity ho hQ
  · have hne : blockSize ≠ 0 := by omega
    rw [if_pos hne]
    rw [if_neg hne] at hQ
    exact CordBuffer.wp_withCapacityAndBlockSize hpow hover ho hQ

/-- A cord from which nothing was taken. -/
theorem Taken.keep {b : CordBuffer} {cap : ℕ} (hc : Owns h Z R c) (hb : b.Holds h' [] cap)
    (ho : Owned h' (b.cells ++ Z) (c.refs + R)) (hg : Grows h h') :
    Taken h Z R c c b ([], cap) h' where
  owns := ⟨ho, fun t ht ↦ (hc.held t ht).grows hg, hc.valid⟩
  holds := hb
  bytes := List.append_nil _
  kept _ := ⟨rfl, hc.owned.frame_of_grows hg⟩
  frame := (hc.owned.frame_of_grows hg).mono (List.Subset.refl _) (Multiset.le_add_left _ _)

/-- The last flat of a tree as a buffer. -/
theorem holds_of_edge {a : Addr} {tag : ℕ} {data : Bytes}
    (he : (Edge.whole a (.flat tag data)).Held h) (hv : (Edge.whole a (.flat tag data)).Valid)
    (ha : h'.node? a = h.node? a) :
    (CordBuffer.long a).Holds h' data (tagToLength tag) := by
  obtain ⟨hlo, hhi, -, hle⟩ := hv
  exact ⟨hle, tag, ha.trans he.1, hlo, hhi, rfl⟩

/-- What is left of a tree without its last flat, and the flat. -/
theorem Taken.of_remains {t t' : Rep} {a : Addr} {tag j : ℕ} {data : Bytes}
    (he : (Edge.whole a (.flat tag data)).Held h) (hv : (Edge.whole a (.flat tag data)).Valid)
    (hbytes : t.bytes = t'.bytes ++ data) (hvj : t'.collapsed.Valid j) (hj : j ≤ maxDepth)
    (hr : Remains h Z R a t' h') :
    Taken h Z R (.tree t) (.tree t'.collapsed) (.long a) (data, tagToLength tag) h' where
  owns := owns_tree ⟨hr.owned, hr.held, hvj, hj⟩
  holds := holds_of_edge he hv hr.flat
  bytes := by
    change t'.collapsed.bytes ++ data = t.bytes
    rw [hbytes, Rep.bytes, Rep.leaves_collapsed]
    rfl
  kept hnil := absurd hnil hv.data_ne_nil
  frame := hr.frame

/-- A flat that was all of a tree. -/
theorem Taken.of_all {t : Rep} {a : Addr} {tag : ℕ} {data : Bytes}
    (he : (Edge.whole a (.flat tag data)).Held h) (hv : (Edge.whole a (.flat tag data)).Valid)
    (hbytes : t.bytes = data) (ho : Owned h' (a :: Z) R) (ha : h'.node? a = h.node? a)
    (hf : Frame Z R h h') :
    Taken h Z R (.tree t) (.inline .new) (.long a) (data, tagToLength tag) h' where
  owns := owns_inline ho (InlineData.new_eq ▸ InlineData.wellFormed_ofBytes (Nat.zero_le _))
  holds := holds_of_edge he hv ha
  bytes := hbytes.symm
  kept hnil := absurd hnil hv.data_ne_nil
  frame := hf

/-- The last flat of a tree is what is handed out if it can be taken out. -/
theorem handedOut_of_extractable {t : Rep} {a : Addr} {tag : ℕ} {data : Bytes}
    (hext : t.Extractable h minCapacity)
    (hlast : t.leaves.getLast? = some (.whole a (.flat tag data))) :
    handedOut h blockSize capacity minCapacity (.tree t) = (data, tagToLength tag) := by
  rw [handedOut, if_pos hext, hlast]

/-- Taking the last flat out of any tree. -/
theorem wp_extractAppendBuffer {t : Rep} (hc : Owns h Z R (.tree t))
    {Q : ExtractResult → Heap Node → Prop}
    (hkeep : ¬t.Extractable h minCapacity → Q ⟨some t.addr, none⟩ h)
    (htake : KeepsShared h minCapacity (.tree t) → ∀ (c' : Cord Rep) r a tag data h',
      t.Extractable h minCapacity → t.leaves.getLast? = some (.whole a (.flat tag data)) →
      setTreeOrEmpty r = c'.handle → c'.edgeCount ≤ edgeCount (.tree t) →
      Taken h Z R (.tree t) c' (.long a) (data, tagToLength tag) h' → Q ⟨r, some a⟩ h')
    (hbad : ¬KeepsShared h minCapacity (.tree t) → ∀ r a x h', Reach h R x → h'.node? x = none →
      Q ⟨r, some a⟩ h') :
    wp (extractAppendBuffer t.addr minCapacity) Q h := by
  obtain ⟨k, ht⟩ := hc.holding
  rw [extractAppendBuffer, wp_bind]
  refine wp_read ht.held.node? ?_
  have hvalid := ht.valid
  cases t with
  | node hd es =>
    obtain ⟨rfl, -⟩ := Rep.Valid.node_iff.mp hvalid
    rw [if_pos (show (Rep.root (.node hd es)).isBtree = true from rfl)]
    refine CordRs.wp_extractAppendBuffer ht hkeep ?_ ?_
    · intro a tag data h' hext hlast he hv hnone hbytes ho' ha hf
      refine htake (fun _ t' hsome ↦ ?_) (.inline .new) none a tag data h' hext hlast rfl
        (Nat.zero_le _) (.of_all he hv hbytes ho' ha hf)
      rw [hnone] at hsome
      cases hsome
    · intro a tag data t' j h' hext hlast he hv hsome hbytes hvj hj hgood hbad'
      by_cases hchain : ∀ x ∈ t'.chain, h.rc x = 1
      · have hedges := Rep.length_leaves_removeLast hsome
        rw [← Rep.leaves_collapsed] at hedges
        refine htake (fun _ s hs ↦ ?_) (.tree t'.collapsed) _ a tag data h' hext hlast rfl
          (by simpa only [edgeCount, chunks, List.length_map] using hedges)
          (.of_remains he hv hbytes hvj hj (hgood hchain))
        rw [hsome] at hs
        cases hs
        exact hchain
      · push Not at hchain
        obtain ⟨x, -, hr, hx⟩ := hbad' hchain
        obtain ⟨y, hy, hne⟩ := hchain
        exact hbad (fun hkeeps ↦ hne (hkeeps hext t' hsome y hy)) _ a x h' hr hx
  | leaf e =>
    obtain ⟨-, hv⟩ := Rep.Valid.leaf_iff.mp hvalid
    have he := Rep.held_leaf.mp ht.held
    have hiff := Rep.extractable_plug h minCapacity [] e
    rw [if_neg (show ¬(Rep.root (.leaf e)).isBtree = true by cases e <;> simp [Rep.root, Edge.node,
      Node.isBtree]), wp_bind]
    refine wp_refIsOne ht.held.node? ?_
    by_cases hone : h.rc (Rep.addr (.leaf e)) = 1
    · rw [decide_eq_true hone]
      have hrefuse : e.extractable minCapacity = false → Q ⟨some e.addr, none⟩ h := fun hfalse ↦
        hkeep fun hext ↦ by simpa [hfalse] using (hiff.mp hext).2
      cases e with
      | part a length start child p => exact (wp_pure _ _ _).mpr (hrefuse rfl)
      | whole a p =>
        cases p with
        | external data allocation => exact (wp_pure _ _ _).mpr (hrefuse rfl)
        | flat tag data =>
          change wp (if minCapacity ≤ tagToLength tag - data.length then pure _ else pure _) Q h
          by_cases hroom : minCapacity ≤ tagToLength tag - data.length
          · rw [if_pos hroom, wp_pure]
            refine htake (fun _ t' hsome ↦ ?_) (.inline .new) none a tag data h
              (hiff.mpr ⟨⟨hone, by simp⟩, decide_eq_true hroom⟩) (by simp) rfl (Nat.zero_le _)
              (.of_all he hv ?_ ?_ rfl (.refl h))
            · rw [Rep.remains, Rep.removeLast] at hsome
              cases hsome
            · simp [Edge.data, Payload.data]
            · exact (ht.owned.openCell he.1 hone).congr (zero_add R)
          · rw [if_neg hroom, wp_pure]
            exact hrefuse (decide_eq_false hroom)
    · rw [decide_eq_false hone]
      exact (wp_pure _ _ _).mpr (hkeep fun hext ↦ hone (hiff.mp hext).1.1)

/-- A cord of which others reach nothing gives up nothing that is shared. -/
theorem keepsShared_of_apart (hc : Owns h Z R c) (hapart : ∀ a, Reach h c.refs a → ¬Reach h R a) :
    c.KeepsShared h minCapacity := by
  cases c with
  | inline d => trivial
  | tree t =>
    intro hext t' hsome
    obtain ⟨k, ht⟩ := hc.holding
    have hvalid := ht.valid
    cases t with
    | leaf e =>
      rw [Rep.remains, Rep.removeLast] at hsome
      cases hsome
    | node hd es =>
      obtain ⟨rfl, -⟩ := Rep.Valid.node_iff.mp hvalid
      -- When a shared node is given up, the run shows one that others reach.
      have hrun : wp (CordRs.extractAppendBuffer (Rep.addr (.node hd es)) minCapacity)
          (fun _ _ ↦ ∀ a ∈ t'.chain, h.rc a = 1) h := by
        refine CordRs.wp_extractAppendBuffer ht (absurd hext) ?_ ?_
        · intro a tag data h' _ _ _ _ hnone
          rw [hnone] at hsome
          cases hsome
        · intro a tag data t₁ j h' _ _ _ _ hsome₁ _ _ _ _ hbad
          rw [hsome] at hsome₁
          cases hsome₁
          by_contra hshared
          push Not at hshared
          obtain ⟨x, hmem, hx, -⟩ := hbad hshared
          exact hapart x (ht.held.reach_remains hsome x hmem) hx
      obtain ⟨-, -, -, hone⟩ := hrun
      exact hone

/-- Taking the end of a cord. Others lose a node only if a shared one is given up. -/
theorem wp_takeAppendBufferWith (hc : Owns h Z R c)
    (hblock : ¬c.Extractable h minCapacity → LegalBlockSize blockSize)
    {Q : Cord Addr × CordBuffer → Heap Node → Prop}
    (htake : c.KeepsShared h minCapacity → ∀ (c' : Cord Rep) b h', c'.edgeCount ≤ c.edgeCount →
      Taken h Z R c c' b (c.handedOut h blockSize capacity minCapacity) h' → Q (c'.handle, b) h')
    (hbad : ¬c.KeepsShared h minCapacity → ∀ r x h', Reach h R x → h'.node? x = none → Q r h') :
    wp (takeAppendBufferWith c.handle blockSize capacity minCapacity) Q h := by
  rw [takeAppendBufferWith, wp_bind]
  refine wp_loadLen hc.held ?_
  cases c with
  | inline d =>
    rw [handedOut] at htake
    by_cases hd : d.size = 0
    · rw [if_pos hd] at htake
      rw [if_pos (show len (.inline d) = 0 from hd), wp_bind]
      refine wp_newAppendBuffer hc.owned (hblock id) fun b h' hb ho' hg ↦ ?_
      exact (wp_pure _ _ _).mpr (htake trivial _ b h' le_rfl (.keep hc hb ho' hg))
    · have hlen := InlineData.WellFormed.length_inlineSlice hc.valid
      have hle := InlineData.WellFormed.length_le hc.valid
      have hcap := (@maxInline_le_newCapacity _ _ (min capacity (usizeMax - d.size) + d.size)
        (hblock id)).1
      rw [if_neg hd] at htake
      rw [if_neg (show ¬len (.inline d) = 0 from hd), handle, takeAppendBufferSlowPath, wp_bind]
      refine wp_newAppendBuffer hc.inline (hblock id) fun b h₁ hb ho₁ hg ↦ ?_
      rw [wp_bind]
      refine CordBuffer.wp_putSlice hb ho₁ (by simp only [List.length_nil]; omega)
        fun b' h₂ hb' ho₂ hf ↦ ?_
      rw [wp_pure]
      refine htake trivial (.inline .new) b' h₂ (Nat.zero_le _) ⟨?_, hb', ?_, fun hnil ↦ ?_, ?_⟩
      · exact owns_inline ho₂ (InlineData.new_eq ▸ InlineData.wellFormed_ofBytes (Nat.zero_le _))
      · simp [bytes, source, Source.bytes, InlineData.new_eq]
      · rw [← List.length_eq_zero_iff, hlen] at hnil
        exact absurd hnil hd
      · exact (hc.inline.frame_of_grows hg).trans hf
  | tree t =>
    obtain ⟨k, ht⟩ := hc.holding
    have hpos := ht.valid.length_pos
    rw [if_neg (show ¬len (.tree t) = 0 from hpos.ne'), handle, takeAppendBufferSlowPath, wp_bind]
    refine wp_extractAppendBuffer hc (fun hext ↦ ?_) (fun hkeeps c' r a tag data h' hext hlast hr hedges
      htaken ↦ ?_) fun hkeeps r a x h' hx hnone ↦ ?_
    · rw [handedOut, if_neg hext] at htake
      rw [wp_bind]
      refine wp_newAppendBuffer hc.owned (hblock hext) fun b h' hb ho' hg ↦ ?_
      exact (wp_pure _ _ _).mpr
        (htake (fun h ↦ absurd h hext) _ b h' le_rfl (.keep hc hb ho' hg))
    · rw [handedOut_of_extractable hext hlast] at htake
      rw [wp_pure, hr]
      exact htake hkeeps c' _ h' hedges htaken
    · rw [wp_pure]
      exact hbad hkeeps _ x h' hx hnone

/-- A flat that is taken out has the room that is asked for, and a new buffer has room for the bytes
asked for beside those moved to it, unless this is more than a flat takes. -/
theorem room_handedOut (c : Cord Rep) (hvalid : c.Valid) :
    (c.Extractable h minCapacity → minCapacity ≤
      (c.handedOut h blockSize capacity minCapacity).2 -
        (c.handedOut h blockSize capacity minCapacity).1.length) ∧
    (¬c.Extractable h minCapacity → blockSize = 0 →
      min (capacity + (c.handedOut h blockSize capacity minCapacity).1.length) maxFlatLength ≤
        (c.handedOut h blockSize capacity minCapacity).2) := by
  have hmax : maxFlatLength < usizeMax :=
    (Nat.sub_le _ _).trans_lt ((by decide : maxFlatSize < 2 ^ 32 - 1).trans_le le_usizeMax)
  cases c with
  | inline d =>
    refine ⟨False.elim, ?_⟩
    rintro - rfl
    have hlen := InlineData.WellFormed.length_inlineSlice hvalid
    have hle := InlineData.WellFormed.length_le hvalid
    rw [handedOut]
    split_ifs with hd
    · exact CordBuffer.le_capacityOf capacity
    · have := CordBuffer.le_capacityOf (min capacity (usizeMax - d.size) + d.size)
      simp only [newCapacity, if_pos]
      omega
  | tree t =>
    refine ⟨fun hext ↦ ?_, ?_⟩
    · obtain ⟨a, tag, data, hlast, hroom⟩ := Rep.Extractable.exists_last hext
      rw [handedOut_of_extractable hext hlast]
      exact hroom
    · rintro hext rfl
      rw [handedOut, if_neg (show ¬t.Extractable h minCapacity from hext)]
      exact CordBuffer.le_capacityOf capacity

/-- A new buffer gets few bytes. -/
theorem length_handedOut_le (c : Cord Rep) (hvalid : c.Valid) (hext : ¬c.Extractable h minCapacity) :
    (c.handedOut h blockSize capacity minCapacity).1.length ≤ maxInline := by
  cases c with
  | inline d =>
    rw [handedOut]
    split_ifs
    · exact Nat.zero_le _
    · exact InlineData.WellFormed.length_le hvalid
  | tree t =>
    rw [handedOut, if_neg (show ¬t.Extractable h minCapacity from hext)]
    exact Nat.zero_le _

theorem takeAppendBuffer_eq (c : Cord Addr) (capacity : ℕ) :
    takeAppendBuffer c capacity = takeAppendBufferWith c 0 capacity 16 := by
  rw [takeAppendBuffer, takeAppendBufferWith, newAppendBuffer, if_neg (not_not.mpr rfl)]

/-- Taking the end of a cord to write to hands out the last flat if that can be taken out, the
inline bytes or none, and keeps the bytes, the counts and whatever other cords refer to if and only
if no node that is given up at the top of what is left is shared. Otherwise a node that another cord
refers to is gone. -/
theorem take_append_buffer_keeps_shared (hc : Owns h Z R c)
    (hblock : ¬c.Extractable h minCapacity → LegalBlockSize blockSize) :
    (wp (takeAppendBufferWith c.handle blockSize capacity minCapacity)
      (fun r h' ↦ ∃ c' : Cord Rep, r.1 = c'.handle ∧
        Taken h Z R c c' r.2 (c.handedOut h blockSize capacity minCapacity) h') h ↔
      c.KeepsShared h minCapacity) ∧
    (¬c.KeepsShared h minCapacity →
      wp (takeAppendBufferWith c.handle blockSize capacity minCapacity)
        (fun _ h' ↦ ∃ x, Reach h R x ∧ h'.node? x = none) h) ∧
    (c.Extractable h minCapacity → minCapacity ≤
      (c.handedOut h blockSize capacity minCapacity).2 -
        (c.handedOut h blockSize capacity minCapacity).1.length) ∧
    (¬c.Extractable h minCapacity → blockSize = 0 →
      min (capacity + (c.handedOut h blockSize capacity minCapacity).1.length) maxFlatLength ≤
        (c.handedOut h blockSize capacity minCapacity).2) := by
  have hlost : ¬c.KeepsShared h minCapacity →
      wp (takeAppendBufferWith c.handle blockSize capacity minCapacity)
        (fun _ h' ↦ ∃ x, Reach h R x ∧ h'.node? x = none) h := fun hkeeps ↦
    wp_takeAppendBufferWith hc hblock (fun h ↦ absurd h hkeeps)
      fun _ r x h' hx hnone ↦ ⟨x, hx, hnone⟩
  refine ⟨⟨fun hrun ↦ ?_, fun hkeeps ↦ ?_⟩, hlost, room_handedOut c hc.valid⟩
  · by_contra hkeeps
    obtain ⟨r, h', -, ⟨c', -, htaken⟩, x, hx, hnone⟩ := wp_and hrun (hlost hkeeps)
    obtain ⟨-, n, hn⟩ := hc.owned.of_reach (hx.mono (Multiset.le_add_left _ _))
    rw [htaken.frame.kept x hx, hn] at hnone
    cases hnone
  · exact wp_takeAppendBufferWith hc hblock (fun _ c' b h' _ htaken ↦ ⟨c', rfl, htaken⟩)
      fun h ↦ absurd hkeeps h

end Cord

/-! ### A shared node beside the last flat -/

/-- Two flats below a node each, the first of which another cord shares. -/
def sharedSibling : Heap Node where
  cells := [some ⟨1, .payload (.flat 6 [1, 2])⟩, some ⟨1, .payload (.flat 6 [3])⟩,
    some ⟨2, .btree ⟨2, 0, 0, [0]⟩⟩, some ⟨1, .btree ⟨1, 0, 0, [1]⟩⟩,
    some ⟨1, .btree ⟨3, 1, 0, [2, 3]⟩⟩]

/-- The tree of the two nodes. -/
def siblingTree : Rep :=
  .node ⟨4, 3, 1, 0⟩ [.node ⟨2, 2, 0, 0⟩ [.leaf (.whole 0 (.flat 6 [1, 2]))],
    .node ⟨3, 1, 0, 0⟩ [.leaf (.whole 1 (.flat 6 [3]))]]

theorem holding_sharedSibling :
    let _ : Target := ⟨64, .inr rfl⟩
    Holding sharedSibling [] {2} 2 siblingTree := by
  let _ : Target := ⟨64, .inr rfl⟩
  refine ⟨?_, ?_, ?_, by decide⟩
  · refine Owned.of_lt_size (by decide) (by decide) (by decide +kernel) fun x n hn ↦ ?_
    obtain _ | _ | _ | _ | _ | x := x
    · obtain rfl := Option.some.inj hn
      exact ⟨[], rfl, ⟨by decide, by decide, by decide, by decide⟩, rfl⟩
    · obtain rfl := Option.some.inj hn
      exact ⟨[], rfl, ⟨by decide, by decide, by decide, by decide⟩, rfl⟩
    · obtain rfl := Option.some.inj hn
      exact ⟨[_], rfl, ⟨by decide, by decide, by decide, by decide⟩, rfl⟩
    · obtain rfl := Option.some.inj hn
      exact ⟨[_], rfl, ⟨by decide, by decide, by decide, by decide⟩, rfl⟩
    · obtain rfl := Option.some.inj hn
      exact ⟨[_, _], rfl, ⟨by decide, by decide, by decide, by decide⟩, rfl⟩
    · cases hn
  · refine Rep.held_node.mpr ⟨rfl, fun t ht ↦ ?_⟩
    rcases List.mem_pair.mp ht with rfl | rfl <;>
      refine Rep.held_node.mpr ⟨rfl, fun t ht ↦ ?_⟩ <;>
      obtain rfl := List.mem_singleton.mp ht <;>
      exact Rep.held_leaf.mpr ⟨rfl, rfl⟩
  · refine Rep.Valid.node_iff.mpr ⟨rfl, by decide, by decide, rfl, fun t ht ↦ ?_⟩
    rcases List.mem_pair.mp ht with rfl | rfl <;>
      refine Rep.Valid.node_iff.mpr ⟨rfl, by decide, by decide, rfl, fun t ht ↦ ?_⟩ <;>
      obtain rfl := List.mem_singleton.mp ht <;>
      exact Rep.Valid.leaf_iff.mpr ⟨rfl, by decide, by decide, by decide, by decide⟩

/-- The node that another cord shares is given up when the last flat is taken out. -/
theorem Cord.take_append_buffer_keeps_shared_sibling :
    letI : Target := ⟨64, .inr rfl⟩
    wp (takeAppendBufferWith (.tree 4) 0 16 1)
        (fun _ h' ↦ ∃ x, Reach sharedSibling {2} x ∧ h'.node? x = none) sharedSibling ∧
      ¬wp (takeAppendBufferWith (.tree 4) 0 16 1) (fun r h' ↦ ∃ c' : Cord Rep,
        r.1 = c'.handle ∧ Taken sharedSibling [] {2} (.tree siblingTree) c' r.2
          (handedOut sharedSibling 0 16 1 (.tree siblingTree)) h') sharedSibling := by
  let _ : Target := ⟨64, .inr rfl⟩
  have hc : Owns sharedSibling [] {2} (.tree siblingTree) := owns_tree holding_sharedSibling
  obtain ⟨hiff, hlost, -⟩ := @take_append_buffer_keeps_shared _ _ _ _ _ 0 16 1 hc fun _ ↦ .inl rfl
  have hshared : ¬KeepsShared sharedSibling 1 (.tree siblingTree) := by
    intro hkeeps
    have hextract : siblingTree.Extractable sharedSibling 1 := by decide
    have hremains : siblingTree.remains = some (.node ⟨4, 2, 1, 0⟩
        [.node ⟨2, 2, 0, 0⟩ [.leaf (.whole 0 (.flat 6 [1, 2]))]]) := rfl
    have hrc := hkeeps hextract _ hremains 2 (.tail _ (.head _))
    cases hrc
  exact ⟨hlost hshared, fun hrun ↦ hshared (hiff.mp hrun)⟩

end CordRs
