import CordRs.Btree.AddData
import CordRs.Cord.Read

/-!
# Growing a cord

A cord on the heap is inline data or a reference to a tree. A tree or bytes are added at its end;
inline bytes that no longer fit move to a flat of their own.

## Main definitions

* `CordRs.Cord.handle`, `CordRs.Cord.Owns`: a cord on the heap and the value it stands for.
* `CordRs.Cord.chunks`: the bytes of its data edges.
* `CordRs.Cord.appendTree`, `CordRs.Cord.appendPrecise`, `CordRs.Cord.copyFromSlice`.

## Main results

* `CordRs.Cord.wp_appendTree`, `CordRs.Cord.wp_appendPrecise`, `CordRs.Cord.wp_copyFromSlice`: the
  chunks of the cord that comes out.
-/

namespace CordRs

open RefHeap LevelTree

section Target

variable [Target]

/-- A new flat with the given bytes and room for `extra` more. -/
def createFlat (data : Bytes) (extra : ℕ) : HeapM Addr :=
  alloc (.payload (.flat (newTag maxFlatSize (data.length + min extra maxFlatLength)) data))

/-- A btree with a data edge, or the btree that is given. -/
def createBtree (rep : Addr) : HeapM Addr := do
  if ← isDataEdge rep then
    newWith rep
  else
    match ← read rep with
    | .btree _ => pure rep
    | _ => throw (.panic "cord-rs: unexpected node type in CordRepBtree::create")

/-- A tree as a btree. -/
def forceBtree (rep : Addr) : HeapM Addr := do
  match ← read rep with
  | .btree _ => pure rep
  | _ => createBtree rep

/-- A new flat or btree with the given bytes. -/
def newTree (data : Bytes) (allocHint : ℕ) : HeapM Addr := do
  if data.length ≤ maxFlatLength then
    createFlat data allocHint
  else
    let first ← createFlat (data.take maxFlatLength) 0
    let root ← createBtree first
    appendData root (data.drop maxFlatLength) allocHint

namespace Cord

/-- A flat with the bytes of inline data and room for `extra` more. -/
def makeFlatWithExtraCapacity (d : InlineData) (extra : ℕ) : HeapM Addr :=
  alloc (.payload (.flat (newTag maxFlatSize (d.size + extra)) d.inlineSlice))

/-- Append a tree. -/
def appendTree (c : Cord Addr) (tree : Addr) : HeapM (Cord Addr) := do
  match c with
  | .tree cur =>
    let btree ← forceBtree cur
    let appended ← append btree tree
    pure (.tree appended)
  | .inline d =>
    if d.size = 0 then
      pure (.tree tree)
    else
      let flat ← makeFlatWithExtraCapacity d 0
      let btree ← createBtree flat
      let appended ← append btree tree
      pure (.tree appended)

/-- Add a tree at one end. -/
def addTree (back : Bool) (c : Cord Addr) (tree : Addr) : HeapM (Cord Addr) := do
  let add := if back then append else prepend
  match c with
  | .tree cur =>
    let btree ← forceBtree cur
    let added ← add btree tree
    pure (.tree added)
  | .inline d =>
    if d.size = 0 then
      pure (.tree tree)
    else
      let flat ← makeFlatWithExtraCapacity d 0
      let btree ← createBtree flat
      let added ← add btree tree
      pure (.tree added)

/-- Prepend a tree. -/
def prependTree (c : Cord Addr) (tree : Addr) : HeapM (Cord Addr) := addTree false c tree

/-- The number of bytes that can be added without a tree. -/
def remainingInlineCapacity : Cord Addr → ℕ
  | .tree _ => 0
  | .inline d => maxInline - d.size

/-- Append at most as many bytes as a flat holds, in a flat that is no larger than it must be. -/
def appendPrecise (c : Cord Addr) (src : Bytes) : HeapM (Cord Addr) := do
  if src.length ≤ c.remainingInlineCapacity then
    match c with
    | .inline d => pure (.inline (d.pushBackInline src))
    | .tree _ => throw .unreachable
  else
    let flat ← createFlat src 0
    appendTree c flat

/-- A cord with the given bytes. -/
def copyFromSlice (data : Bytes) : HeapM (Cord Addr) := do
  if data.length ≤ maxInline then
    pure (.inline (.inlineFrom data))
  else
    let tree ← newTree data 0
    pure (.tree tree)

/-- The length of a cord, read from its inline data or from the root of its tree. -/
def loadLen : Cord Addr → HeapM ℕ
  | .inline d => pure d.size
  | .tree rep => do
    let node ← read rep
    pure node.length

/-- Give up a cord. -/
def drop : Cord Addr → HeapM Unit
  | .tree rep => unref rep
  | .inline _ => pure ()

end Cord

end Target

/-! ### New flats and btrees -/

section New

variable [Target] {h : Heap Node} {Z : List Addr} {R : Multiset Addr} {k : ℕ} {t : Rep} {e : Edge}

theorem wp_allocFlat {len : ℕ} {data : Bytes} (ho : Owned h Z R) (hdata : data ≠ [])
    (hle : data.length ≤ len) (hmax : data.length ≤ maxFlatLength) {Q : Addr → Heap Node → Prop}
    (hQ : ∀ (e : Edge) h', e.Held h' → e.Valid → Owned h' Z (e.addr ::ₘ R) → Grows h h' →
      e.data = data → Q e.addr h') :
    wp (alloc (.payload (.flat (newTag maxFlatSize len) data)) : HeapM Addr) Q h := by
  obtain ⟨hlo, hhi, hmin, -, -⟩ := newTag_spec len
  refine wp_alloc ho fun a h₁ ho₁ hg₁ ha₁ ↦ ?_
  have hv : Payload.Valid (.flat (newTag maxFlatSize len) data) :=
    ⟨hlo, hhi, List.length_pos_iff.mpr hdata, (le_min hle hmax).trans hmin⟩
  exact hQ (.whole a (.flat _ _)) h₁ ⟨ha₁, ha₁⟩ hv
    (ho₁.closeCell ha₁ ⟨[], rfl, hv, rfl⟩ (zero_add R).symm) hg₁ rfl

theorem wp_createFlat {data : Bytes} {extra : ℕ} (ho : Owned h Z R) (hdata : data ≠ [])
    (hmax : data.length ≤ maxFlatLength) {Q : Addr → Heap Node → Prop}
    (hQ : ∀ (e : Edge) h', e.Held h' → e.Valid → Owned h' Z (e.addr ::ₘ R) → Grows h h' →
      e.data = data → Q e.addr h') :
    wp (createFlat data extra) Q h :=
  wp_allocFlat ho hdata (Nat.le_add_right _ _) hmax hQ

/-- A data edge becomes the only edge of a leaf. -/
theorem wp_createBtree (ho : Owned h Z (e.addr ::ₘ R)) (he : e.Held h) (hv : e.Valid)
    {Q : Addr → Heap Node → Prop}
    (hQ : ∀ (t : Rep) h', Holding h' Z R 1 t → t.leaves = [e] → t.length = e.length →
      Frame Z R h h' → Q t.addr h') :
    wp (createBtree e.addr) Q h := by
  have hheld : Rep.Held h (.leaf e) := Rep.held_leaf.mpr he
  obtain ⟨i, hi⟩ := hheld.valid ho (.root (Multiset.mem_cons_self _ _))
  obtain rfl := (Rep.Valid.leaf_iff.mp hi).1
  rw [createBtree, wp_bind]
  refine wp_isDataEdge (t := .leaf e) hheld ?_
  rw [if_pos (by cases e <;> rfl)]
  refine wp_newWith ho he.1 (e.node_level.trans_le (Nat.zero_le _)) fun b h₁ ho₁ hg₁ hb₁ ↦ ?_
  rw [e.node_length, e.node_level] at hb₁
  have hedges : Owned h₁ (b :: Z)
      ((([RoseTree.leaf e].map Rep.addr : List Addr) : Multiset Addr) + R) := ho₁.congr (by simp)
  obtain ⟨ho₂, hheld₂, hv₂⟩ := closeNode hedges hb₁
    (by simpa using ⟨hheld.grows hg₁, hi⟩) (List.cons_ne_nil _ _) (Nat.le_of_ble_eq_true rfl)
    (by simp)
  exact hQ (.node ⟨b, e.length, 0, 0⟩ [.leaf e]) h₁ ⟨ho₂, hheld₂, hv₂, by decide⟩ rfl rfl
    ((ho.frame_of_grows hg₁).mono (List.Subset.refl _) (Multiset.le_cons_self _ _))

/-- A tree becomes a btree with the same data edges. -/
theorem wp_forceBtree (ht : Holding h Z R k t) {Q : Addr → Heap Node → Prop}
    (hQ : ∀ (t' : Rep) k' h', Holding h' Z R (k' + 1) t' → t'.leaves = t.leaves →
      t'.length = t.length → Frame Z R h h' → Q t'.addr h') :
    wp (forceBtree t.addr) Q h := by
  rw [forceBtree, wp_bind]
  refine wp_read ht.held.node? ?_
  have hvalid := ht.valid
  cases t with
  | leaf e =>
    obtain ⟨rfl, hv⟩ := Rep.Valid.leaf_iff.mp hvalid
    have hcreate : wp (createBtree e.addr) Q h :=
      wp_createBtree ht.owned (Rep.held_leaf.mp ht.held) hv fun t' h' ht' hleaves hlen hf ↦
        hQ t' 0 h' ht' hleaves hlen hf
    cases e <;> exact hcreate
  | node hd es =>
    obtain ⟨rfl, -⟩ := Rep.Valid.node_iff.mp hvalid
    change wp (pure hd.addr) Q h
    rw [wp_pure]
    exact hQ _ _ h ht rfl rfl (.refl h)

end New

/-! ### Cords on the heap -/

namespace Cord

/-- A cord as the heap knows it. -/
def handle : Cord Rep → Cord Addr
  | inline d => .inline d
  | tree t => .tree t.addr

/-- The reference a cord holds. -/
def refs : Cord Rep → Multiset Addr
  | inline _ => 0
  | tree t => {t.addr}

/-- The reference a cord holds, as the heap knows the cord. -/
def root : Cord Addr → Multiset Addr
  | .inline _ => 0
  | .tree rep => {rep}

@[simp] theorem root_handle (c : Cord Rep) : c.handle.root = c.refs := by
  cases c <;> rfl

/-- The bytes of the data edges of a cord, or its inline bytes. -/
def chunks : Cord Rep → List Bytes
  | inline d => if d.size = 0 then [] else [d.inlineSlice]
  | tree t => t.leaves.map Edge.data

section Rules

variable [Target] {h h' : Heap Node} {Z : List Addr} {R : Multiset Addr} {c : Cord Rep} {t : Rep}
  {j k : ℕ}

/-- The heap holds a valid cord, next to the references held by others. -/
structure Owns (h : Heap Node) (Z : List Addr) (R : Multiset Addr) (c : Cord Rep) : Prop where
  owned : Owned h Z (c.refs + R)
  held : ∀ t, c = .tree t → t.Held h
  valid : c.Valid

/-- The heap got a new cord with the given bytes, and nothing else changed. -/
structure New (c : Cord Rep) (bs : Bytes) (h : Heap Node) (Z : List Addr) (R : Multiset Addr)
    (h' : Heap Node) : Prop where
  owns : c.Owns h' Z R
  bytes : c.bytes = bs
  frame : Frame Z R h h'

theorem owns_inline {d : InlineData} (ho : Owned h Z R) (hd : d.WellFormed) :
    Owns h Z R (.inline d) where
  owned := by simpa [refs] using ho
  held t ht := by cases ht
  valid := hd

theorem owns_tree (ht : Holding h Z R k t) : Owns h Z R (.tree t) where
  owned := by simpa [refs] using ht.owned
  held _ heq := by
    cases heq
    exact ht.held
  valid := ⟨k, ht.depth, ht.valid⟩

theorem Owns.holding (hc : Owns h Z R (.tree t)) : ∃ k, Holding h Z R k t := by
  obtain ⟨k, hk, hv⟩ := hc.valid
  exact ⟨k, by simpa [refs] using hc.owned, hc.held t rfl, hv, hk⟩

/-- A heap holds one cord with a given handle. -/
theorem Owns.unique {Z' : List Addr} {S : Multiset Addr} {c' : Cord Rep} (hc : Owns h Z R c)
    (hc' : Owns h Z' S c') (hhandle : c.handle = c'.handle) : c = c' := by
  cases c with
  | inline d =>
    cases c' with
    | inline d' =>
      cases hhandle
      rfl
    | tree t' => cases hhandle
  | tree t =>
    cases c' with
    | inline d' => cases hhandle
    | tree t' => rw [(hc.held t rfl).unique (hc'.held t' rfl) (by simpa [handle] using hhandle)]

/-- A cord stays what it is while other parts of the heap change. -/
theorem Owns.frame {Z₁ Z₂ : List Addr} {S : Multiset Addr} (hc : Owns h Z₁ S c)
    (ho : Owned h' Z (c.refs + R)) (hf : Frame Z₂ (c.refs + R) h h') : Owns h' Z R c :=
  ⟨ho, fun t ht ↦ (hc.held t ht).frame hf (.root (by simp [ht, refs])), hc.valid⟩

/-- The number of data edges of a cord, one for inline bytes. -/
def edgeCount (c : Cord Rep) : ℕ := c.chunks.length

theorem Owns.inline (hc : Owns h Z R (.inline d)) : Owned h Z R := by
  simpa [refs] using hc.owned

theorem flatten_chunks (c : Cord Rep) (hc : c.Valid) : c.chunks.flatten = c.bytes := by
  cases c with
  | inline d =>
    by_cases hd : d.size = 0
    · rw [chunks, if_pos hd]
      exact (List.length_eq_zero_iff.mp
        ((InlineData.WellFormed.length_inlineSlice hc).trans hd)).symm
    · rw [chunks, if_neg hd]
      simp [bytes, source, Source.bytes]
  | tree t => rw [chunks, ← List.flatMap_def]; rfl

omit [Target] in
theorem wp_loadLen (hc : ∀ t, c = .tree t → t.Held h) {Q : ℕ → Heap Node → Prop} (hQ : Q c.len h) :
    wp c.handle.loadLen Q h := by
  cases c with
  | inline d => exact (wp_pure _ _ _).mpr hQ
  | tree t =>
    rw [handle, loadLen, wp_bind]
    apply wp_read (hc t rfl).node?
    rw [wp_pure, t.root_length]
    exact hQ

theorem wp_drop (hc : Owns h Z R c) {Q : Unit → Heap Node → Prop}
    (hQ : ∀ h', Owned h' Z R → Frame Z R h h' → Q () h') : wp c.handle.drop Q h := by
  cases c with
  | inline d => exact (wp_pure _ _ _).mpr (hQ h hc.inline (.refl h))
  | tree t => exact wp_unref (hc.owned.congr (Multiset.singleton_add _ _)) hQ

theorem wp_makeFlat {d : InlineData} {extra : ℕ} (ho : Owned h Z R) (hd : d.WellFormed)
    (hne : d.size ≠ 0) {Q : Addr → Heap Node → Prop}
    (hQ : ∀ (e : Edge) h', e.Held h' → e.Valid → Owned h' Z (e.addr ::ₘ R) → Grows h h' →
      e.data = d.inlineSlice → Q e.addr h') :
    wp (makeFlatWithExtraCapacity d extra) Q h := by
  have hlen := hd.length_inlineSlice
  have hle := hd.length_le
  have hmin := minFlatLength_pos
  have hmax := minFlatLength_le_maxFlatLength
  refine wp_allocFlat ho ?_ (by omega) (by omega) hQ
  intro hnil
  rw [hnil] at hlen
  exact hne hlen.symm

/-- Adding a tree at one end of a btree. -/
private theorem wp_addBtree {back : Bool} {s : Rep} (ht : Holding h Z (s.addr ::ₘ R) (k + 1) t)
    (hs : s.Held h) (hsv : s.Valid j) (hj : j ≤ maxDepth) (hlen : t.length + s.length ≤ usizeMax)
    (hcount : t.leaves.length + s.leaves.length ≤ maxCapacity ^ maxDepth)
    {Q : Addr → Heap Node → Prop}
    (hQ : ∀ (t' : Rep) k' h', Holding h' Z R (k' + 1) t' →
      t'.leaves = join back t.leaves s.leaves → Frame Z R h h' → Q t'.addr h') :
    wp ((if back then append else prepend) t.addr s.addr) Q h := by
  cases back with
  | true =>
    refine wp_append ht hs hsv hj hlen hcount fun t' k' h' ht' hout hf ↦ hQ t' k' h' ht' ?_ hf
    rw [← Rep.leaves_outline, hout, leaves_appendOutline, Rep.leaves_outline, Rep.leaves_outline]
    rfl
  | false =>
    refine wp_prepend ht hs hsv hj hlen hcount fun t' k' h' ht' hout hf ↦ hQ t' k' h' ht' ?_ hf
    rw [← Rep.leaves_outline, hout, leaves_prependOutline, Rep.leaves_outline, Rep.leaves_outline]
    rfl

/-- Adding a tree puts its data edges beside the chunks of a cord. -/
theorem wp_addTree {back : Bool} {s : Rep} (hc : Owns h Z (s.addr ::ₘ R) c) (hs : s.Held h)
    (hsv : s.Valid j) (hj : j ≤ maxDepth) (hlen : c.len + s.length ≤ usizeMax)
    (hcount : c.edgeCount + s.leaves.length ≤ maxCapacity ^ maxDepth)
    {Q : Cord Addr → Heap Node → Prop}
    (hQ : ∀ (t' : Rep) k' h', Holding h' Z R k' t' →
      (tree t').chunks = join back c.chunks (s.leaves.map Edge.data) → Frame Z R h h' →
      Q (.tree t'.addr) h') :
    wp (addTree back c.handle s.addr) Q h := by
  cases c with
  | tree t =>
    obtain ⟨k, ht⟩ := hc.holding
    rw [handle, addTree, wp_bind]
    refine wp_forceBtree ht fun t₁ k₁ h₁ ht₁ hleaves₁ hlen₁ hf₁ ↦ ?_
    have hs₁ := hs.frame hf₁ (.root (Multiset.mem_cons_self _ _))
    rw [wp_bind]
    refine wp_addBtree ht₁ hs₁ hsv hj (hlen₁ ▸ hlen) (by simpa [edgeCount, chunks, hleaves₁]
      using hcount) fun t' k' h' ht' hleaves hf ↦ ?_
    rw [wp_pure]
    refine hQ t' _ h' ht' ?_ ((hf₁.mono (List.Subset.refl _) (Multiset.le_cons_self _ _)).trans hf)
    rw [chunks, hleaves, hleaves₁, map_join]
    rfl
  | inline d =>
    have ho := hc.inline
    by_cases hd : d.size = 0
    · rw [handle, addTree, if_pos hd, wp_pure]
      exact hQ s j h ⟨ho, hs, hsv, hj⟩ (by simp [chunks, hd]) (.refl h)
    · rw [handle, addTree, if_neg hd, wp_bind]
      refine wp_makeFlat ho hc.valid hd fun e h₁ he₁ hv₁ ho₁ hg₁ hdata ↦ ?_
      rw [wp_bind]
      refine wp_createBtree ho₁ he₁ hv₁ fun t₁ h₂ ht₂ hleaves hlen₂ hf₂ ↦ ?_
      have hf : Frame Z (s.addr ::ₘ R) h h₂ := (ho.frame_of_grows hg₁).trans hf₂
      have hs₂ := hs.frame hf (.root (Multiset.mem_cons_self _ _))
      have hlen₁ : t₁.length = d.size := by
        rw [hlen₂, ← hv₁.length_data, hdata, InlineData.WellFormed.length_inlineSlice hc.valid]
      rw [wp_bind]
      refine wp_addBtree ht₂ hs₂ hsv hj (hlen₁ ▸ hlen) (by simpa [edgeCount, chunks, hd, hleaves]
        using hcount) fun t' k' h' ht' hleaves' hf' ↦ ?_
      rw [wp_pure]
      refine hQ t' _ h' ht' ?_
        ((hf.mono (List.Subset.refl _) (Multiset.le_cons_self _ _)).trans hf')
      rw [chunks, chunks, if_neg hd, hleaves', hleaves, map_join, List.map_singleton, hdata]

omit [Target] in
theorem length_join_chunks {back : Bool} {t : Rep} {s : List Bytes}
    (ht : (tree t).chunks = join back c.chunks s) : edgeCount (.tree t) = c.edgeCount + s.length := by
  rw [edgeCount, ht, length_join, edgeCount]

theorem bytes_join_chunks {back : Bool} {t s : Rep} (hc : c.Valid)
    (ht : (tree t).chunks = join back c.chunks (s.leaves.map Edge.data)) :
    bytes (.tree t) = join back c.bytes s.bytes := by
  change t.leaves.flatMap Edge.data = _
  change t.leaves.map Edge.data = _ at ht
  rw [List.flatMap_def, ht, flatten_join, flatten_chunks c hc, Rep.bytes, List.flatMap_def]

/-- Appending a tree puts its data edges behind the chunks of a cord. -/
theorem wp_appendTree {s : Rep} (hc : Owns h Z (s.addr ::ₘ R) c) (hs : s.Held h)
    (hsv : s.Valid j) (hj : j ≤ maxDepth) (hlen : c.len + s.length ≤ usizeMax)
    (hcount : c.edgeCount + s.leaves.length ≤ maxCapacity ^ maxDepth)
    {Q : Cord Addr → Heap Node → Prop}
    (hQ : ∀ (t' : Rep) k' h', Holding h' Z R k' t' →
      (tree t').chunks = c.chunks ++ s.leaves.map Edge.data → Frame Z R h h' →
      Q (.tree t'.addr) h') :
    wp (appendTree c.handle s.addr) Q h := by
  have heq : appendTree c.handle s.addr = addTree true c.handle s.addr := by cases c <;> rfl
  rw [heq]
  exact wp_addTree hc hs hsv hj hlen hcount hQ

/-- Bytes were added to a cord: inline while there is room, or in a chunk of their own. -/
def Grown (c : Cord Rep) (bs : Bytes) (c' : Cord Rep) : Prop :=
  c'.isTree = true ∧ c'.chunks = c.chunks ++ [bs] ∨
    ∃ d, c = .inline d ∧ d.size + bs.length ≤ maxInline ∧ c' = .inline (d.pushBackInline bs)

omit [Target] in
theorem wellFormed_pushBackInline {d : InlineData} {bs : Bytes} (hd : d.WellFormed)
    (hle : d.size + bs.length ≤ maxInline) :
    (d.pushBackInline bs).WellFormed ∧
      (d.pushBackInline bs).inlineSlice = d.inlineSlice ++ bs := by
  have hlen := hd.length_inlineSlice
  have heq : d.pushBackInline bs = .ofBytes (d.inlineSlice ++ bs) := by
    rw [← InlineData.pushBackInline_eq, ← hd.2]
  rw [heq, InlineData.inlineSlice_ofBytes]
  refine ⟨InlineData.wellFormed_ofBytes ?_, rfl⟩
  rw [List.length_append]
  omega

theorem Grown.bytes_eq {c' : Cord Rep} {bs : Bytes} (hg : Grown c bs c') (hc : c.Valid)
    (hc' : c'.Valid) : c'.bytes = c.bytes ++ bs := by
  obtain ⟨-, hchunks⟩ | ⟨d, rfl, hle, rfl⟩ := hg
  · rw [← flatten_chunks c' hc', hchunks, List.flatten_append, flatten_chunks c hc]
    simp
  · exact (wellFormed_pushBackInline hc hle).2

/-- A cord without bytes, or a tree, gets a chunk. -/
theorem Grown.chunks_eq {c' : Cord Rep} {bs : Bytes} (hg : Grown c bs c') (hc : c.Valid)
    (hne : bs ≠ []) (htree : c.chunks = [] ∨ c.isTree = true) : c'.chunks = c.chunks ++ [bs] := by
  obtain ⟨-, hchunks⟩ | ⟨d, rfl, hle, rfl⟩ := hg
  · exact hchunks
  · obtain hnil | htrue := htree
    · have hd : d.size = 0 := by
        by_contra hd
        simp [chunks, hd] at hnil
      have hslice : d.inlineSlice = [] :=
        List.length_eq_zero_iff.mp ((InlineData.WellFormed.length_inlineSlice hc).trans hd)
      rw [hnil, chunks, if_neg, (wellFormed_pushBackInline hc hle).2, hslice]
      · rfl
      · change d.size + bs.length ≠ 0
        have := List.length_pos_iff.mpr hne
        omega
    · cases htrue

/-- Bytes are added inline while there is room, and in a flat of their own otherwise. -/
theorem wp_appendPrecise {src : Bytes} (hc : Owns h Z R c) (hsrc : src ≠ [])
    (hmax : src.length ≤ maxFlatLength) (hlen : c.len + src.length ≤ usizeMax)
    (hcount : c.edgeCount + 1 ≤ maxCapacity ^ maxDepth) {Q : Cord Addr → Heap Node → Prop}
    (hQ : ∀ (c' : Cord Rep) h', Owns h' Z R c' → Grown c src c' → Frame Z R h h' → Q c'.handle h') :
    wp (appendPrecise c.handle src) Q h := by
  have hpos := List.length_pos_iff.mpr hsrc
  unfold appendPrecise
  by_cases hroom : src.length ≤ c.handle.remainingInlineCapacity
  · rw [if_pos hroom]
    cases c with
    | inline d =>
      have hle : d.size ≤ maxInline := hc.valid.1
      change src.length ≤ maxInline - d.size at hroom
      have hfits : d.size + src.length ≤ maxInline := by omega
      refine (wp_pure _ _ _).mpr (hQ (.inline _) h ?_ (.inr ⟨d, rfl, hfits, rfl⟩) (.refl h))
      exact owns_inline hc.inline (wellFormed_pushBackInline hc.valid hfits).1
    | tree t =>
      change src.length ≤ 0 at hroom
      omega
  · rw [if_neg hroom, wp_bind]
    refine wp_createFlat hc.owned hsrc hmax fun e h₁ he₁ hv₁ ho₁ hg₁ hdata ↦ ?_
    have hf₁ : Frame Z (c.refs + R) h h₁ := hc.owned.frame_of_grows hg₁
    have hc₁ : Owns h₁ Z (e.addr ::ₘ R) c :=
      ⟨ho₁.congr (by rw [Multiset.add_cons]), fun t ht ↦ (hc.held t ht).frame hf₁
        (.root (by simp [ht, refs])), hc.valid⟩
    have helen : e.length = src.length := by rw [← hv₁.length_data, hdata]
    have hheld₁ : Rep.Held h₁ (.leaf e) := Rep.held_leaf.mpr he₁
    refine wp_appendTree (s := .leaf e) hc₁ hheld₁ (Rep.Valid.leaf_iff.mpr ⟨rfl, hv₁⟩)
      (Nat.zero_le _) (by simpa [helen] using hlen) (by simpa using hcount)
      fun t' k' h' ht' hchunks hf' ↦ ?_
    refine hQ (.tree t') h' (owns_tree ht') (.inl ⟨rfl, by simpa [hdata] using hchunks⟩) ?_
    exact (hf₁.mono (List.Subset.refl _) (Multiset.le_add_left _ _)).trans hf'

/-- A new tree has the bytes in the fewest flats. -/
theorem wp_newTree {data : Bytes} {hint : ℕ} (ho : Owned h Z R) (hdata : data ≠ [])
    (hlen : data.length + hint ≤ usizeMax) (hcount : flatsFor data.length ≤ maxCapacity ^ maxDepth)
    {Q : Addr → Heap Node → Prop}
    (hQ : ∀ (t : Rep) k h', Holding h' Z R k t →
      t.leaves.map Edge.data = CordRs.chunks true data → Frame Z R h h' → Q t.addr h') :
    wp (newTree data hint) Q h := by
  have hpos := List.length_pos_iff.mpr hdata
  have hmaxpos := maxFlatLength_pos
  rw [chunks_of_ne_nil hdata] at hQ
  rw [flatsFor_of_pos hpos] at hcount
  rw [newTree]
  by_cases hle : data.length ≤ maxFlatLength
  · rw [if_pos hle]
    refine wp_createFlat ho hdata hle fun e h₁ he₁ hv₁ ho₁ hg₁ hdata₁ ↦ ?_
    refine hQ (.leaf e) 0 h₁ ⟨ho₁, Rep.held_leaf.mpr he₁, Rep.Valid.leaf_iff.mpr ⟨rfl, hv₁⟩,
      Nat.zero_le _⟩ ?_ (ho.frame_of_grows hg₁)
    simp [consumed, consume, hle, hdata₁]
  · have hlt := Nat.lt_of_not_le hle
    have htake : (data.take maxFlatLength).length = maxFlatLength := by simp; omega
    rw [if_neg hle, wp_bind]
    refine wp_createFlat ho (List.length_pos_iff.mp (by omega)) htake.le
      fun e h₁ he₁ hv₁ ho₁ hg₁ hdata₁ ↦ ?_
    have helen : e.length = maxFlatLength := by rw [← hv₁.length_data, hdata₁, htake]
    rw [wp_bind]
    refine wp_createBtree ho₁ he₁ hv₁ fun t₁ h₂ ht₂ hleaves hlen₂ hf₂ ↦ ?_
    have hdrop : (data.drop maxFlatLength).length = data.length - maxFlatLength := by simp
    refine wp_addData ht₂ (by omega) (by omega) ?_ fun t' k' us h' ht' _ hus hout hf' ↦ ?_
    · rw [hleaves, hdrop]
      rwa [Nat.min_eq_right hlt.le] at hcount
    · refine hQ t' _ h' ht' ?_ (((ho.frame_of_grows hg₁).trans hf₂).trans hf')
      rw [← Rep.leaves_outline, hout, leaves_addDataOutline, Rep.leaves_outline, hleaves]
      simp [consumed, consume, Nat.min_eq_right hlt.le, hus, hdata₁, LevelTree.outward,
        LevelTree.join]

/-- A new cord has the bytes in the fewest chunks. -/
theorem wp_copyFromSlice {data : Bytes} (ho : Owned h Z R) (hlen : data.length ≤ usizeMax)
    (hcount : flatsFor data.length ≤ maxCapacity ^ maxDepth) {Q : Cord Addr → Heap Node → Prop}
    (hQ : ∀ (c : Cord Rep) h', Owns h' Z R c → c.chunks = CordRs.chunks true data →
      Frame Z R h h' → Q c.handle h') :
    wp (copyFromSlice data) Q h := by
  rw [copyFromSlice]
  by_cases hle : data.length ≤ maxInline
  · rw [if_pos hle, wp_pure, InlineData.inlineFrom_eq hle]
    refine hQ (.inline (.ofBytes data)) h (owns_inline ho (InlineData.wellFormed_ofBytes hle)) ?_
      (.refl h)
    have hmin := minFlatLength_pos
    have hmax := minFlatLength_le_maxFlatLength
    by_cases hdata : data = []
    · simp [chunks, hdata]
    · rw [chunks, if_neg (by simpa using hdata), chunks_of_ne_nil hdata]
      simp [consumed, consume, show data.length ≤ maxFlatLength by omega]
  · rw [if_neg hle, wp_bind]
    refine wp_newTree ho (fun hnil ↦ hle (by simp [hnil])) hlen hcount
      fun t k h' ht hchunks hf ↦ ?_
    rw [wp_pure]
    exact hQ (.tree t) h' (owns_tree ht) hchunks hf

end Rules

end Cord

end CordRs
