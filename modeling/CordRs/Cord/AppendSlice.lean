import CordRs.Btree.AppendBuffer
import CordRs.Cord.Append

/-!
# Adding bytes to a cord

Bytes are appended in place as far as the last flat of a tree that nothing else refers to has room,
then in new flats; inline bytes stay inline while they fit and move to a flat with the new ones
otherwise. Bytes are prepended inline or in new flats.

## Main definitions

* `CordRs.appendRegion`, `CordRs.Cord.appendSlice`, `CordRs.Cord.prependSlice`.
* `CordRs.Cord.room`: the number of bytes that can be appended without another data edge.

## Main results

* `CordRs.Cord.wp_appendSlice`, `CordRs.Cord.wp_prependSlice`: the bytes and the number of data edges
  of the cord that comes out.
-/

namespace CordRs

open RefHeap LevelTree

section Target

variable [Target]

/-- Put bytes into the room at the end of a tree that nothing else refers to, and return how many
fit. -/
def prepareAppendRegion (root : Addr) (src : Bytes) : HeapM ℕ := do
  match ← read root with
  | .btree _ => getAppendBuffer root src
  | .payload (.flat tag data) =>
    let n := min (tagToLength tag - data.length) src.length
    if n = 0 then
      pure 0
    else
      write root (.payload (.flat tag (data ++ src.take n)))
      pure n
  | _ => pure 0

/-- Put bytes into the room at the end of a tree, if nothing else refers to it. -/
def appendRegion (root : Addr) (src : Bytes) : HeapM ℕ := do
  if ← refIsOne root then
    prepareAppendRegion root src
  else
    pure 0

namespace Cord

/-- Append bytes to a tree in new flats, the last one with room for a tenth of the bytes. -/
def appendRest (root : Addr) (src : Bytes) : HeapM (Cord Addr) := do
  let tree ← forceBtree root
  let b ← asBtree tree
  let minGrowth := max (b.length / 10) src.length
  let tree ← appendData tree src (minGrowth - src.length)
  pure (.tree tree)

/-- Append bytes that are left once those that fit were put in place. -/
def appendUnlessEmpty (root : Addr) (src : Bytes) : HeapM (Cord Addr) :=
  if src.length = 0 then
    pure (.tree root)
  else
    appendRest root src

/-- Append bytes. -/
def appendSlice (c : Cord Addr) (src : Bytes) : HeapM (Cord Addr) := do
  if src.length = 0 then
    pure c
  else
    match c with
    | .tree root =>
      let appended ← appendRegion root src
      appendUnlessEmpty root (src.drop appended)
    | .inline d =>
      if src.length ≤ maxInline - d.size then
        pure (.inline (d.pushBackInline src))
      else
        let tag := newTag maxFlatSize (d.size + src.length)
        let appended := min src.length (tagToLength tag - d.size)
        let root ← alloc (.payload (.flat tag (d.inlineSlice ++ src.take appended)))
        appendUnlessEmpty root (src.drop appended)

/-- Prepend bytes. -/
def prependSlice (c : Cord Addr) (src : Bytes) : HeapM (Cord Addr) := do
  if src.length = 0 then
    pure c
  else
    match c with
    | .tree root =>
      let tree ← forceBtree root
      let tree ← prependData tree src 0
      pure (.tree tree)
    | .inline d =>
      if d.size + src.length ≤ maxInline then
        pure (.inline (d.pushFrontInline src))
      else
        let tree ← newTree src 0
        prependTree c tree

end Cord

end Target

section Rules

variable [Target] {h h' : Heap Node} {Z : List Addr} {R : Multiset Addr} {k : ℕ} {t : Rep}
  {src : Bytes}

/-! ### Room at the end of a tree -/

/-- A tree that others refer to has no room. -/
theorem Rep.room_of_shared (hv : t.Valid k) (hone : h.rc t.addr ≠ 1) : t.room h = 0 := by
  obtain ⟨cs, e, rfl, -⟩ := exists_spine true hv
  rw [Rep.room_plug, if_neg]
  rintro ⟨he, hall⟩
  rw [addr_plug, rootAddr_eq_getLastD] at hone
  cases cs with
  | nil => exact hone he
  | cons c cs =>
    rw [spineAddrs_cons, List.getLastD_cons] at hone
    exact hone (hall _ List.getLastD_mem_cons)

/-- The bytes that fit in place are put at the end of a tree. -/
theorem wp_appendRegion (ht : Holding h Z R k t) (hlen : t.length + src.length ≤ usizeMax)
    {Q : ℕ → Heap Node → Prop}
    (hQ : ∀ (t' : Rep) h', t'.addr = t.addr → Holding h' Z R k t' →
      t'.bytes = t.bytes ++ src.take (t.room h) → t'.leaves.length = t.leaves.length →
      Frame Z R h h' → Q (min src.length (t.room h)) h') :
    wp (appendRegion t.addr src) Q h := by
  have hzero : t.room h = 0 → Q 0 h := by
    intro hroom
    have := hQ t h rfl ht (by rw [hroom]; simp) rfl (.refl h)
    rwa [hroom, Nat.min_zero] at this
  have hvalid := ht.valid
  rw [appendRegion, wp_bind]
  refine wp_refIsOne ht.held.node? ?_
  by_cases hone : h.rc t.addr = 1
  · rw [decide_eq_true hone, if_pos rfl, prepareAppendRegion, wp_bind]
    refine wp_read ht.held.node? ?_
    cases t with
    | node hd es =>
      obtain ⟨rfl, -⟩ := Rep.Valid.node_iff.mp hvalid
      exact wp_getAppendBuffer ht hone hlen hQ
    | leaf e =>
      obtain ⟨rfl, hv⟩ := Rep.Valid.leaf_iff.mp hvalid
      have hroom : Rep.room h (.leaf e) = e.spare := by
        rw [show (.leaf e : Rep) = plug true [] (.leaf e) from rfl, Rep.room_plug,
          if_pos ⟨hone, by simp⟩]
      cases e with
      | part a length start child p => exact (wp_pure _ _ _).mpr (hzero hroom)
      | whole a p =>
        cases p with
        | external data allocation => exact (wp_pure _ _ _).mpr (hzero hroom)
        | flat tag data =>
          change Rep.room h _ = tagToLength tag - data.length at hroom
          rw [hroom, Nat.min_comm] at hQ
          change wp (if min (tagToLength tag - data.length) src.length = 0 then pure 0 else _) Q h
          by_cases hnone : min (tagToLength tag - data.length) src.length = 0
          · rw [if_pos hnone, wp_pure]
            have := hQ _ h rfl ht ?_ rfl (.refl h)
            · rwa [hnone] at this
            · rw [List.take_eq_take_min, hnone, List.take_zero, List.append_nil]
          · rw [if_neg hnone, wp_bind]
            have hcap := hv.2.2.2
            refine wp_writeFlat ht.owned (Rep.held_leaf.mp ht.held) hv hone
              (by rw [List.length_take]; omega) fun h₁ he₁ hv₁ ho₁ hf₁ ↦ ?_
            rw [wp_pure]
            refine hQ (.leaf (.whole a (.flat tag (data ++ src.take (min (tagToLength tag -
              data.length) src.length))))) h₁ rfl ⟨ho₁, Rep.held_leaf.mpr he₁,
              Rep.Valid.leaf_iff.mpr ⟨rfl, hv₁⟩, ht.depth⟩ ?_ rfl hf₁
            simp [Edge.data, Payload.data, List.take_eq_take_min]
  · rw [decide_eq_false hone, if_neg Bool.false_ne_true, wp_pure]
    exact hzero (Rep.room_of_shared hvalid hone)

end Rules

/-! ### Bytes at the end of a cord -/

namespace Cord

variable [Target] {h h' : Heap Node} {Z : List Addr} {R : Multiset Addr} {k : ℕ} {t : Rep}
  {c : Cord Rep} {src : Bytes}

/-- The number of bytes that can be appended without another data edge. -/
def room (h : Heap Node) : Cord Rep → ℕ
  | .inline d => if d.size = 0 then 0 else maxFlatLength - d.size
  | .tree t => t.room h

/-- The cord that a tree with bytes added at one end is. -/
private theorem new_dataAdded {back : Bool} {a : Addr} (hadded : DataAdded back h Z R t src a h') :
    ∃ t' : Rep, t'.addr = a ∧ New (.tree t') (join back t.bytes src) h Z R h' ∧
      t'.leaves.length = t.leaves.length + flatsFor src.length := by
  obtain ⟨t', k', es, rfl, ht', hleaves, hcount, hdata, -, -, -, hf⟩ := hadded
  refine ⟨t', rfl, ⟨owns_tree ht', ?_, hf⟩, by rw [hleaves, length_join, hcount]⟩
  change t'.bytes = _
  rw [Rep.bytes, hleaves, flatMap_join, hdata, Rep.bytes]

/-- The bytes that did not fit are put in new flats. -/
theorem wp_appendUnlessEmpty (ht : Holding h Z R k t) (hlen : t.length + src.length ≤ usizeMax)
    (hcount : t.leaves.length + flatsFor src.length ≤ maxCapacity ^ maxDepth)
    {Q : Cord Addr → Heap Node → Prop}
    (hQ : ∀ (t' : Rep) h', New (.tree t') (t.bytes ++ src) h Z R h' →
      t'.leaves.length = t.leaves.length + flatsFor src.length → Q (.tree t'.addr) h') :
    wp (appendUnlessEmpty t.addr src) Q h := by
  rw [appendUnlessEmpty]
  by_cases hsrc : src.length = 0
  · rw [if_pos hsrc, wp_pure]
    obtain rfl := List.length_eq_zero_iff.mp hsrc
    exact hQ t h ⟨owns_tree ht, (List.append_nil _).symm, .refl h⟩ (by simp)
  · rw [if_neg hsrc, appendRest, wp_bind]
    refine wp_forceBtree ht fun t₁ k₁ h₁ ht₁ hleaves hlen₁ hf₁ ↦ ?_
    have hroot := ht₁.held.node?
    obtain ⟨hd, es, rfl⟩ := ht₁.valid.exists_node
    rw [wp_bind]
    refine wp_asBtree hroot ?_
    have hhd : hd.length = t.length := hlen₁
    rw [Rep.btree_length, hhd, wp_bind]
    refine wp_mono (wp_dataAdded ht₁ ?_ (hlen₁ ▸ hlen) (hleaves ▸ hcount)) fun a h' hadded ↦ ?_
    · have := Nat.div_le_self t.length 10
      omega
    · obtain ⟨t', rfl, hnew, hcount'⟩ := new_dataAdded hadded
      rw [wp_pure]
      refine hQ t' h' { hnew with bytes := ?_, frame := hf₁.trans hnew.frame } (hleaves ▸ hcount')
      rw [hnew.bytes, Rep.bytes, hleaves]
      rfl

/-- Appending bytes takes as few new data edges as the room at the end allows. -/
theorem wp_appendSlice (hc : Owns h Z R c) (hlen : c.len + src.length ≤ usizeMax)
    (hcount : c.edgeCount + flatsFor (src.length - c.room h) ≤ maxCapacity ^ maxDepth)
    {Q : Cord Addr → Heap Node → Prop}
    (hQ : ∀ (c' : Cord Rep) h', New c' (c.bytes ++ src) h Z R h' →
      c'.edgeCount ≤ c.edgeCount + flatsFor (src.length - c.room h) → Q c'.handle h') :
    wp (appendSlice c.handle src) Q h := by
  unfold appendSlice
  by_cases hsrc : src.length = 0
  · rw [if_pos hsrc, wp_pure]
    obtain rfl := List.length_eq_zero_iff.mp hsrc
    exact hQ c h ⟨hc, (List.append_nil _).symm, .refl h⟩ (Nat.le_add_right _ _)
  rw [if_neg hsrc]
  cases c with
  | tree t =>
    obtain ⟨k, ht⟩ := hc.holding
    have hcount' : t.leaves.length + flatsFor (src.length - t.room h) ≤ maxCapacity ^ maxDepth := by
      rwa [edgeCount, chunks, List.length_map] at hcount
    rw [handle]
    simp only [wp_bind]
    refine wp_appendRegion ht hlen fun t₁ h₁ haddr ht₁ hbytes hleaves hf₁ ↦ ?_
    have hdrop : (src.drop (min src.length (t.room h))).length = src.length - t.room h := by
      rw [List.length_drop]
      omega
    have hlen₁ : t₁.length = t.length + min src.length (t.room h) := by
      rw [← ht₁.valid.length_bytes, hbytes, List.length_append, ht.valid.length_bytes,
        List.length_take, Nat.min_comm]
    change t.length + src.length ≤ usizeMax at hlen
    rw [← haddr]
    refine wp_appendUnlessEmpty ht₁ (by omega) (by rwa [hdrop, hleaves]) fun t' h' hnew hcount₁ ↦ ?_
    refine hQ (.tree t') h' { hnew with bytes := ?_, frame := hf₁.trans hnew.frame } ?_
    · rw [hnew.bytes, hbytes, List.append_assoc]
      congr 1
      rw [List.take_eq_take_min, Nat.min_comm, List.take_append_drop]
    · rw [hdrop, hleaves] at hcount₁
      rw [edgeCount, edgeCount, chunks, chunks, List.length_map, List.length_map]
      exact hcount₁.le
  | inline d =>
    have hd : d.WellFormed := hc.valid
    have hslice := hd.length_inlineSlice
    have hle := hd.length_le
    have hpos := Nat.pos_of_ne_zero hsrc
    change wp (if src.length ≤ maxInline - d.size then _ else _) Q h
    by_cases hfits : src.length ≤ maxInline - d.size
    · rw [if_pos hfits, wp_pure]
      have hroom : d.size + src.length ≤ maxInline := by omega
      obtain ⟨hwf, hbytes⟩ := wellFormed_pushBackInline hd hroom
      refine hQ (.inline _) h ⟨owns_inline hc.inline hwf, hbytes, .refl h⟩ ?_
      have hone : edgeCount (.inline (d.pushBackInline src)) ≤ 1 := by
        rw [edgeCount, chunks]
        split_ifs <;> simp
      refine hone.trans ?_
      rw [edgeCount, chunks, room]
      by_cases hempty : d.size = 0
      · rw [if_pos hempty, if_pos hempty, Nat.sub_zero, flatsFor_of_pos hpos]
        omega
      · rw [if_neg hempty]
        exact Nat.le_add_right _ _
    · rw [if_neg hfits, wp_bind]
      obtain ⟨-, -, hmin, hmax, -⟩ := newTag_spec (d.size + src.length)
      obtain ⟨tag, htag⟩ : ∃ tag, newTag maxFlatSize (d.size + src.length) = tag := ⟨_, rfl⟩
      obtain ⟨n, hn⟩ : ∃ n, min src.length (tagToLength tag - d.size) = n := ⟨_, rfl⟩
      rw [htag] at hmin hmax
      have htake : (src.take n).length = n := by
        rw [List.length_take]
        omega
      have hdata : (d.inlineSlice ++ src.take n).length = d.size + n := by
        rw [List.length_append, hslice, htake]
      have hmaxpos := minFlatLength_le_maxFlatLength
      have hminpos := minFlatLength_pos
      refine wp_allocFlat hc.inline (List.length_pos_iff.mp ?_) ?_ ?_
        fun e h₁ he₁ hv₁ ho₁ hg₁ he ↦ ?_
      · rw [htag, hn, hdata]
        omega
      · rw [htag, hn, hdata]
        omega
      · rw [htag, hn, hdata]
        omega
      rw [htag, hn] at he
      have helen : e.length = d.size + n := by rw [← hv₁.length_data, he, hdata]
      have hedges : 1 + flatsFor (src.length - n) ≤
          edgeCount (.inline d) + flatsFor (src.length - room h (.inline d)) := by
        rw [edgeCount, chunks, room]
        by_cases hempty : d.size = 0
        · rw [if_pos hempty, if_pos hempty, Nat.sub_zero, flatsFor_of_pos hpos,
            show n = min src.length maxFlatLength by omega]
          simp
        · rw [if_neg hempty, if_neg hempty, show src.length - n =
            src.length - (maxFlatLength - d.size) by omega]
          simp
      change d.size + src.length ≤ usizeMax at hlen
      rw [htag, hn]
      refine wp_appendUnlessEmpty (t := .leaf e) ⟨ho₁, Rep.held_leaf.mpr he₁,
        Rep.Valid.leaf_iff.mpr ⟨rfl, hv₁⟩, Nat.zero_le _⟩ ?_ ?_ fun t' h' hnew hcount₁ ↦ ?_
      · rw [Rep.length_leaf, helen, List.length_drop]
        omega
      · rw [RoseTree.leaves_leaf, List.length_singleton, List.length_drop]
        exact hedges.trans hcount
      · rw [RoseTree.leaves_leaf, List.length_singleton, List.length_drop] at hcount₁
        refine hQ (.tree t') h' { hnew with
          bytes := ?_
          frame := (hc.inline.frame_of_grows hg₁).trans hnew.frame } ?_
        · rw [hnew.bytes, Rep.bytes_leaf, he, List.append_assoc, List.take_append_drop]
          rfl
        · rw [edgeCount, chunks, List.length_map, hcount₁]
          exact hedges

omit [Target] in
theorem wellFormed_pushFrontInline {d : InlineData} (hd : d.WellFormed)
    (hle : d.size + src.length ≤ maxInline) :
    (d.pushFrontInline src).WellFormed ∧
      (d.pushFrontInline src).inlineSlice = src ++ d.inlineSlice := by
  have hlen := hd.length_inlineSlice
  have heq : d.pushFrontInline src = .ofBytes (src ++ d.inlineSlice) := by
    rw [← InlineData.pushFrontInline_eq, ← hd.2]
  rw [heq, InlineData.inlineSlice_ofBytes]
  refine ⟨InlineData.wellFormed_ofBytes ?_, rfl⟩
  rw [List.length_append]
  omega

/-- Prepending bytes. -/
theorem wp_prependSlice (hc : Owns h Z R c) (hlen : c.len + src.length ≤ usizeMax)
    (hcount : c.edgeCount + flatsFor src.length ≤ maxCapacity ^ maxDepth)
    {Q : Cord Addr → Heap Node → Prop}
    (hQ : ∀ (c' : Cord Rep) h', New c' (src ++ c.bytes) h Z R h' →
      c'.edgeCount ≤ c.edgeCount + flatsFor src.length → Q c'.handle h') :
    wp (prependSlice c.handle src) Q h := by
  unfold prependSlice
  by_cases hsrc : src.length = 0
  · rw [if_pos hsrc, wp_pure]
    obtain rfl := List.length_eq_zero_iff.mp hsrc
    exact hQ c h ⟨hc, rfl, .refl h⟩ (Nat.le_add_right _ _)
  rw [if_neg hsrc]
  cases c with
  | tree t =>
    obtain ⟨k, ht⟩ := hc.holding
    rw [edgeCount, chunks, List.length_map] at hcount
    rw [handle, wp_bind]
    refine wp_forceBtree ht fun t₁ k₁ h₁ ht₁ hleaves hlen₁ hf₁ ↦ ?_
    rw [wp_bind]
    change t.length + src.length ≤ usizeMax at hlen
    refine wp_mono (wp_dataAdded ht₁ (by omega) (hlen₁ ▸ hlen) (hleaves ▸ hcount))
      fun a h' hadded ↦ ?_
    obtain ⟨t', rfl, hnew, hcount'⟩ := new_dataAdded hadded
    rw [wp_pure]
    refine hQ (.tree t') h' { hnew with bytes := ?_, frame := hf₁.trans hnew.frame } ?_
    · rw [hnew.bytes, Rep.bytes, hleaves]
      rfl
    · rw [edgeCount, edgeCount, chunks, chunks, List.length_map, List.length_map, hcount', hleaves]
  | inline d =>
    have hd : d.WellFormed := hc.valid
    have hpos := Nat.pos_of_ne_zero hsrc
    change wp (if d.size + src.length ≤ maxInline then _ else _) Q h
    change d.size + src.length ≤ usizeMax at hlen
    by_cases hfits : d.size + src.length ≤ maxInline
    · rw [if_pos hfits, wp_pure]
      obtain ⟨hwf, hbytes⟩ := wellFormed_pushFrontInline hd hfits
      refine hQ (.inline _) h ⟨owns_inline hc.inline hwf, hbytes, .refl h⟩ ?_
      have hone : edgeCount (.inline (d.pushFrontInline src)) ≤ 1 := by
        rw [edgeCount, chunks]
        split_ifs <;> simp
      refine hone.trans ?_
      rw [flatsFor_of_pos hpos]
      omega
    · rw [if_neg hfits, wp_bind]
      refine wp_newTree hc.inline (List.length_pos_iff.mp hpos) (by omega)
        ((Nat.le_add_left _ _).trans hcount) fun t k h₁ ht hchunks hf₁ ↦ ?_
      have hlen' : t.leaves.length = flatsFor src.length := by
        rw [← List.length_map Edge.data, hchunks, length_chunks]
      have htbytes : t.bytes = src := by
        rw [Rep.bytes, List.flatMap_def, hchunks]
        exact @CordRs.flatten_chunks true _ src
      have htlen : t.length = src.length := by rw [← ht.valid.length_bytes, htbytes]
      have hc₁ : Owns h₁ Z (t.addr ::ₘ R) (.inline d) := owns_inline ht.owned hd
      refine wp_addTree hc₁ ht.held ht.valid ht.depth (htlen ▸ hlen) (hlen' ▸ hcount)
        fun t' k' h' ht' hchunks' hf' ↦ ?_
      refine hQ (.tree t') h' ⟨owns_tree ht', ?_, hf₁.trans hf'⟩ ?_
      · rw [bytes_join_chunks hc.valid hchunks', htbytes]
        rfl
      · rw [length_join_chunks hchunks', List.length_map, hlen']

end Cord

end CordRs
