import CordRs.Btree.Append

/-!
# Adding bytes

Bytes are added at either end of a tree that is given up, in new flats: in the outermost leaf while
that has room, then in new leaves. They are cut from the end that comes next to the tree, so all
flats are full but the outermost one.

The hint for additional capacity is added to the bytes that are left, which wraps when it is near
`usize::MAX`. A flat is then made for the few bytes the sum wraps to and can be too small.

A new leaf stays opened until the next one is added, since the nodes on the way to it must not be
shared then.

## Main definitions

* `CordRs.addData`, `CordRs.appendData`, `CordRs.prependData`.
* `CordRs.fills`: the bytes of the new flats; `CordRs.chunks`, of flats of the largest size.
* `CordRs.ExtraFits`: no new flat is made too small by a hint.

## Main results

* `CordRs.wp_addData_fills`: the new flats and the outline of the tree that comes out.
* `CordRs.fills_eq_chunks_iff`: when the pieces are those of flats of the largest size.
* `CordRs.Btree.add_data_flats`: the flats are new, have the bytes in order and are full, and the
  shape does not depend on which nodes are shared, if and only if the hint fits.
-/

namespace CordRs

open RefHeap LevelTree

section Target

variable [Target]

/-- What remains of bytes after `n` of them were taken from one end. -/
def consume (back : Bool) (data : Bytes) (n : ℕ) : Bytes :=
  if back then data.drop n else data.take (data.length - n)

/-- The `n` bytes `consume` takes. -/
def consumed (back : Bool) (data : Bytes) (n : ℕ) : Bytes :=
  if back then data.take n else data.drop (data.length - n)

/-- A new flat with as many bytes as it takes, and the other bytes. -/
def fillOneFlat (back : Bool) (data : Bytes) (extra : ℕ) : HeapM (Addr × Bytes) := do
  let tag := newTag maxFlatSize (addUsize data.length extra)
  let n := min data.length (tagToLength tag)
  let f ← alloc (.payload (.flat tag (consumed back data n)))
  pure (f, consume back data n)

/-- New flats for a number of slots, and the bytes they do not take. -/
def fillFlats (back : Bool) : ℕ → Bytes → ℕ → HeapM (List Addr × Bytes)
  | 0, data, _ => pure ([], data)
  | slots + 1, data, extra => do
    if data = [] then
      pure ([], data)
    else
      let (f, data) ← fillOneFlat back data extra
      let (fs, data) ← fillFlats back slots data extra
      pure (join back [f] fs, data)

/-- A new leaf with as many bytes as it takes. -/
def newLeaf (back : Bool) (data : Bytes) (extra : ℕ) : HeapM Addr := do
  let leaf ← newNode 0
  let (edges, rest) ← fillFlats back maxCapacity data extra
  write leaf (.btree ⟨data.length - rest.length, 0, alignedBegin back edges.length, edges⟩)
  pure leaf

/-- Fill the free slots of a leaf; the bytes that it does not take come back. -/
def addDataToLeaf (back : Bool) (this : Addr) (data : Bytes) (extra : ℕ) : HeapM Bytes := do
  let b ← asBtree this
  let (edges, rest) ← fillFlats back (maxCapacity - b.size) data extra
  addEdges back this edges
  pure rest

/-- Add bytes in new leaves. The fuel bounds the number of leaves. -/
def addLeaves (back : Bool) (extra : ℕ) : ℕ → Addr → List Addr → ℕ → Bytes → HeapM Addr
  | 0, _, _, _, _ => throw .unreachable
  | fuel + 1, tree, stack, shareDepth, data => do
    let leaf ← newLeaf back data extra
    let b ← asBtree leaf
    let (tree, _) ← unwind back tree shareDepth b.length stack ⟨leaf, .popped⟩
    if b.length = data.length then
      pure tree
    else
      let t ← asBtree tree
      let (stack, shareDepth) ← buildOwnedStack back t.height tree []
      addLeaves back extra fuel tree stack shareDepth (consume back data b.length)

/-- Add bytes at one end of a tree. -/
def addData (back : Bool) (tree : Addr) (data : Bytes) (extra : ℕ) : HeapM Addr := do
  if data = [] then
    pure tree
  else
    let b ← asBtree tree
    let (leaf, stack, shareDepth) ← buildStack back b.height tree []
    let l ← asBtree leaf
    if l.size < maxCapacity then
      let result ← toOpResult leaf (decide (b.height < shareDepth))
      let rest ← addDataToLeaf back result.tree data extra
      addLength result.tree (data.length - rest.length)
      let (tree, stack) ← unwind back tree shareDepth (data.length - rest.length) stack result
      if rest = [] then
        pure tree
      else
        addLeaves back extra rest.length tree stack (b.height + 1) rest
    else
      addLeaves back extra data.length tree stack shareDepth data

/-- Append bytes. -/
def appendData (tree : Addr) (data : Bytes) (extra : ℕ) : HeapM Addr := addData true tree data extra

/-- Prepend bytes. -/
def prependData (tree : Addr) (data : Bytes) (extra : ℕ) : HeapM Addr :=
  addData false tree data extra

end Target

/-! ### Pieces of bytes -/

section Chunks

variable {back : Bool}

theorem join_consumed (data : Bytes) (n : ℕ) :
    join back (consumed back data n) (consume back data n) = data := by
  cases back <;> simp [join, consumed, consume]

theorem length_consume (data : Bytes) (n : ℕ) :
    (consume back data n).length = data.length - n := by
  cases back <;> simp [consume]

theorem length_consumed {data : Bytes} {n : ℕ} (hn : n ≤ data.length) :
    (consumed back data n).length = n := by
  cases back with
  | true => simpa [consumed] using hn
  | false =>
    rw [consumed, if_neg Bool.false_ne_true, List.length_drop]
    omega

variable [Target]

theorem maxFlatLength_pos : 0 < maxFlatLength :=
  (Nat.zero_le _).trans_lt (minFlatLength_pos.trans_le minFlatLength_le_maxFlatLength)

/-- The number of flats that take `n` bytes. -/
def flatsFor (n : ℕ) : ℕ := (n + (maxFlatLength - 1)) / maxFlatLength

@[simp] theorem flatsFor_zero : flatsFor 0 = 0 := by
  have := maxFlatLength_pos
  exact Nat.div_eq_of_lt (by omega)

theorem flatsFor_of_pos {n : ℕ} (hn : 0 < n) :
    flatsFor n = 1 + flatsFor (n - min n maxFlatLength) := by
  have hpos := maxFlatLength_pos
  rcases le_total n maxFlatLength with hle | hle
  · rw [Nat.min_eq_left hle, Nat.sub_self, flatsFor_zero, flatsFor]
    have : n + (maxFlatLength - 1) = (n - 1) + maxFlatLength := by omega
    rw [this, Nat.add_div_right _ hpos, Nat.div_eq_of_lt (by omega)]
  · rw [Nat.min_eq_right hle, flatsFor, flatsFor]
    have : n + (maxFlatLength - 1) = (n - maxFlatLength + (maxFlatLength - 1)) + maxFlatLength := by
      omega
    rw [this, Nat.add_div_right _ hpos, Nat.add_comm]

theorem flatsFor_mono {m n : ℕ} (hle : m ≤ n) : flatsFor m ≤ flatsFor n :=
  Nat.div_le_div_right (by omega)

/-- Bytes that fit in a flat take one flat at most. -/
theorem flatsFor_le_one {n : ℕ} (hle : n ≤ maxFlatLength) : flatsFor n ≤ 1 := by
  have hpos := maxFlatLength_pos
  calc flatsFor n ≤ flatsFor maxFlatLength := flatsFor_mono hle
    _ = 1 := by rw [flatsFor_of_pos hpos, Nat.min_self, Nat.sub_self, flatsFor_zero]

theorem flatsFor_le (n : ℕ) : flatsFor n ≤ n := by
  induction n using Nat.strong_induction_on with
  | _ n ih =>
    rcases Nat.eq_zero_or_pos n with rfl | hn
    · simp
    · have hpos := maxFlatLength_pos
      have hrest := ih (n - min n maxFlatLength) (by omega)
      rw [flatsFor_of_pos hn]
      omega

/-- The pieces bytes are cut into for flats, in the order in which they are cut off. -/
def chunks (back : Bool) (data : Bytes) : List Bytes :=
  if _h : data = [] then []
  else consumed back data (min data.length maxFlatLength) ::
    chunks back (consume back data (min data.length maxFlatLength))
termination_by data.length
decreasing_by
  have hpos := List.length_pos_iff.mpr ‹data ≠ []›
  have := maxFlatLength_pos
  rw [length_consume]
  omega

@[simp] theorem chunks_nil : chunks back [] = [] := by rw [chunks, dif_pos rfl]

theorem chunks_of_ne_nil {data : Bytes} (h : data ≠ []) :
    chunks back data = consumed back data (min data.length maxFlatLength) ::
      chunks back (consume back data (min data.length maxFlatLength)) := by
  rw [chunks, dif_neg h]

/-- The pieces next to each other are the bytes. -/
theorem flatten_chunks (data : Bytes) : (outward back (chunks back data)).flatten = data := by
  induction data using chunks.induct back with
  | case1 => simp
  | case2 data h ih =>
    rw [chunks_of_ne_nil h, outward_cons, flatten_join, ih, List.flatten_singleton, join_consumed]

theorem length_chunks (data : Bytes) : (chunks back data).length = flatsFor data.length := by
  induction data using chunks.induct back with
  | case1 => simp
  | case2 data h ih =>
    rw [chunks_of_ne_nil h, List.length_cons, ih, length_consume,
      flatsFor_of_pos (List.length_pos_iff.mpr h), Nat.add_comm]

theorem chunks_eq_nil {data : Bytes} : chunks back data = [] ↔ data = [] := by
  constructor
  · intro h
    simpa [h] using (@flatten_chunks back _ data).symm
  · rintro rfl
    exact chunks_nil

/-- All pieces but the last are as long as a flat can be. -/
theorem length_of_mem_chunks {data : Bytes} :
    ∀ c ∈ (chunks back data).dropLast, c.length = maxFlatLength := by
  induction data using chunks.induct back with
  | case1 => simp
  | case2 data h ih =>
    rw [chunks_of_ne_nil h]
    by_cases hnil : consume back data (min data.length maxFlatLength) = []
    · simp [hnil]
    · have hlt := List.length_pos_iff.mpr hnil
      rw [length_consume] at hlt
      rw [List.dropLast_cons_of_ne_nil fun hc ↦ hnil (chunks_eq_nil.mp hc)]
      intro c hc
      rcases List.mem_cons.mp hc with rfl | hc
      · rw [length_consumed (Nat.min_le_left _ _)]
        omega
      · exact ih c hc

/-! ### Pieces for a hint -/

/-- How many of `n` bytes a new flat takes. The sum with the hint wraps. -/
def fillLength (extra n : ℕ) : ℕ := min n (tagToLength (newTag maxFlatSize (addUsize n extra)))

theorem fillLength_le (extra n : ℕ) : fillLength extra n ≤ n := Nat.min_le_left _ _

theorem fillLength_le_max (extra n : ℕ) : fillLength extra n ≤ maxFlatLength :=
  (Nat.min_le_right _ _).trans (newTag_spec _).2.2.2.1

theorem fillLength_pos (extra : ℕ) {n : ℕ} (hn : 0 < n) : 0 < fillLength extra n :=
  lt_min hn ((Nat.zero_le _).trans_lt (minFlatLength_pos.trans_le (newTag_spec _).2.2.2.2))

/-- The pieces bytes are cut into for the flats that a hint gives, in the order in which they are
cut off. -/
def fills (back : Bool) (extra : ℕ) (data : Bytes) : List Bytes :=
  if _h : data = [] then []
  else consumed back data (fillLength extra data.length) ::
    fills back extra (consume back data (fillLength extra data.length))
termination_by data.length
decreasing_by
  have hpos := List.length_pos_iff.mpr ‹data ≠ []›
  have := fillLength_pos extra hpos
  rw [length_consume]
  omega

section Fills

variable {extra : ℕ}

@[simp] theorem fills_nil : fills back extra [] = [] := by rw [fills, dif_pos rfl]

theorem fills_of_ne_nil {data : Bytes} (h : data ≠ []) :
    fills back extra data = consumed back data (fillLength extra data.length) ::
      fills back extra (consume back data (fillLength extra data.length)) := by
  rw [fills, dif_neg h]

theorem flatten_fills (data : Bytes) : (outward back (fills back extra data)).flatten = data := by
  induction data using fills.induct back extra with
  | case1 => simp
  | case2 data h ih =>
    rw [fills_of_ne_nil h, outward_cons, flatten_join, ih, List.flatten_singleton, join_consumed]

theorem fills_eq_nil {data : Bytes} : fills back extra data = [] ↔ data = [] := by
  constructor
  · intro h
    simpa [h] using (@flatten_fills back _ extra data).symm
  · rintro rfl
    exact fills_nil

theorem length_fills_pos {data : Bytes} (h : data ≠ []) : 0 < (fills back extra data).length :=
  List.length_pos_iff.mpr fun hnil ↦ h (fills_eq_nil.mp hnil)

/-- The lengths of the pieces add up. -/
theorem sum_length_fills (data : Bytes) :
    ((fills back extra data).map List.length).sum = data.length := by
  have := congrArg List.length (@flatten_fills back _ extra data)
  rw [List.length_flatten, map_outward] at this
  rw [← this]
  cases back <;> simp [outward]

theorem length_fills_le (data : Bytes) : (fills back extra data).length ≤ data.length := by
  induction data using fills.induct back extra with
  | case1 => simp
  | case2 data h ih =>
    have hpos := fillLength_pos extra (List.length_pos_iff.mpr h)
    have hle := fillLength_le extra data.length
    rw [length_consume] at ih
    rw [fills_of_ne_nil h, List.length_cons]
    omega

/-- What remains when some pieces were cut off. -/
theorem consume_of_fills {data rest : Bytes} {slots n : ℕ}
    (hdrop : fills back extra rest = (fills back extra data).drop slots)
    (hn : data.length = n + rest.length) : consume back data n = rest := by
  obtain ⟨xs, rfl⟩ : ∃ xs, data = join back xs rest := by
    refine ⟨(outward back ((fills back extra data).take slots)).flatten, ?_⟩
    conv_lhs => rw [← @flatten_fills back _ extra data,
      ← List.take_append_drop slots (fills back extra data), outward_append, flatten_join, ← hdrop,
      flatten_fills]
  rw [length_join] at hn
  obtain rfl : n = xs.length := by omega
  cases back <;> simp [join, consume]

/-- Pieces that are full but for the last one are those of the largest flats. -/
theorem fills_eq_chunks_of_full {data : Bytes}
    (hfull : ∀ c ∈ (fills back extra data).dropLast, c.length = maxFlatLength) :
    fills back extra data = chunks back data := by
  induction data using fills.induct back extra with
  | case1 => simp
  | case2 data h ih =>
    have hle := fillLength_le extra data.length
    have hmax := fillLength_le_max extra data.length
    have hlength : fillLength extra data.length = min data.length maxFlatLength := by
      by_cases hnil : consume back data (fillLength extra data.length) = []
      · have := congrArg List.length hnil
        rw [length_consume, List.length_nil] at this
        omega
      · rw [fills_of_ne_nil h, List.dropLast_cons_of_ne_nil fun hc ↦ hnil (fills_eq_nil.mp hc)] at hfull
        have := hfull _ List.mem_cons_self
        rw [length_consumed hle] at this
        omega
    rw [fills_of_ne_nil h, chunks_of_ne_nil h, ← hlength, ih fun c hc ↦ hfull c ?_]
    rw [fills_of_ne_nil h]
    by_cases hnil : fills back extra (consume back data (fillLength extra data.length)) = []
    · simp [hnil] at hc
    · rw [List.dropLast_cons_of_ne_nil hnil]
      exact List.mem_cons_of_mem _ hc

/-- `n` bytes and the hint fit in a `usize`; or their sum wraps, and the flat that is made when it
wraps to less than a largest flat holds still has room for as many of the bytes left as that. -/
def ExtraFits (n extra : ℕ) : Prop :=
  n + extra ≤ usizeMax ∨
    min ((n + extra - (usizeMax + 1)) % maxFlatLength + (usizeMax + 1 - extra)) maxFlatLength ≤
      tagToLength (newTag maxFlatSize ((n + extra - (usizeMax + 1)) % maxFlatLength))

instance (n extra : ℕ) : Decidable (ExtraFits n extra) := inferInstanceAs (Decidable (_ ∨ _))

/-- The first piece is a full one, and the hint fits for what it leaves. -/
theorem extraFits_iff {n : ℕ} (hextra : extra ≤ usizeMax) (hn : n ≤ usizeMax) :
    ExtraFits n extra ↔ fillLength extra n = min n maxFlatLength ∧
      ExtraFits (n - min n maxFlatLength) extra := by
  have hpos := maxFlatLength_pos
  by_cases hsum : n + extra ≤ usizeMax
  · obtain ⟨-, -, hmin, hmax, -⟩ := newTag_spec (n + extra)
    refine iff_of_true (.inl hsum) ⟨?_, .inl (by omega)⟩
    rw [fillLength, addUsize_of_le hsum]
    omega
  · -- The sum wraps to this many bytes.
    obtain ⟨o, ho⟩ : ∃ o, n + extra = o + (usizeMax + 1) := ⟨n + extra - (usizeMax + 1), by omega⟩
    have hfill : fillLength extra n = min n (tagToLength (newTag maxFlatSize o)) := by
      rw [fillLength, addUsize_eq_sub (by omega) (by omega), ho, Nat.add_sub_cancel]
    obtain ⟨-, -, hmin, hmax, -⟩ := newTag_spec o
    rw [ExtraFits, or_iff_right hsum, hfill, ho, Nat.add_sub_cancel]
    rcases lt_or_ge o maxFlatLength with hlt | hge
    · rw [Nat.mod_eq_of_lt hlt, show o + (usizeMax + 1 - extra) = n by omega]
      constructor
      · intro hfits
        exact ⟨by omega, .inl (by omega)⟩
      · rintro ⟨heq, -⟩
        omega
    · -- The flat is a largest one, and the sum for the bytes left wraps as well.
      have hleft : n - min n maxFlatLength + extra = o - maxFlatLength + (usizeMax + 1) := by omega
      rw [ExtraFits, or_iff_right (by omega), hleft, Nat.add_sub_cancel, ← Nat.mod_eq_sub_mod hge]
      exact (and_iff_right (by omega)).symm

theorem fills_eq_chunks_iff {data : Bytes} (hextra : extra ≤ usizeMax)
    (hdata : data.length ≤ usizeMax) :
    fills back extra data = chunks back data ↔ ExtraFits data.length extra := by
  induction data using chunks.induct back with
  | case1 => exact iff_of_true (fills_nil.trans chunks_nil.symm) (.inl ((Nat.zero_add _).trans_le hextra))
  | case2 data h ih =>
    rw [extraFits_iff hextra hdata, ← @length_consume back,
      ← ih ((length_consume _ _).trans_le (Nat.sub_le _ _) |>.trans hdata), fills_of_ne_nil h,
      chunks_of_ne_nil h, List.cons.injEq]
    constructor
    · rintro ⟨hfirst, hrest⟩
      have hlength := congrArg List.length hfirst
      rw [length_consumed (fillLength_le _ _), length_consumed (Nat.min_le_left _ _)] at hlength
      exact ⟨hlength, hlength ▸ hrest⟩
    · rintro ⟨hlength, hrest⟩
      rw [hlength]
      exact ⟨rfl, hrest⟩

end Fills

end Chunks

/-! ### New flats -/

section Rules

variable [Target] {back : Bool} {h h' : Heap Node} {Z : List Addr} {R S : Multiset Addr} {k : ℕ}
  {t : Rep}

/-- A data edge that is a flat at an address without a live node. -/
def Edge.NewFlat (h : Heap Node) (e : Edge) : Prop :=
  (∃ a tag data, e = .whole a (.flat tag data)) ∧ h.node? e.addr = none

/-- A data edge that is a flat at an address that none of the references lead to. -/
def Edge.FreshFlat (h : Heap Node) (R : Multiset Addr) (e : Edge) : Prop :=
  (∃ a tag data, e = .whole a (.flat tag data)) ∧ ¬ Reach h R e.addr

omit [Target] in
theorem Edge.NewFlat.of_grows {e : Edge} (he : e.NewFlat h') (hg : Grows h h') : e.NewFlat h := by
  refine ⟨he.1, ?_⟩
  cases hn : h.node? e.addr with
  | none => rfl
  | some n => exact absurd (hg _ _ hn) (by simp [he.2])

theorem Edge.FreshFlat.of_frame {e : Edge} (he : e.FreshFlat h' S) (hf : Frame Z R h h')
    (hR : R ≤ S) : e.FreshFlat h R :=
  ⟨he.1, fun hr ↦ he.2 ((hr.transfer hf.kept).mono hR)⟩

/-- What data edges and other references lead to. -/
private theorem reach_edges {es : List Edge} (hes : ∀ e ∈ es, e.Held h) {a : Addr}
    (ha : Reach h (((es.map Edge.addr : List Addr) : Multiset Addr) + R) a) :
    Reach h R a ∨ ∃ e ∈ es, a = e.addr ∨ a = e.base.1 := by
  induction ha with
  | root ha =>
    rcases Multiset.mem_add.mp ha with ha | ha
    · obtain ⟨e, he, rfl⟩ := List.mem_map.mp (Multiset.mem_coe.mp ha)
      exact .inr ⟨e, he, .inl rfl⟩
    · exact .inl (.root ha)
  | child hb hn hc ih =>
    rcases ih with hb | ⟨e, he, hb⟩
    · exact .inl (hb.child hn hc)
    · obtain ⟨hnode, hbase⟩ := hes e he
      rcases hb with rfl | rfl
      · obtain rfl := Option.some.inj (hn.symm.trans hnode)
        cases e with
        | whole a p => simp [Pointers.children, Node.children, Edge.node] at hc
        | part a length start child p =>
          exact .inr ⟨_, he, .inr (List.mem_singleton.mp hc)⟩
      · obtain rfl := Option.some.inj (hn.symm.trans hbase)
        simp [Pointers.children, Node.children] at hc

/-- The data edges of a tree, next to the references held by others. -/
def leafRefs (t : Rep) (R : Multiset Addr) : Multiset Addr :=
  ((t.leaves.map Edge.addr : List Addr) : Multiset Addr) + R

/-- The data edges of a tree are kept by whatever makes another tree that still has them. -/
theorem frame_leafRefs {t' : Rep} (hf : Frame Z R h h') (ht : t.Held h) (ht' : t'.Held h')
    (hsub : t.leaves ⊆ t'.leaves) : Frame Z (leafRefs t R) h h' where
  opened := hf.opened
  kept a ha := by
    rcases reach_edges ht.leaves ha with ha | ⟨e, he, ha⟩
    · exact hf.kept a ha
    · have hheld := ht.leaves e he
      have hheld' := ht'.leaves e (hsub he)
      rcases ha with rfl | rfl
      · rw [hheld.1, hheld'.1]
      · rw [hheld.2, hheld'.2]

omit [Target] in
theorem leafRefs_le {t' : Rep} {es : List Edge} (h : t'.leaves = join back t.leaves es) :
    leafRefs t R ≤ leafRefs t' R := by
  rw [leafRefs, leafRefs, h, map_join, coe_join]
  exact add_le_add_left (Multiset.le_add_right _ _) R

theorem Edge.NewFlat.fresh {e : Edge} (he : e.NewFlat h) (ht : t.Held h)
    (ho : Owned h Z S) (hR : R ≤ S) : e.FreshFlat h (leafRefs t R) := by
  refine ⟨he.1, fun hr ↦ ?_⟩
  rcases reach_edges ht.leaves hr with hr | ⟨u, hu, ha⟩
  · obtain ⟨n, hn⟩ := (ho.of_reach (hr.mono hR)).2
    simp [he.2] at hn
  · have hnone := he.2
    rcases ha with ha | ha <;> rw [ha] at hnone
    · simp [(ht.leaves u hu).1] at hnone
    · simp [(ht.leaves u hu).2] at hnone

/-- A new flat takes as many bytes as it has room for. -/
theorem wp_fillOneFlat {data : Bytes} {extra : ℕ} (ho : Owned h Z R) (hdata : data ≠ [])
    {Q : Addr × Bytes → Heap Node → Prop}
    (hQ : ∀ (e : Edge) h', e.Held h' → e.Valid → e.NewFlat h → Owned h' Z (e.addr ::ₘ R) →
      Grows h h' → e.data = consumed back data (fillLength extra data.length) →
      Q (e.addr, consume back data (fillLength extra data.length)) h') :
    wp (fillOneFlat back data extra) Q h := by
  obtain ⟨hlo, hhi, -, -, -⟩ := newTag_spec (addUsize data.length extra)
  rw [fillOneFlat, wp_bind]
  refine wp_alloc_new ho fun a h₁ hnone ho₁ hg₁ ha₁ ↦ ?_
  rw [wp_pure]
  have hv : Payload.Valid (.flat (newTag maxFlatSize (addUsize data.length extra))
      (consumed back data (fillLength extra data.length))) :=
    ⟨hlo, hhi, by
      rw [length_consumed (fillLength_le _ _)]
      exact ⟨fillLength_pos extra (List.length_pos_iff.mpr hdata), Nat.min_le_right _ _⟩⟩
  exact hQ (.whole a (.flat _ _)) h₁ ⟨ha₁, ha₁⟩ hv ⟨⟨a, _, _, rfl⟩, hnone⟩
    (ho₁.closeCell ha₁ ⟨[], rfl, hv, rfl⟩ (zero_add R).symm) hg₁ rfl

/-- New flats take as many pieces of the bytes as there are slots. -/
theorem wp_fillFlats {slots : ℕ} {data : Bytes} {extra : ℕ} (ho : Owned h Z R)
    {Q : List Addr × Bytes → Heap Node → Prop}
    (hQ : ∀ (us : List Edge) rest h', (∀ u ∈ us, u.Held h' ∧ u.Valid ∧ u.NewFlat h) →
      Owned h' Z (((us.map Edge.addr : List Addr) : Multiset Addr) + R) → Grows h h' →
      us.map Edge.data = (fills back extra data).take slots →
      fills back extra rest = (fills back extra data).drop slots → rest.length ≤ data.length →
      Q ((outward back us).map Edge.addr, rest) h') :
    wp (fillFlats back slots data extra) Q h := by
  induction slots generalizing h R data Q with
  | zero =>
    refine (wp_pure _ _ _).mpr ?_
    have := hQ [] data h (by simp) (by simpa using ho) (.refl h) (by simp) (by simp) le_rfl
    simpa using this
  | succ slots ih =>
    rw [fillFlats]
    by_cases hdata : data = []
    · subst hdata
      rw [if_pos rfl, wp_pure]
      have := hQ [] [] h (by simp) (by simpa using ho) (.refl h) (by simp) (by simp) le_rfl
      simpa using this
    · rw [if_neg hdata, wp_bind]
      refine wp_fillOneFlat ho hdata fun e h₁ he hv hnew ho₁ hg₁ hbytes ↦ ?_
      have hle : (consume back data (fillLength extra data.length)).length ≤ data.length := by
        rw [length_consume]
        exact Nat.sub_le _ _
      rw [wp_bind]
      refine ih ho₁ fun us rest h₂ hus ho₂ hg₂ htake hdrop hrest ↦ ?_
      rw [wp_pure]
      have := hQ (e :: us) rest h₂ (fun u hu ↦ ?_) (ho₂.congr ?_) (hg₁.trans hg₂) ?_ ?_
        (hrest.trans hle)
      · simpa [outward_cons] using this
      · rcases List.mem_cons.mp hu with rfl | hu
        · exact ⟨⟨hg₂ _ _ he.1, hg₂ _ _ he.2⟩, hv, hnew⟩
        · exact ⟨(hus u hu).1, (hus u hu).2.1, (hus u hu).2.2.of_grows hg₁⟩
      · rw [List.map_cons, coe_cons_add, Multiset.add_cons]
      · rw [fills_of_ne_nil hdata, List.map_cons, List.take_succ_cons, hbytes, htake]
      · rw [fills_of_ne_nil hdata, List.drop_succ_cons, hdrop]

/-- The bytes of new flats add up to those that were taken. -/
private theorem edgesLength_of_fills {us : List Edge} {data rest : Bytes} {slots : ℕ}
    (hus : ∀ u ∈ us, u.Valid) (htake : us.map Edge.data = (fills back extra data).take slots)
    (hdrop : fills back extra rest = (fills back extra data).drop slots) :
    data.length = edgesLength us + rest.length := by
  have hedges : edgesLength us = ((us.map Edge.data).map List.length).sum := by
    rw [edgesLength, List.map_map]
    exact congrArg _ (List.map_congr_left fun u hu ↦ (hus u hu).length_data.symm)
  rw [hedges, htake, ← @sum_length_fills back _ extra data,
    ← @sum_length_fills back _ extra rest, hdrop,
    ← List.sum_append, ← List.map_append, List.take_append_drop]

private theorem length_of_fills {us : List Edge} {data : Bytes} {slots : ℕ}
    (htake : us.map Edge.data = (fills back extra data).take slots) :
    us.length = min slots ((fills back extra data).length) := by
  rw [← List.length_map Edge.data, htake, List.length_take]

/-- A new leaf takes bytes in new flats and is handed out opened. -/
theorem wp_newLeaf {data : Bytes} {extra : ℕ} (ho : Owned h Z R) (hdata : data ≠ [])
    {Q : Addr → Heap Node → Prop}
    (hQ : ∀ (c : Crumb) (e : Edge) (us : List Edge) rest h', Leg back h' Z R 0 [c] (.leaf e) →
      (plug back [c] (.leaf e)).outline = fillOutline back [] us → (∀ u ∈ us, u.NewFlat h) →
      us.map Edge.data = (fills back extra data).take maxCapacity →
      fills back extra rest = (fills back extra data).drop maxCapacity →
      data.length = c.hd.length + rest.length → Frame Z R h h' → Q c.hd.addr h') :
    wp (newLeaf back data extra) Q h := by
  rw [newLeaf, wp_bind]
  refine wp_allocBtree ho (Nat.zero_le _) fun a h₁ ho₁ hg₁ ha₁ ↦ ?_
  have haZ := (List.nodup_cons.mp ho₁.nodup).1
  rw [wp_bind]
  refine wp_fillFlats ho₁ fun us rest h₂ hus ho₂ hg₂ htake hdrop hrest ↦ ?_
  rw [wp_bind]
  refine wp_write ho₂ List.mem_cons_self fun h₃ ho₃ hne₃ ha₃ ↦ ?_
  have hf₃ : Frame Z _ h₂ h₃ := ho₂.frame_of_opened List.mem_cons_self haZ hne₃
  have hsum := edgesLength_of_fills (fun u hu ↦ (hus u hu).2.1) htake hdrop
  have hlen := length_of_fills htake
  have hne : us ≠ [] := by
    rintro rfl
    have := @length_fills_pos back _ extra _ hdata
    rw [List.length_nil] at hlen
    have : 0 < maxCapacity := by decide
    omega
  have hcap : us.length ≤ maxCapacity := hlen ▸ Nat.min_le_left _ _
  have hus₃ : ∀ u ∈ us, Rep.Held h₃ (.leaf u) := by
    intro u hu
    have hheld : Rep.Held h₂ (.leaf u) := Rep.held_leaf.mpr (hus u hu).1
    refine hheld.frame hf₃ (.root ?_)
    exact Multiset.mem_add.mpr (.inl (Multiset.mem_coe.mpr (List.mem_map_of_mem hu)))
  have hout : outward back us ≠ [] := fun hnil ↦ hne (List.eq_nil_of_length_eq_zero (by
    simpa using congrArg List.length hnil))
  obtain ⟨vs, e, hvs⟩ := exists_join back hout
  have hmem : ∀ {u}, u ∈ join back vs [e] → u ∈ us := fun hu ↦ mem_outward.mp (hvs ▸ hu)
  have hvlen : vs.length + 1 = us.length := by
    simpa using (congrArg List.length hvs).symm
  have hwrite : data.length - rest.length = edgesLength us := by omega
  have hedges : edgesLength us = edgesLength vs + e.length := by
    simpa using congrArg edgesLength hvs
  rw [hwrite, List.length_map, length_outward] at ha₃
  have hmap : (join back (vs.map RoseTree.leaf) [.leaf e] : List Rep) =
      (outward back us).map .leaf := by
    rw [hvs, map_join, List.map_singleton]
  have hnode : Rep.Held h₃ (.node ⟨a, edgesLength us, 0, alignedBegin back us.length⟩
      ((outward back us).map .leaf)) := by
    refine Rep.held_node.mpr ⟨?_, fun t ht ↦ ?_⟩
    · rw [ha₃]
      simp [Rep.btree, Function.comp_def]
    · obtain ⟨u, hu, rfl⟩ := List.mem_map.mp ht
      exact hus₃ u (mem_outward.mp hu)
  rw [wp_pure]
  refine hQ ⟨⟨a, edgesLength us, 0, alignedBegin back us.length⟩, vs.map .leaf⟩ e us rest h₃
    ⟨ho₃.congr ?_, ?_, ?_, ?_⟩ ?_ (fun u hu ↦ (hus u hu).2.2.of_grows hg₁) htake hdrop hsum
    (((ho.frame_of_grows hg₁).trans ((ho₁.frame_of_grows hg₂).mono (List.subset_cons_self _ _)
      le_rfl)).trans (hf₃.mono (List.Subset.refl _) (Multiset.le_add_left _ _)))
  · have hrest : ((vs.map RoseTree.leaf).map Rep.addr : List Addr) = vs.map Edge.addr := by
      rw [List.map_map]
      rfl
    rw [← @coe_outward _ back, ← map_outward, hvs, sideRefs_cons, sideRefs_nil, List.append_nil,
      hrest, map_join, coe_join, Rep.addr_leaf, ← Multiset.singleton_add]
    exact (congrArg (· + R) (add_comm _ _)).trans (add_assoc _ _ _)
  · rw [plug, plug_nil, hmap]
    exact hnode
  · exact Rep.Valid.leaf_iff.mpr ⟨rfl, (hus e (hmem (by simp))).2.1⟩
  · refine ⟨rfl, ?_, ?_, fun t ht ↦ ?_, trivial⟩
    · rw [List.length_map]
      cases back <;> simp [alignedBegin] <;> omega
    · rw [hedges, List.map_map]
      rfl
    · obtain ⟨v, hv, rfl⟩ := List.mem_map.mp ht
      exact Rep.Valid.leaf_iff.mpr ⟨rfl, (hus v (hmem (by simp [hv]))).2.1⟩
  · rw [plug, plug_nil, hmap, Rep.outline_node, fillOutline]
    simp [Function.comp_def]

/-- The new flats of a first step and those of the steps after it. -/
private theorem take_append_drop_of_fills {us vs : List Edge} {data rest : Bytes}
    {slots : ℕ} (htake : us.map Edge.data = (fills back extra data).take slots)
    (hdrop : fills back extra rest = (fills back extra data).drop slots)
    (hvs : vs.map Edge.data = fills back extra rest) :
    (us ++ vs).take slots = us ∧ (us ++ vs).drop slots = vs ∧
      (us ++ vs).map Edge.data = fills back extra data := by
  have hlen : us.length = min slots (fills back extra data).length := by
    rw [← List.length_map Edge.data, htake, List.length_take]
  have hmap : (us ++ vs).map Edge.data = fills back extra data := by
    rw [List.map_append, htake, hvs, hdrop, List.take_append_drop]
  rcases le_total slots (fills back extra data).length with hle | hle
  · rw [Nat.min_eq_left hle] at hlen
    exact ⟨List.take_left' hlen, List.drop_left' hlen, hmap⟩
  · rw [hdrop, List.drop_of_length_le hle, List.map_eq_nil_iff] at hvs
    have hus : us.length ≤ slots := hlen ▸ Nat.min_le_left _ _
    subst hvs
    rw [List.append_nil] at hmap ⊢
    exact ⟨List.take_of_length_le hus, List.drop_of_length_le hus, hmap⟩

/-- The bytes that do not fit in the outermost leaf are added in new leaves. -/
private theorem wp_addLeaves {fuel extra n : ℕ} {tree : Addr} {lower up : List Crumb} {cur : Rep}
    {data : Bytes}
    (ho : Owned h (spineAddrs up ++ Z)
      ((plug back lower cur).addr ::ₘ ((sideRefs up : Multiset Addr) + R)))
    (hold : (plug back (lower ++ up) cur).Held h) (hcur : cur.Valid 1)
    (hv : SpineValid 1 (lower ++ up) cur.length) (hn : n = up.length ∨ lower = [] ∧ up.length ≤ n)
    (htree : tree = (plug back (lower ++ up) cur).addr)
    (hdepth : 1 + (lower ++ up).length ≤ maxDepth) (hdata : data ≠ []) (hfuel : data.length ≤ fuel)
    (hlen : (plug back (lower ++ up) cur).length + data.length ≤ usizeMax)
    (hcount : (plug back (lower ++ up) cur).leaves.length + (fills back extra data).length ≤
      maxCapacity ^ maxDepth) {Q : Addr → Heap Node → Prop}
    (hQ : ∀ t' k' us h', Holding h' Z R (k' + 1) t' →
      (∀ u ∈ us, u.FreshFlat h (leafRefs (plug back (lower ++ up) cur) R)) →
      us.map Edge.data = fills back extra data →
      t'.outline = addLeavesOutline back (plug back (lower ++ up) cur).outline us →
      Frame Z R h h' → Q t'.addr h') :
    wp (addLeaves back extra fuel tree (spineAddrs (lower ++ up)) n data) Q h := by
  induction fuel generalizing h n tree lower up cur data Q with
  | zero => exact absurd (List.eq_nil_of_length_eq_zero (Nat.le_zero.mp hfuel)) hdata
  | succ fuel ih =>
    have hpos := List.length_pos_iff.mpr hdata
    have hvalid : (plug back (lower ++ up) cur).Valid (1 + (lower ++ up).length) :=
      plug_valid.mpr ⟨hcur, hv⟩
    rw [addLeaves, wp_bind]
    refine wp_newLeaf ho hdata fun c e us rest h₁ hl₁ hout hnew htake hdrop hsum hf₁ ↦ ?_
    have hnode₁ := hl₁.held.node?
    have hfr : Frame Z R h h₁ := hf₁.mono (List.subset_append_right _ _)
      ((Multiset.le_add_left _ _).trans (Multiset.le_cons_self _ _))
    have hus := length_of_fills htake
    have hleaves₁ : (plug back [c] (.leaf e)).leaves = outward back us := by
      rw [← Rep.leaves_outline, hout, leaves_fillOutline]
      simp
    have hcpos : 0 < c.hd.length := hl₁.valid.length_pos
    rw [wp_bind]
    refine wp_asBtree hnode₁ ?_
    rw [wp_bind]
    refine wp_unwind_popped [c] lower up (.leaf e) cur hl₁
      (held_frame_append lower hold hf₁ (List.subset_append_left _ _) (by simp)
        fun b hb ↦ by simp [hb]) hcur hv rfl ?_ hn htree (by simp)
      hdepth ?_ fun ds g i stack h₂ hi hl hd₂ hout₂ hf₂ ↦ ?_
    · rw [show (plug back [c] (.leaf e)).length = c.hd.length from rfl]
      omega
    · rw [hleaves₁, length_outward, hus]
      exact (Nat.add_le_add_left (Nat.min_le_right _ _) _).trans hcount
    obtain rfl : i = 0 := Nat.le_zero.mp hi
    -- The tree after the new leaf was added.
    rw [attachOutline_eq, ← outline_plug, hout] at hout₂
    have hstep : ∀ {vs : List Edge}, us ++ vs ≠ [] → (us ++ vs).take maxCapacity = us →
        (us ++ vs).drop maxCapacity = vs →
        addLeavesOutline back (plug back (lower ++ up) cur).outline (us ++ vs) =
          addLeavesOutline back (plug back ds g).outline vs := by
      intro vs hne htake hdrop
      rw [addLeavesOutline_of_ne_nil _ hne, htake, hdrop, unplug_outline, hout₂]
      rw [hvalid.depth_outline, Nat.add_sub_cancel_left]
    have hleaves : (plug back ds g).leaves =
        join back (plug back (lower ++ up) cur).leaves (outward back us) := by
      rw [← Rep.leaves_outline, hout₂, leaves_attachOutline, ← outline_plug, Rep.leaves_outline,
        LevelTree.plug, leaves_fillOutline]
      simp
    have hfresh : ∀ u ∈ us, u.FreshFlat h (leafRefs (plug back (lower ++ up) cur) R) := fun u hu ↦
      (hnew u hu).fresh hold ho ((Multiset.le_add_left _ _).trans (Multiset.le_cons_self _ _))
    have hne : us ≠ [] := by
      rintro rfl
      have := hl₁.valid.leaves_length_pos
      rw [hleaves₁, outward_nil] at this
      exact absurd this (lt_irrefl 0)
    have hpos₂ : 0 < 0 + ds.length := by
      refine hl.valid.level_pos ?_
      rw [hleaves, length_join, length_outward]
      exact Nat.add_le_add hvalid.leaves_length_pos (List.length_pos_iff.mpr hne)
    dsimp only
    by_cases hall : c.hd.length = data.length
    · rw [Rep.btree_length, if_pos hall, wp_pure]
      have hrest : rest = [] := List.eq_nil_of_length_eq_zero (by omega)
      subst hrest
      rw [fills_nil] at hdrop
      obtain ⟨k', hk'⟩ := hl.exists_holding hd₂ hpos₂
      obtain ⟨htake', hdrop', hdata'⟩ := take_append_drop_of_fills htake
        (fills_nil.trans hdrop) (List.map_nil.trans fills_nil.symm)
      refine hQ _ k' us h₂ hk' hfresh (by simpa using hdata') ?_ (hfr.trans hf₂)
      have := hstep (by simpa using hne) htake' hdrop'
      rw [List.append_nil, addLeavesOutline_nil] at this
      exact this.symm
    · rw [Rep.btree_length, if_neg hall, consume_of_fills hdrop hsum]
      rw [Nat.zero_add, List.length_pos_iff] at hpos₂
      obtain ⟨c', ds, rfl⟩ := List.exists_cons_of_ne_nil hpos₂
      -- All nodes on the way to the new leaf are still opened.
      have hone := hl.owned.one
      rw [spineAddrs_cons, List.cons_append] at hone
      have hl' := hl.raise
      have hv' := hl'.valid
      rw [add_comm] at hv'
      obtain ⟨hd', ts', hroot⟩ := hv'.exists_node
      have hheight : ds.length = hd'.height :=
        Nat.succ_injective (Rep.Valid.node_iff.mp (hroot ▸ hv')).1
      have hnode := hl'.held.node?
      rw [congrArg Rep.root hroot] at hnode
      rw [wp_bind]
      refine wp_asBtree hnode ?_
      rw [wp_bind, Rep.btree_height, ← hheight]
      refine wp_buildOwnedStack hl'.held (fun a ha ↦ hone a (by simp [ha]))
        (hone _ List.mem_cons_self) ?_
      rw [List.append_nil]
      have hrest : fills back extra rest ≠ [] := fun hnil ↦ hall (by
        rw [fills_eq_nil] at hnil
        rw [hsum, hnil, List.length_nil, Nat.add_zero])
      have hflats : (fills back extra data).length = us.length + (fills back extra rest).length := by
        rw [hdrop, hus, List.length_drop]
        omega
      have hslen : edgesLength us = c.hd.length := by
        rw [← @edgesLength_outward back, ← hleaves₁]
        exact hl₁.valid.length_leaves
      have hlen' : (plug back (c' :: ds) g).length =
          (plug back (lower ++ up) cur).length + c.hd.length := by
        rw [← hl.valid.length_leaves, hleaves, ← hvalid.length_leaves, edgesLength_join,
          edgesLength_outward, hslen]
      refine (@ih h₂ _ _ [] ds _ _) hl'.owned hl'.held hl'.focus hl'.spine
        (.inr ⟨rfl, Nat.le_succ _⟩) rfl ?_ ?_ ?_ ?_ ?_ fun t' k' vs h₃ ht' hfresh' hvs hout' hf₃ ↦ ?_
      · simpa [Nat.add_comm] using hd₂
      · exact fun hnil ↦ hrest (fills_eq_nil.mpr hnil)
      · omega
      · have : (plug back ([] ++ ds) (.node c'.hd (join back c'.rest [g]))).length =
          (plug back (lower ++ up) cur).length + c.hd.length := hlen'
        omega
      · have : (plug back ([] ++ ds) (.node c'.hd (join back c'.rest [g]))).leaves = _ := hleaves
        rw [this, length_join, length_outward]
        omega
      · obtain ⟨htake', hdrop', hdata'⟩ := take_append_drop_of_fills htake hdrop hvs
        refine hQ t' k' (us ++ vs) h₃ ht' (fun u hu ↦ ?_) hdata' ?_ (hfr.trans (hf₂.trans hf₃))
        · rcases List.mem_append.mp hu with hu | hu
          · exact hfresh u hu
          · refine (hfresh' u hu).of_frame (frame_leafRefs (hfr.trans hf₂) hold hl.held fun e he ↦ ?_)
              (leafRefs_le hleaves)
            exact hleaves ▸ mem_join.mpr (.inl he)
        · rw [hstep (by simp [hne]) htake' hdrop', hout']
          rfl

/-- New flats are added to an opened leaf that has room. -/
private theorem wp_fillLeaf {a : Addr} {hm : BtreeHeader} {ms : List Rep} {data : Bytes} {extra : ℕ}
    (ho : Owned h (a :: Z) (((ms.map Rep.addr : List Addr) : Multiset Addr) + R))
    (ha : h.node? a = some (.btree (Rep.btree hm ms))) (hms : ∀ t ∈ ms, t.Held h)
    (hmv : Rep.Valid 1 (.node hm ms)) (hroom : ms.length < maxCapacity) (hdata : data ≠ [])
    (hlen : hm.length + data.length ≤ usizeMax)
    {Q : Bytes → Heap Node → Prop}
    (hQ : ∀ (m : Rep) (us : List Edge) rest h', m.addr = a → Owned h' Z (m.addr ::ₘ R) →
      m.Held h' → m.Valid 1 → m.length = hm.length + (data.length - rest.length) →
      m.outline = fillOutline back (ms.map Rep.outline) us → (∀ u ∈ us, u.NewFlat h) → us ≠ [] →
      us.map Edge.data = (fills back extra data).take (maxCapacity - ms.length) →
      fills back extra rest = (fills back extra data).drop (maxCapacity - ms.length) →
      data.length = edgesLength us + rest.length → Frame Z R h h' → Q rest h') :
    wp (addDataToLeaf back a data extra) (fun rest h₁ ↦
      wp (addLength a (data.length - rest.length)) (fun _ h₂ ↦ Q rest h₂) h₁) h := by
  have haZ := (List.nodup_cons.mp ho.nodup).1
  obtain ⟨hk, -, -, hsum, hmsv⟩ := Rep.Valid.node_iff.mp hmv
  obtain hk : hm.height = 0 := (Nat.succ_injective hk).symm
  rw [addDataToLeaf, wp_bind]
  refine wp_asBtree ha ?_
  rw [wp_bind, Rep.btree_size]
  refine wp_fillFlats ho fun us rest h₁ hus ho₁ hg₁ htake hdrop hrest ↦ ?_
  have huslen := length_of_fills htake
  have hjlen := edgesLength_of_fills (fun u hu ↦ (hus u hu).2.1) htake hdrop
  have hne : us ≠ [] := by
    rintro rfl
    have := @length_fills_pos back _ extra _ hdata
    rw [List.length_nil] at huslen
    omega
  rw [wp_bind]
  refine wp_addEdges ho₁ List.mem_cons_self (hg₁ _ _ ha) (by simp; omega) fun h₂ ho₂ hne₂ ha₂ ↦ ?_
  rw [wp_pure]
  refine wp_addLength ho₂ List.mem_cons_self ha₂ (by simp only [Rep.btree_length]; omega)
    fun h₃ ho₃ hne₃ ha₃ ↦ ?_
  have hf₃ : Frame Z _ h₁ h₃ := ho₁.frame_of_opened List.mem_cons_self haZ fun x hx ↦
    (hne₃ x hx).trans (hne₂ x hx)
  -- The leaf has its old edges and the new flats.
  have hts : ∀ t ∈ join back ms ((outward back us).map .leaf), Rep.Held h₃ t ∧ Rep.Valid 0 t := by
    intro t ht
    rcases mem_join.mp ht with ht | ht
    · refine ⟨((hms t ht).grows hg₁).frame hf₃ (.root ?_), hk ▸ hmsv t ht⟩
      exact Multiset.mem_add.mpr (.inr (Multiset.mem_add.mpr
        (.inl (Multiset.mem_coe.mpr (List.mem_map_of_mem ht)))))
    · obtain ⟨u, hu, rfl⟩ := List.mem_map.mp ht
      have hu := mem_outward.mp hu
      have hheld : Rep.Held h₁ (.leaf u) := Rep.held_leaf.mpr (hus u hu).1
      refine ⟨hheld.frame hf₃ (.root ?_), Rep.Valid.leaf_iff.mpr ⟨rfl, (hus u hu).2.1⟩⟩
      exact Multiset.mem_add.mpr (.inl (Multiset.mem_coe.mpr (List.mem_map_of_mem hu)))
  have hmap : ((outward back us).map (RoseTree.leaf : Edge → Rep)).map Rep.addr =
      (outward back us).map Edge.addr := by
    rw [List.map_map]
    rfl
  have ha₃' : h₃.node? a = some (.btree ⟨hm.length + (data.length - rest.length), 0,
      alignedBegin back (ms.length + us.length),
      (join back ms ((outward back us).map .leaf)).map Rep.addr⟩) := by
    rw [ha₃, map_join, hmap]
    simp [Rep.btree, Btree.size, hk]
  have hrefs : ((us.map Edge.addr : List Addr) : Multiset Addr) +
      (((ms.map Rep.addr : List Addr) : Multiset Addr) + R) =
        (((join back ms ((outward back us).map .leaf)).map Rep.addr : List Addr) : Multiset Addr) +
          R := by
    rw [map_join, hmap, coe_join, map_outward, coe_outward]
    abel
  have hsize : (join back ms ((outward back us).map .leaf) : List Rep).length =
      ms.length + us.length := by
    rw [length_join, List.length_map, length_outward]
  have hlength : hm.length + (data.length - rest.length) =
      ((join back ms ((outward back us).map .leaf)).map Rep.length).sum := by
    have : ((outward back us).map (Rep.length ∘ RoseTree.leaf)).sum = edgesLength us := by
      rw [map_outward, sum_outward]
      rfl
    rw [map_join, sum_join, hsum, hjlen, Nat.add_sub_cancel, List.map_map, this]
  obtain ⟨ho₄, hheld, hv⟩ := closeNode (ho₃.congr hrefs) ha₃' hts
    (fun hnil ↦ hne (List.eq_nil_of_length_eq_zero (by
      rw [hnil, List.length_nil] at hsize
      omega)))
    (by
      rw [hsize]
      cases back <;> simp [alignedBegin] <;> omega) hlength
  refine hQ (.node ⟨a, _, 0, alignedBegin back (ms.length + us.length)⟩ _) us rest h₃ rfl ho₄ hheld
    hv rfl ?_ (fun u hu ↦ (hus u hu).2.2) hne htake hdrop hjlen
    (((ho.frame_of_grows hg₁).mono (List.subset_cons_self _ _) (Multiset.le_add_left _ _)).trans
      (hf₃.mono (List.Subset.refl _)
        ((Multiset.le_add_left _ _).trans (Multiset.le_add_left _ _))))
  rw [Rep.outline_node, fillOutline, map_join, List.length_map]
  simp [Function.comp_def]

/-- Bytes are added in new flats, in the outermost leaf and in new ones. -/
theorem wp_addData_fills {data : Bytes} {extra : ℕ} (ht : Holding h Z R (k + 1) t)
    (hlen : t.length + data.length ≤ usizeMax)
    (hcount : t.leaves.length + (fills back extra data).length ≤ maxCapacity ^ maxDepth)
    {Q : Addr → Heap Node → Prop}
    (hQ : ∀ t' k' us h', Holding h' Z R (k' + 1) t' → (∀ u ∈ us, u.FreshFlat h (leafRefs t R)) →
      us.map Edge.data = fills back extra data → t'.outline = addDataOutline back t.outline us →
      Frame Z R h h' → Q t'.addr h') :
    wp (addData back t.addr data extra) Q h := by
  rw [addData]
  by_cases hdata : data = []
  · rw [if_pos hdata, wp_pure]
    exact hQ t k [] h ht (by simp) (by simp [hdata]) rfl (.refl h)
  rw [if_neg hdata]
  obtain ⟨hd, ts, hroot⟩ := ht.valid.exists_node
  have hheight : k = hd.height := Nat.succ_injective (Rep.Valid.node_iff.mp (hroot ▸ ht.valid)).1
  have hnode := ht.held.node?
  rw [congrArg Rep.root hroot] at hnode
  obtain ⟨cs, m, rfl, hcs, hm, hspine⟩ := exists_plug back k (add_comm k 1 ▸ ht.valid)
  obtain ⟨hm', ms, rfl⟩ := hm.exists_node
  obtain ⟨hnodem, hms⟩ := Rep.held_node.mp (plug_held.mp ht.held).1
  rw [wp_bind]
  refine wp_asBtree hnode ?_
  rw [wp_bind, Rep.btree_height, ← hheight, ← hcs]
  refine wp_buildStack ht.held fun lower up d hsplit hone hor ↦ ?_
  have ho := ht.owned
  have hheld := ht.held
  have hdepth := ht.depth
  subst hsplit
  dsimp only
  rw [wp_bind]
  refine wp_asBtree hnodem ?_
  have hlevels : 1 + (lower ++ up).length ≤ maxDepth := by
    omega
  have hup : Owned h (spineAddrs up ++ Z) _ :=
    openSpine (plug_append lower up _ ▸ ho) (plug_append lower up _ ▸ hheld) hone
  have hmlen : hm'.length + data.length ≤ usizeMax := by
    have hle := hspine.le_rootLength.1
    rw [← @length_plug back] at hle
    exact (Nat.add_le_add_right hle _).trans hlen
  have hpos := List.length_pos_iff.mpr hdata
  have houtline : ∀ {us : List Edge}, us ≠ [] →
      addDataOutline back (plug back (lower ++ up) (.node hm' ms)).outline us =
        addDataNodeOutline back (spineOutline (lower ++ up)) (Rep.outline (.node hm' ms)) us := by
    intro us hus
    obtain ⟨u, us, rfl⟩ := List.exists_cons_of_ne_nil hus
    rw [addDataOutline, unplug_outline]
    rw [ht.valid.depth_outline, Nat.add_sub_cancel, hcs]
  -- Once the leaf is filled and the nodes above it are up to date.
  have hfinish : ∀ {ds m₁ us rest h₁}, Leg back h₁ Z R 1 ds m₁ → ms.length < maxCapacity →
      ds.map Crumb.window = (lower ++ up).map Crumb.window →
      m₁.outline = fillOutline back (ms.map Rep.outline) us → (∀ u ∈ us, u.NewFlat h) → us ≠ [] →
      us.map Edge.data = (fills back extra data).take (maxCapacity - ms.length) →
      fills back extra rest = (fills back extra data).drop (maxCapacity - ms.length) →
      data.length = edgesLength us + rest.length → Frame Z R h h₁ →
      wp (if rest = [] then pure (plug back ds m₁).addr else
        addLeaves back extra rest.length (plug back ds m₁).addr (spineAddrs ds)
          ((lower ++ up).length + 1) rest) Q h₁ := by
    intro ds m₁ us rest h₁ hl hroom hds hm₁ hnew hne htake hdrop hsum hf₁
    have hdslen : ds.length = (lower ++ up).length := by
      simpa using congrArg List.length hds
    have hplug : (plug back ds m₁).outline =
        LevelTree.plug back (spineOutline (lower ++ up)) (fillOutline back (ms.map Rep.outline) us) := by
      rw [outline_plug, hm₁, spineOutline_congr hds]
    have hleaves : (plug back ds m₁).leaves =
        join back (plug back (lower ++ up) (.node hm' ms)).leaves (outward back us) := by
      rw [← Rep.leaves_outline, hplug, LevelTree.leaves_plug, leaves_fillOutline,
        leaves_plug (lower ++ up), ← join_assoc, List.flatMap_map]
      simp
    have hlen₁ : (plug back ds m₁).length =
        (plug back (lower ++ up) (.node hm' ms)).length + edgesLength us := by
      rw [← hl.valid.length_leaves, hleaves, ← ht.valid.length_leaves, edgesLength_join,
        edgesLength_outward]
    have hfresh : ∀ u ∈ us, u.FreshFlat h
        (leafRefs (plug back (lower ++ up) (.node hm' ms)) R) := fun u hu ↦
      (hnew u hu).fresh hheld ho (Multiset.le_cons_self _ _)
    have hstep : ∀ {vs : List Edge}, (us ++ vs).take (maxCapacity - ms.length) = us →
        (us ++ vs).drop (maxCapacity - ms.length) = vs →
        addDataOutline back (plug back (lower ++ up) (.node hm' ms)).outline (us ++ vs) =
          addLeavesOutline back (plug back ds m₁).outline vs := by
      intro vs htake hdrop
      rw [houtline (by simp [hne]), Rep.outline_node, addDataNodeOutline, List.length_map,
        if_pos hroom, htake, hdrop, hplug]
    by_cases hrest : rest = []
    · subst hrest
      rw [if_pos rfl, wp_pure]
      rw [fills_nil] at hdrop
      obtain ⟨htake', hdrop', hdata'⟩ := take_append_drop_of_fills htake
        (fills_nil.trans hdrop) (List.map_nil.trans fills_nil.symm)
      obtain ⟨k', hk'⟩ := hl.exists_holding (by omega) (by omega)
      refine hQ _ k' us h₁ hk' hfresh (by simpa using hdata') ?_ hf₁
      have := hstep htake' hdrop'
      rw [List.append_nil, addLeavesOutline_nil] at this
      exact this.symm
    · rw [if_neg hrest]
      have hflats : (fills back extra data).length = us.length + (fills back extra rest).length := by
        have := length_of_fills htake
        rw [hdrop, this, List.length_drop]
        omega
      have howned : Owned h₁ (spineAddrs ds ++ Z)
        ((plug back [] m₁).addr ::ₘ ((sideRefs ds : Multiset Addr) + R)) := hl.owned
      have hheld₁ : (plug back ([] ++ ds) m₁).Held h₁ := hl.held
      refine wp_addLeaves howned hheld₁ hl.focus hl.spine (.inr ⟨rfl, by omega⟩) rfl
        (by rw [List.nil_append]; omega) hrest le_rfl ?_ ?_
        fun t' k' vs h₂ ht' hfresh' hvs hout' hf₂ ↦ ?_
      · rw [List.nil_append]
        omega
      · rw [List.nil_append, hleaves, length_join, length_outward]
        omega
      · obtain ⟨htake', hdrop', hdata'⟩ := take_append_drop_of_fills htake hdrop hvs
        refine hQ t' k' (us ++ vs) h₂ ht' (fun u hu ↦ ?_) hdata' ?_ (hf₁.trans hf₂)
        · rcases List.mem_append.mp hu with hu | hu
          · exact hfresh u hu
          · refine (hfresh' u hu).of_frame (frame_leafRefs hf₁ hheld hl.held fun e he ↦ ?_)
              (leafRefs_le hleaves)
            exact hleaves ▸ mem_join.mpr (.inl he)
        · rw [hstep htake' hdrop', hout']
          rfl
  by_cases hroom : (Rep.btree hm' ms).size < maxCapacity
  · rw [if_pos hroom]
    rw [Rep.btree_size] at hroom
    rcases hor with hd' | ⟨hd', rfl, hone'⟩
    · have hshared : ¬ (lower ++ up).length < d := by
        rw [List.length_append]
        omega
      have hr : Reach h ((plug back lower (.node hm' ms)).addr ::ₘ
          ((sideRefs up : Multiset Addr) + R)) hm'.addr :=
        reach_plug (s := .node hm' ms) (plug_held.mp (plug_append lower up _ ▸ hheld)).1
          (.root (by simp))
      simp only [decide_eq_false hshared, toOpResult, Bool.false_eq_true, if_false, wp_bind, wp_pure]
      refine wp_copy hup hnodem hr fun c h₁ ho₁ hg₁ hc₁ ↦ ?_
      refine wp_fillLeaf ho₁ hc₁ (fun t ht ↦ (hms t ht).grows hg₁) hm hroom hdata hmlen
        fun m₁ us rest h₂ hmc ho₂ hheld₂ hv₂ hlen₂ hout₂ hnew hne htake hdrop hsum hf₂ ↦ ?_
      rw [← hmc]
      have hl₂ : Leg back h₂ _ _ 1 [] m₁ := ⟨by simpa using ho₂, hheld₂, hv₂, trivial⟩
      refine wp_unwind_copied (.node hm' ms) hl₂ ?_ hspine hlen₂ ?_ (.inl hd') rfl
        fun ds h₃ hds hl₃ hf₃ ↦ ?_
      · exact held_frame_append lower (hheld.grows hg₁) hf₂ (List.subset_append_left _ _) (by simp)
          fun b hb ↦ by simp [hb]
      · omega
      · refine hfinish hl₃ hroom hds hout₂ (fun u hu ↦ (hnew u hu).of_grows hg₁) hne htake hdrop hsum
          ((((hup.frame_of_grows hg₁).trans hf₂).mono
            (List.subset_append_right _ _) ((Multiset.le_add_left _ _).trans
              (Multiset.le_cons_self _ _))).trans hf₃)
    · have howned : ([] ++ up).length < d := by
        rw [List.nil_append]
        omega
      have hspineh : SpineHeld back h up hm'.addr := (plug_held.mp hheld).2
      simp only [decide_eq_true howned, toOpResult, if_true, wp_bind, wp_pure]
      have hm₀ : Owned h (hm'.addr :: (spineAddrs up ++ Z))
          (((ms.map Rep.addr : List Addr) : Multiset Addr) + ((sideRefs up : Multiset Addr) + R)) :=
        hup.openCell hnodem hone'
      refine wp_fillLeaf hm₀ hnodem hms hm hroom hdata hmlen
        fun m₁ us rest h₂ hmc ho₂ hheld₂ hv₂ hlen₂ hout₂ hnew hne htake hdrop hsum hf₂ ↦ ?_
      rw [Rep.addr_node, ← hmc]
      have hl₂ : Leg back h₂ _ _ 1 [] m₁ := ⟨by simpa using ho₂, hheld₂, hv₂, trivial⟩
      refine wp_unwind_inPlace hm'.length hl₂ ?_ hspine hlen₂ ?_ fun h₃ hl₃ hf₃ ↦ ?_
      · rw [plug_nil, hmc]
        exact hspineh.frame hf₂ (List.subset_append_left _ _) fun b hb ↦ by simp [hb]
      · rw [length_plug] at hlen
        exact (Nat.add_le_add_left (Nat.sub_le _ _) _).trans hlen
      · have := hfinish hl₃ hroom (by simp [growSpine, Crumb.window, Function.comp_def]) hout₂ hnew hne
          htake hdrop hsum
          ((hf₂.mono (List.subset_append_right _ _) (Multiset.le_add_left _ _)).trans hf₃)
        simpa using this
  · rw [if_neg hroom]
    rw [Rep.btree_size] at hroom
    refine wp_addLeaves hup hheld hm hspine ?_ rfl hlevels hdata le_rfl hlen hcount
      fun t' k' us h' ht' hfresh hus hout hf ↦ hQ t' k' us h' ht' hfresh hus ?_ hf
    · rcases hor with hd | ⟨hd, hnil, -⟩
      · exact .inl hd
      · exact .inr ⟨hnil, by omega⟩
    · have hne : us ≠ [] := by
        rintro rfl
        exact hdata (fills_eq_nil.mp hus.symm)
      rw [hout, houtline hne, Rep.outline_node, addDataNodeOutline, List.length_map, if_neg hroom,
        outline_plug, Rep.outline_node]

/-- With a hint that fits next to the bytes, the new flats are as large as they can be. -/
theorem wp_addData {data : Bytes} {extra : ℕ} (ht : Holding h Z R (k + 1) t)
    (hextra : data.length + extra ≤ usizeMax) (hlen : t.length + data.length ≤ usizeMax)
    (hcount : t.leaves.length + flatsFor data.length ≤ maxCapacity ^ maxDepth)
    {Q : Addr → Heap Node → Prop}
    (hQ : ∀ t' k' us h', Holding h' Z R (k' + 1) t' → (∀ u ∈ us, u.FreshFlat h (leafRefs t R)) →
      us.map Edge.data = chunks back data → t'.outline = addDataOutline back t.outline us →
      Frame Z R h h' → Q t'.addr h') :
    wp (addData back t.addr data extra) Q h := by
  have hchunks : fills back extra data = chunks back data :=
    (fills_eq_chunks_iff (by omega) (by omega)).mpr (.inl hextra)
  refine wp_addData_fills ht hlen (by rwa [hchunks, length_chunks]) ?_
  rwa [hchunks]

/-! ### The tree that comes out -/

/-- A program returned a reference to a valid tree with the old data edges and, at one end, new flats
with the given bytes, of which all but the outermost one are full, and left alone what others hold.
The shape follows from the old one. -/
def DataAdded (back : Bool) (h : Heap Node) (Z : List Addr) (R : Multiset Addr) (t : Rep)
    (data : Bytes) (a : Addr) (h' : Heap Node) : Prop :=
  ∃ t' k' es, t'.addr = a ∧ Holding h' Z R (k' + 1) t' ∧ t'.leaves = join back t.leaves es ∧
    es.length = flatsFor data.length ∧ es.flatMap Edge.data = data ∧
    (∀ es' e, es = join back es' [e] → ∀ e' ∈ es', e'.length = maxFlatLength) ∧
    (∀ e ∈ es, e.FreshFlat h (leafRefs t R)) ∧
    t'.shape = addDataShape back t.shape ((chunks back data).map List.length) ∧ Frame Z R h h'

section Pieces

variable {t' : Rep} {k' : ℕ} {us : List Edge} {data : Bytes} {extra : ℕ}

omit [Target] in
/-- The data edges after bytes were added. -/
private theorem leaves_of_outline (hout : t'.outline = addDataOutline back t.outline us) :
    t'.leaves = join back t.leaves (outward back us) := by
  rw [← Rep.leaves_outline, hout, leaves_addDataOutline, Rep.leaves_outline]

private theorem valid_of_outline (ht' : Holding h' Z R (k' + 1) t')
    (hout : t'.outline = addDataOutline back t.outline us) : ∀ u ∈ us, u.Valid := fun u hu ↦
  ht'.valid.leaves_valid u (leaves_of_outline hout ▸ mem_join.mpr (.inr (mem_outward.mpr hu)))

/-- New flats with the pieces for the largest flats are what is asked for. -/
private theorem dataAdded_of_chunks (ht' : Holding h' Z R (k' + 1) t')
    (hfresh : ∀ u ∈ us, u.FreshFlat h (leafRefs t R)) (hus : us.map Edge.data = chunks back data)
    (hout : t'.outline = addDataOutline back t.outline us) (hf : Frame Z R h h') :
    DataAdded back h Z R t data t'.addr h' := by
  have hvalid := valid_of_outline ht' hout
  have hlengths : us.map Edge.length = (chunks back data).map List.length := by
    rw [← hus, List.map_map]
    exact List.map_congr_left fun u hu ↦ (hvalid u hu).length_data.symm
  refine ⟨t', k', outward back us, rfl, ht', leaves_of_outline hout, ?_, ?_, fun es' e hes e' he' ↦ ?_,
    fun e he ↦ hfresh e (mem_outward.mp he), ?_, hf⟩
  · rw [length_outward, ← List.length_map Edge.data, hus, length_chunks]
  · rw [List.flatMap_def, map_outward, hus, flatten_chunks]
  · -- Without the outermost flat, the flats are those of the pieces before the last one.
    have hinit : es' = outward back us.dropLast := by
      rcases List.eq_nil_or_concat us with rfl | ⟨vs, v, rfl⟩
      · have := congrArg List.length hes
        simp at this
      · rw [List.concat_eq_append, outward_append] at hes
        have := join_inj (hes.symm.trans (by cases back <;> rfl : _ = join back (outward back vs) [v]))
        rw [List.concat_eq_append, List.dropLast_concat]
        exact this.1
    rw [hinit, mem_outward] at he'
    rw [← (hvalid e' (List.mem_of_mem_dropLast he')).length_data]
    refine @length_of_mem_chunks back _ data _ ?_
    rw [← hus, ← List.map_dropLast]
    exact List.mem_map_of_mem he'
  · rw [ht'.valid.shape_eq, hout, map_addDataOutline, hlengths, ← Rep.windows_shape, addDataShape]

/-- Where the new flats are full but for the outermost one, they have the pieces for the largest
flats. -/
private theorem fills_eq_chunks_of_dataAdded (ht' : Holding h' Z R (k' + 1) t')
    (hus : us.map Edge.data = fills back extra data)
    (hout : t'.outline = addDataOutline back t.outline us)
    (hadded : DataAdded back h Z R t data t'.addr h') :
    fills back extra data = chunks back data := by
  obtain ⟨t₁, k₁, es, haddr, ht₁, hleaves, -, -, hfull, -⟩ := hadded
  obtain rfl := ht₁.held.unique ht'.held haddr
  have hes : es = outward back us := by
    have := hleaves.symm.trans (leaves_of_outline hout)
    cases back <;> simpa [join] using this
  refine fills_eq_chunks_of_full fun c hc ↦ ?_
  rw [← hus, ← List.map_dropLast] at hc
  obtain ⟨u, hu, rfl⟩ := List.mem_map.mp hc
  rw [(valid_of_outline ht' hout u (List.mem_of_mem_dropLast hu)).length_data]
  have hne : us ≠ [] := by
    rintro rfl
    exact absurd hu List.not_mem_nil
  refine hfull (outward back us.dropLast) (us.getLast hne) ?_ u (mem_outward.mpr hu)
  conv_lhs => rw [hes, ← List.dropLast_append_getLast hne, outward_append]
  cases back <;> rfl

end Pieces

theorem wp_dataAdded {data : Bytes} {extra : ℕ} (ht : Holding h Z R (k + 1) t)
    (hextra : data.length + extra ≤ usizeMax) (hlen : t.length + data.length ≤ usizeMax)
    (hcount : t.leaves.length + flatsFor data.length ≤ maxCapacity ^ maxDepth) :
    wp (addData back t.addr data extra) (DataAdded back h Z R t data) h :=
  wp_addData ht hextra hlen hcount fun _ _ _ _ ht' hfresh hus hout hf ↦
    dataAdded_of_chunks ht' hfresh hus hout hf

/-- The new flats are the fewest that take the bytes if and only if the hint fits. -/
theorem wp_dataAdded_iff {data : Bytes} {extra : ℕ} (ht : Holding h Z R (k + 1) t)
    (hextra : extra ≤ usizeMax) (hlen : t.length + data.length ≤ usizeMax)
    (hcount : t.leaves.length + (fills back extra data).length ≤ maxCapacity ^ maxDepth) :
    wp (addData back t.addr data extra) (DataAdded back h Z R t data) h ↔
      ExtraFits data.length extra := by
  rw [← @fills_eq_chunks_iff back _ _ _ hextra (by omega)]
  constructor
  · intro hwp
    have hmade := wp_addData_fills ht hlen hcount (Q := fun a h' ↦ ∃ t' k' us, t'.addr = a ∧
      Holding h' Z R (k' + 1) t' ∧ us.map Edge.data = fills back extra data ∧
      t'.outline = addDataOutline back t.outline us)
      fun t' k' us h' ht' _ hus hout _ ↦ ⟨t', k', us, rfl, ht', hus, hout⟩
    obtain ⟨_, h', -, hadded, t', k', us, rfl, ht', hus, hout⟩ := wp_and hwp hmade
    exact fills_eq_chunks_of_dataAdded ht' hus hout hadded
  · intro hchunks
    exact wp_addData_fills ht hlen hcount fun t' k' us h' ht' hfresh hus hout hf ↦
      dataAdded_of_chunks ht' hfresh (hus.trans hchunks) hout hf

/-- Bytes appended or prepended with a hint: the old data edges are kept, the bytes are in the
fewest new flats, and the shape follows from the old one, whichever nodes are shared, if and only if
the hint fits. On the way, nothing else refers to the nodes on an owned stack. -/
theorem Btree.add_data_flats {data : Bytes} {extra : ℕ} (ht : Holding h Z R (k + 1) t)
    (hextra : extra ≤ usizeMax) (hlen : t.length + data.length ≤ usizeMax)
    (hcount : ∀ back, t.leaves.length + (fills back extra data).length ≤ maxCapacity ^ maxDepth) :
    (wp (appendData t.addr data extra) (DataAdded true h Z R t data) h ↔
        ExtraFits data.length extra) ∧
      (wp (prependData t.addr data extra) (DataAdded false h Z R t data) h ↔
        ExtraFits data.length extra) :=
  ⟨wp_dataAdded_iff ht hextra hlen (hcount true), wp_dataAdded_iff ht hextra hlen (hcount false)⟩

end Rules

/-- Bytes added to a tree that another reference leads to, with a hint that fits. -/
theorem Btree.add_data_flats_shared :
    letI : Target := ⟨64, .inr rfl⟩
    wp (appendData 2 [4, 5] 10) (DataAdded true sharedPair [] {2} pairTree [4, 5]) sharedPair ∧
      wp (prependData 2 [4, 5] 10) (DataAdded false sharedPair [] {2} pairTree [4, 5])
        sharedPair := by
  let _ : Target := ⟨64, .inr rfl⟩
  have hfits : ExtraFits 2 10 := .inl (by decide)
  obtain ⟨happend, hprepend⟩ := @add_data_flats _ _ _ _ _ _ [4, 5] 10 holding_sharedPair
    (by decide) (by decide) fun back ↦
      (Nat.add_le_add_left (length_fills_le [4, 5]) _).trans (by decide)
  exact ⟨happend.mpr hfits, hprepend.mpr hfits⟩

/-- Twenty bytes and the largest hint, which wrap to a flat that has room for nineteen of them. -/
theorem Btree.append_data_wrapped_hint :
    letI : Target := ⟨64, .inr rfl⟩
    ¬wp (appendData 2 (List.replicate 20 0) usizeMax)
      (DataAdded true sharedPair [] {2} pairTree (List.replicate 20 0)) sharedPair := by
  let _ : Target := ⟨64, .inr rfl⟩
  intro hwp
  have hfits := (wp_dataAdded_iff holding_sharedPair le_rfl (by decide)
    ((Nat.add_le_add_left (length_fills_le _) _).trans (by decide))).mp hwp
  exact absurd hfits (by decide)

end CordRs
