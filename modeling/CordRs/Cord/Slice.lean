import CordRs.Cord.Cursor
import CordRs.Rep.Load

/-!
# Copies and ranges of cords

A copy of a cord shares its tree. A range of a cord is a new cord: few bytes are copied inline, and
more share the data edges of the tree that meet the range.

## Main definitions

* `CordRs.Cord.view`: the tree behind the handle of a cord.
* `CordRs.RangeBounds`, `CordRs.resolveRange`, `CordRs.tryResolveRange`.
* `CordRs.Cord.subcord`, `CordRs.Cord.slice`, `CordRs.Cord.getRange`.
* `CordRs.Cord.clone`, `CordRs.Cord.cloneFrom`, `CordRs.Cord.clear`.
* `CordRs.Cord.Shared`: a tree that others hold.
* `CordRs.Cord.PartOf`: a new cord with no more data edges than another one.

## Main results

* `CordRs.Cord.wp_clone`, `CordRs.Cord.wp_cloneFrom`, `CordRs.Cord.wp_clear`.
* `CordRs.Cord.wp_subcord`, `CordRs.Cord.wp_slice`, `CordRs.Cord.wp_getRange`: the bytes of the cord
  that comes out.
-/

namespace CordRs

open RefHeap

/-! ### Ranges -/

/-- One end of a range. -/
inductive Bound where
  | included (n : ℕ)
  | excluded (n : ℕ)
  | unbounded
  deriving Repr, DecidableEq

/-- A range of positions. -/
structure RangeBounds where
  startBound : Bound
  endBound : Bound
  deriving Repr, DecidableEq

section Target

variable [Target]

/-- The number behind `n`, if there is one. -/
def checkedSucc (n : ℕ) : Option ℕ := if n + 1 ≤ usizeMax then some (n + 1) else none

/-- The first position of a range. -/
def Bound.start : Bound → Option ℕ
  | included s => some s
  | excluded s => checkedSucc s
  | unbounded => some 0

/-- The position behind a range of `len` bytes at most. -/
def Bound.stop (len : ℕ) : Bound → Option ℕ
  | included e => checkedSucc e
  | excluded e => some e
  | unbounded => some len

/-- The position and the number of bytes of a range of `len` bytes. -/
def resolveRange (range : RangeBounds) (len : ℕ) : Except Fault (ℕ × ℕ) :=
  match range.startBound.start with
  | none => .error (.panic "range start overflow")
  | some start =>
    match range.endBound.stop len with
    | none => .error (.panic "range end overflow")
    | some stop =>
      if start ≤ stop then
        if stop ≤ len then
          .ok (start, stop - start)
        else
          .error (.panic s!"range end index {stop} out of range for slice of length {len}")
      else
        .error (.panic s!"slice index starts at {start} but ends at {stop}")

/-- The position and the number of bytes of a range of `len` bytes, if it is within them. -/
def tryResolveRange (range : RangeBounds) (len : ℕ) : Option (ℕ × ℕ) := do
  let start ← range.startBound.start
  let stop ← range.endBound.stop len
  if start ≤ stop ∧ stop ≤ len then some (start, stop - start) else none

namespace Cord

/-! ### Operations -/

/-- The tree behind the handle of a cord. -/
def view : Cord Addr → HeapM (Cord Rep)
  | .inline d => pure (.inline d)
  | .tree rep => do
    let node ← read rep
    let tree ← loadRep (node.rank + 1) rep
    pure (.tree tree)

/-- The cord as the heap has it. -/
def seen (c : Cord Addr) (h : Heap Node) : Cord Rep :=
  match c.view h with
  | .ok (c, _) => c
  | .error _ => .inline .new

/-- A second cord with the bytes of a cord. -/
def clone : Cord Addr → HeapM (Cord Addr)
  | .inline d => pure (.inline d)
  | .tree rep => do
    let rep ← refRep rep
    pure (.tree rep)

/-- Replace a cord by a second cord with the bytes of another one. -/
def cloneFrom (c source : Cord Addr) : HeapM (Cord Addr) := do
  match c, source with
  | .inline _, .inline d => pure (.inline d)
  | old, source =>
    let new ← source.clone
    old.drop
    pure new

/-- Give up the bytes of a cord. -/
def clear (c : Cord Addr) : HeapM (Cord Addr) := do
  c.drop
  pure (.inline .new)

/-- The `n` bytes from `pos` on, of which there are few. -/
def gatherInline (c : Cord Addr) (pos n : ℕ) : HeapM InlineData := do
  let tree ← view c
  let it ← liftM (ForwardChunks.new tree)
  let it ← liftM (it.advanceBytes pos)
  let (_, data) ← liftM (it.gatherInline false n)
  pure data

/-- A cord with the `newSize` bytes from `pos` on, which are within the cord. -/
def subcord (c : Cord Addr) (pos newSize : ℕ) : HeapM (Cord Addr) := do
  if newSize = 0 then
    pure (.inline .new)
  else
    match c with
    | .inline d => pure (.inline (.inlineFrom ((d.inlineSlice.drop pos).take newSize)))
    | .tree rep =>
      if newSize ≤ maxInline then
        let data ← gatherInline c pos newSize
        pure (.inline data)
      else
        let node ← read rep
        if node.isBtree then
          match ← subTree rep pos newSize with
          | some rep => pure (.tree rep)
          | none => throw .dangling
        else
          let rep ← substring rep pos newSize
          pure (.tree rep)

/-- A cord with the bytes of a range. -/
def slice (c : Cord Addr) (range : RangeBounds) : HeapM (Cord Addr) := do
  let len ← c.loadLen
  let (pos, newSize) ← liftM (resolveRange range len)
  c.subcord pos newSize

/-- A cord with the bytes of a range, if it is within the cord. -/
def getRange (c : Cord Addr) (range : RangeBounds) : HeapM (Option (Cord Addr)) := do
  let len ← c.loadLen
  match tryResolveRange range len with
  | none => pure none
  | some (pos, newSize) =>
    let sub ← c.subcord pos newSize
    pure (some sub)

end Cord

end Target

/-! ### What the operations do -/

section Rules

variable [Target] {h h' : Heap Node} {Z : List Addr} {R : Multiset Addr} {c : Cord Rep}
  {t : Rep} {e : Edge} {pos n : ℕ}

omit [Target] in
theorem Node.level_le_rank (n : Node) : n.level ≤ n.rank := by
  cases n with
  | btree b => exact Nat.le_succ _
  | payload p => exact Nat.zero_le _
  | substring length start child => exact Nat.zero_le _

namespace Cord

/-! ### Views and copies -/

/-- The view of a cord is the cord. -/
theorem wp_view (hheld : ∀ t, c = .tree t → t.Held h) (hv : c.Valid)
    {Q : Cord Rep → Heap Node → Prop} (hQ : Q c h) : wp c.handle.view Q h := by
  cases c with
  | inline d => exact (wp_pure _ _ _).mpr hQ
  | tree t =>
    obtain ⟨k, -, hk⟩ := hv
    have hrank : k ≤ t.root.rank := by
      rw [← hk.root_level]
      exact t.root.level_le_rank
    rw [handle, view, wp_bind]
    apply wp_read (hheld t rfl).node?
    rw [wp_bind]
    apply wp_loadRep (hheld t rfl) hk (Nat.lt_succ_of_le hrank)
    rw [wp_pure]
    exact hQ

theorem seen_handle (hheld : ∀ t, c = .tree t → t.Held h) (hv : c.Valid) : c.handle.seen h = c := by
  have hview : wp c.handle.view (fun c' _ ↦ c' = c) h := wp_view hheld hv rfl
  obtain ⟨c', h', hrun, rfl⟩ := hview
  rw [seen, hrun]

omit [Target] in
@[simp] theorem bytes_new : bytes (.inline .new) = [] := InlineData.inlineSlice_ofBytes []

omit [Target] in
@[simp] theorem len_new : len (.inline .new) = 0 := rfl

omit [Target] in
@[simp] theorem edgeCount_new : edgeCount (.inline .new) = 0 := rfl

/-- The cord without bytes. -/
theorem new_empty (ho : Owned h' Z R) (hf : Frame Z R h h') :
    New (.inline .new) [] h Z R h' where
  owns := owns_inline ho (InlineData.new_eq ▸ InlineData.wellFormed_ofBytes (Nat.zero_le _))
  bytes := bytes_new
  frame := hf

/-- A cord with few bytes. -/
theorem new_inline {bs : Bytes} (ho : Owned h' Z R) (hbs : bs.length ≤ maxInline)
    (hf : Frame Z R h h') : New (.inline (.ofBytes bs)) bs h Z R h' where
  owns := owns_inline ho (InlineData.wellFormed_ofBytes hbs)
  bytes := InlineData.inlineSlice_ofBytes bs
  frame := hf

/-- The heap holds the tree of a cord, and others refer to it. -/
structure Shared (c : Cord Rep) (h : Heap Node) (R : Multiset Addr) : Prop where
  reach : ∀ t, c = .tree t → Reach h R t.addr
  held : ∀ t, c = .tree t → t.Held h

theorem Shared.mono {S : Multiset Addr} (hs : c.Shared h R) (hR : R ≤ S) : c.Shared h S where
  reach t ht := (hs.reach t ht).mono hR
  held := hs.held

theorem Shared.borrowed (hs : c.Shared h R) (ho : Owned h Z R) : c.Borrowed h Z R :=
  ⟨ho, hs.reach, hs.held⟩

/-- A new cord with no more data edges than another one. -/
structure PartOf (c' c : Cord Rep) (bs : Bytes) (h : Heap Node) (Z : List Addr)
    (R : Multiset Addr) (h' : Heap Node) : Prop extends New c' bs h Z R h' where
  edges : c'.edgeCount ≤ c.edgeCount

omit [Target] in
theorem edgeCount_inline_le (d : InlineData) : edgeCount (.inline d) ≤ 1 := by
  rw [edgeCount, chunks]
  split_ifs
  · exact Nat.zero_le 1
  · exact le_rfl

/-- A cord with bytes has a chunk. -/
theorem edgeCount_pos (hv : c.Valid) (hne : c.bytes ≠ []) : 0 < c.edgeCount := by
  rw [edgeCount, List.length_pos_iff]
  intro hnil
  apply hne
  rw [← flatten_chunks c hv, hnil, List.flatten_nil]

/-- A cord without bytes is a part of any other. -/
theorem partOf_empty (ho : Owned h' Z R) (hf : Frame Z R h h') :
    PartOf (.inline .new) c [] h Z R h' :=
  ⟨new_empty ho hf, Nat.zero_le _⟩

/-- Few bytes are a part of a cord with as many bytes at least. -/
theorem partOf_inline {bs : Bytes} (ho : Owned h' Z R) (hbs : bs.length ≤ maxInline) (hv : c.Valid)
    (hle : bs.length ≤ c.bytes.length) (hf : Frame Z R h h') :
    PartOf (.inline (.ofBytes bs)) c bs h Z R h' := by
  refine ⟨new_inline ho hbs hf, ?_⟩
  by_cases hnil : bs = []
  · simp [edgeCount, chunks, hnil]
  · have hpos := List.length_pos_iff.mpr hnil
    apply (edgeCount_inline_le _).trans
    apply edgeCount_pos hv
    rw [← List.length_pos_iff]
    omega

/-- A cord is borrowed from whoever holds it. -/
theorem Owns.borrowed (hc : Owns h Z R c) : c.Borrowed h Z (c.refs + R) where
  owned := hc.owned
  reach t ht := .root (by simp [ht, refs])
  held := hc.held

/-- A second cord with the bytes of a cord. -/
theorem wp_clone (hb : c.Borrowed h Z R) (hv : c.Valid) {Q : Cord Addr → Heap Node → Prop}
    (hQ : ∀ h', New c c.bytes h Z R h' → Q c.handle h') : wp c.handle.clone Q h := by
  cases c with
  | inline d =>
    rw [handle, clone, wp_pure]
    exact hQ h ⟨owns_inline hb.owned hv, rfl, .refl h⟩
  | tree t =>
    obtain ⟨k, hk, ht⟩ := hv
    rw [handle, clone, wp_bind]
    apply wp_refRep hb.owned (hb.reach t rfl)
    intro h₁ ho₁ hn₁
    have hg := Grows.of_node?_eq hn₁
    rw [wp_pure]
    exact hQ h₁ (new_tree ⟨ho₁, (hb.held t rfl).grows hg, ht, hk⟩ rfl (hb.owned.frame_of_grows hg))

/-- A new cord stays when a tree is given up. -/
theorem New.wp_unref {bs : Bytes} {h₁ : Heap Node} (hnew : New c bs h Z (refs (.tree t) + R) h₁)
    {Q : Unit → Heap Node → Prop} (hQ : ∀ h', New c bs h Z R h' → Q () h') :
    wp (unref t.addr) Q h₁ := by
  have ho₁ : Owned h₁ Z (t.addr ::ₘ (c.refs + R)) := hnew.owns.owned.congr (by
    simp only [refs, Multiset.singleton_add, Multiset.add_cons])
  have hR : R ≤ refs (.tree t) + R := Multiset.le_add_left _ _
  apply CordRs.wp_unref ho₁
  intro h₂ ho₂ hf₂
  exact hQ h₂ ⟨hnew.owns.frame ho₂ hf₂, hnew.bytes, (hnew.frame.mono (List.Subset.refl _) hR).trans
    (hf₂.mono (List.Subset.refl _) (Multiset.le_add_left _ _))⟩

/-- A new cord stays when another cord is given up. -/
theorem New.wp_drop {c' : Cord Rep} {bs : Bytes} {h₁ : Heap Node}
    (hnew : New c bs h Z (c'.refs + R) h₁) {Q : Unit → Heap Node → Prop}
    (hQ : ∀ h', New c bs h Z R h' → Q () h') : wp c'.handle.drop Q h₁ := by
  cases c' with
  | tree t => exact hnew.wp_unref hQ
  | inline d =>
    have hzero : refs (.inline d) + R = R := zero_add R
    rw [hzero] at hnew
    exact (wp_pure _ _ _).mpr (hQ h₁ hnew)

/-- A new part stays when a tree is given up. -/
theorem PartOf.wp_unref {c' : Cord Rep} {bs : Bytes} {h₁ : Heap Node}
    (hpart : PartOf c' c bs h Z (refs (.tree t) + R) h₁) {Q : Unit → Heap Node → Prop}
    (hQ : ∀ h', PartOf c' c bs h Z R h' → Q () h') : wp (unref t.addr) Q h₁ := by
  apply hpart.toNew.wp_unref
  intro h₂ hnew
  exact hQ h₂ ⟨hnew, hpart.edges⟩

/-- A cord takes over the bytes of another one and gives up its own. -/
theorem wp_cloneFrom {src : Cord Rep} (hc : Owns h Z R c) (hs : src.Shared h R)
    (hv : src.Valid) {Q : Cord Addr → Heap Node → Prop}
    (hQ : ∀ h', New src src.bytes h Z R h' → Q src.handle h') :
    wp (cloneFrom c.handle src.handle) Q h := by
  have hclone : wp (do
      let new ← src.handle.clone
      c.handle.drop
      pure new) Q h := by
    have hR : R ≤ c.refs + R := Multiset.le_add_left _ _
    rw [wp_bind]
    apply wp_clone ((hs.mono hR).borrowed hc.owned) hv
    intro h₁ hnew
    rw [wp_bind]
    apply hnew.wp_drop
    intro h₂ hnew₂
    rw [wp_pure]
    exact hQ h₂ hnew₂
  cases c with
  | tree t => exact hclone
  | inline d =>
    cases src with
    | tree s => exact hclone
    | inline d' =>
      rw [handle, handle, cloneFrom, wp_pure]
      exact hQ h ⟨owns_inline hc.inline hv, rfl, .refl h⟩

/-- A cord loses its bytes. -/
theorem wp_clear (hc : Owns h Z R c) {Q : Cord Addr → Heap Node → Prop}
    (hQ : ∀ h', New (.inline .new) [] h Z R h' → Q (.inline .new) h') :
    wp (clear c.handle) Q h := by
  rw [clear, wp_bind]
  apply wp_drop hc
  intro h₁ ho₁ hf₁
  rw [wp_pure]
  exact hQ h₁ (new_empty ho₁ hf₁)

/-! ### Ranges of a cord -/

/-- A few bytes of a cord are copied out of it. -/
private theorem wp_gatherInline (hheld : ∀ t, c = .tree t → t.Held h) (hv : c.Valid)
    (hle : pos + n ≤ c.len) (hn : n ≤ maxInline) {Q : InlineData → Heap Node → Prop}
    (hQ : Q (.ofBytes ((c.bytes.drop pos).take n)) h) :
    wp (gatherInline c.handle pos n) Q h := by
  have hs := hv.source
  have hlen := len_eq hv
  obtain ⟨it, hnew, hi⟩ := ForwardChunks.new_spec hs
  have htotal : it.bytesRemaining + 0 + 0 = c.bytes.length := hi.total
  obtain ⟨it₁, hadv, hi₁⟩ := ForwardChunks.advanceBytes_spec hi hs (by omega : pos ≤ _)
  have htotal₁ : it₁.bytesRemaining + (0 + pos) + 0 = c.bytes.length := hi₁.total
  obtain ⟨it₂, hgather, -⟩ :=
    ForwardChunks.gatherInline_spec false hi₁ hs (by omega : n ≤ it₁.bytesRemaining) hn
  rw [Nat.zero_add] at hgather
  rw [gatherInline, wp_bind]
  apply wp_view hheld hv
  simp only [wp_bind, wp_liftM, wp_pure]
  exact ⟨it, hnew, it₁, hadv, _, hgather, hQ⟩

/-- A range of a btree is a new cord. -/
theorem wp_subTree_part (hb : (Cord.tree t).Borrowed h Z R) (hv : (Cord.tree t).Valid)
    (hbtree : t.root.isBtree = true) (hpos : 0 < n) (hle : pos + n ≤ t.length)
    {Q : Option Addr → Heap Node → Prop}
    (hQ : ∀ (s : Rep) h', PartOf (.tree s) (.tree t) ((t.bytes.drop pos).take n) h Z R h' →
      Q (some s.addr) h') :
    wp (subTree t.addr pos n) Q h := by
  obtain ⟨k, hk, ht⟩ := hv
  obtain ⟨hd, es, rfl⟩ : ∃ hd es, t = .node hd es := by
    cases t with
    | leaf e => cases e <;> cases hbtree
    | node hd es => exact ⟨hd, es, rfl⟩
  obtain ⟨rfl, -⟩ := Rep.Valid.node_iff.mp ht
  apply wp_subTree hb.owned (hb.reach _ rfl) (hb.held _ rfl) ht (Nat.le_of_succ_le hk) hpos hle
  intro s j h₁ hj _ hc
  have hnew := new_tree ⟨hc.owned, hc.held, hc.valid, hj.trans hk⟩
    (hc.cuts.data ht.leaves_valid) hc.frame
  have hedges := hc.cuts.length_le
  refine hQ s h₁ ⟨hnew, ?_⟩
  simpa only [edgeCount, chunks, List.length_map] using hedges

/-- A part of a data edge is a new cord. -/
theorem wp_substring_part (hb : (Cord.tree (.leaf e)).Borrowed h Z R) (hv : e.Valid)
    (hpos : 0 < n) (hle : pos + n ≤ e.length) {Q : Addr → Heap Node → Prop}
    (hQ : ∀ (e' : Edge) h',
      PartOf (.tree (.leaf e')) (.tree (.leaf e)) ((e.data.drop pos).take n) h Z R h' →
      Q e'.addr h') :
    wp (substring e.addr pos n) Q h := by
  have hr := hb.reach _ rfl
  have he := Rep.held_leaf.mp (hb.held _ rfl)
  apply wp_substring hb.owned hr he hv hpos hle
  intro e' h₁ he' hpart ho₁ hg
  exact hQ e' h₁ ⟨new_leaf ho₁ he' (hpart.data hle) (hb.owned.frame_of_grows hg), le_rfl⟩

/-- A range of a cord is a cord with the bytes of the range. -/
theorem wp_subcord (hb : c.Borrowed h Z R) (hv : c.Valid) (hle : pos + n ≤ c.len)
    {Q : Cord Addr → Heap Node → Prop}
    (hQ : ∀ (c' : Cord Rep) h', PartOf c' c ((c.bytes.drop pos).take n) h Z R h' →
      Q c'.handle h') :
    wp (subcord c.handle pos n) Q h := by
  have hlen : ((c.bytes.drop pos).take n).length ≤ n := List.length_take_le _ _
  have hbytes := len_eq hv
  unfold subcord
  by_cases hn : n = 0
  · rw [if_pos hn, wp_pure]
    have hempty : PartOf (.inline .new) c [] h Z R h := partOf_empty hb.owned (.refl h)
    rw [hn, List.take_zero] at hQ
    exact hQ (.inline .new) h hempty
  · have hpos := Nat.pos_of_ne_zero hn
    have hless : ((c.bytes.drop pos).take n).length ≤ c.bytes.length := by
      rw [List.length_take, List.length_drop]
      omega
    rw [if_neg hn]
    cases c with
    | inline d =>
      have hd : d.WellFormed := hv
      have hslice := hd.length_le
      have hshort : ((d.inlineSlice.drop pos).take n).length ≤ maxInline := by
        rw [List.length_take, List.length_drop]
        omega
      change wp (pure (.inline (.inlineFrom ((d.inlineSlice.drop pos).take n)))) Q h
      rw [wp_pure, InlineData.inlineFrom_eq hshort]
      exact hQ (.inline (.ofBytes _)) h (partOf_inline hb.owned hshort hv hless (.refl h))
    | tree t =>
      have hheld := hb.held t rfl
      change wp (if n ≤ maxInline then _ else _) Q h
      by_cases hsmall : n ≤ maxInline
      · rw [if_pos hsmall, wp_bind]
        apply wp_gatherInline hb.held hv hle hsmall
        rw [wp_pure]
        exact hQ (.inline (.ofBytes _)) h
          (partOf_inline hb.owned (hlen.trans hsmall) hv hless (.refl h))
      · rw [if_neg hsmall, wp_bind]
        apply wp_read hheld.node?
        by_cases hbtree : t.root.isBtree = true
        · rw [if_pos hbtree, wp_bind]
          apply wp_subTree_part hb hv hbtree hpos hle
          intro s h₁ hpart
          exact (wp_pure _ _ _).mpr (hQ (.tree s) h₁ hpart)
        · rw [if_neg hbtree, wp_bind]
          obtain ⟨k, -, ht⟩ := hv
          obtain ⟨e, rfl⟩ : ∃ e, t = .leaf e := by
            cases t with
            | leaf e => exact ⟨e, rfl⟩
            | node hd es => exact absurd rfl hbtree
          apply wp_substring_part hb (Rep.Valid.leaf_iff.mp ht).2 hpos hle
          intro e' h₁ hpart
          rw [wp_pure]
          have hbytes : bytes (.tree (.leaf e)) = e.data := Rep.bytes_leaf e
          exact hQ (.tree (.leaf e')) h₁ (hbytes ▸ hpart)

/-- A range that is resolved is within the bytes. -/
theorem resolveRange_le {range : RangeBounds} {len : ℕ}
    (hr : resolveRange range len = .ok (pos, n)) : pos + n ≤ len := by
  rw [resolveRange] at hr
  split at hr
  · cases hr
  · split at hr
    · cases hr
    · split_ifs at hr with hle hlen
      cases hr
      omega

theorem resolveRange_panics {range : RangeBounds} {len : ℕ} {f : Fault}
    (hr : resolveRange range len = .error f) : ∃ message, f = .panic message := by
  rw [resolveRange] at hr
  split at hr
  · cases hr
    exact ⟨_, rfl⟩
  · split at hr
    · cases hr
      exact ⟨_, rfl⟩
    · split_ifs at hr <;> cases hr <;> exact ⟨_, rfl⟩

/-- The two ways to resolve a range agree. -/
theorem tryResolveRange_eq (range : RangeBounds) (len : ℕ) :
    tryResolveRange range len = (resolveRange range len).toOption := by
  rw [tryResolveRange, resolveRange]
  cases range.startBound.start with
  | none => rfl
  | some start =>
    cases range.endBound.stop len with
    | none => rfl
    | some stop =>
      change (if start ≤ stop ∧ stop ≤ len then some (start, stop - start) else none) = _
      by_cases hle : start ≤ stop
      · by_cases hlen : stop ≤ len
        · simp [hle, hlen, Except.toOption]
        · simp [hle, hlen, Except.toOption]
      · simp [hle, Except.toOption]

/-- The bytes of a range are a new cord. -/
theorem wp_slice {range : RangeBounds} (hb : c.Borrowed h Z R) (hv : c.Valid)
    (hr : resolveRange range c.len = .ok (pos, n)) {Q : Cord Addr → Heap Node → Prop}
    (hQ : ∀ (c' : Cord Rep) h', PartOf c' c ((c.bytes.drop pos).take n) h Z R h' →
      Q c'.handle h') :
    wp (slice c.handle range) Q h := by
  rw [slice, wp_bind]
  apply wp_loadLen hb.held
  simp only [wp_bind, wp_liftM]
  exact ⟨_, hr, wp_subcord hb hv (resolveRange_le hr) hQ⟩

/-- A range that is not within a cord is refused with the message of the range. -/
theorem throws_slice {range : RangeBounds} {f : Fault} (hheld : ∀ t, c = .tree t → t.Held h)
    (hr : resolveRange range c.len = .error f) : Throws (slice c.handle range) f h := by
  apply throws_bind
  apply wp_loadLen hheld
  exact (throws_liftM hr h).bind _

/-- The bytes of a range are a new cord, and there is none for a range that `slice` refuses. -/
theorem wp_getRange {range : RangeBounds} (hb : c.Borrowed h Z R) (hv : c.Valid)
    {Q : Option (Cord Addr) → Heap Node → Prop}
    (hnone : (∃ f, resolveRange range c.len = .error f) → Q none h)
    (hQ : ∀ pos n, resolveRange range c.len = .ok (pos, n) → ∀ (c' : Cord Rep) h',
      PartOf c' c ((c.bytes.drop pos).take n) h Z R h' → Q (some c'.handle) h') :
    wp (getRange c.handle range) Q h := by
  rw [getRange, wp_bind]
  apply wp_loadLen hb.held
  rw [tryResolveRange_eq]
  cases hr : resolveRange range c.len with
  | error f =>
    change wp (pure none) Q h
    rw [wp_pure]
    exact hnone ⟨f, hr⟩
  | ok p =>
    obtain ⟨pos, n⟩ := p
    change wp (subcord c.handle pos n >>= _) Q h
    rw [wp_bind]
    apply wp_subcord hb hv (resolveRange_le hr)
    intro c' h₁ hpart
    rw [wp_pure]
    exact hQ pos n hr c' h₁ hpart

end Cord

end Rules

end CordRs
