import CordRs.Btree.RemoveSuffix
import CordRs.Cord.Slice

/-!
# Shortening and splitting cords

A cord loses its first or last bytes in place where nothing else refers to the data edge that is
cut, and shares what it keeps otherwise. A split makes a cord of one part and keeps the other.

## Main definitions

* `CordRs.Cord.advance`, `CordRs.Cord.truncate`, `CordRs.Cord.splitOff`, `CordRs.Cord.splitTo`.
* `CordRs.Cord.Split`: what a split leaves behind.

## Main results

* `CordRs.Cord.wp_advance`, `CordRs.Cord.wp_truncate`, `CordRs.Cord.wp_splitOff`,
  `CordRs.Cord.wp_splitTo`: the bytes of the cords that come out.
* `CordRs.Cord.throws_advance`, `CordRs.Cord.throws_splitOff`, `CordRs.Cord.throws_splitTo`: positions
  beyond the end are refused.
-/

namespace CordRs

open RefHeap

section Target

variable [Target]

namespace Cord

/-- Replace a data edge by the part of it that starts at `offset`. -/
def replaceEdge (rep : Addr) (offset n : ℕ) : HeapM (Cord Addr) := do
  let sub ← substring rep offset n
  unref rep
  pure (.tree sub)

/-- Remove the first `n` bytes. -/
def advance (c : Cord Addr) (n : ℕ) : HeapM (Cord Addr) := do
  let len ← c.loadLen
  if n ≤ len then
    match c with
    | .inline d => pure (.inline (d.dropFrontInline n))
    | .tree rep =>
      let node ← read rep
      if node.length ≤ n then
        unref rep
        pure (.inline .new)
      else if node.isBtree then
        match ← subTree rep n (node.length - n) with
        | some sub =>
          unref rep
          pure (.tree sub)
        | none => throw .dangling
      else
        let unique ← refIsOne rep
        match unique, node with
        | true, .substring length start child =>
          write rep (.substring (length - n) (start + n) child)
          pure (.tree rep)
        | _, _ => replaceEdge rep n (node.length - n)
  else
    throw (.panic s!"cannot advance past end of Cord: n = {n}, len = {len}")

/-- Keep the first `len` bytes. -/
def truncate (c : Cord Addr) (len : ℕ) : HeapM (Cord Addr) := do
  let current ← c.loadLen
  if current ≤ len then
    pure c
  else
    let n := current - len
    match c with
    | .inline d => pure (.inline (d.truncateInline len))
    | .tree rep =>
      let node ← read rep
      if node.length ≤ n then
        unref rep
        pure (.inline .new)
      else if node.isBtree then
        match ← removeSuffix rep n with
        | some rest => pure (.tree rest)
        | none => throw .dangling
      else
        let unique ← refIsOne rep
        match unique, node with
        | true, .payload (.flat tag data) =>
          write rep (.payload (.flat tag (data.take (node.length - n))))
          pure (.tree rep)
        | true, .substring _ start child =>
          write rep (.substring (node.length - n) start child)
          pure (.tree rep)
        | _, _ => replaceEdge rep 0 (node.length - n)

/-- Keep the first `pos` bytes, and return the others. -/
def splitOff (c : Cord Addr) (pos : ℕ) : HeapM (Cord Addr × Cord Addr) := do
  let len ← c.loadLen
  if pos ≤ len then
    if pos = len then
      pure (c, .inline .new)
    else if pos = 0 then
      pure (.inline .new, c)
    else
      let tail ← c.subcord pos (len - pos)
      let c ← c.truncate pos
      pure (c, tail)
  else
    throw (.panic s!"split_off index out of bounds: at = {pos}, len = {len}")

/-- Remove the first `pos` bytes, and return them. -/
def splitTo (c : Cord Addr) (pos : ℕ) : HeapM (Cord Addr × Cord Addr) := do
  let len ← c.loadLen
  if pos ≤ len then
    if pos = 0 then
      pure (c, .inline .new)
    else if pos = len then
      pure (.inline .new, c)
    else
      let head ← c.subcord 0 pos
      let c ← c.advance pos
      pure (c, head)
  else
    throw (.panic s!"split_to index out of bounds: at = {pos}, len = {len}")

end Cord

end Target

/-! ### Writing a data edge in place -/

section Rules

variable [Target] {h h' : Heap Node} {Z : List Addr} {R : Multiset Addr} {c : Cord Rep}
  {t : Rep} {e : Edge} {pos n : ℕ}

/-- The bytes of a flat that nothing else refers to are replaced. -/
private theorem wp_rewriteFlat {a : Addr} {tag : ℕ} {data data' : Bytes}
    (ho : Owned h Z (a ::ₘ R)) (he : (Edge.whole a (.flat tag data)).Held h) (hone : h.rc a = 1)
    (hv : (Edge.whole a (.flat tag data')).Valid) {Q : Unit → Heap Node → Prop}
    (hQ : ∀ h', (Edge.whole a (.flat tag data')).Held h' → Owned h' Z (a ::ₘ R) → Frame Z R h h' →
      Q () h') :
    wp (write a (.payload (.flat tag data')) : HeapM Unit) Q h := by
  have ho₁ : Owned h (a :: Z) R := (ho.openCell he.1 hone).congr (zero_add R)
  apply wp_write ho₁ List.mem_cons_self
  intro h₂ ho₂ hne ha
  have hf : Frame Z R h h₂ :=
    ho₁.frame_of_opened List.mem_cons_self (List.nodup_cons.mp ho₁.nodup).1 hne
  exact hQ h₂ ⟨ha, ha⟩ (ho₂.closeCell ha ⟨[], rfl, hv, rfl⟩ (zero_add R).symm) hf

/-- The range of a substring that nothing else refers to is replaced. -/
private theorem wp_rewritePart {a child : Addr} {length start length' start' : ℕ} {p : Payload}
    (ho : Owned h Z (a ::ₘ R)) (he : (Edge.part a length start child p).Held h) (hone : h.rc a = 1)
    (hv : (Edge.part a length' start' child p).Valid) {Q : Unit → Heap Node → Prop}
    (hQ : ∀ h', (Edge.part a length' start' child p).Held h' → Owned h' Z (a ::ₘ R) →
      Frame Z R h h' → Q () h') :
    wp (write a (.substring length' start' child) : HeapM Unit) Q h := by
  have haZ := (ho.of_mem (Multiset.mem_cons_self _ _)).1
  have ho₁ := ho.openCell he.1 hone
  apply wp_write ho₁ List.mem_cons_self
  intro h₂ ho₂ hne ha
  have hf : Frame Z (child ::ₘ R) h h₂ := ho₁.frame_of_opened List.mem_cons_self haZ hne
  have hchild : h₂.node? child = some (.payload p) :=
    (hf.kept child (.root (Multiset.mem_cons_self _ _))).trans he.2
  have hfits : FitsIn h₂ (.substring length' start' child) :=
    ⟨[.payload p], by simpa [Pointers.children, Node.children] using hchild,
      ⟨hv.2.1, p, rfl, hv.2.2⟩, rfl⟩
  exact hQ h₂ ⟨ha, hchild⟩ (ho₂.closeCell ha hfits rfl)
    (hf.mono (List.Subset.refl _) (Multiset.le_cons_self _ _))

namespace Cord

/-! ### Shortening a cord -/

/-- A data edge gives way to a part of it. -/
private theorem wp_replaceEdge (ht : Holding h Z R 0 (.leaf e)) (hpos : 0 < n)
    (hle : pos + n ≤ e.length) {Q : Cord Addr → Heap Node → Prop}
    (hQ : ∀ (c' : Cord Rep) h',
      PartOf c' (.tree (.leaf e)) ((e.data.drop pos).take n) h Z R h' → Q c'.handle h') :
    wp (replaceEdge e.addr pos n) Q h := by
  have hv := (Rep.Valid.leaf_iff.mp ht.valid).2
  rw [replaceEdge, wp_bind]
  apply wp_substring_part (owns_tree ht).borrowed hv hpos hle
  intro e' h₁ hpart
  rw [wp_bind]
  apply hpart.wp_unref
  intro h₂ hpart₂
  rw [wp_pure]
  exact hQ (.tree (.leaf e')) h₂ hpart₂

/-- The first bytes of a data edge are removed. -/
private theorem wp_advanceEdge (ht : Holding h Z R 0 (.leaf e)) (hlt : n < e.length)
    {Q : Cord Addr → Heap Node → Prop}
    (hQ : ∀ (c' : Cord Rep) h', PartOf c' (.tree (.leaf e)) (e.data.drop n) h Z R h' →
      Q c'.handle h') :
    wp (do
      let unique ← refIsOne e.addr
      match unique, e.node with
      | true, .substring length start child =>
        write e.addr (.substring (length - n) (start + n) child)
        pure (.tree e.addr)
      | _, _ => replaceEdge e.addr n (e.length - n)) Q h := by
  have he := Rep.held_leaf.mp ht.held
  have hv := (Rep.Valid.leaf_iff.mp ht.valid).2
  have hdata := hv.length_data
  have hreplace : wp (replaceEdge e.addr n (e.length - n)) Q h := by
    apply wp_replaceEdge ht (Nat.sub_pos_of_lt hlt) (by omega)
    intro c' h₁ hpart
    rw [List.take_of_length_le (by rw [List.length_drop]; omega)] at hpart
    exact hQ c' h₁ hpart
  rw [wp_bind]
  apply wp_refIsOne he.1
  by_cases hone : h.rc e.addr = 1
  · rw [decide_eq_true hone]
    cases e with
    | whole a p => exact hreplace
    | part a length start child p =>
      have hv' : (Edge.part a (length - n) (start + n) child p).Valid := by
        obtain ⟨hp, -, hle⟩ := hv
        simp only [Edge.length] at hlt
        exact ⟨hp, by omega, by omega⟩
      change wp (write a (.substring (length - n) (start + n) child) >>= _) Q h
      rw [wp_bind]
      apply wp_rewritePart ht.owned he hone hv'
      intro h₁ he₁ ho₁ hf₁
      rw [wp_pure]
      have hbytes : (Edge.part a (length - n) (start + n) child p).data =
          (Edge.part a length start child p).data.drop n := by
        simp only [Edge.data, List.drop_take, List.drop_drop]
      exact hQ (.tree (.leaf (.part a (length - n) (start + n) child p))) h₁
        ⟨new_leaf ho₁ he₁ hbytes hf₁, le_rfl⟩
  · rw [decide_eq_false hone]
    exact hreplace

/-- The first bytes of a cord are removed. -/
theorem wp_advance (hc : Owns h Z R c) (hle : n ≤ c.len) {Q : Cord Addr → Heap Node → Prop}
    (hQ : ∀ (c' : Cord Rep) h', PartOf c' c (c.bytes.drop n) h Z R h' → Q c'.handle h') :
    wp (advance c.handle n) Q h := by
  have hlen := len_eq hc.valid
  unfold advance
  rw [wp_bind]
  apply wp_loadLen hc.held
  rw [if_pos hle]
  cases c with
  | inline d =>
    have hd : d.WellFormed := hc.valid
    have hslice := hd.length_le
    have hdrop : d.dropFrontInline n = .ofBytes (d.inlineSlice.drop n) := by
      conv_lhs => rw [hd.2]
      exact InlineData.dropFrontInline_eq (hlen ▸ hle) hslice
    have hshort : (d.inlineSlice.drop n).length ≤ maxInline := by
      rw [List.length_drop]
      omega
    have hless : (d.inlineSlice.drop n).length ≤ d.inlineSlice.length := by
      rw [List.length_drop]
      omega
    rw [handle, wp_pure, hdrop]
    exact hQ (.inline (.ofBytes _)) h (partOf_inline hc.inline hshort hd hless (.refl h))
  | tree t =>
    obtain ⟨k, ht⟩ := hc.holding
    have hroot := t.root_length
    change n ≤ t.length at hle
    rw [handle, wp_bind]
    apply wp_read ht.held.node?
    rw [hroot]
    by_cases hall : t.length ≤ n
    · rw [if_pos hall, wp_bind]
      apply wp_unref ht.owned
      intro h₁ ho₁ hf₁
      have hnil : bytes (.tree t) = t.bytes := rfl
      have hdrop : t.bytes.drop n = [] := List.drop_eq_nil_of_le (ht.valid.length_bytes.trans_le hall)
      rw [wp_pure]
      rw [hnil, hdrop] at hQ
      exact hQ (.inline .new) h₁ (partOf_empty ho₁ hf₁)
    · have hlt := Nat.lt_of_not_le hall
      rw [if_neg hall]
      by_cases hbtree : t.root.isBtree = true
      · rw [if_pos hbtree, wp_bind]
        apply wp_subTree_part hc.borrowed hc.valid hbtree (Nat.sub_pos_of_lt hlt) (by omega)
        intro s h₁ hpart
        rw [List.take_of_length_le (by rw [List.length_drop, ht.valid.length_bytes])] at hpart
        change wp (unref t.addr >>= _) Q h₁
        rw [wp_bind]
        apply hpart.wp_unref
        intro h₂ hpart₂
        rw [wp_pure]
        exact hQ (.tree s) h₂ hpart₂
      · obtain ⟨e, rfl⟩ : ∃ e, t = .leaf e := by
          cases t with
          | leaf e => exact ⟨e, rfl⟩
          | node hd es => exact absurd rfl hbtree
        have hk := (Rep.Valid.leaf_iff.mp ht.valid).1
        subst hk
        rw [if_neg hbtree]
        apply wp_advanceEdge ht hlt
        intro c' h₁ hpart
        have hbytes : bytes (.tree (.leaf e)) = e.data := Rep.bytes_leaf e
        exact hQ c' h₁ (hbytes ▸ hpart)

/-- The first bytes of a data edge are kept. -/
private theorem wp_truncateEdge (ht : Holding h Z R 0 (.leaf e)) (hpos : 0 < n)
    (hlt : n < e.length) {Q : Cord Addr → Heap Node → Prop}
    (hQ : ∀ (c' : Cord Rep) h', PartOf c' (.tree (.leaf e)) (e.data.take n) h Z R h' →
      Q c'.handle h') :
    wp (do
      let unique ← refIsOne e.addr
      match unique, e.node with
      | true, .payload (.flat tag data) =>
        write e.addr (.payload (.flat tag (data.take n)))
        pure (.tree e.addr)
      | true, .substring _ start child =>
        write e.addr (.substring n start child)
        pure (.tree e.addr)
      | _, _ => replaceEdge e.addr 0 n) Q h := by
  have he := Rep.held_leaf.mp ht.held
  have hv := (Rep.Valid.leaf_iff.mp ht.valid).2
  have hreplace : wp (replaceEdge e.addr 0 n) Q h :=
    wp_replaceEdge ht hpos (by omega) fun c' h₁ hpart ↦ hQ c' h₁ hpart
  rw [wp_bind]
  apply wp_refIsOne he.1
  by_cases hone : h.rc e.addr = 1
  · rw [decide_eq_true hone]
    cases e with
    | whole a p =>
      cases p with
      | external data allocation => exact hreplace
      | flat tag data =>
        have hv' : (Edge.whole a (.flat tag (data.take n))).Valid := by
          obtain ⟨hlo, hhi, -, hcap⟩ := hv
          change n < data.length at hlt
          have hlen : (data.take n).length = n := List.length_take_of_le hlt.le
          exact ⟨hlo, hhi, by omega, by omega⟩
        change wp (write a (.payload (.flat tag (data.take n))) >>= _) Q h
        rw [wp_bind]
        apply wp_rewriteFlat ht.owned he hone hv'
        intro h₁ he₁ ho₁ hf₁
        rw [wp_pure]
        exact hQ (.tree (.leaf (.whole a (.flat tag (data.take n))))) h₁
          ⟨new_leaf ho₁ he₁ rfl hf₁, le_rfl⟩
    | part a length start child p =>
      have hv' : (Edge.part a n start child p).Valid := by
        obtain ⟨hp, -, hle⟩ := hv
        simp only [Edge.length] at hlt
        exact ⟨hp, hpos, by omega⟩
      change wp (write a (.substring n start child) >>= _) Q h
      rw [wp_bind]
      apply wp_rewritePart ht.owned he hone hv'
      intro h₁ he₁ ho₁ hf₁
      rw [wp_pure]
      have hbytes : (Edge.part a n start child p).data =
          (Edge.part a length start child p).data.take n := by
        simp only [Edge.length] at hlt
        simp only [Edge.data, List.take_take, Nat.min_eq_left hlt.le]
      exact hQ (.tree (.leaf (.part a n start child p))) h₁
        ⟨new_leaf ho₁ he₁ hbytes hf₁, le_rfl⟩
  · rw [decide_eq_false hone]
    exact hreplace

/-- The first bytes of a cord are kept. -/
theorem wp_truncate (hc : Owns h Z R c) {Q : Cord Addr → Heap Node → Prop}
    (hQ : ∀ (c' : Cord Rep) h', PartOf c' c (c.bytes.take n) h Z R h' → Q c'.handle h') :
    wp (truncate c.handle n) Q h := by
  have hlen := len_eq hc.valid
  unfold truncate
  rw [wp_bind]
  apply wp_loadLen hc.held
  by_cases hle : c.len ≤ n
  · rw [if_pos hle, wp_pure]
    have hall : c.bytes.take n = c.bytes := List.take_of_length_le (hlen ▸ hle)
    rw [hall] at hQ
    exact hQ c h ⟨⟨hc, rfl, .refl h⟩, le_rfl⟩
  · have hlt := Nat.lt_of_not_le hle
    rw [if_neg hle]
    cases c with
    | inline d =>
      have hd : d.WellFormed := hc.valid
      have hslice := hd.length_le
      have htake : d.truncateInline n = .ofBytes (d.inlineSlice.take n) := by
        conv_lhs => rw [hd.2]
        exact InlineData.truncateInline_eq (hlen ▸ hlt.le) hslice
      have hshort : (d.inlineSlice.take n).length ≤ maxInline := by
        rw [List.length_take]
        omega
      have hless : (d.inlineSlice.take n).length ≤ d.inlineSlice.length := List.length_take_le' _ _
      rw [handle]
      change wp (pure (.inline (d.truncateInline n))) Q h
      rw [wp_pure, htake]
      exact hQ (.inline (.ofBytes _)) h (partOf_inline hc.inline hshort hd hless (.refl h))
    | tree t =>
      obtain ⟨k, ht⟩ := hc.holding
      have hroot := t.root_length
      change n < t.length at hlt
      rw [handle]
      change wp (read t.addr >>= _) Q h
      rw [wp_bind]
      apply wp_read ht.held.node?
      have hkeep : t.length - (t.length - n) = n := by omega
      change wp (if t.root.length ≤ t.length - n then _ else _) Q h
      rw [hroot]
      by_cases hnone : t.length ≤ t.length - n
      · rw [if_pos hnone, wp_bind]
        obtain rfl : n = 0 := by omega
        apply wp_unref ht.owned
        intro h₁ ho₁ hf₁
        rw [wp_pure]
        rw [List.take_zero] at hQ
        exact hQ (.inline .new) h₁ (partOf_empty ho₁ hf₁)
      · rw [if_neg hnone]
        by_cases hbtree : t.root.isBtree = true
        · obtain ⟨hd, es, rfl⟩ : ∃ hd es, t = .node hd es := by
            cases t with
            | leaf e => cases e <;> cases hbtree
            | node hd es => exact ⟨hd, es, rfl⟩
          obtain ⟨rfl, -⟩ := Rep.Valid.node_iff.mp ht.valid
          rw [if_pos hbtree, wp_bind]
          apply wp_removeSuffix ht.owned ht.held ht.valid (Nat.sub_pos_of_lt hlt) (by omega)
          intro s j h₁ hj ho₁ hs hv hbytes hedges hf₁
          rw [hkeep] at hbytes
          change wp (pure (.tree s.addr)) Q h₁
          rw [wp_pure]
          refine hQ (.tree s) h₁ ⟨new_tree ⟨ho₁, hs, hv, hj.trans ht.depth⟩ hbytes hf₁, ?_⟩
          simpa only [edgeCount, chunks, List.length_map] using hedges
        · obtain ⟨e, rfl⟩ : ∃ e, t = .leaf e := by
            cases t with
            | leaf e => exact ⟨e, rfl⟩
            | node hd es => exact absurd rfl hbtree
          have hk := (Rep.Valid.leaf_iff.mp ht.valid).1
          subst hk
          change Rep.length (.leaf e) - (len (.tree (.leaf e)) - n) = n at hkeep
          rw [if_neg hbtree, hkeep]
          apply wp_truncateEdge ht (by omega) hlt
          intro c' h₁ hpart
          have hbytes : bytes (.tree (.leaf e)) = e.data := Rep.bytes_leaf e
          exact hQ c' h₁ (hbytes ▸ hpart)

/-! ### Splitting a cord -/

/-- Two cords came out of one. -/
structure Split (c c₁ c₂ : Cord Rep) (bs₁ bs₂ : Bytes) (h : Heap Node) (Z : List Addr)
    (R : Multiset Addr) (h' : Heap Node) : Prop where
  owned : Owned h' Z (c₁.refs + (c₂.refs + R))
  held₁ : ∀ t, c₁ = .tree t → t.Held h'
  held₂ : ∀ t, c₂ = .tree t → t.Held h'
  valid₁ : c₁.Valid
  valid₂ : c₂.Valid
  bytes₁ : c₁.bytes = bs₁
  bytes₂ : c₂.bytes = bs₂
  edges₁ : c₁.edgeCount ≤ c.edgeCount
  edges₂ : c₂.edgeCount ≤ c.edgeCount
  frame : Frame Z R h h'

/-- A part of a cord next to what becomes of the cord afterwards. -/
theorem PartOf.split {c₁ c₂ : Cord Rep} {bs₁ bs₂ : Bytes} {h₁ h₂ : Heap Node}
    (hnew₂ : PartOf c₂ c bs₂ h Z (c.refs + R) h₁) (hnew₁ : PartOf c₁ c bs₁ h₁ Z (c₂.refs + R) h₂) :
    Split c c₁ c₂ bs₁ bs₂ h Z R h₂ where
  owned := hnew₁.owns.owned
  held₁ := hnew₁.owns.held
  held₂ t ht := (hnew₂.owns.held t ht).frame hnew₁.frame (.root (by simp [ht, refs]))
  valid₁ := hnew₁.owns.valid
  valid₂ := hnew₂.owns.valid
  bytes₁ := hnew₁.bytes
  bytes₂ := hnew₂.bytes
  edges₁ := hnew₁.edges
  edges₂ := hnew₂.edges
  frame := (hnew₂.frame.mono (List.Subset.refl _) (Multiset.le_add_left _ _)).trans
    (hnew₁.frame.mono (List.Subset.refl _) (Multiset.le_add_left _ _))

/-- A cord next to a new one that was made from it. -/
theorem Owns.of_new {c' : Cord Rep} {bs : Bytes} {h₁ : Heap Node} (hc : Owns h Z R c)
    (hnew : New c' bs h Z (c.refs + R) h₁) : Owns h₁ Z (c'.refs + R) c where
  owned := hnew.owns.owned.congr (add_left_comm _ _ _)
  held t ht := (hc.held t ht).frame hnew.frame (.root (by simp [ht, refs]))
  valid := hc.valid

private theorem split_empty_right (hc : Owns h Z R c) :
    Split c c (.inline .new) c.bytes [] h Z R h where
  owned := by simpa [refs] using hc.owned
  held₁ := hc.held
  held₂ t ht := by cases ht
  valid₁ := hc.valid
  valid₂ := (new_empty hc.owned (.refl h)).owns.valid
  bytes₁ := rfl
  bytes₂ := bytes_new
  edges₁ := le_rfl
  edges₂ := Nat.zero_le _
  frame := .refl h

private theorem split_empty_left (hc : Owns h Z R c) :
    Split c (.inline .new) c [] c.bytes h Z R h where
  owned := by simpa [refs] using hc.owned
  held₁ t ht := by cases ht
  held₂ := hc.held
  valid₁ := (new_empty hc.owned (.refl h)).owns.valid
  valid₂ := hc.valid
  bytes₁ := bytes_new
  bytes₂ := rfl
  edges₁ := Nat.zero_le _
  edges₂ := le_rfl
  frame := .refl h

/-- The first bytes stay, and the others are returned. -/
theorem wp_splitOff (hc : Owns h Z R c) (hle : pos ≤ c.len)
    {Q : Cord Addr × Cord Addr → Heap Node → Prop}
    (hQ : ∀ (c₁ c₂ : Cord Rep) h', Split c c₁ c₂ (c.bytes.take pos) (c.bytes.drop pos) h Z R h' →
      Q (c₁.handle, c₂.handle) h') :
    wp (splitOff c.handle pos) Q h := by
  have hlen := len_eq hc.valid
  rw [splitOff, wp_bind]
  apply wp_loadLen hc.held
  rw [if_pos hle]
  by_cases hall : pos = c.len
  · have htake : c.bytes.take pos = c.bytes := List.take_of_length_le (by omega)
    have hdrop : c.bytes.drop pos = [] := List.drop_of_length_le (by omega)
    rw [htake, hdrop] at hQ
    rw [if_pos hall, wp_pure]
    exact hQ c (.inline .new) h (split_empty_right hc)
  · rw [if_neg hall]
    by_cases hzero : pos = 0
    · subst hzero
      rw [if_pos rfl, wp_pure]
      exact hQ (.inline .new) c h (split_empty_left hc)
    · rw [if_neg hzero, wp_bind]
      apply wp_subcord hc.borrowed hc.valid (by omega)
      intro c₂ h₁ hnew₂
      rw [List.take_of_length_le (by rw [List.length_drop]; omega)] at hnew₂
      rw [wp_bind]
      apply wp_truncate (hc.of_new hnew₂.toNew)
      intro c₁ h₂ hnew₁
      rw [wp_pure]
      exact hQ c₁ c₂ h₂ (hnew₂.split hnew₁)

/-- The first bytes are returned, and the others stay. -/
theorem wp_splitTo (hc : Owns h Z R c) (hle : pos ≤ c.len)
    {Q : Cord Addr × Cord Addr → Heap Node → Prop}
    (hQ : ∀ (c₁ c₂ : Cord Rep) h', Split c c₁ c₂ (c.bytes.drop pos) (c.bytes.take pos) h Z R h' →
      Q (c₁.handle, c₂.handle) h') :
    wp (splitTo c.handle pos) Q h := by
  have hlen := len_eq hc.valid
  rw [splitTo, wp_bind]
  apply wp_loadLen hc.held
  rw [if_pos hle]
  by_cases hzero : pos = 0
  · subst hzero
    rw [if_pos rfl, wp_pure]
    exact hQ c (.inline .new) h (split_empty_right hc)
  · rw [if_neg hzero]
    by_cases hall : pos = c.len
    · have htake : c.bytes.take pos = c.bytes := List.take_of_length_le (by omega)
      have hdrop : c.bytes.drop pos = [] := List.drop_of_length_le (by omega)
      rw [htake, hdrop] at hQ
      rw [if_pos hall, wp_pure]
      exact hQ (.inline .new) c h (split_empty_left hc)
    · rw [if_neg hall, wp_bind]
      apply wp_subcord hc.borrowed hc.valid (by omega)
      intro c₂ h₁ hnew₂
      rw [List.drop_zero] at hnew₂
      rw [wp_bind]
      apply wp_advance (hc.of_new hnew₂.toNew) hle
      intro c₁ h₂ hnew₁
      rw [wp_pure]
      exact hQ c₁ c₂ h₂ (hnew₂.split hnew₁)

/-! ### Positions beyond the end -/

omit [Target] in
theorem throws_advance (hheld : ∀ t, c = .tree t → t.Held h) (hlt : c.len < n) :
    Throws (advance c.handle n)
      (.panic s!"cannot advance past end of Cord: n = {n}, len = {c.len}") h := by
  apply throws_bind
  apply wp_loadLen hheld
  rw [if_neg (Nat.not_le_of_lt hlt)]
  exact throws_throw _ h

omit [Target] in
theorem throws_splitOff (hheld : ∀ t, c = .tree t → t.Held h) (hlt : c.len < pos) :
    Throws (splitOff c.handle pos)
      (.panic s!"split_off index out of bounds: at = {pos}, len = {c.len}") h := by
  apply throws_bind
  apply wp_loadLen hheld
  rw [if_neg (Nat.not_le_of_lt hlt)]
  exact throws_throw _ h

omit [Target] in
theorem throws_splitTo (hheld : ∀ t, c = .tree t → t.Held h) (hlt : c.len < pos) :
    Throws (splitTo c.handle pos)
      (.panic s!"split_to index out of bounds: at = {pos}, len = {c.len}") h := by
  apply throws_bind
  apply wp_loadLen hheld
  rw [if_neg (Nat.not_le_of_lt hlt)]
  exact throws_throw _ h

end Cord

end Rules

end CordRs
