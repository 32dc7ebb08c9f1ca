import CordRs.Rep.View

/-!
# Dropping references and cutting data edges

`unref` gives up a reference, and destroys the node with everything only it refers to when the
reference was the last one. `substringImpl` makes a substring of a data edge; a substring of a
substring refers to the same flat or external.

Recursion is bounded by the rank of the node that is destroyed, which goes down along references.

## Main definitions

* `CordRs.destroy`, `CordRs.unref`, `CordRs.unrefEdges`, `CordRs.refRep`.
* `CordRs.substringImpl`, `CordRs.makeSubstring`, `CordRs.makeSubstringFrom`,
  `CordRs.resizeEdge`.
* `CordRs.Edge.PartOf`, `CordRs.Edge.Shortened`: a part of a data edge, and its first bytes.

## Main results

* `CordRs.wp_unref`: only cells that nothing else refers to change.
* `CordRs.wp_substringImpl`, `CordRs.wp_resizeEdge`.
-/

namespace CordRs

open RefHeap

/-! ### Dropping references -/

/-- Drop a reference to each edge, and destroy those it was the last one of. -/
def unrefWith (destroy : Addr → HeapM Unit) : List Addr → HeapM Unit
  | [] => pure ()
  | edge :: edges => do
    if !(← refDec edge) then
      destroy edge
    unrefWith destroy edges

/-- Destroy a node whose last reference was dropped. The source unrolls the recursion over btree
nodes by one level. -/
def destroy : ℕ → Addr → HeapM Unit
  | 0, _ => throw .unreachable
  | fuel + 1, rep => do
    match ← read rep with
    | .btree b =>
      unrefWith (destroy fuel) b.edges
      free rep
    | .substring _ _ child =>
      free rep
      if !(← refDec child) then
        destroy fuel child
    | .payload _ => free rep

/-- Drop a reference. -/
def unref (rep : Addr) : HeapM Unit := do
  if !(← refDec rep) then
    let node ← read rep
    destroy (node.rank + 1) rep

/-- Drop a reference to each of a list of edges. -/
def unrefEdges : List Addr → HeapM Unit
  | [] => pure ()
  | edge :: edges => do
    unref edge
    unrefEdges edges

/-- Add a reference to a node and return it. -/
def refRep (rep : Addr) : HeapM Addr := do
  refInc rep
  pure rep

section Release

variable [Target] {h : Heap Node} {Z : List Addr} {R : Multiset Addr} {a : Addr} {n : Node}

private theorem wp_unrefWith {destroy : Addr → HeapM Unit} {bound : ℕ}
    (hdestroy : ∀ {h a Z R n} {Q : Unit → Heap Node → Prop}, Owned h Z (a ::ₘ R) → h.rc a = 1 →
      h.node? a = some n → n.rank < bound → (∀ h', Owned h' Z R → Frame Z R h h' → Q () h') →
      wp (destroy a) Q h)
    {es : List Addr} (ho : Owned h Z ((es : Multiset Addr) + R))
    (hes : ∀ e ∈ es, ∀ m, h.node? e = some m → m.rank < bound) {Q : Unit → Heap Node → Prop}
    (hQ : ∀ h', Owned h' Z R → Frame Z R h h' → Q () h') : wp (unrefWith destroy es) Q h := by
  induction es generalizing h with
  | nil => exact (wp_pure _ _ _).mpr (hQ h (by simpa using ho) (.refl h))
  | cons e es ih =>
    have ho' : Owned h Z (e ::ₘ ((es : Multiset Addr) + R)) := ho.congr (coe_cons_add _ _ _)
    have hrest : ∀ h₁, Owned h₁ Z ((es : Multiset Addr) + R) →
        Frame Z ((es : Multiset Addr) + R) h h₁ → wp (unrefWith destroy es) Q h₁ := by
      intro h₁ ho₁ hf₁
      refine ih ho₁ (fun c hc m hm ↦ ?_) fun h₂ ho₂ hf₂ ↦ ?_
      · rw [hf₁.kept c (.root (Multiset.mem_add.mpr (.inl (Multiset.mem_coe.mpr hc))))] at hm
        exact hes c (List.mem_cons_of_mem _ hc) m hm
      · exact hQ h₂ ho₂ ((hf₁.mono (List.Subset.refl _) (Multiset.le_add_left _ _)).trans hf₂)
    rw [unrefWith, wp_bind]
    refine wp_refDec ho' (fun hone ↦ ?_) fun h₁ ho₁ hn₁ ↦ ?_
    · obtain ⟨-, m, hm⟩ := ho'.of_mem (Multiset.mem_cons_self _ _)
      simp only [Bool.not_false, if_true, wp_bind]
      exact hdestroy ho' hone hm (hes e List.mem_cons_self m hm) hrest
    · simp only [Bool.not_true, Bool.false_eq_true, if_false]
      exact hrest h₁ ho₁ (Owned.frame_of_node?_eq hn₁)

theorem wp_destroy {fuel : ℕ} (ho : Owned h Z (a ::ₘ R)) (hone : h.rc a = 1)
    (hn : h.node? a = some n) (hfuel : n.rank < fuel) {Q : Unit → Heap Node → Prop}
    (hQ : ∀ h', Owned h' Z R → Frame Z R h h' → Q () h') : wp (destroy fuel a) Q h := by
  induction fuel generalizing h a Z R n Q with
  | zero => omega
  | succ fuel ih =>
    have haZ := (ho.of_mem (Multiset.mem_cons_self _ _)).1
    have hopen := ho.openCell hn hone
    have hrank : ∀ c ∈ Pointers.children n, ∀ m, h.node? c = some m → m.rank < fuel := by
      intro c hc m hm
      have : m.rank < n.rank := ho.rank_lt_of_child haZ hn hc hm
      omega
    rw [destroy, wp_bind]
    refine wp_read hn ?_
    cases n with
    | payload p =>
      refine wp_free hopen fun h₁ ho₁ hn₁ ↦ ?_
      have hchildren : ((Pointers.children (Node.payload p) : List Addr) : Multiset Addr) = 0 := rfl
      rw [hchildren, zero_add] at ho₁ hopen
      exact hQ h₁ ho₁ (hopen.frame_of_opened List.mem_cons_self haZ hn₁)
    | substring length start child =>
      have hchildren : ((Pointers.children (Node.substring length start child) : List Addr) :
        Multiset Addr) + R = child ::ₘ R := rfl
      rw [hchildren] at hopen
      simp only [wp_bind]
      refine wp_free hopen fun h₁ ho₁ hn₁ ↦ ?_
      have hf₁ : Frame Z (child ::ₘ R) h h₁ := hopen.frame_of_opened List.mem_cons_self haZ hn₁
      refine wp_refDec ho₁ (fun hone₁ ↦ ?_) fun h₂ ho₂ hn₂ ↦ ?_
      · obtain ⟨-, m, hm⟩ := ho₁.of_mem (Multiset.mem_cons_self _ _)
        simp only [Bool.not_false, if_true]
        refine ih ho₁ hone₁ hm ?_ fun h₂ ho₂ hf₂ ↦ ?_
        · rw [hf₁.kept child (.root (Multiset.mem_cons_self _ _))] at hm
          exact hrank child List.mem_cons_self m hm
        · exact hQ h₂ ho₂ ((hf₁.mono (List.Subset.refl _) (Multiset.le_cons_self _ _)).trans hf₂)
      · simp only [Bool.not_true, Bool.false_eq_true, if_false, wp_pure]
        exact hQ h₂ ho₂ ((hf₁.mono (List.Subset.refl _) (Multiset.le_cons_self _ _)).trans
          (Owned.frame_of_node?_eq hn₂))
    | btree b =>
      simp only [wp_bind]
      refine wp_unrefWith (fun ho hone hn hr hQ ↦ ih ho hone hn hr hQ) hopen hrank
        fun h₁ ho₁ hf₁ ↦ ?_
      refine wp_free ho₁ fun h₂ ho₂ hn₂ ↦ ?_
      exact hQ h₂ ho₂ ((hf₁.mono (List.subset_cons_self _ _) le_rfl).trans
        (ho₁.frame_of_opened List.mem_cons_self haZ hn₂))

/-- Dropping a reference changes nothing that is still reachable from elsewhere. -/
theorem wp_unref (ho : Owned h Z (a ::ₘ R)) {Q : Unit → Heap Node → Prop}
    (hQ : ∀ h', Owned h' Z R → Frame Z R h h' → Q () h') : wp (unref a) Q h := by
  rw [unref, wp_bind]
  refine wp_refDec ho (fun hone ↦ ?_) fun h₁ ho₁ hn₁ ↦ ?_
  · obtain ⟨-, n, hn⟩ := ho.of_mem (Multiset.mem_cons_self _ _)
    simp only [Bool.not_false, if_true, wp_bind]
    exact wp_read hn (wp_destroy ho hone hn (Nat.lt_succ_self _) hQ)
  · simp only [Bool.not_true, Bool.false_eq_true, if_false, wp_pure]
    exact hQ h₁ ho₁ (Owned.frame_of_node?_eq hn₁)

theorem wp_unrefEdges {es : List Addr} (ho : Owned h Z ((es : Multiset Addr) + R))
    {Q : Unit → Heap Node → Prop} (hQ : ∀ h', Owned h' Z R → Frame Z R h h' → Q () h') :
    wp (unrefEdges es) Q h := by
  induction es generalizing h with
  | nil => exact (wp_pure _ _ _).mpr (hQ h (by simpa using ho) (.refl h))
  | cons e es ih =>
    rw [unrefEdges, wp_bind]
    refine wp_unref (ho.congr (coe_cons_add _ _ _) : Owned h Z (e ::ₘ ((es : Multiset Addr) + R)))
      fun h₁ ho₁ hf₁ ↦ ih ho₁ fun h₂ ho₂ hf₂ ↦ ?_
    exact hQ h₂ ho₂ ((hf₁.mono (List.Subset.refl _) (Multiset.le_add_left _ _)).trans hf₂)

theorem wp_refRep (ho : Owned h Z R) (ha : Reach h R a) {Q : Addr → Heap Node → Prop}
    (hQ : ∀ h', Owned h' Z (a ::ₘ R) → (∀ x, h'.node? x = h.node? x) → Q a h') :
    wp (refRep a) Q h := by
  rw [refRep, wp_bind]
  refine wp_refInc ho ha fun h' ho' hn' ↦ ?_
  rw [wp_pure]
  exact hQ h' ho' hn'

end Release

/-! ### Cutting data edges -/

/-- The part of a data edge from `offset` on, as a substring at an address. -/
def Edge.cut (a : Addr) (e : Edge) (offset n : ℕ) : Edge :=
  .part a n (e.start + offset) e.base.1 e.base.2

/-- A substring of a data edge, which takes over the reference to it if `adopt`. -/
def substringImpl (adopt : Bool) (rep : Addr) (offset n : ℕ) : HeapM Addr := do
  let (rep, offset) ← do
    match ← read rep with
    | .substring _ start child =>
      if adopt then
        let child ← refRep child
        unref rep
        pure (child, offset + start)
      else
        pure (child, offset + start)
    | _ => pure (rep, offset)
  let child ← if adopt then pure rep else refRep rep
  alloc (.substring n offset child)

/-- A substring of a data edge, or the edge itself if it is all of it. There is no null edge in
the model: a request for no bytes, which no caller makes, is a fault. -/
def makeSubstring (rep : Addr) (offset n : ℕ) : HeapM Addr := do
  let node ← read rep
  if n = node.length then
    pure rep
  else if n = 0 then
    unref rep
    throw .dangling
  else
    substringImpl true rep offset n

/-- The rest of a data edge. -/
def makeSubstringFrom (rep : Addr) (offset : ℕ) : HeapM Addr := do
  if offset = 0 then
    pure rep
  else
    let node ← read rep
    substringImpl true rep offset (node.length - offset)

/-- Shorten a data edge, in place if it is mutable. -/
def resizeEdge (edge : Addr) (length : ℕ) (isMutable : Bool) : HeapM Addr := do
  let node ← read edge
  if node.length ≤ length then
    pure edge
  else
    match isMutable, node with
    | true, .payload (.flat tag data) =>
      write edge (.payload (.flat tag (data.take length)))
      pure edge
    | true, .substring _ start child =>
      write edge (.substring length start child)
      pure edge
    | _, _ => substringImpl true edge 0 length

/-- A substring of a borrowed data edge. As above, a request for no bytes is a fault. -/
def substring (rep : Addr) (pos n : ℕ) : HeapM Addr := do
  let node ← read rep
  if n = 0 then
    throw .dangling
  else if n = node.length then
    refRep rep
  else
    substringImpl false rep pos n

section Cut

variable [Target] {h : Heap Node} {Z : List Addr} {R : Multiset Addr} {a : Addr} {e : Edge}
  {offset n : ℕ} {Q : Addr → Heap Node → Prop}

namespace Edge

omit [Target] in
@[simp] theorem addr_cut (a : Addr) (e : Edge) (offset n : ℕ) : (cut a e offset n).addr = a := rfl

omit [Target] in
@[simp] theorem length_cut (a : Addr) (e : Edge) (offset n : ℕ) :
    (cut a e offset n).length = n := rfl

/-- The part of a data edge of length `n` from `offset` on: it refers to the same flat or external,
and it is the edge itself when it is all of it. -/
structure PartOf (e' e : Edge) (offset n : ℕ) : Prop where
  base : e'.base = e.base
  start : e'.start = e.start + offset
  length : e'.length = n
  whole : n = e.length → e' = e

omit [Target] in
private theorem data_eq (e : Edge) : e.data = (e.base.2.data.drop e.start).take e.length := by
  cases e with
  | whole b p => simp [data, base, Edge.start, Edge.length]
  | part b length start child p => rfl

omit [Target] in
theorem PartOf.data {e' : Edge} (hp : e'.PartOf e offset n) (h : offset + n ≤ e.length) :
    e'.data = (e.data.drop offset).take n := by
  rw [data_eq e', data_eq e, hp.base, hp.start, hp.length, List.drop_take, List.take_take,
    List.drop_drop, Nat.min_eq_left (by omega)]

omit [Target] in
theorem partOf_cut (a : Addr) (e : Edge) (hne : n ≠ e.length) :
    (cut a e offset n).PartOf e offset n :=
  ⟨rfl, rfl, rfl, fun h ↦ absurd h hne⟩

omit [Target] in
theorem partOf_self (e : Edge) (hn : n = e.length) (ho : offset = 0) : e.PartOf e offset n :=
  ⟨rfl, by rw [ho, Nat.add_zero], hn.symm, fun _ ↦ rfl⟩

end Edge

omit [Target] in
/-- The address of the flat or external behind a held data edge. -/
private theorem reach_base [Target] (he : e.Held h) (hr : Reach h R e.addr) :
    Reach h R e.base.1 := by
  cases e with
  | whole b p => exact hr
  | part b length start child p => exact hr.child he.1 (List.mem_singleton_self child)

/-- A new substring of a flat or external to which a reference is held. -/
private theorem wp_alloc_substring {p : Payload} {start : ℕ} (ho : Owned h Z (a ::ₘ R))
    (ha : h.node? a = some (.payload p)) (hn : 0 < n) (hle : start + n ≤ p.data.length)
    (hQ : ∀ b h', Grows h h' → h'.node? b = some (.substring n start a) →
      Owned h' Z (b ::ₘ R) → Q b h') : wp (alloc (.substring n start a) : HeapM Addr) Q h := by
  refine wp_alloc ho fun b h' ho' hg hb ↦ hQ b h' hg hb ?_
  refine ho'.closeCell hb ⟨[.payload p], ?_, ⟨hn, p, rfl, hle⟩, rfl⟩ rfl
  simpa [Pointers.children, Node.children] using hg _ _ ha

/-- A substring of a data edge that is consumed. -/
theorem wp_substringImpl_adopt (ho : Owned h Z (e.addr ::ₘ R)) (he : e.Held h) (hv : e.Valid)
    (hn : 0 < n) (hle : offset + n ≤ e.length)
    (hQ : ∀ b h', (Edge.cut b e offset n).Held h' → Owned h' Z (b ::ₘ R) → Frame Z R h h' →
      Q b h') : wp (substringImpl true e.addr offset n) Q h := by
  cases e with
  | whole b p =>
    simp only [Edge.length, Edge.addr] at hle ho ⊢
    rw [substringImpl, wp_bind]
    refine wp_read he.1 ?_
    simp only [Edge.node, if_true, wp_bind, wp_pure]
    refine wp_alloc_substring ho he.1 hn hle fun c h' hg hc ho' ↦ hQ c h' ?_ ho' ?_
    · simpa [Edge.cut, Edge.Held, Edge.base, Edge.start, Edge.node, Edge.addr] using
        ⟨hc, hg _ _ he.2⟩
    · exact (ho.frame_of_grows hg).mono (List.Subset.refl _) (Multiset.le_cons_self _ _)
  | part b length start child p =>
    simp only [Edge.length, Edge.addr] at hle ho ⊢
    rw [substringImpl, wp_bind]
    refine wp_read he.1 ?_
    simp only [Edge.node, if_true, wp_bind, wp_pure]
    refine wp_refRep ho (Reach.child (.root (Multiset.mem_cons_self _ _)) he.1
      (List.mem_singleton_self child)) fun h₁ ho₁ hn₁ ↦ ?_
    rw [Multiset.cons_swap] at ho₁
    refine wp_unref ho₁ fun h₂ ho₂ hf₂ ↦ ?_
    have hchild : h₂.node? child = some (.payload p) := by
      rw [hf₂.kept child (.root (Multiset.mem_cons_self _ _)), hn₁]
      exact he.2
    have hvalid := hv.2.2
    refine wp_alloc_substring ho₂ hchild hn (by omega) fun c h' hg hc ho' ↦ hQ c h' ?_ ho' ?_
    · rw [Nat.add_comm] at hc
      simpa [Edge.cut, Edge.Held, Edge.base, Edge.start, Edge.node, Edge.addr] using
        ⟨hc, hg _ _ hchild⟩
    · have hf : Frame Z (child ::ₘ R) h h₂ :=
        (Owned.frame_of_node?_eq hn₁).trans hf₂
      exact (hf.trans (ho₂.frame_of_grows hg)).mono (List.Subset.refl _)
        (Multiset.le_cons_self _ _)

/-- A substring of a borrowed data edge. -/
theorem wp_substringImpl_borrow (ho : Owned h Z R) (hr : Reach h R e.addr) (he : e.Held h)
    (hv : e.Valid) (hn : 0 < n) (hle : offset + n ≤ e.length)
    (hQ : ∀ b h', (Edge.cut b e offset n).Held h' → Owned h' Z (b ::ₘ R) → Grows h h' → Q b h') :
    wp (substringImpl false e.addr offset n) Q h := by
  have hbase := reach_base he hr
  cases e with
  | whole b p =>
    simp only [Edge.length, Edge.addr, Edge.base] at hle ho hbase ⊢
    rw [substringImpl, wp_bind]
    refine wp_read he.1 ?_
    simp only [Edge.node, Bool.false_eq_true, if_false, wp_bind, wp_pure]
    refine wp_refRep ho hbase fun h₁ ho₁ hn₁ ↦ ?_
    refine wp_alloc_substring ho₁ ((hn₁ _).trans he.1) hn hle fun c h' hg hc ho' ↦
      hQ c h' ?_ ho' ((Grows.of_node?_eq hn₁).trans hg)
    simpa [Edge.cut, Edge.Held, Edge.base, Edge.start, Edge.node, Edge.addr] using
      ⟨hc, hg _ _ ((hn₁ _).trans he.2)⟩
  | part b length start child p =>
    simp only [Edge.length, Edge.addr, Edge.base] at hle ho hbase ⊢
    rw [substringImpl, wp_bind]
    refine wp_read he.1 ?_
    simp only [Edge.node, Bool.false_eq_true, if_false, wp_bind, wp_pure]
    have hvalid := hv.2.2
    have hchild : h.node? child = some (.payload p) := he.2
    refine wp_refRep ho hbase fun h₁ ho₁ hn₁ ↦ ?_
    refine wp_alloc_substring ho₁ ((hn₁ _).trans hchild) hn (by omega) fun c h' hg hc ho' ↦
      hQ c h' ?_ ho' ((Grows.of_node?_eq hn₁).trans hg)
    rw [Nat.add_comm] at hc
    simpa [Edge.cut, Edge.Held, Edge.base, Edge.start, Edge.node, Edge.addr] using
      ⟨hc, hg _ _ ((hn₁ _).trans he.2)⟩

/-- A consumed data edge, or a substring of it when it is not all of it. -/
theorem wp_makeSubstring (ho : Owned h Z (e.addr ::ₘ R)) (he : e.Held h) (hv : e.Valid)
    (hn : 0 < n) (hle : offset + n ≤ e.length)
    (hQ : ∀ (e' : Edge) h', e'.Held h' → e'.PartOf e offset n → Owned h' Z (e'.addr ::ₘ R) →
      Frame Z R h h' → Q e'.addr h') :
    wp (makeSubstring e.addr offset n) Q h := by
  rw [makeSubstring, wp_bind]
  refine wp_read he.1 ?_
  rw [e.node_length]
  by_cases hall : n = e.length
  · rw [if_pos hall, wp_pure]
    exact hQ e h he (Edge.partOf_self e hall (by omega)) ho (.refl h)
  · rw [if_neg hall, if_neg hn.ne']
    exact wp_substringImpl_adopt ho he hv hn hle fun b h' hb ho' hf ↦
      hQ (.cut b e offset n) h' hb (Edge.partOf_cut b e hall) ho' hf

/-- The rest of a consumed data edge. -/
theorem wp_makeSubstringFrom (ho : Owned h Z (e.addr ::ₘ R)) (he : e.Held h) (hv : e.Valid)
    (hlt : offset < e.length)
    (hQ : ∀ (e' : Edge) h', e'.Held h' → e'.PartOf e offset (e.length - offset) →
      Owned h' Z (e'.addr ::ₘ R) → Frame Z R h h' → Q e'.addr h') :
    wp (makeSubstringFrom e.addr offset) Q h := by
  rw [makeSubstringFrom]
  by_cases hz : offset = 0
  · rw [if_pos hz, wp_pure]
    exact hQ e h he (Edge.partOf_self e (by omega) hz) ho (.refl h)
  · rw [if_neg hz, wp_bind]
    refine wp_read he.1 ?_
    rw [e.node_length]
    exact wp_substringImpl_adopt ho he hv (by omega) (by omega) fun b h' hb ho' hf ↦
      hQ (.cut b e offset _) h' hb (Edge.partOf_cut b e (by omega)) ho' hf

/-- A new reference to a part of a borrowed data edge. -/
theorem wp_substring (ho : Owned h Z R) (hr : Reach h R e.addr) (he : e.Held h) (hv : e.Valid)
    (hn : 0 < n) (hle : offset + n ≤ e.length)
    (hQ : ∀ (e' : Edge) h', e'.Held h' → e'.PartOf e offset n → Owned h' Z (e'.addr ::ₘ R) →
      Grows h h' → Q e'.addr h') :
    wp (substring e.addr offset n) Q h := by
  rw [substring, wp_bind]
  refine wp_read he.1 ?_
  rw [e.node_length, if_neg hn.ne']
  by_cases hall : n = e.length
  · rw [if_pos hall]
    refine wp_refRep ho hr fun h' ho' hn' ↦ ?_
    have hg := Grows.of_node?_eq hn'
    exact hQ e h' ⟨hg _ _ he.1, hg _ _ he.2⟩ (Edge.partOf_self e hall (by omega)) ho' hg
  · rw [if_neg hall]
    exact wp_substringImpl_borrow ho hr he hv hn hle fun b h' hb ho' hg ↦
      hQ (.cut b e offset n) h' hb (Edge.partOf_cut b e hall) ho' hg

/-- A new reference to a part of a borrowed data edge, taken from what is behind the edge. -/
theorem wp_substring_base (ho : Owned h Z R) (hr : Reach h R e.addr) (he : e.Held h) (hv : e.Valid)
    (hn : 0 < n) (hle : offset + n ≤ e.length)
    (hQ : ∀ (e' : Edge) h', e'.Held h' → e'.data = (e.data.drop offset).take n →
      Owned h' Z (e'.addr ::ₘ R) → Grows h h' → Q e'.addr h') :
    wp (substring e.base.1 (e.start + offset) n) Q h := by
  have hbase : (Edge.whole e.base.1 e.base.2).Held h := ⟨he.2, he.2⟩
  obtain ⟨hbv, hlen⟩ : (Edge.whole e.base.1 e.base.2).Valid ∧
      e.start + e.length ≤ e.base.2.data.length := by
    cases e with
    | whole a p => exact ⟨hv, (Nat.zero_add _).le⟩
    | part a length start child p => exact ⟨hv.1, hv.2.2⟩
  have hle' : e.start + offset + n ≤ (Edge.whole e.base.1 e.base.2).length := by
    simp only [Edge.length]
    omega
  refine wp_substring (e := .whole e.base.1 e.base.2) ho (reach_base he hr) hbase hbv hn hle'
    fun e' h' he' hpart ho' hg ↦ hQ e' h' he' ?_ ho' hg
  rw [hpart.data hle', Edge.data_eq e, List.drop_take, List.drop_drop, List.take_take,
    Nat.min_eq_left (by omega)]
  rfl

namespace Edge

/-- A data edge whose length may be changed in place. -/
def Resizable : Edge → Prop
  | whole _ (.flat _ _) => True
  | whole _ (.external _ _) => False
  | part _ _ _ _ _ => True

/-- The first `n` bytes of a data edge: it was changed in place only if it is a flat or a substring
that `R` does not lead to, and otherwise it is a substring. -/
structure Shortened (h : Heap Node) (R : Multiset Addr) (e' e : Edge) (n : ℕ) : Prop where
  data : e'.data = e.data.take n
  length : e'.length = n
  whole : n = e.length → e' = e
  inPlace : n < e.length → e'.addr = e.addr → e.Resizable ∧ ¬Reach h R e.addr
  fresh : e'.addr ≠ e.addr → e'.PartOf e 0 n

theorem Shortened.mono {h₁ : Heap Node} {R₁ : Multiset Addr} {e' : Edge}
    (hs : e'.Shortened h₁ R₁ e n) (hr : ∀ a, Reach h R a → Reach h₁ R₁ a) :
    e'.Shortened h R e n where
  data := hs.data
  length := hs.length
  whole := hs.whole
  inPlace hlt ha := ⟨(hs.inPlace hlt ha).1, fun h ↦ (hs.inPlace hlt ha).2 (hr _ h)⟩
  fresh := hs.fresh

theorem shortened_self (h : Heap Node) (R : Multiset Addr) (hv : e.Valid) :
    e.Shortened h R e e.length where
  data := (List.take_of_length_le hv.length_data.le).symm
  length := rfl
  whole _ := rfl
  inPlace hlt := absurd hlt (lt_irrefl _)
  fresh hne := absurd rfl hne

/-- The first part of a data edge. -/
theorem PartOf.shortened {e' : Edge} (hp : e'.PartOf e 0 n) (hle : n ≤ e.length)
    (hin : n < e.length → e'.addr = e.addr → e.Resizable ∧ ¬Reach h R e.addr) :
    e'.Shortened h R e n where
  data := by rw [hp.data (by omega), List.drop_zero]
  length := hp.length
  whole := hp.whole
  inPlace := hin
  fresh _ := hp

end Edge

/-- A data edge with a new substring at its address was a substring nothing else leads to. -/
private theorem resizable_of_cut {h' : Heap Node} {b : Addr} (he : e.Held h)
    (hb : (Edge.cut b e offset n).Held h') (hf : Frame Z R h h') (hne : n ≠ e.length)
    (ha : b = e.addr) : e.Resizable ∧ ¬Reach h R e.addr := by
  subst ha
  cases e with
  | whole a p =>
    have hp : (Edge.cut a (.whole a p) offset n).node = .payload p :=
      Option.some.inj (hb.1.symm.trans hb.2)
    cases hp
  | part a length start child p =>
    refine ⟨trivial, fun hr ↦ hne ?_⟩
    have := hb.1.symm.trans ((hf.kept a hr).trans he.1)
    simp only [Edge.cut, Edge.node, Option.some.injEq, Node.substring.injEq] at this
    exact this.1

/-- A consumed data edge shortened to `n` bytes, in place only if nothing else refers to it. -/
theorem wp_resizeEdge {isMutable : Bool} (ho : Owned h Z (e.addr ::ₘ R)) (he : e.Held h)
    (hv : e.Valid) (hn : 0 < n) (hle : n ≤ e.length) (hone : isMutable = true → h.rc e.addr = 1)
    (hQ : ∀ (e' : Edge) h', e'.Held h' → e'.Shortened h R e n → Owned h' Z (e'.addr ::ₘ R) →
      Frame Z R h h' → Q e'.addr h') :
    wp (resizeEdge e.addr n isMutable) Q h := by
  have haZ := (ho.of_mem (Multiset.mem_cons_self _ _)).1
  rw [resizeEdge, wp_bind]
  refine wp_read he.1 ?_
  rw [e.node_length]
  by_cases hall : e.length ≤ n
  · rw [if_pos hall, wp_pure]
    obtain rfl := le_antisymm hle hall
    exact hQ e h he (Edge.shortened_self h R hv) ho (.refl h)
  · rw [if_neg hall]
    have hcopy : wp (substringImpl true e.addr 0 n) Q h := by
      refine wp_substringImpl_adopt ho he hv hn (by omega) fun b h' hb ho' hf ↦
        hQ (.cut b e 0 n) h' hb (Edge.PartOf.shortened (Edge.partOf_cut b e (by omega)) hle fun _ ↦
          resizable_of_cut he hb hf (by omega)) ho' hf
    match isMutable, e with
    | false, e => exact hcopy
    | true, .whole a (.external data allocation) => exact hcopy
    | true, .whole a (.flat tag data) =>
      have hopen := ho.openCell he.1 (hone rfl)
      have hreach : ¬Reach h R a := fun hr ↦
        (hopen.of_reach (hr.mono (Multiset.le_add_left _ _))).1 List.mem_cons_self
      obtain ⟨h₁, h₂, h₃, h₄⟩ := hv
      simp only [Edge.length, Payload.data] at hle hall hopen
      simp only [Edge.node, Edge.addr, wp_bind, wp_pure]
      refine wp_write hopen List.mem_cons_self fun h' ho' hne ha ↦ ?_
      refine hQ (.whole a (.flat tag (data.take n))) h' ⟨ha, ha⟩ ⟨rfl, ?_, fun h ↦ absurd h.ge hall,
        fun _ _ ↦ ⟨trivial, hreach⟩, fun hne ↦ absurd rfl hne⟩ ?_
        ((hopen.frame_of_opened List.mem_cons_self haZ hne).mono (List.Subset.refl _)
          (Multiset.le_add_left _ _))
      · rw [Edge.length, Payload.data, List.length_take, Nat.min_eq_left hle]
      refine ho'.closeCell ha ⟨[], rfl, ⟨h₁, h₂, ?_, ?_⟩, rfl⟩ rfl
      · rw [List.length_take]
        omega
      · rw [List.length_take]
        omega
    | true, .part a length start child p =>
      have hopen := ho.openCell he.1 (hone rfl)
      have hreach : ¬Reach h R a := fun hr ↦
        (hopen.of_reach (hr.mono (Multiset.le_add_left _ _))).1 List.mem_cons_self
      have hbase : h.node? child = some (.payload p) := he.2
      have hvalid := hv.2.2
      simp only [Edge.length] at hle hall
      simp only [Edge.node, Edge.addr, wp_bind, wp_pure]
      refine wp_write hopen List.mem_cons_self fun h' ho' hne ha ↦ ?_
      have hf : Frame Z (child ::ₘ R) h h' := hopen.frame_of_opened List.mem_cons_self haZ hne
      have hchild : h'.node? child = some (.payload p) :=
        (hf.kept child (.root (Multiset.mem_cons_self _ _))).trans hbase
      refine hQ (.part a n start child p) h' ⟨ha, hchild⟩ ⟨?_, rfl, fun h ↦ absurd h.ge hall,
        fun _ _ ↦ ⟨trivial, hreach⟩, fun hne ↦ absurd rfl hne⟩ ?_
        (hf.mono (List.Subset.refl _) (Multiset.le_cons_self _ _))
      · simp only [Edge.data, List.take_take, Nat.min_eq_left hle]
      · refine ho'.closeCell ha ⟨[.payload p], ?_, ⟨hn, p, rfl, by omega⟩, rfl⟩ rfl
        simpa [Pointers.children, Node.children] using hchild

end Cut

end CordRs
