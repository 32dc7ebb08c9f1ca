import CordRs.Btree.Copy
import CordRs.Rep.Navigator

/-!
# Reading a tree at a navigator

A read takes the bytes from an offset inside the data edge a navigator is on, and moves the
navigator to where they end. It first goes up: the edges to the right are added to a node as long as
they are read in full, and a node that runs out while bytes remain becomes the first edge of a node
one level up. It then goes down into the edge the read ends in and adds a new node on each level.

The slots that are filled beyond the recorded end of a node are a list beside the node until the end
is set.

## Main definitions

* `CordRs.readRights`, `CordRs.readUp`, `CordRs.readDown`, `CordRs.Navigator.read`.

## Main results

* `CordRs.Navigator.wp_read`: the data edges that are read and the position after them.
-/

namespace CordRs

open RefHeap

/-- What a read returns: a tree, none beyond the end, and the bytes used of the last edge. -/
structure ReadResult where
  tree : Option Addr
  n : ℕ

/-- Set the end of a node behind the slots filled so far. -/
def setEnd (subtree : Addr) (slots : List Addr) : HeapM Unit := do
  let b ← asBtree subtree
  write subtree (.btree { b with edges := slots })

/-- Set the stored length of a node. -/
def setLength (this : Addr) (length : ℕ) : HeapM Unit := do
  let b ← asBtree this
  write this (.btree { b with length := length })

/-- Add the edges that end within `length` to the slots, up to the one in which it ends. -/
def refWhole : List Addr → ℕ → List Rep → ℕ → HeapM (List Addr × ℕ × Rep × ℕ)
  | _, _, [], _ => throw .window
  | slots, index, edge :: edges, length => do
    if edge.length ≤ length then
      let e ← refRep edge.addr
      refWhole (slots ++ [e]) (index + 1) edges (length - edge.length)
    else
      pure (slots, index, edge, length)

/-- A new node of the given length in the next slot of another one, whose end is set behind it. -/
def newRight (subtree : Addr) (slots : List Addr) (height length : ℕ) : HeapM Addr := do
  let right ← newNode height
  setLength right length
  setEnd subtree (slots ++ [right])
  pure right

/-- Go down to the data edge in which the last `length` bytes of a read end, and add what is read to
a node. The edge is at the given height. -/
def readDown : ℕ → Addr → List Addr → Rep → ℕ → HeapM (List Level × ℕ)
  | 0, subtree, slots, edge, length => do
    if length ≠ 0 then
      let last ← substring edge.addr 0 length
      setEnd subtree (slots ++ [last])
    else
      setEnd subtree slots
    pure ([], length)
  | _ + 1, _, _, .leaf _, _ => throw .unreachable
  | height + 1, subtree, slots, .node hd edges, length => do
    if length ≠ 0 then
      let right ← newRight subtree slots height length
      let (slots, index, edge, length) ← refWhole [] hd.begin edges length
      let (lower, n) ← readDown height right slots edge length
      pure (lower ++ [⟨hd, edges, index⟩], n)
    else
      let l : Level := ⟨hd, edges, hd.begin⟩
      let edge ← liftM l.edge
      let (lower, n) ← readDown height subtree slots edge length
      pure (lower ++ [l], n)

section Target

variable [Target]

/-- Add the edges that end within `length` to a node; if it ends in one of them, this edge with its
slot. -/
def readRights (subtree : Addr) :
    List Addr → ℕ → List Rep → ℕ → HeapM (List Addr × ℕ × Option (ℕ × Rep))
  | slots, _, [], length => pure (slots, length, none)
  | slots, index, edge :: edges, length => do
    if edge.length ≤ length then
      addLength subtree edge.length
      let e ← refRep edge.addr
      readRights subtree (slots ++ [e]) (index + 1) edges (length - edge.length)
    else
      pure (slots, length, some (index, edge))

/-- An entry behind its last edge. -/
def Level.ended (l : Level) : Level := { l with index := l.end }

/-- Read on from the edges at the slots of a path, the first of which was read, with `length` bytes
remaining. The entries below the path have run out. -/
def readUp : List Level → List Level → ℕ → Addr → List Addr → HeapM (List Level × ReadResult)
  | lower, [], length, subtree, slots => do
    setEnd subtree slots
    if length = 0 then
      pure (lower, ⟨some subtree, 0⟩)
    else
      unref subtree
      pure (lower, ⟨none, length⟩)
  | lower, l :: up, length, subtree, slots => do
    let (slots, length, found) ← readRights subtree slots (l.index + 1) l.rights length
    match found with
    | some (index, edge) =>
      addLength subtree length
      let (path, n) ← readDown lower.length subtree slots edge length
      pure (path ++ { l with index := index } :: up, ⟨some subtree, n⟩)
    | none =>
      if length ≠ 0 ∧ up ≠ [] then
        setEnd subtree slots
        let above ← newWith subtree
        readUp (lower ++ [l.ended]) up length above [subtree]
      else
        readUp (lower ++ [l.ended]) up length subtree slots

/-- Read `n` bytes from an offset in the data edge at the position. -/
def Navigator.read (nav : Navigator) (edgeOffset n : ℕ) : HeapM (Navigator × ReadResult) := do
  match nav.path with
  | [] => throw .unreachable
  | l :: up =>
    let rep ← liftM l.edge
    let edge ← liftM (asDataEdge rep)
    let length := addUsize edgeOffset n
    if length < edge.length then
      if n = 0 then
        -- A substring of no bytes is null.
        pure (nav, ⟨none, length⟩)
      else
        let tree ← substring edge.addr edgeOffset n
        pure (nav, ⟨some tree, length⟩)
    else
      let first ← substring edge.addr edgeOffset (edge.length - edgeOffset)
      let subtree ← newWith first
      let (path, result) ← readUp [] (l :: up) (length - edge.length) subtree [first]
      pure (⟨path⟩, result)

end Target

section Rules

variable [Target] {h h' : Heap Node} {Z : List Addr} {R : Multiset Addr} {c : Addr} {i j len : ℕ}
  {as : List Rep} {t : Rep}

/-! ### Nodes that are filled -/

/-- An opened node of height `i` whose slots hold references to the trees `as`, whether or not its
end is set behind them. -/
structure Filling (h : Heap Node) (Z : List Addr) (R : Multiset Addr) (c : Addr) (i len : ℕ)
    (as : List Rep) : Prop where
  owned : Owned h (c :: Z) (((as.map Rep.addr : List Addr) : Multiset Addr) + R)
  node : ∃ es, h.node? c = some (.btree ⟨len, i, 0, es⟩)
  edges : ∀ a ∈ as, a.Held h ∧ a.Valid i

namespace Filling

theorem notMem (hf : Filling h Z R c i len as) : c ∉ Z := (List.nodup_cons.mp hf.owned.nodup).1

omit [Target] in
theorem root_mem {a : Rep} (ha : a ∈ as) :
    a.addr ∈ ((as.map Rep.addr : List Addr) : Multiset Addr) + R :=
  Multiset.mem_add.mpr (.inl (Multiset.mem_coe.mpr (List.mem_map_of_mem ha)))

/-- Nothing but the node changed. -/
theorem congr {len' : ℕ} {es : List Addr} (hf : Filling h Z R c i len as)
    (ho : Owned h' (c :: Z) (((as.map Rep.addr : List Addr) : Multiset Addr) + R))
    (hne : ∀ x ≠ c, h'.node? x = h.node? x) (hc : h'.node? c = some (.btree ⟨len', i, 0, es⟩)) :
    Filling h' Z R c i len' as ∧ Frame Z R h h' := by
  have hfr : Frame Z (((as.map Rep.addr : List Addr) : Multiset Addr) + R) h h' :=
    hf.owned.frame_of_opened List.mem_cons_self hf.notMem hne
  exact ⟨⟨ho, ⟨es, hc⟩, fun a ha ↦ ⟨(hf.edges a ha).1.frame hfr (.root (root_mem ha)),
    (hf.edges a ha).2⟩⟩, hfr.mono (List.Subset.refl _) (Multiset.le_add_left _ _)⟩

/-- Another slot is filled. -/
theorem push {a : Rep} (hf : Filling h Z R c i len as)
    (ho : Owned h' (c :: Z) (a.addr ::ₘ (((as.map Rep.addr : List Addr) : Multiset Addr) + R)))
    (hfr : Frame (c :: Z) (((as.map Rep.addr : List Addr) : Multiset Addr) + R) h h')
    (ha : a.Held h') (hv : a.Valid i) : Filling h' Z R c i len (as ++ [a]) := by
  obtain ⟨es, hc⟩ := hf.node
  refine ⟨ho.congr (coe_map_append_singleton as a R).symm,
    ⟨es, (hfr.opened c List.mem_cons_self).trans hc⟩, fun b hb ↦ ?_⟩
  rcases List.mem_append.mp hb with hb | hb
  · exact ⟨(hf.edges b hb).1.frame hfr (.root (root_mem hb)), (hf.edges b hb).2⟩
  · obtain rfl := List.mem_singleton.mp hb
    exact ⟨ha, hv⟩

/-- A node whose end is set is closed. -/
theorem close (hf : Filling h Z R c i len as)
    (hc : h.node? c = some (.btree ⟨len, i, 0, as.map Rep.addr⟩)) (hne : as ≠ [])
    (hcap : as.length ≤ maxCapacity) (hlen : len = (as.map Rep.length).sum) :
    Owned h Z (c ::ₘ R) ∧ Rep.Held h (.node ⟨c, len, i, 0⟩ as) ∧
      Rep.Valid (i + 1) (.node ⟨c, len, i, 0⟩ as) :=
  closeNode hf.owned hc hf.edges hne (by simpa using hcap) hlen

end Filling

private theorem wp_setEnd (hf : Filling h Z R c i len as) {Q : Unit → Heap Node → Prop}
    (hQ : ∀ h', Filling h' Z R c i len as →
      h'.node? c = some (.btree ⟨len, i, 0, as.map Rep.addr⟩) → Frame Z R h h' → Q () h') :
    wp (setEnd c (as.map Rep.addr)) Q h := by
  obtain ⟨es, hc⟩ := hf.node
  rw [setEnd, wp_bind]
  refine wp_asBtree hc ?_
  refine wp_write hf.owned List.mem_cons_self fun h' ho hne hc' ↦ ?_
  obtain ⟨hf', hfr⟩ := hf.congr ho hne hc'
  exact hQ h' hf' hc' hfr

private theorem wp_addLength_filling {delta : ℕ} (hf : Filling h Z R c i len as)
    (hle : len + delta ≤ usizeMax) {Q : Unit → Heap Node → Prop}
    (hQ : ∀ h', Filling h' Z R c i (len + delta) as → Frame Z R h h' → Q () h') :
    wp (addLength c delta) Q h := by
  obtain ⟨es, hc⟩ := hf.node
  refine wp_addLength hf.owned List.mem_cons_self hc hle fun h' ho hne hc' ↦ ?_
  obtain ⟨hf', hfr⟩ := hf.congr ho hne hc'
  exact hQ h' hf' hfr

/-- A borrowed tree is added to a slot. -/
private theorem wp_refRep_filling (hf : Filling h Z R c i len as) (hr : Reach h R t.addr)
    (ht : t.Held h) (hv : t.Valid i) {Q : Addr → Heap Node → Prop}
    (hQ : ∀ h', Filling h' Z R c i len (as ++ [t]) → Frame Z R h h' → Q t.addr h') :
    wp (refRep t.addr) Q h := by
  refine wp_refTree hf.owned (hr.mono (Multiset.le_add_left _ _)) ht hv fun h' hc ↦ hQ h' ?_ ?_
  · exact hf.push hc.owned hc.frame hc.held hv
  · exact hc.frame.mono (List.subset_cons_self _ _) (Multiset.le_add_left _ _)

private theorem wp_refWhole {edges : List Rep} {index m : ℕ} (hf : Filling h Z R c i len as)
    (hedges : ∀ b ∈ edges, b.Held h ∧ b.Valid i ∧ Reach h R b.addr)
    (hlt : m < (edges.map Rep.length).sum) {Q : List Addr × ℕ × Rep × ℕ → Heap Node → Prop}
    (hQ : ∀ xs y ys h', edges = xs ++ y :: ys → (xs.map Rep.length).sum ≤ m →
      m - (xs.map Rep.length).sum < y.length → Filling h' Z R c i len (as ++ xs) →
      Frame Z R h h' →
      Q ((as ++ xs).map Rep.addr, index + xs.length, y, m - (xs.map Rep.length).sum) h') :
    wp (refWhole (as.map Rep.addr) index edges m) Q h := by
  induction edges generalizing h as index m with
  | nil => simp at hlt
  | cons b edges ih =>
    obtain ⟨⟨hb, hbv, hbr⟩, hedges⟩ := List.forall_mem_cons.mp hedges
    rw [List.map_cons, List.sum_cons] at hlt
    rw [refWhole]
    by_cases hle : b.length ≤ m
    · rw [if_pos hle, wp_bind]
      refine wp_refRep_filling hf hbr hb hbv fun h₁ hf₁ hfr₁ ↦ ?_
      rw [show as.map Rep.addr ++ [b.addr] = (as ++ [b]).map Rep.addr by simp]
      refine ih hf₁ (fun a ha ↦ ?_) (by omega) fun xs y ys h₂ hsplit hlo hhi hf₂ hfr₂ ↦ ?_
      · obtain ⟨ha, hav, har⟩ := hedges a ha
        exact ⟨ha.frame hfr₁ har, hav, har.transfer hfr₁.kept⟩
      · have := hQ (b :: xs) y ys h₂ (congrArg (b :: ·) hsplit)
          (by rw [List.map_cons, List.sum_cons]; omega)
          (by rw [List.map_cons, List.sum_cons]; omega) (by simpa using hf₂) (hfr₁.trans hfr₂)
        rw [List.map_cons, List.sum_cons, Nat.sub_add_eq, List.length_cons,
          Nat.add_comm xs.length, ← Nat.add_assoc] at this
        simpa using this
    · rw [if_neg hle, wp_pure]
      simpa using hQ [] b edges h rfl (Nat.zero_le _) (by simpa using hle) (by simpa using hf)
        (.refl h)

private theorem wp_readRights {rights : List Rep} {index m : ℕ} (hf : Filling h Z R c i len as)
    (hrights : ∀ b ∈ rights, b.Held h ∧ b.Valid j ∧ Reach h R b.addr) (hij : m ≠ 0 → i = j)
    (hle : len + (rights.map Rep.length).sum ≤ usizeMax)
    {Q : List Addr × ℕ × Option (ℕ × Rep) → Heap Node → Prop}
    (hQ : ∀ xs ys h', rights = xs ++ ys → (xs.map Rep.length).sum ≤ m →
      (∀ y ∈ ys.head?, m - (xs.map Rep.length).sum < y.length) →
      Filling h' Z R c i (len + (xs.map Rep.length).sum) (as ++ xs) → Frame Z R h h' →
      Q ((as ++ xs).map Rep.addr, m - (xs.map Rep.length).sum,
        ys.head?.map (index + xs.length, ·)) h') :
    wp (readRights c (as.map Rep.addr) index rights m) Q h := by
  induction rights generalizing h as index len m with
  | nil =>
    rw [readRights, wp_pure]
    simpa using hQ [] [] h rfl (Nat.zero_le _) (by simp) (by simpa using hf) (.refl h)
  | cons b rights ih =>
    obtain ⟨⟨hb, hbv, hbr⟩, hrights⟩ := List.forall_mem_cons.mp hrights
    rw [List.map_cons, List.sum_cons] at hle
    rw [readRights]
    by_cases hbm : b.length ≤ m
    · have hpos := hbv.length_pos
      obtain rfl := hij (by omega)
      rw [if_pos hbm, wp_bind]
      refine wp_addLength_filling hf (by omega) fun h₁ hf₁ hfr₁ ↦ ?_
      rw [wp_bind]
      refine wp_refRep_filling hf₁ (hbr.transfer hfr₁.kept) (hb.frame hfr₁ hbr) hbv
        fun h₂ hf₂ hfr₂ ↦ ?_
      have hfr := hfr₁.trans hfr₂
      rw [show as.map Rep.addr ++ [b.addr] = (as ++ [b]).map Rep.addr by simp]
      refine ih hf₂ (fun a ha ↦ ?_) (fun _ ↦ rfl) (by omega)
        fun xs ys h₃ hsplit hlo hhi hf₃ hfr₃ ↦ ?_
      · obtain ⟨ha, hav, har⟩ := hrights a ha
        exact ⟨ha.frame hfr har, hav, har.transfer hfr.kept⟩
      · have := hQ (b :: xs) ys h₃ (congrArg (b :: ·) hsplit)
          (by rw [List.map_cons, List.sum_cons]; omega)
          (by
            intro y hy
            have := hhi y hy
            rw [List.map_cons, List.sum_cons]
            omega)
          (by simpa [Nat.add_assoc] using hf₃) (hfr.trans hfr₃)
        rw [List.map_cons, List.sum_cons, Nat.sub_add_eq, List.length_cons,
          Nat.add_comm xs.length, ← Nat.add_assoc] at this
        simpa using this
    · rw [if_neg hbm, wp_pure]
      simpa using hQ [] (b :: rights) h rfl (Nat.zero_le _) (by simpa using hbm) (by simpa using hf)
        (.refl h)

/-! ### Going down -/

private theorem wp_setLength {m : ℕ} (hf : Filling h Z R c i len as) {Q : Unit → Heap Node → Prop}
    (hQ : ∀ h', Filling h' Z R c i m as → Frame Z R h h' → Q () h') :
    wp (setLength c m) Q h := by
  obtain ⟨es, hc⟩ := hf.node
  rw [setLength, wp_bind]
  refine wp_asBtree hc ?_
  refine wp_write hf.owned List.mem_cons_self fun h' ho hne hc' ↦ ?_
  obtain ⟨hf', hfr⟩ := hf.congr ho hne hc'
  exact hQ h' hf' hfr

/-- A new node below an opened one, whose end is set behind it. -/
private theorem wp_newRight {m : ℕ} {Q : Addr → Heap Node → Prop} (hf : Filling h Z R c i len as)
    (hj : j ≤ maxDepth)
    (hQ : ∀ r h', Filling h' (c :: Z) (((as.map Rep.addr : List Addr) : Multiset Addr) + R) r j m [] →
      h'.node? c = some (.btree ⟨len, i, 0, as.map Rep.addr ++ [r]⟩) →
      Frame Z (((as.map Rep.addr : List Addr) : Multiset Addr) + R) h h' → Q r h') :
    wp (newRight c (as.map Rep.addr) j m) Q h := by
  obtain ⟨es, hc⟩ := hf.node
  rw [newRight, newNode, wp_bind]
  refine wp_allocBtree hf.owned hj fun r h₁ ho₁ hg₁ hr₁ ↦ ?_
  have hfr₁ := hf.owned.frame_of_grows hg₁
  have hf₁ : Filling h₁ (c :: Z) (((as.map Rep.addr : List Addr) : Multiset Addr) + R) r j 0 [] :=
    ⟨by simpa using ho₁, ⟨[], hr₁⟩, by simp⟩
  rw [wp_bind]
  refine wp_setLength hf₁ fun h₂ hf₂ hfr₂ ↦ ?_
  have hc₂ := (hfr₂.opened c List.mem_cons_self).trans (hg₁ _ _ hc)
  have hcr : c ≠ r := fun h ↦ hf₁.notMem (h ▸ List.mem_cons_self)
  rw [wp_bind, setEnd, wp_bind]
  refine wp_asBtree hc₂ ?_
  refine wp_write hf₂.owned (List.mem_cons_of_mem _ List.mem_cons_self) fun h₃ ho₃ hne₃ hc₃ ↦ ?_
  obtain ⟨es₂, hr₂⟩ := hf₂.node
  have hfr₃ : Frame Z (((as.map Rep.addr : List Addr) : Multiset Addr) + R) h₂ h₃ := by
    refine (hf₂.owned.frame_of_opened (List.mem_cons_of_mem _ List.mem_cons_self) hf.notMem
      hne₃).mono (List.Subset.refl _) ?_
    exact Multiset.le_add_left _ _
  rw [wp_pure]
  refine hQ r h₃ ⟨ho₃, ⟨es₂, (hne₃ r hcr.symm).trans hr₂⟩, by simp⟩ hc₃ ?_
  exact (hfr₁.mono (List.subset_cons_self _ _) le_rfl).trans
    ((hfr₂.mono (List.subset_cons_self _ _) le_rfl).trans hfr₃)

private theorem cuts_takePieces_zero (hv : t.Valid j) : Cuts [] (takePieces t.pieces 0) := by
  rw [takePieces_zero hv.pos_pieces]
  exact .nil

/-- The part of an edge that is read goes into the next slot, and the path leads to its end. -/
private theorem wp_readDown {b : Rep} {m : ℕ} (hf : Filling h Z R c i len as) (hb : b.Held h)
    (hbv : b.Valid j) (hbr : Reach h R b.addr) (hij : m ≠ 0 → i = j) (hlt : m < b.length)
    (hj : j ≤ maxDepth) {Q : List Level × ℕ → Heap Node → Prop}
    (hQ : ∀ lower e n ss h', Linked b lower (.leaf e) → lower.length = j → n < e.length →
      edgesLength (before lower) + n = m → Filling h' Z R c i len (as ++ ss) →
      h'.node? c = some (.btree ⟨len, i, 0, (as ++ ss).map Rep.addr⟩) → Frame Z R h h' →
      ss.length ≤ 1 → (ss.map Rep.length).sum = m →
      Cuts (ss.flatMap RoseTree.leaves) (takePieces b.pieces m) → Q (lower, n) h') :
    wp (readDown j c (as.map Rep.addr) b m) Q h := by
  induction j generalizing h Z R c i len as b m Q with
  | zero =>
    obtain ⟨e, rfl, he⟩ := Rep.Valid.zero_iff.mp hbv
    rw [Rep.length_leaf] at hlt
    rw [readDown]
    by_cases hm : m = 0
    · rw [if_neg (not_not.mpr hm), wp_bind]
      refine wp_setEnd hf fun h₁ hf₁ hc₁ hfr₁ ↦ ?_
      rw [wp_pure]
      exact hQ [] e m [] h₁ rfl rfl hlt (by simp [before]) (by simpa using hf₁) (by simpa using hc₁)
        hfr₁ (by simp) (by simp [hm]) (hm ▸ cuts_takePieces_zero hbv)
    · obtain rfl := hij hm
      rw [if_pos hm]
      simp only [wp_bind]
      refine wp_substring hf.owned (hbr.mono (Multiset.le_add_left _ _)) (Rep.held_leaf.mp hb) he
        (Nat.pos_of_ne_zero hm) (by omega) fun e' h₁ he' hpart ho₁ hg₁ ↦ ?_
      have hfr₁ := hf.owned.frame_of_grows hg₁
      have hheld : Rep.Held h₁ (.leaf e') := Rep.held_leaf.mpr he'
      obtain ⟨i, hi⟩ := hheld.valid ho₁ (.root (Multiset.mem_cons_self _ _))
      have hf₁ := hf.push (a := .leaf e') ho₁ hfr₁ hheld
        (Rep.Valid.leaf_iff.mpr ⟨rfl, (Rep.Valid.leaf_iff.mp hi).2⟩)
      rw [show as.map Rep.addr ++ [e'.addr] = (as ++ [(.leaf e' : Rep)]).map Rep.addr by simp]
      refine wp_setEnd hf₁ fun h₂ hf₂ hc₂ hfr₂ ↦ ?_
      rw [wp_pure]
      refine hQ [] e m [.leaf e'] h₂ rfl rfl hlt (by simp [before]) hf₂ hc₂
        ((hfr₁.mono (List.subset_cons_self _ _) (Multiset.le_add_left _ _)).trans hfr₂) le_rfl
        (by simpa using hpart.length) ?_
      rw [Rep.pieces_leaf, takePieces_piece (Nat.pos_of_ne_zero hm) hlt.le]
      simpa using cuts_singleton hpart
  | succ j ih =>
    obtain ⟨hd, es, rfl⟩ := hbv.exists_node
    obtain ⟨hnode, hes⟩ := Rep.held_node.mp hb
    obtain ⟨hk, hne, hcap, hsum, -⟩ := Rep.Valid.node_iff.mp hbv
    have hev := hbv.edges
    rw [Rep.length_node] at hlt
    have hreach : ∀ t ∈ es, Reach h R (Rep.addr t) := fun t ht ↦
      hbr.child hnode (List.mem_map_of_mem ht)
    rw [readDown]
    by_cases hm : m = 0
    · obtain ⟨b, cs, rfl⟩ := List.exists_cons_of_ne_nil hne
      have hpoints := Level.points_mk hd [] b cs
      rw [if_neg (not_not.mpr hm), wp_bind, wp_liftM]
      refine ⟨b, hpoints.edge, ?_⟩
      rw [wp_bind]
      have hbv' := hev b List.mem_cons_self
      refine ih hf (hes b List.mem_cons_self) hbv' (hreach b List.mem_cons_self)
        (fun h ↦ absurd hm h) (hm ▸ hbv'.length_pos) (Nat.le_of_succ_le hj)
        fun lower e n ss h₁ hlink hlen hn hpos hf₁ hc₁ hfr₁ hss hsslen hcuts ↦ ?_
      rw [wp_pure]
      refine hQ (lower ++ [_]) e n ss h₁ (hlink.append ⟨hpoints, rfl⟩) (by simp [hlen]) hn ?_ hf₁
        hc₁ hfr₁ hss hsslen ?_
      · rw [before_append, before, before, @Level.lefts_of_eq _ _ [] _ rfl rfl]
        simpa using hpos
      · rw [hm, takePieces_zero hbv'.pos_pieces] at hcuts
        rwa [hm, takePieces_zero hbv.pos_pieces]
    · obtain rfl := hij hm
      rw [if_pos hm, wp_bind]
      refine wp_newRight hf (Nat.le_of_succ_le hj) fun r h₁ hf₁ hc₁ hfr₁ ↦ ?_
      have hsub : R ≤ ((as.map Rep.addr : List Addr) : Multiset Addr) + R :=
        Multiset.le_add_left _ _
      have hfrR₁ := hfr₁.mono (List.Subset.refl _) hsub
      rw [wp_bind]
      refine wp_refWhole (m := m) hf₁ (fun t ht ↦ ⟨(hes t ht).frame hfrR₁ (hreach t ht), hev t ht,
        ((hreach t ht).transfer hfrR₁.kept).mono hsub⟩) (hsum ▸ hlt)
        fun xs y ys h₂ hsplit hlo hhi hf₂ hfr₂ ↦ ?_
      subst hsplit
      have hfrR : Frame Z R h h₂ :=
        hfrR₁.trans (hfr₂.mono (List.subset_cons_self _ _) hsub)
      have hyv := hev y (by simp)
      rw [wp_bind]
      refine ih hf₂ ((hes y (by simp)).frame hfrR (hreach y (by simp))) hyv
        (((hreach y (by simp)).transfer hfrR.kept).mono hsub) (fun _ ↦ rfl) hhi
        (Nat.le_of_succ_le hj)
        fun lower e n ss h₃ hlink hlen hn hpos hf₃ hr₃ hfr₃ hss hsslen hcuts ↦ ?_
      rw [wp_pure]
      have hpoints := Level.points_mk hd xs y ys
      have htree := (cuts_flatMap xs).append hcuts
      rw [← takePieces_edges hev hlo hhi, ← List.flatMap_append] at htree
      rw [List.nil_append] at hf₃ hr₃
      rw [List.length_append, List.length_cons] at hcap
      have hlenxs : ((xs ++ ss).map Rep.length).sum = m := by
        rw [List.map_append, List.sum_append, hsslen]
        omega
      have hnexs : xs ++ ss ≠ [] := by
        intro hnil
        rw [hnil] at hlenxs
        exact hm hlenxs.symm
      -- The new node is complete, and it is the last edge of the one above.
      obtain ⟨ho₄, hheld, hv₄⟩ := hf₃.close hr₃ hnexs (by rw [List.length_append]; omega) hlenxs.symm
      have hfrA := hfr₁.trans ((hfr₂.mono (List.subset_cons_self _ _) le_rfl).trans
        (hfr₃.mono (List.subset_cons_self _ _) le_rfl))
      have hc₃ := (hfr₃.opened c List.mem_cons_self).trans
        ((hfr₂.opened c List.mem_cons_self).trans hc₁)
      have hnode₃ : h₃.node? c = some (.btree ⟨len, j + 1, 0,
          (as ++ [(.node ⟨r, m, j, 0⟩ (xs ++ ss) : Rep)]).map Rep.addr⟩) := by
        simpa using hc₃
      refine hQ (lower ++ [_]) e n [.node ⟨r, m, j, 0⟩ (xs ++ ss)] h₃
        (hlink.append ⟨hpoints, rfl⟩) (by simp [hlen]) hn ?_ ⟨?_, ⟨_, hnode₃⟩, fun a ha ↦ ?_⟩
        hnode₃ (hfrA.mono (List.Subset.refl _) hsub) le_rfl (by simp) ?_
      · rw [before_append, before, before, Level.lefts_of_eq rfl rfl, List.nil_append,
          edgesLength_append, Rep.edgesLength_leaves fun a ha ↦ hev a (by simp [ha])]
        omega
      · exact ho₄.congr (coe_map_append_singleton as (.node ⟨r, m, j, 0⟩ (xs ++ ss)) R).symm
      · rcases List.mem_append.mp ha with ha | ha
        · exact ⟨(hf.edges a ha).1.frame hfrA (.root (Filling.root_mem ha)), (hf.edges a ha).2⟩
        · obtain rfl := List.mem_singleton.mp ha
          exact ⟨hheld, hv₄⟩
      · rw [List.flatMap_singleton, RoseTree.leaves_node, Rep.pieces_node]
        exact htree

/-! ### Going up -/

private theorem length_eq_zero_of_sum {xs : List Rep} (hxs : ∀ x ∈ xs, x.Valid j)
    (hsum : (xs.map Rep.length).sum = 0) : xs.length = 0 := by
  cases xs with
  | nil => rfl
  | cons x xs =>
    have := (hxs x List.mem_cons_self).length_pos
    rw [List.map_cons, List.sum_cons] at hsum
    omega

/-- What a path leads to is held and reachable with the tree. -/
private theorem Linked.held {p : List Level} {s : Rep} (hlink : Linked t p s) (ht : t.Held h)
    (hr : Reach h R t.addr) : s.Held h ∧ Reach h R s.addr := by
  induction p generalizing s with
  | nil =>
    obtain rfl : s = t := hlink
    exact ⟨ht, hr⟩
  | cons l up ih =>
    obtain ⟨hheld, hreach⟩ := ih hlink.2
    obtain ⟨hnode, hes⟩ := Rep.held_node.mp hheld
    exact ⟨hes s hlink.1.mem, hreach.child hnode (List.mem_map_of_mem hlink.1.mem)⟩

/-- There is room for one more slot beside the edges to the right. -/
private theorem Linked.one_add_rights_le {p : List Level} {s : Rep} (hlink : Linked t p s)
    (hv : t.Valid (j + p.length)) : ∀ l ∈ p.head?, 1 + l.rights.length ≤ maxCapacity := by
  intro l hl
  obtain ⟨up, rfl⟩ : ∃ up, p = l :: up := List.head?_eq_some_iff.mp hl
  rw [List.length_cons] at hv
  have hlv : l.node.Valid (j + 1) := hlink.2.valid (by rwa [Nat.add_assoc, Nat.add_comm 1])
  obtain ⟨-, -, hcap, -⟩ := Rep.Valid.node_iff.mp hlv
  rw [hlink.1.edges_eq, List.length_append, List.length_cons] at hcap
  omega

omit [Target] in
/-- The data edges after a position whose next edges `xs` are read in full. -/
private theorem map_piece_after (l : Level) (up : List Level) {xs ys : List Rep}
    (hr : l.rights = xs ++ ys) : (after (l :: up)).map Edge.piece =
      xs.flatMap Rep.pieces ++ (ys.flatMap Rep.pieces ++ (after up).map Edge.piece) := by
  have hmap : ∀ zs : List Rep, (zs.flatMap RoseTree.leaves).map Edge.piece = zs.flatMap Rep.pieces :=
    fun zs ↦ List.map_flatMap
  rw [after, hr, List.flatMap_append, List.map_append, List.map_append, hmap, hmap, List.append_assoc]

/-- Reading on from the edges at the slots of a path: what was read so far is in the slots of an
opened node, and `m` bytes remain. -/
private theorem wp_readUp {p lower : List Level} {s : Rep} {m : ℕ} {ps : List Piece}
    (hf : Filling h Z R c i ((as.map Rep.length).sum) as) (hne : as ≠ [])
    (hcuts : Cuts (as.flatMap RoseTree.leaves) ps) (hij : p ≠ [] → m ≠ 0 → i = j)
    (hi : i + 1 ≤ j + p.length) (hcap : as.length ≤ maxCapacity)
    (hroom : m ≠ 0 → ∀ l ∈ p.head?, as.length + l.rights.length ≤ maxCapacity)
    (hlink : Linked t p s) (hlower : lower.length = j) (ht : t.Held h) (hr : Reach h R t.addr)
    (hv : t.Valid (j + p.length)) (hd : j + p.length ≤ maxDepth)
    (hlen : (as.map Rep.length).sum + edgesLength (after p) ≤ usizeMax)
    {Q : List Level × ReadResult → Heap Node → Prop}
    (hnone : edgesLength (after p) < m → ∀ h', Owned h' Z R → Frame Z R h h' →
      Q (lower ++ p.map Level.ended, ⟨none, m - edgesLength (after p)⟩) h')
    (hend : edgesLength (after p) = m → ∀ (u : Rep) k h', k ≤ j + p.length →
      Copied h h' Z R k (ps ++ (after p).map Edge.piece) u →
      Q (lower ++ p.map Level.ended, ⟨some u.addr, 0⟩) h')
    (hsome : m < edgesLength (after p) → ∀ path e n (u : Rep) k h', k ≤ j + p.length →
      Linked t path (.leaf e) → path.length = j + p.length → n < e.length →
      edgesLength (before path) + n = edgesLength (before p) + s.length + m →
      Copied h h' Z R k (ps ++ takePieces ((after p).map Edge.piece) m) u →
      Q (path, ⟨some u.addr, n⟩) h') :
    wp (readUp lower p m c (as.map Rep.addr)) Q h := by
  induction p generalizing h c i j as s m lower ps with
  | nil =>
    obtain rfl : s = t := hlink
    rw [readUp, wp_bind]
    refine wp_setEnd hf fun h₁ hf₁ hc₁ hfr₁ ↦ ?_
    obtain ⟨ho₂, hheld, hv₂⟩ := hf₁.close hc₁ hne hcap rfl
    by_cases hm : m = 0
    · rw [if_pos hm, wp_pure]
      have := hend hm.symm (.node ⟨c, (as.map Rep.length).sum, i, 0⟩ as) (i + 1) h₁ hi
        ⟨ho₂, hheld, hv₂, by simpa [after] using hcuts, hfr₁⟩
      simpa using this
    · rw [if_neg hm, wp_bind]
      refine wp_unref ho₂ fun h₂ ho₃ hfr₂ ↦ ?_
      rw [wp_pure]
      simpa [after] using hnone (Nat.pos_of_ne_zero hm) h₂ ho₃ (hfr₁.trans hfr₂)
  | cons l up ih =>
    obtain ⟨hpt, hup⟩ := hlink
    rw [List.length_cons] at hi hv hd
    have hlv : l.node.Valid (j + 1) := hup.valid (by rwa [Nat.add_assoc, Nat.add_comm 1])
    obtain ⟨-, -, hlcap, hlsum, -⟩ := Rep.Valid.node_iff.mp hlv
    have hlev := Rep.Valid.edges hlv
    obtain ⟨hlheld, hlreach⟩ := Linked.held hup ht hr
    obtain ⟨hlnode, hles⟩ := Rep.held_node.mp hlheld
    have hrights : ∀ b ∈ l.rights, Rep.Held h b ∧ Rep.Valid j b ∧ Reach h R b.addr := by
      intro b hb
      have hmem : b ∈ l.edges := List.mem_of_mem_drop hb
      exact ⟨hles b hmem, hlev b hmem, hlreach.child hlnode (List.mem_map_of_mem hmem)⟩
    have hafter : edgesLength (after (l :: up)) =
        (l.rights.map Rep.length).sum + edgesLength (after up) := by
      rw [after, edgesLength_append, Rep.edgesLength_leaves fun b hb ↦ (hrights b hb).2.1]
    have hllen : edgesLength (l.lefts.flatMap RoseTree.leaves) = (l.lefts.map Rep.length).sum :=
      Rep.edgesLength_leaves fun b hb ↦ hlev b (List.mem_of_mem_take hb)
    have hlefts : edgesLength (before (l :: up)) =
        edgesLength (before up) + (l.lefts.map Rep.length).sum := by
      rw [before, edgesLength_append, hllen]
    rw [hafter] at hlen hnone hend hsome
    rw [hlefts] at hsome
    rw [readUp, wp_bind]
    refine wp_readRights hf hrights (hij (List.cons_ne_nil _ _)) (by omega)
      fun xs ys h₁ hsplit hlo hhi hf₁ hfr₁ ↦ ?_
    have hxv : ∀ x ∈ xs, Rep.Valid j x := fun x hx ↦ (hrights x (by simp [hsplit, hx])).2.1
    have hpieces := map_piece_after l up hsplit
    rw [hpieces] at hend hsome
    rw [hsplit, List.map_append, List.sum_append] at hlen hnone hend hsome
    have hxsum := piecesLength_flatMap hxv
    have hxcuts : Cuts ((as ++ xs).flatMap RoseTree.leaves) (ps ++ xs.flatMap Rep.pieces) := by
      rw [List.flatMap_append]
      exact hcuts.append (cuts_flatMap xs)
    have hsumxs : (as.map Rep.length).sum + (xs.map Rep.length).sum =
        ((as ++ xs).map Rep.length).sum := by
      rw [List.map_append, List.sum_append]
    rw [hsumxs] at hf₁
    -- While nothing remains no slot is filled.
    have hcapxs : (as ++ xs).length + (if m = 0 then 0 else ys.length) ≤ maxCapacity := by
      rw [List.length_append]
      by_cases hm : m = 0
      · rw [if_pos hm, length_eq_zero_of_sum hxv (by omega)]
        exact hcap
      · have := hroom hm l rfl
        rw [hsplit, List.length_append] at this
        rw [if_neg hm]
        omega
    cases ys with
    | cons y ys =>
      have hyhi := hhi y rfl
      rw [List.map_cons, List.sum_cons] at hlen hnone hend hsome
      obtain ⟨hyheld, hyv, hyreach⟩ := hrights y (by simp [hsplit])
      obtain ⟨hpt', hlefts', hrights'⟩ := hpt.skip hsplit
      simp only [List.head?_cons, Option.map_some]
      rw [wp_bind]
      refine wp_addLength_filling hf₁ (by omega) fun h₂ hf₂ hfr₂ ↦ ?_
      have hfr := hfr₁.trans hfr₂
      rw [wp_bind, hlower]
      refine wp_readDown hf₂ (hyheld.frame hfr hyreach) hyv (hyreach.transfer hfr.kept)
        (fun hm ↦ hij (List.cons_ne_nil _ _) (by omega)) hyhi (by omega)
        fun path e n ss h₃ hlink₃ hlen₃ hn hpos hf₃ hc₃ hfr₃ hss hsssum hsscuts ↦ ?_
      rw [wp_pure]
      have hslen : ((as ++ xs).map Rep.length).sum + (m - (xs.map Rep.length).sum) =
          (((as ++ xs) ++ ss).map Rep.length).sum := by
        rw [@List.map_append _ _ _ (as ++ xs), List.sum_append, hsssum]
      obtain ⟨ho₄, hheld₄, hv₄⟩ := hf₃.close hc₃ (by simp [hne]) (by
        rw [List.length_append]
        by_cases hm : m = 0
        · rw [if_pos hm] at hcapxs
          have := length_eq_zero_of_sum (fun a ha ↦ (hf₃.edges a (by simp [ha])).2)
            (by omega : (ss.map Rep.length).sum = 0)
          omega
        · rw [if_neg hm, List.length_cons] at hcapxs
          omega) hslen
      refine hsome (by omega) (path ++ { l with index := _ } :: up) e n
        (.node ⟨c, _, i, 0⟩ ((as ++ xs) ++ ss)) (i + 1) h₃ (by rw [List.length_cons]; omega)
        (hlink₃.append ⟨hpt', hup⟩) (by simp [hlen₃]) hn ?_
        ⟨ho₄, hheld₄, hv₄, ?_, hfr.trans hfr₃⟩
      · have hxlev := Rep.edgesLength_leaves hxv
        have hslen := (hlev s hpt.mem).length_leaves
        rw [before_append, before, hlefts']
        simp only [edgesLength_append, List.flatMap_append, List.flatMap_cons]
        omega
      · have htake : takePieces (xs.flatMap Rep.pieces ++ ((y :: ys).flatMap Rep.pieces ++
            (after up).map Edge.piece)) m =
              xs.flatMap Rep.pieces ++ takePieces y.pieces (m - (xs.map Rep.length).sum) := by
          rw [takePieces_append_of_le (by omega), hxsum, List.flatMap_cons, List.append_assoc,
            takePieces_append_of_lt (by rw [hyv.piecesLength_eq]; exact hyhi)]
        rw [htake, RoseTree.leaves_node, List.flatMap_append, ← List.append_assoc]
        exact hxcuts.append hsscuts
    | nil =>
      rw [List.append_nil] at hsplit
      rw [List.map_nil, List.sum_nil, Nat.add_zero] at hlen hnone hend hsome
      rw [List.flatMap_nil, List.nil_append] at hend hsome
      have hcapxs' : (as ++ xs).length ≤ maxCapacity := le_trans (Nat.le_add_right _ _) hcapxs
      have hnode : l.node.length = (l.lefts.map Rep.length).sum + (s.length +
          (xs.map Rep.length).sum) := by
        rw [Level.node, Rep.length_node, hlsum, hpt.edges_eq, hsplit, List.map_append, List.map_cons,
          List.sum_append, List.sum_cons]
      have hd' : j + 1 + up.length ≤ maxDepth := by omega
      have hv' : t.Valid (j + 1 + up.length) := by rwa [Nat.add_assoc, Nat.add_comm 1]
      -- What the rest of the path gives is what the whole path gives.
      have hnone' : ∀ {h₂}, Frame Z R h h₂ →
          edgesLength (after up) < m - (xs.map Rep.length).sum →
          ∀ h', Owned h' Z R → Frame Z R h₂ h' → Q (lower ++ [l.ended] ++ up.map Level.ended,
            ⟨none, m - (xs.map Rep.length).sum - edgesLength (after up)⟩) h' := by
        intro h₂ hfr hlt h' ho' hfr'
        rw [List.append_assoc, List.singleton_append, Nat.sub_sub]
        exact hnone (by omega) h' ho' (hfr.trans hfr')
      have hend' : ∀ {h₂}, Frame Z R h h₂ →
          edgesLength (after up) = m - (xs.map Rep.length).sum →
          ∀ (u : Rep) k h', k ≤ j + 1 + up.length →
          Copied h₂ h' Z R k (ps ++ xs.flatMap Rep.pieces ++ (after up).map Edge.piece) u →
          Q (lower ++ [l.ended] ++ up.map Level.ended, ⟨some u.addr, 0⟩) h' := by
        intro h₂ hfr heq u k h' hk hu
        rw [List.append_assoc, List.singleton_append]
        rw [List.append_assoc] at hu
        exact hend (by omega) u k h' (by rw [List.length_cons]; omega)
          { hu with frame := hfr.trans hu.frame }
      have hsome' : ∀ {h₂}, Frame Z R h h₂ →
          m - (xs.map Rep.length).sum < edgesLength (after up) →
          ∀ path e n (u : Rep) k h', k ≤ j + 1 + up.length → Linked t path (.leaf e) →
          path.length = j + 1 + up.length → n < e.length →
          edgesLength (before path) + n =
            edgesLength (before up) + l.node.length + (m - (xs.map Rep.length).sum) →
          Copied h₂ h' Z R k (ps ++ xs.flatMap Rep.pieces ++
            takePieces ((after up).map Edge.piece) (m - (xs.map Rep.length).sum)) u →
          Q (path, ⟨some u.addr, n⟩) h' := by
        intro h₂ hfr hlt path e n u k h' hk hlink' hlen' hn hpos hu
        rw [List.append_assoc, ← hxsum, ← takePieces_append_of_le (by omega)] at hu
        exact hsome (by omega) path e n u k h' (by rw [List.length_cons]; omega) hlink'
          (by rw [List.length_cons]; omega) hn (by omega) { hu with frame := hfr.trans hu.frame }
      simp only [List.head?_nil, Option.map_none]
      by_cases hwrap : m - (xs.map Rep.length).sum ≠ 0 ∧ up ≠ []
      · obtain rfl := hij (List.cons_ne_nil _ _) (by omega)
        rw [if_pos hwrap, wp_bind]
        refine wp_setEnd hf₁ fun h₂ hf₂ hc₂ hfr₂ ↦ ?_
        obtain ⟨ho₃, hheld₃, hv₃⟩ := hf₂.close hc₂ (by simp [hne]) hcapxs' rfl
        obtain ⟨u, hu, hulen, huleaves, huheld, huv⟩ : ∃ u : Rep, u.addr = c ∧
            u.length = ((as ++ xs).map Rep.length).sum ∧
            u.leaves = (as ++ xs).flatMap RoseTree.leaves ∧ u.Held h₂ ∧ u.Valid (i + 1) :=
          ⟨_, rfl, rfl, RoseTree.leaves_node _ _, hheld₃, hv₃⟩
        rw [← hu] at ho₃ ⊢
        rw [wp_bind]
        refine wp_newWith ho₃ huheld.node? (huv.root_level.trans_le (by omega))
          fun d h₄ ho₄ hg₄ hd₄ ↦ ?_
        rw [u.root_length, huv.root_level] at hd₄
        have hfr₄ : Frame Z R h h₄ := hfr₁.trans (hfr₂.trans ((ho₃.frame_of_grows hg₄).mono
          (List.Subset.refl _) (Multiset.le_cons_self _ _)))
        have hf₄ : Filling h₄ Z R d (i + 1) (([u].map Rep.length).sum) [u] :=
          ⟨by simpa using ho₄, ⟨[u.addr], by simpa using hd₄⟩,
            List.forall_mem_singleton.mpr ⟨huheld.grows hg₄, huv⟩⟩
        refine ih hf₄ (List.cons_ne_nil _ _) ?_ (fun _ _ ↦ rfl) ?_ (Nat.le_of_ble_eq_true rfl) ?_ hup
          (by simp [hlower]) (ht.frame hfr₄ hr) (hr.transfer hfr₄.kept) hv' hd' ?_ (hnone' hfr₄)
          (hend' hfr₄) (hsome' hfr₄)
        · rw [List.flatMap_singleton, huleaves]
          exact hxcuts
        · have := List.length_pos_of_ne_nil hwrap.2
          omega
        · intro _ l₂ hl₂
          exact hup.one_add_rights_le hv' l₂ hl₂
        · rw [List.map_singleton, List.sum_singleton, hulen, List.map_append, List.sum_append]
          omega
      · rw [if_neg hwrap]
        refine ih hf₁ (by simp [hne]) hxcuts (fun hup hm ↦ absurd ⟨hm, hup⟩ hwrap) (by omega) hcapxs'
          ?_ hup (by simp [hlower]) (ht.frame hfr₁ hr) (hr.transfer hfr₁.kept) hv' hd' ?_
          (hnone' hfr₁) (hend' hfr₁) (hsome' hfr₁)
        · intro hm l₂ hl₂
          refine absurd ⟨hm, ?_⟩ hwrap
          rintro rfl
          simp at hl₂
        · rw [List.map_append, List.sum_append]
          omega

/-! ### Reading -/

namespace Navigator

variable {nav : Navigator} {e : Edge} {k n off : ℕ}

/-- The pieces of a range that starts in the data edge at the position and goes on behind it. -/
private theorem pieces_at (ha : nav.At t e) (hoff : off < e.length) (hle : e.length ≤ off + n) :
    pieces t.leaves (edgesLength nav.before + off) n =
      ⟨e, off, e.length - off⟩ ::
        takePieces (nav.after.map Edge.piece) (off + n - e.length) := by
  rw [pieces, ha.leaves_eq, List.map_append, List.map_cons,
    dropPieces_append_of_le (by rw [piecesLength_map]; omega), piecesLength_map,
    Nat.add_sub_cancel_left, dropPieces, if_neg (show ¬e.piece.length ≤ off from hoff.not_ge),
    takePieces, if_pos (by simp only [Edge.piece]; omega)]
  simp only [Edge.piece, Nat.zero_add]
  rw [show n - (e.length - off) = off + n - e.length by omega]

/-- A navigator all of whose entries ran out. -/
def ended (nav : Navigator) : Navigator := ⟨nav.path.map Level.ended⟩

omit [Target] in
theorem btree_ended (nav : Navigator) : nav.ended.btree = nav.btree := by
  rw [btree, ended, List.getLast?_map, Option.map_map]
  rfl

/-- Reading is refused exactly beyond the end. Otherwise what is read are the pieces of the range,
and the navigator is behind them or past the end. -/
theorem wp_read (ha : nav.At t e) (ho : Owned h Z R) (hr : Reach h R t.addr) (ht : t.Held h)
    (hv : t.Valid (k + 1)) (hk : k + 1 ≤ maxDepth) (hlen : t.length ≤ usizeMax)
    (hoff : off < e.length) (hn : 0 < n) (hadd : off + n ≤ usizeMax)
    {Q : Navigator × ReadResult → Heap Node → Prop}
    (hnone : t.length < edgesLength nav.before + off + n → ∀ h', Owned h' Z R → Frame Z R h h' →
      Q (nav.ended, ⟨none, edgesLength nav.before + off + n - t.length⟩) h')
    (hend : edgesLength nav.before + off + n = t.length → ∀ (u : Rep) j h', j ≤ k + 1 →
      Copied h h' Z R j (pieces t.leaves (edgesLength nav.before + off) n) u →
      Q (nav.ended, ⟨some u.addr, 0⟩) h')
    (hsome : edgesLength nav.before + off + n < t.length → ∀ nav' e' m (u : Rep) j h', j ≤ k + 1 →
      nav'.At t e' → nav'.path.length = nav.path.length → m < e'.length →
      edgesLength nav'.before + m = edgesLength nav.before + off + n →
      Copied h h' Z R j (pieces t.leaves (edgesLength nav.before + off) n) u →
      Q (nav', ⟨some u.addr, m⟩) h') :
    wp (nav.read off n) Q h := by
  have hpath : nav.path.length = k + 1 := ha.2.root_level.symm.trans hv.root_level
  have htlen := hv.length_leaves
  have hleaves := ha.leaves_eq
  have hev := hv.leaves_valid e (by rw [hleaves]; simp)
  have hafter : ∀ b ∈ nav.after, b.Valid := fun b hb ↦ hv.leaves_valid b (by rw [hleaves]; simp [hb])
  obtain ⟨hheld, hreach⟩ := Linked.held ha.1 ht hr
  have he := Rep.held_leaf.mp hheld
  rw [hleaves, edgesLength_append, edgesLength_cons] at htlen
  obtain ⟨path⟩ := nav
  cases path with
  | nil => simp at hpath
  | cons l up =>
    rw [Navigator.read]
    simp only [wp_bind, wp_liftM]
    refine ⟨_, ha.1.1.edge, e, rfl, ?_⟩
    rw [addUsize_of_le hadd]
    by_cases hlt : off + n < e.length
    · rw [if_pos hlt, if_neg hn.ne', wp_bind]
      refine wp_substring ho hreach he hev hn hlt.le fun e' h₁ he' hpart ho₁ hg₁ ↦ ?_
      have hheld₁ : Rep.Held h₁ (.leaf e') := Rep.held_leaf.mpr he'
      obtain ⟨i, hi⟩ := hheld₁.valid ho₁ (.root (Multiset.mem_cons_self _ _))
      rw [wp_pure]
      refine hsome (by omega) _ e _ (.leaf e') 0 h₁ (Nat.zero_le _) ha rfl hlt (by omega)
        ⟨ho₁, hheld₁, (Rep.Valid.leaf_iff.mp hi).1 ▸ hi, ?_, ho.frame_of_grows hg₁⟩
      rw [hleaves, pieces_within hafter (Nat.le_add_right _ _) (by omega) hn,
        Nat.add_sub_cancel_left, RoseTree.leaves_leaf]
      exact cuts_singleton hpart
    · rw [if_neg hlt, wp_bind]
      refine wp_substring ho hreach he hev (by omega) (by omega) fun e' h₁ he' hpart ho₁ hg₁ ↦ ?_
      have hheld₁ : Rep.Held h₁ (.leaf e') := Rep.held_leaf.mpr he'
      obtain ⟨i, hi⟩ := hheld₁.valid ho₁ (.root (Multiset.mem_cons_self _ _))
      obtain rfl := (Rep.Valid.leaf_iff.mp hi).1
      have hfr₁ : Frame Z R h h₁ := ho.frame_of_grows hg₁
      rw [wp_bind]
      refine wp_newWith ho₁ he'.1 (e'.node_level.trans_le (Nat.zero_le _)) fun d h₂ ho₂ hg₂ hd₂ ↦ ?_
      rw [e'.node_length, e'.node_level] at hd₂
      have hfr : Frame Z R h h₂ := hfr₁.trans ((ho₁.frame_of_grows hg₂).mono
        (List.Subset.refl _) (Multiset.le_cons_self _ _))
      have hf : Filling h₂ Z R d 0 (([(.leaf e' : Rep)].map Rep.length).sum) [.leaf e'] :=
        ⟨by simpa using ho₂, ⟨[e'.addr], by simpa using hd₂⟩,
          List.forall_mem_singleton.mpr ⟨hheld₁.grows hg₂, hi⟩⟩
      have hpieces := pieces_at ha hoff (Nat.le_of_not_lt hlt)
      have hlenp := hpart.length
      rw [hpieces] at hend hsome
      simp only [Navigator.before, Navigator.after] at hnone hend hsome htlen
      rw [wp_bind]
      have hlower : ([] : List Level).length = 0 := rfl
      refine wp_readUp (p := l :: up) hf (List.cons_ne_nil _ _)
        (cuts_singleton hpart) (fun _ _ ↦ rfl) (by simp) (Nat.le_of_ble_eq_true rfl) ?_ ha.1 hlower
        (ht.frame hfr hr) (hr.transfer hfr.kept) (by simpa [← hpath] using ha.2)
        (by rw [hpath]; omega) ?_ (fun hlt' h₃ ho₃ hfr₃ ↦ ?_) (fun heq u j h₃ hj hu ↦ ?_)
        fun hlt' path e₁ m u j h₃ hj hlink hplen hm hpos hu ↦ ?_
      · exact fun _ ↦ ha.1.one_add_rights_le (j := 0) (by simpa using ha.2)
      · rw [List.map_singleton, List.sum_singleton, Rep.length_leaf, hlenp]
        omega
      · rw [wp_pure]
        have := hnone (by omega) h₃ ho₃ (hfr.trans hfr₃)
        rw [← htlen, show edgesLength (CordRs.before (l :: up)) + off + n -
          (edgesLength (CordRs.before (l :: up)) + (e.length + edgesLength (CordRs.after (l :: up)))) =
          off + n - e.length - edgesLength (CordRs.after (l :: up)) by omega] at this
        exact this
      · rw [wp_pure]
        refine hend (by omega) u j h₃ (by simpa [hpath] using hj) ?_
        rw [takePieces_of_le (by rw [piecesLength_map]; omega)]
        exact { hu with frame := hfr.trans hu.frame }
      · rw [wp_pure]
        refine hsome (by omega) ⟨path⟩ e₁ m u j h₃ (by simpa [hpath] using hj) ⟨hlink, ?_⟩
          (by simpa using hplen) hm ?_ { hu with frame := hfr.trans hu.frame }
        · rw [hplen]
          simpa using ha.2
        · rw [Rep.length_leaf] at hpos
          change edgesLength (CordRs.before path) + m = _
          omega

end Navigator

end Rules

end CordRs
