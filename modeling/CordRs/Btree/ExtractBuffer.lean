import CordRs.Btree.AppendBuffer

/-!
# Taking the last flat out of a tree

The last flat of a tree may be taken out and filled outside of it while nothing else refers to it
or to a node on the way to it. A node that is left without edges is given up then, and so are the
nodes with a single edge at the top of what remains. These are not asked whether they are shared:
one that is beside the way to the last flat may be.

## Main definitions

* `CordRs.extractAppendBuffer`.
* `CordRs.Rep.Extractable`: whether the last flat of a tree can be taken out.
* `CordRs.Rep.remains`, `CordRs.Rep.chain`, `CordRs.Rep.collapsed`: what is left, the nodes with a
  single edge at its top, and what is below these.

## Main results

* `CordRs.wp_extractAppendBuffer`: the bytes of the flat and of the rest, and who loses a node.
-/

namespace CordRs

open RefHeap LevelTree

/-- What is left of a tree, and the flat that was taken out of it. -/
structure ExtractResult where
  tree : Option Addr
  extracted : Option Addr

/-- Give up the nodes with a single edge at the bottom of a path. What comes back are the others. -/
def deleteEmptied : List Addr → HeapM (List Addr)
  | [] => pure []
  | tree :: stack => do
    let b ← asBtree tree
    if b.size = 1 then
      free tree
      deleteEmptied stack
    else
      pure (tree :: stack)

/-- Take the last slot out of the window of a node. -/
def dropLastSlot (tree : Addr) : HeapM Unit := do
  let b ← asBtree tree
  write tree (.btree { b with edges := b.edges.dropLast })

/-- Take from the stored length of a node. -/
def subLength (this : Addr) (delta : ℕ) : HeapM Unit := do
  let b ← asBtree this
  write this (.btree { b with length := b.length - delta })

/-- Take from the stored lengths of nodes. -/
def subLengths : List Addr → ℕ → HeapM Unit
  | [], _ => pure ()
  | node :: nodes, delta => do
    subLength node delta
    subLengths nodes delta

/-- Give up a node with a single edge, and go on with the edge. -/
def collapseAt (child : Addr → HeapM Addr) (tree : Addr) : HeapM Addr := do
  let b ← asBtree tree
  if b.size = 1 then
    let rep ← edgeAt true tree
    free tree
    child rep
  else
    pure tree

/-- Give up the nodes with a single edge at the top of a tree of the given height. -/
def collapse : ℕ → Addr → HeapM Addr
  | 0 => collapseAt pure
  | height + 1 => collapseAt (collapse height)

section Target

variable [Target]

/-- Take a flat of `length` bytes at the end of a path out of a tree of the given height. -/
def removeExtracted (height : ℕ) (tree : Addr) (path : List Addr) (length : ℕ) :
    HeapM (Option Addr) := do
  match ← deleteEmptied path with
  | [] => pure none
  | node :: stack =>
    dropLastSlot node
    subLengths (node :: stack) length
    let rest ← collapse height tree
    pure (some rest)

/-- Take the last flat out of a tree if nothing else refers to it or to a node on the way to it and
it has room for `extraCapacity` more bytes. -/
def extractAppendBuffer (tree : Addr) (extraCapacity : ℕ) : HeapM ExtractResult := do
  let b ← asBtree tree
  if ← refIsOne tree then
    match ← ownedPath b.height tree [] with
    | none => pure ⟨some tree, none⟩
    | some path =>
      let rep ← edgeAt true (path.headD tree)
      let unique ← refIsOne rep
      match unique, ← read rep with
      | true, .payload (.flat tag data) =>
        if tagToLength tag - data.length < extraCapacity then
          pure ⟨some tree, none⟩
        else
          let rest ← removeExtracted b.height tree path data.length
          pure ⟨rest, some rep⟩
      | _, _ => pure ⟨some tree, none⟩
  else
    pure ⟨some tree, none⟩

end Target

/-! ### What is left of a tree -/

namespace Rep

mutual
/-- The nodes with a single edge at the top of a tree. -/
def chain : Rep → List Addr
  | .leaf _ => []
  | .node hd es => chainAux hd.addr es
/-- The nodes with a single edge from a node with the given edges on. -/
def chainAux (a : Addr) : List Rep → List Addr
  | [t] => a :: chain t
  | _ => []
end

mutual
/-- What is below the nodes with a single edge at the top of a tree. -/
def collapsed : Rep → Rep
  | .leaf e => .leaf e
  | .node hd es => collapsedAux hd es
/-- What is below the nodes with a single edge, of a node with the given edges. -/
def collapsedAux (hd : BtreeHeader) : List Rep → Rep
  | [t] => collapsed t
  | es => .node hd es
end

mutual
/-- A tree without its last data edge, which has `n` bytes, and the nodes that had no other. -/
def removeLast (n : ℕ) : Rep → Option Rep
  | .leaf _ => none
  | .node hd es =>
    match removeLastAux n es with
    | [] => none
    | ts => some (.node { hd with length := hd.length - n } ts)
/-- The edges of a node without the last data edge. -/
def removeLastAux (n : ℕ) : List Rep → List Rep
  | [] => []
  | [t] => (removeLast n t).toList
  | s :: t :: ts => s :: removeLastAux n (t :: ts)
end

theorem chain_single (hd : BtreeHeader) (t : Rep) : chain (.node hd [t]) = hd.addr :: t.chain := by
  rw [chain, chainAux]

theorem collapsed_single (hd : BtreeHeader) (t : Rep) :
    collapsed (.node hd [t]) = t.collapsed := by rw [collapsed, collapsedAux]

/-- A node with several edges stays. -/
theorem collapsed_node (hd : BtreeHeader) {es : List Rep} (hes : es.length ≠ 1) :
    chain (.node hd es) = [] ∧ collapsed (.node hd es) = .node hd es := by
  rw [chain, collapsed]
  cases es with
  | nil => exact ⟨by rw [chainAux]; simp, by rw [collapsedAux]; simp⟩
  | cons t es =>
    cases es with
    | nil => exact absurd rfl hes
    | cons s es => exact ⟨by rw [chainAux]; simp, by rw [collapsedAux]; simp⟩

theorem collapsed_leaf (e : Edge) : chain (.leaf e) = [] ∧ collapsed (.leaf e) = .leaf e :=
  ⟨by rw [chain], by rw [collapsed]⟩

private theorem removeLastAux_concat (n : ℕ) (ts : List Rep) (t : Rep) :
    removeLastAux n (ts ++ [t]) = ts ++ (t.removeLast n).toList := by
  induction ts with
  | nil => rw [List.nil_append, removeLastAux, List.nil_append]
  | cons s ts ih =>
    cases ts with
    | nil => simp only [List.cons_append, List.nil_append, removeLastAux]
    | cons s' ts => simpa only [List.cons_append, removeLastAux, List.cons.injEq, true_and] using ih

theorem removeLast_concat (n : ℕ) (hd : BtreeHeader) (ts : List Rep) (t : Rep) :
    removeLast n (.node hd (ts ++ [t])) = match ts ++ (t.removeLast n).toList with
      | [] => none
      | ts => some (.node { hd with length := hd.length - n } ts) := by
  rw [removeLast, removeLastAux_concat]

end Rep

/-- A spine whose stored lengths went down. -/
def shrinkSpine (delta : ℕ) (cs : List Crumb) : List Crumb :=
  cs.map fun c ↦ { c with hd := { c.hd with length := c.hd.length - delta } }

@[simp] theorem spineAddrs_shrinkSpine (delta : ℕ) (cs : List Crumb) :
    spineAddrs (shrinkSpine delta cs) = spineAddrs cs := by
  simp [spineAddrs, shrinkSpine]

@[simp] theorem sideRefs_shrinkSpine (delta : ℕ) (cs : List Crumb) :
    sideRefs (shrinkSpine delta cs) = sideRefs cs := by
  simp [sideRefs, shrinkSpine, List.flatMap_map]

@[simp] theorem spineOutline_shrinkSpine (delta : ℕ) (cs : List Crumb) :
    spineOutline (shrinkSpine delta cs) = spineOutline cs := by
  simp [spineOutline, shrinkSpine]

theorem rootAddr_shrinkSpine (delta : ℕ) (cs : List Crumb) (a : Addr) :
    rootAddr (shrinkSpine delta cs) a = rootAddr cs a := by
  rw [rootAddr_eq_getLastD, rootAddr_eq_getLastD, spineAddrs_shrinkSpine]

@[simp] theorem length_shrinkSpine (delta : ℕ) (cs : List Crumb) :
    (shrinkSpine delta cs).length = cs.length := List.length_map _

theorem SpineValid.shrink [Target] {cs : List Crumb} {k len delta : ℕ}
    (hcs : SpineValid k cs (len + delta)) : SpineValid k (shrinkSpine delta cs) len := by
  induction cs generalizing k len with
  | nil => trivial
  | cons c cs ih =>
    obtain ⟨hk, hcap, hlen, hrest, hcs⟩ := hcs
    rw [show c.hd.length = c.hd.length - delta + delta by omega] at hcs
    refine ⟨hk, hcap, ?_, hrest, ih hcs⟩
    simp only
    omega

/-- The nodes of a spine above one with several edges lose the bytes of what is removed. -/
theorem Rep.removeLast_plug (n : ℕ) (cs : List Crumb) {s s' : Rep} (hs : s.removeLast n = some s') :
    (plug true cs s).removeLast n = some (plug true (shrinkSpine n cs) s') := by
  induction cs generalizing s s' with
  | nil => exact hs
  | cons c cs ih =>
    refine ih ?_
    rw [join, if_pos rfl, removeLast_concat, hs, Option.toList_some, join, if_pos rfl]
    cases c.rest <;> rfl

/-- The nodes of a spine that have no other edge go with what is removed. -/
theorem Rep.removeLast_plug_single (n : ℕ) {cs : List Crumb} (hcs : ∀ c ∈ cs, c.rest = [])
    (e : Edge) : (plug true cs (.leaf e)).removeLast n = none := by
  suffices h : ∀ s : Rep, s.removeLast n = none → (plug true cs s).removeLast n = none from
    h _ (by rw [removeLast])
  induction cs with
  | nil => exact fun s hs ↦ hs
  | cons c cs ih =>
    intro s hs
    refine ih (fun d hd ↦ hcs d (List.mem_cons_of_mem _ hd)) _ ?_
    rw [join, if_pos rfl, removeLast_concat, hs, hcs c List.mem_cons_self]
    rfl

/-- A spine without other edges adds no data edge. -/
theorem leaves_plug_single {cs : List Crumb} (hcs : ∀ c ∈ cs, c.rest = []) (s : Rep) :
    (plug true cs s).leaves = s.leaves := by
  induction cs generalizing s with
  | nil => rfl
  | cons c cs ih =>
    rw [plug, ih fun d hd ↦ hcs d (List.mem_cons_of_mem _ hd), hcs c List.mem_cons_self]
    simp

section Emptied

variable {del up : List Crumb} {c : Crumb} (n : ℕ) (hdel : ∀ d ∈ del, d.rest = [])

include hdel

/-- What is left above nodes that have no other edge. -/
theorem Rep.removeLast_emptied (hc : c.rest ≠ []) (e : Edge) :
    (plug true (del ++ c :: up) (.leaf e)).removeLast n = some (plug true (shrinkSpine n up)
      (.node { c.hd with length := c.hd.length - n } c.rest)) := by
  rw [plug_append]
  refine removeLast_plug n up ?_
  rw [join, if_pos rfl, removeLast_concat, removeLast_plug_single n hdel, Option.toList_none,
    List.append_nil]
  cases hrest : c.rest with
  | nil => exact absurd hrest hc
  | cons t ts => rfl

theorem leaves_emptied (e : Edge) : (plug true (del ++ c :: up) (.leaf e)).leaves =
    (plug true (shrinkSpine n up)
      (.node { c.hd with length := c.hd.length - n } c.rest)).leaves ++ [e] := by
  rw [plug_append, plug, leaves_plug, leaves_plug, spineOutline_shrinkSpine]
  simp [join, leaves_plug_single hdel]

end Emptied

/-- The node of a spine that loses an edge is the first one from below that has another. -/
theorem exists_emptied (cs : List Crumb) : ∃ del rest, cs = del ++ rest ∧
    (∀ d ∈ del, d.rest = []) ∧ ∀ c up, rest = c :: up → c.rest ≠ [] := by
  induction cs with
  | nil => exact ⟨[], [], rfl, by simp, by simp⟩
  | cons c cs ih =>
    by_cases hc : c.rest = []
    · obtain ⟨del, rest, rfl, hdel, hrest⟩ := ih
      exact ⟨c :: del, rest, rfl, by simpa [hc] using hdel, hrest⟩
    · refine ⟨[], c :: cs, rfl, by simp, fun d up heq ↦ ?_⟩
      cases heq
      exact hc

/-- Whether a data edge is a flat with room for `extra` more bytes. -/
def Edge.extractable [Target] (extra : ℕ) : Edge → Bool
  | .whole _ (.flat tag data) => extra ≤ tagToLength tag - data.length
  | _ => false

/-- The last data edge of a tree is a flat with room for `extra` more bytes, and nothing else refers
to it or to a node on the way to it. -/
def Rep.Extractable [Target] (h : Heap Node) (extra : ℕ) (t : Rep) : Prop :=
  (∀ a ∈ t.lastPath, h.rc a = 1) ∧ ∃ e ∈ t.leaves.getLast?, e.extractable extra = true

instance [Target] (h : Heap Node) (extra : ℕ) (t : Rep) : Decidable (t.Extractable h extra) :=
  inferInstanceAs (Decidable (_ ∧ _))

theorem Rep.extractable_plug [Target] (h : Heap Node) (extra : ℕ) (cs : List Crumb) (e : Edge) :
    (plug true cs (.leaf e)).Extractable h extra ↔
      (h.rc e.addr = 1 ∧ ∀ a ∈ spineAddrs cs, h.rc a = 1) ∧ e.extractable extra = true := by
  rw [Extractable, lastPath_plug, leaves_plug]
  simp [lastPath, join, or_imp, forall_and, and_comm]

/-- The flat that can be taken out of a tree. -/
theorem Rep.Extractable.exists_last [Target] {h : Heap Node} {extra : ℕ} {t : Rep}
    (hext : t.Extractable h extra) :
    ∃ a tag data, t.leaves.getLast? = some (.whole a (.flat tag data)) ∧
      extra ≤ tagToLength tag - data.length := by
  obtain ⟨-, e, he, hroom⟩ := hext
  cases e with
  | part a length start child p => simp [Edge.extractable] at hroom
  | whole a p =>
    cases p with
    | external data allocation => simp [Edge.extractable] at hroom
    | flat tag data => exact ⟨a, tag, data, he, of_decide_eq_true hroom⟩

/-- What is left of a tree without its last data edge. -/
def Rep.remains (t : Rep) : Option Rep :=
  t.removeLast ((t.leaves.getLast?.map Edge.length).getD 0)

theorem Rep.remains_plug (cs : List Crumb) (e : Edge) :
    (plug true cs (.leaf e)).remains = (plug true cs (.leaf e)).removeLast e.length := by
  rw [remains, leaves_plug]
  simp [join]

section Rules

variable [Target] {h h' : Heap Node} {Z : List Addr} {R : Multiset Addr} {k : ℕ} {t : Rep}
  {c : Crumb} {cs : List Crumb} {e : Edge}

/-! ### Giving up the top of a tree -/

omit [Target] in
theorem Rep.leaves_collapsed (t : Rep) : t.collapsed.leaves = t.leaves := by
  induction t using RoseTree.induction with
  | hleaf e => rw [(collapsed_leaf e).2]
  | hnode hd es ih =>
    by_cases hes : es.length = 1
    · obtain ⟨s, rfl⟩ := List.length_eq_one_iff.mp hes
      rw [collapsed_single, ih s List.mem_cons_self]
      simp
    · rw [(collapsed_node hd hes).2]

omit [Target] in
/-- Removing the last data edge does not add any. -/
theorem Rep.length_leaves_removeLast {n : ℕ} {t t' : Rep} (ht : t.removeLast n = some t') :
    t'.leaves.length ≤ t.leaves.length := by
  induction t using RoseTree.induction generalizing t' with
  | hleaf e => simp [removeLast] at ht
  | hnode hd es ih =>
    rcases List.eq_nil_or_concat es with rfl | ⟨ts, s, rfl⟩
    · simp [removeLast, removeLastAux] at ht
    · rw [List.concat_eq_append] at ht ih ⊢
      have hlast : ((Rep.removeLast n s).toList.flatMap RoseTree.leaves).length ≤
          s.leaves.length := by
        cases hs : Rep.removeLast n s with
        | none => simp
        | some s' => simpa using ih s (by simp) hs
      obtain ⟨us, hus⟩ : ∃ us, ts ++ (Rep.removeLast n s).toList = us := ⟨_, rfl⟩
      rw [removeLast_concat, hus] at ht
      cases us with
      | nil => cases ht
      | cons u us =>
        cases ht
        simp only [RoseTree.leaves_node, ← hus, List.flatMap_append, List.length_append,
          List.flatMap_singleton]
        omega

theorem Rep.Valid.collapsed (hv : t.Valid k) : ∃ j ≤ k, t.collapsed.Valid j := by
  induction t using RoseTree.induction generalizing k with
  | hleaf e => exact ⟨k, le_rfl, by rwa [(collapsed_leaf e).2]⟩
  | hnode hd es ih =>
    by_cases hes : es.length = 1
    · obtain ⟨s, rfl⟩ := List.length_eq_one_iff.mp hes
      obtain ⟨hk, -, -, -, hvs⟩ := node_iff.mp hv
      obtain ⟨j, hj, hvj⟩ := ih s List.mem_cons_self (hvs s List.mem_cons_self)
      exact ⟨j, by omega, by rwa [collapsed_single]⟩
    · exact ⟨k, le_rfl, by rwa [(collapsed_node hd hes).2]⟩

/-- A valid tree does not contain a node that is higher. -/
theorem Rep.Held.of_ne {a : Addr} {b : Btree} (ht : t.Held h) (hv : t.Valid k)
    (ha : h.node? a = some (.btree b)) (hk : k ≤ b.height) (hne : ∀ x ≠ a, h'.node? x = h.node? x) :
    t.Held h' := by
  induction t using RoseTree.induction generalizing k with
  | hleaf e =>
    obtain ⟨hnode, hbase⟩ := held_leaf.mp ht
    refine held_leaf.mpr ⟨(hne _ fun heq ↦ ?_).trans hnode, (hne _ fun heq ↦ ?_).trans hbase⟩
    · rw [heq, ha] at hnode
      cases e <;> cases hnode
    · rw [heq, ha] at hbase
      cases hbase
  | hnode hd es ih =>
    obtain ⟨hnode, hes⟩ := held_node.mp ht
    obtain ⟨rfl, -, -, -, hvs⟩ := Valid.node_iff.mp hv
    refine held_node.mpr ⟨(hne _ fun heq ↦ ?_).trans hnode, fun s hs ↦
      ih s hs (hes s hs) (hvs s hs) (Nat.le_of_succ_le hk)⟩
    rw [heq, ha] at hnode
    cases hnode
    exact absurd hk (Nat.not_succ_le_self _)

/-- The nodes at the top are opened if nothing else refers to them. -/
theorem Rep.openChain (ho : Owned h Z (t.addr ::ₘ R)) (ht : t.Held h)
    (hone : ∀ a ∈ t.chain, h.rc a = 1) :
    Owned h (t.chain ++ Z) (t.collapsed.addr ::ₘ R) ∧ t.collapsed.Held h := by
  induction t using RoseTree.induction generalizing Z with
  | hleaf e =>
    rw [(collapsed_leaf e).1, (collapsed_leaf e).2]
    exact ⟨ho, ht⟩
  | hnode hd es ih =>
    by_cases hes : es.length = 1
    · obtain ⟨s, rfl⟩ := List.length_eq_one_iff.mp hes
      obtain ⟨hnode, hs⟩ := held_node.mp ht
      rw [chain_single] at hone ⊢
      rw [collapsed_single]
      have hopen := ho.openCell hnode (hone _ List.mem_cons_self)
      obtain ⟨ho', hheld⟩ := ih s List.mem_cons_self (hopen.congr (Multiset.singleton_add _ _))
        (hs s List.mem_cons_self) fun a ha ↦ hone a (List.mem_cons_of_mem _ ha)
      exact ⟨ho'.perm List.perm_middle, hheld⟩
    · rw [(collapsed_node hd hes).1, (collapsed_node hd hes).2]
      exact ⟨ho, ht⟩

omit [Target] in
theorem Rep.Held.live_chain (ht : t.Held h) : ∀ a ∈ t.chain, ∃ c, h.get? a = some c := by
  induction t using RoseTree.induction with
  | hleaf e => simp [(collapsed_leaf e).1]
  | hnode hd es ih =>
    by_cases hes : es.length = 1
    · obtain ⟨s, rfl⟩ := List.length_eq_one_iff.mp hes
      obtain ⟨hnode, hs⟩ := held_node.mp ht
      obtain ⟨r, hr⟩ := Heap.exists_get?_of_node? hnode
      rw [chain_single, List.forall_mem_cons]
      exact ⟨⟨_, hr⟩, ih s List.mem_cons_self (hs s List.mem_cons_self)⟩
    · simp [(collapsed_node hd hes).1]

private theorem reach_edge {hd : BtreeHeader} {es : List Rep} {s : Rep}
    (ht : Rep.Held h (.node hd es)) (hs : s ∈ es) : Reach h {hd.addr} s.addr :=
  .child (.root (Multiset.mem_singleton_self _)) (Rep.held_node.mp ht).1 (List.mem_map_of_mem hs)

/-- The nodes with a single edge at the top of a tree are nodes of the tree. -/
theorem Rep.Held.reach_chain (ht : t.Held h) : ∀ a ∈ t.chain, Reach h {t.addr} a := by
  induction t using RoseTree.induction with
  | hleaf e => simp [(collapsed_leaf e).1]
  | hnode hd es ih =>
    by_cases hes : es.length = 1
    · obtain ⟨s, rfl⟩ := List.length_eq_one_iff.mp hes
      rw [chain_single, List.forall_mem_cons]
      refine ⟨.root (Multiset.mem_singleton_self _), fun a ha ↦ ?_⟩
      obtain ⟨-, hs⟩ := held_node.mp ht
      exact (reach_edge ht List.mem_cons_self).trans
        (ih s List.mem_cons_self (hs s List.mem_cons_self) a ha)
    · simp [(collapsed_node hd hes).1]

/-- So are those at the top of what is left without the last data edge. -/
theorem Rep.Held.reach_remains {n : ℕ} {t' : Rep} (ht : t.Held h) (hsome : t.removeLast n = some t') :
    ∀ a ∈ t'.chain, Reach h {t.addr} a := by
  induction t using RoseTree.induction generalizing t' with
  | hleaf e =>
    rw [removeLast] at hsome
    cases hsome
  | hnode hd es ih =>
    obtain ⟨-, hes⟩ := held_node.mp ht
    rcases List.eq_nil_or_concat' es with rfl | ⟨ts, s, rfl⟩
    · rw [removeLast, removeLastAux] at hsome
      cases hsome
    · have hbelow : ∀ u ∈ ts ++ (removeLast n s).toList, ∀ a ∈ chain u, Reach h {hd.addr} a := by
        intro u hu a ha
        rcases List.mem_append.mp hu with hu | hu
        · have hmem := List.mem_append_left [s] hu
          exact (reach_edge ht hmem).trans ((hes u hmem).reach_chain a ha)
        · have hmem := List.mem_append_right ts (List.mem_singleton_self s)
          exact (reach_edge ht hmem).trans
            (ih s hmem (hes s hmem) (Option.mem_toList.mp hu) a ha)
      rw [removeLast_concat] at hsome
      generalize ts ++ (removeLast n s).toList = us at hsome hbelow
      cases us with
      | nil => cases hsome
      | cons u us =>
        cases hsome
        cases us with
        | nil =>
          rw [chain_single, List.forall_mem_cons]
          exact ⟨.root (Multiset.mem_singleton_self _), hbelow u List.mem_cons_self⟩
        | cons u' us =>
          have hlen : (u :: u' :: us).length ≠ 1 := by simp
          simp [(collapsed_node _ hlen).1]

/-- A shared node at the top is reachable by others. -/
theorem Rep.exists_reach_chain (ho : Owned h Z (t.addr ::ₘ R)) (ht : t.Held h)
    (hshared : ∃ a ∈ t.chain, h.rc a ≠ 1) : ∃ a ∈ t.chain, Reach h R a := by
  induction t using RoseTree.induction generalizing Z with
  | hleaf e =>
    rw [(collapsed_leaf e).1] at hshared
    obtain ⟨a, ha, -⟩ := hshared
    cases ha
  | hnode hd es ih =>
    by_cases hes : es.length = 1
    · obtain ⟨s, rfl⟩ := List.length_eq_one_iff.mp hes
      obtain ⟨hnode, hs⟩ := held_node.mp ht
      rw [chain_single] at hshared ⊢
      by_cases hone : h.rc hd.addr = 1
      · have hopen := ho.openCell hnode hone
        obtain ⟨a, ha, hne⟩ := hshared
        obtain ⟨b, hb, hr⟩ := ih s List.mem_cons_self (hopen.congr (Multiset.singleton_add _ _))
          (hs s List.mem_cons_self) ⟨a, (List.mem_cons.mp ha).resolve_left fun heq ↦
            hne (heq ▸ hone), hne⟩
        exact ⟨b, List.mem_cons_of_mem _ hb, hr⟩
      · exact ⟨hd.addr, List.mem_cons_self, ho.reach_of_shared hone⟩
    · rw [(collapsed_node hd hes).1] at hshared
      obtain ⟨a, ha, -⟩ := hshared
      cases ha

private theorem wp_collapseAt {child : Addr → HeapM Addr} {Q : Addr → Heap Node → Prop}
    (hchild : ∀ {h s} {Q : Addr → Heap Node → Prop}, Rep.Held h s → Rep.Valid k s →
      (∀ h', (∀ x ∈ Rep.chain s, h'.get? x = none) →
        (∀ x ∉ Rep.chain s, h'.get? x = h.get? x) → Q (Rep.collapsed s).addr h') →
      wp (child s.addr) Q h)
    (ht : t.Held h) (hv : t.Valid (k + 1))
    (hQ : ∀ h', (∀ x ∈ t.chain, h'.get? x = none) → (∀ x ∉ t.chain, h'.get? x = h.get? x) →
      Q t.collapsed.addr h') :
    wp (collapseAt child t.addr) Q h := by
  obtain ⟨hd, es, rfl⟩ := hv.exists_node
  obtain ⟨hnode, hes⟩ := Rep.held_node.mp ht
  rw [collapseAt, wp_bind]
  refine wp_asBtree hnode ?_
  rw [Rep.btree_size]
  by_cases hone : es.length = 1
  · obtain ⟨s, rfl⟩ := List.length_eq_one_iff.mp hone
    obtain ⟨hk, -, -, -, hvs⟩ := Rep.Valid.node_iff.mp hv
    have hs := hvs s List.mem_cons_self
    rw [if_pos hone, wp_bind]
    refine wp_edgeAt (show (plug true ([] ++ [⟨hd, []⟩]) s).Held h from ht) fun hheld ↦ ?_
    rw [wp_bind]
    refine wp_free_only hnode fun h₁ hnone hne ↦ ?_
    rw [Rep.chain_single, Rep.collapsed_single] at hQ
    have hs₁ : Rep.Held h₁ s := hheld.of_ne hs hnode le_rfl
      fun x hx ↦ Heap.node?_eq_of_get?_eq (hne x hx)
    refine hchild hs₁ (Nat.succ_injective hk ▸ hs) fun h' hchain hother ↦ hQ h' (fun x hx ↦ ?_)
      fun x hx ↦ ?_
    · by_cases hxs : x ∈ Rep.chain s
      · exact hchain x hxs
      · rw [hother x hxs, (List.mem_cons.mp hx).resolve_right hxs, hnone]
    · rw [List.mem_cons, not_or] at hx
      rw [hother x hx.2, hne x hx.1]
  · rw [if_neg hone, wp_pure]
    rw [(Rep.collapsed_node hd hone).1, (Rep.collapsed_node hd hone).2] at hQ
    exact hQ h (by simp) fun _ _ ↦ rfl

/-- The nodes with a single edge at the top are released, shared or not. -/
theorem wp_collapse (ht : t.Held h) (hv : t.Valid (k + 1)) {Q : Addr → Heap Node → Prop}
    (hQ : ∀ h', (∀ x ∈ t.chain, h'.get? x = none) → (∀ x ∉ t.chain, h'.get? x = h.get? x) →
      Q t.collapsed.addr h') :
    wp (collapse k t.addr) Q h := by
  induction k generalizing h t Q with
  | zero =>
    refine wp_collapseAt (fun {h s Q} _ hs hQ ↦ ?_) ht hv hQ
    obtain ⟨e, rfl, -⟩ := Rep.Valid.zero_iff.mp hs
    rw [(Rep.collapsed_leaf e).1, (Rep.collapsed_leaf e).2] at hQ
    exact (wp_pure _ _ _).mpr (hQ h (by simp) fun _ _ ↦ rfl)
  | succ k ih => exact wp_collapseAt (fun hs hvs hQ ↦ ih hs hvs hQ) ht hv hQ

/-- Giving up the nodes at the top leaves others alone exactly if none of them is shared. -/
theorem wp_collapse_owned (ho : Owned h Z (t.addr ::ₘ R)) (ht : t.Held h) (hv : t.Valid (k + 1))
    {Q : Addr → Heap Node → Prop}
    (hQ : ∀ h', ((∀ x ∈ t.chain, h.rc x = 1) → Owned h' Z (t.collapsed.addr ::ₘ R) ∧
        t.collapsed.Held h' ∧ Frame Z R h h') →
      ((∃ x ∈ t.chain, h.rc x ≠ 1) → ∃ x ∈ t.chain, Reach h R x ∧ h'.node? x = none) →
      Q t.collapsed.addr h') :
    wp (collapse k t.addr) Q h := by
  refine wp_collapse ht hv fun h' hchain hother ↦ hQ h' (fun hone ↦ ?_) fun hshared ↦ ?_
  · obtain ⟨hopen, hheld⟩ := Rep.openChain ho ht hone
    have hf : Frame Z (t.collapsed.addr ::ₘ R) h h' := hopen.frame_of_outside (.refl _)
      fun x hx ↦ Heap.node?_eq_of_get?_eq (hother x hx)
    exact ⟨hopen.of_released hchain hother, hheld.frame hf (.root (Multiset.mem_cons_self _ _)),
      hf.mono (List.Subset.refl _) (Multiset.le_cons_self _ _)⟩
  · obtain ⟨x, hx, hr⟩ := Rep.exists_reach_chain ho ht hshared
    exact ⟨x, hx, hr, by rw [Heap.node?, hchain x hx, Option.map_none]⟩

/-! ### Taking the last flat out -/

/-- The nodes of an opened spine that have no other edge are released. -/
theorem wp_deleteEmptied {del rest : List Crumb} {a : Addr}
    (ho : Owned h (spineAddrs (del ++ rest) ++ Z) R) (hn : SpineNodes true h (del ++ rest) a)
    (hdel : ∀ d ∈ del, d.rest = []) (hrest : ∀ c up, rest = c :: up → c.rest ≠ [])
    {Q : List Addr → Heap Node → Prop}
    (hQ : ∀ h', Owned h' (spineAddrs rest ++ Z) R → (∀ x ∈ spineAddrs del, h'.get? x = none) →
      (∀ x ∉ spineAddrs del, h'.get? x = h.get? x) → Q (spineAddrs rest) h') :
    wp (deleteEmptied (spineAddrs (del ++ rest))) Q h := by
  induction del generalizing h a with
  | nil =>
    have hsame := hQ h ho (by simp) fun _ _ ↦ rfl
    cases rest with
    | nil => exact (wp_pure _ _ _).mpr hsame
    | cons c up =>
      have hne : ¬(c.rest.length + 1 = 1) := by
        simpa using hrest c up rfl
      rw [List.nil_append, spineAddrs_cons, deleteEmptied, wp_bind]
      refine wp_asBtree hn.1 ?_
      rw [if_neg (by simpa [Btree.size, join] using hne), wp_pure]
      exact hsame
  | cons d del ih =>
    have hd := hdel d List.mem_cons_self
    have ho' : Owned h (d.hd.addr :: (spineAddrs (del ++ rest) ++ Z)) R := ho
    obtain ⟨hnot, -⟩ := List.nodup_cons.mp ho'.nodup
    rw [List.cons_append, spineAddrs_cons, deleteEmptied, wp_bind]
    refine wp_asBtree hn.1 ?_
    rw [if_pos (by simp [Btree.size, join, hd]), wp_bind]
    refine wp_free_only hn.1 fun h₁ hnone hne ↦ ?_
    have ho₁ : Owned h₁ (spineAddrs (del ++ rest) ++ Z) R :=
      Owned.of_released (U := [d.hd.addr]) ho'
        (fun x hx ↦ by rw [List.mem_singleton.mp hx, hnone])
        fun x hx ↦ hne x fun heq ↦ hx (List.mem_singleton.mpr heq)
    refine ih ho₁ (hn.2.congr fun b hb ↦ Heap.node?_eq_of_get?_eq (hne b fun heq ↦ ?_))
      (fun c hc ↦ hdel c (List.mem_cons_of_mem _ hc)) fun h' ho'' hdel' hother ↦ ?_
    · exact hnot (heq ▸ List.mem_append_left _ hb)
    · refine hQ h' ho'' (fun x hx ↦ ?_) fun x hx ↦ ?_
      · by_cases hxd : x ∈ spineAddrs del
        · exact hdel' x hxd
        · rw [hother x hxd, (List.mem_cons.mp hx).resolve_right hxd, hnone]
      · rw [spineAddrs_cons, List.mem_cons, not_or] at hx
        rw [hother x hx.2, hne x hx.1]

/-- Taking from the lengths along an opened spine. -/
theorem wp_subLengths {back : Bool} {delta : ℕ} {a : Addr} (ho : Owned h Z R)
    (hZ : spineAddrs cs ⊆ Z) (hnd : (spineAddrs cs).Nodup) (hcs : SpineNodes back h cs a)
    {Q : Unit → Heap Node → Prop}
    (hQ : ∀ h', Owned h' Z R → (∀ x ∉ spineAddrs cs, h'.get? x = h.get? x) →
      SpineNodes back h' (shrinkSpine delta cs) a → Q () h') :
    wp (subLengths (spineAddrs cs) delta) Q h := by
  induction cs generalizing h a with
  | nil => exact (wp_pure _ _ _).mpr (hQ h ho (fun _ _ ↦ rfl) trivial)
  | cons c cs ih =>
    obtain ⟨hc, hrest⟩ := hcs
    obtain ⟨hnot, hnd⟩ := List.nodup_cons.mp hnd
    rw [spineAddrs_cons, subLengths, wp_bind, subLength, wp_bind]
    refine wp_asBtree hc ?_
    refine wp_write_only ho (hZ List.mem_cons_self) fun h₁ ho₁ hne₁ hc₁ ↦ ?_
    have hrest₁ : SpineNodes back h₁ cs c.hd.addr := hrest.congr fun b hb ↦
      Heap.node?_eq_of_get?_eq (hne₁ b fun hbc ↦ hnot (hbc ▸ hb))
    refine ih ho₁ (fun b hb ↦ hZ (List.mem_cons_of_mem _ hb)) hnd hrest₁
      fun h₂ ho₂ hne₂ hcs₂ ↦ ?_
    refine hQ h₂ ho₂ (fun x hx ↦ ?_)
      ⟨(Heap.node?_eq_of_get?_eq (hne₂ _ hnot)).trans hc₁, hcs₂⟩
    rw [spineAddrs_cons, List.mem_cons, not_or] at hx
    rw [hne₂ x hx.2, hne₁ x hx.1]

/-- What is left of a tree when its last flat, which has the address `a`, was taken out. -/
structure Remains (h : Heap Node) (Z : List Addr) (R : Multiset Addr) (a : Addr) (t : Rep)
    (h' : Heap Node) : Prop where
  owned : Owned h' (a :: Z) (t.collapsed.addr ::ₘ R)
  held : t.collapsed.Held h'
  flat : h'.node? a = h.node? a
  frame : Frame Z R h h'

/-- The last edge of an opened spine whose bottom node has others is taken out. -/
private theorem wp_removeEdge {s : Rep} {up : List Crumb} {n : ℕ}
    (ho : Owned h (spineAddrs (c :: up) ++ Z) ((sideRefs (c :: up) : Multiset Addr) + R))
    (hcs : SpineHeld true h (c :: up) s.addr) (hv : SpineValid k (c :: up) s.length)
    (hs : s.length = n) (hc : c.rest ≠ []) {Q : Unit → Heap Node → Prop}
    (hQ : ∀ (t : Rep) h', t = plug true (shrinkSpine n up)
        (.node { c.hd with length := c.hd.length - n } c.rest) →
      Owned h' Z (t.addr ::ₘ R) → t.Held h' → t.Valid (k + 1 + up.length) →
      (∀ x ∈ spineAddrs (c :: up), h'.rc x = 1) →
      (∀ x ∉ spineAddrs (c :: up), h'.get? x = h.get? x) → Q () h') :
    wp (dropLastSlot c.hd.addr >>= fun _ ↦ subLengths (c.hd.addr :: spineAddrs up) n) Q h := by
  obtain ⟨hnode, hrest, hup⟩ := spineHeld_cons.mp hcs
  obtain ⟨rfl, hcap, hlen, hvrest, hvup⟩ := hv
  have hnodup : (c.hd.addr :: spineAddrs up).Nodup := (List.nodup_append'.mp ho.nodup).1
  obtain ⟨hnot, hnd⟩ := List.nodup_cons.mp hnodup
  simp only [wp_bind, dropLastSlot, subLengths, subLength]
  refine wp_asBtree hnode ?_
  refine wp_write_only ho List.mem_cons_self fun h₁ ho₁ hne₁ hc₁ ↦ ?_
  refine wp_asBtree hc₁ ?_
  refine wp_write_only ho₁ List.mem_cons_self fun h₂ ho₂ hne₂ hc₂ ↦ ?_
  have hup₂ : SpineNodes true h₂ up c.hd.addr := hup.1.congr fun b hb ↦ by
    have hbc : b ≠ c.hd.addr := fun heq ↦ hnot (heq ▸ hb)
    rw [Heap.node?_eq_of_get?_eq (hne₂ b hbc), Heap.node?_eq_of_get?_eq (hne₁ b hbc)]
  refine wp_subLengths ho₂ (fun b hb ↦ List.mem_append_left _ (List.mem_cons_of_mem _ hb)) hnd hup₂
    fun h₃ ho₃ hne₃ hup₃ ↦ ?_
  have hother : ∀ x ∉ spineAddrs (c :: up), h₃.get? x = h.get? x := by
    intro x hx
    rw [spineAddrs_cons, List.mem_cons, not_or] at hx
    rw [hne₃ x hx.2, hne₂ x hx.1, hne₁ x hx.1]
  have hf : Frame Z ((sideRefs (c :: up) : Multiset Addr) + R) h h₃ :=
    ho.frame_of_outside (.refl _) fun x hx ↦ Heap.node?_eq_of_get?_eq (hother x hx)
  have hside : ∀ d ∈ c :: up, ∀ t ∈ d.rest, t.Held h₃ := fun d hd t ht ↦
    (hcs.2 d hd t ht).frame hf (.root (Multiset.mem_add.mpr (.inl (Multiset.mem_coe.mpr
      (List.mem_flatMap.mpr ⟨d, hd, List.mem_map_of_mem ht⟩)))))
  have hc₃ : h₃.node? c.hd.addr = some (.btree ⟨c.hd.length - n, c.hd.height, c.hd.begin,
      c.rest.map Rep.addr⟩) := by
    rw [Heap.node?_eq_of_get?_eq (hne₃ _ hnot), hc₂]
    simp [join]
  have hone : ∀ x ∈ spineAddrs (c :: up), h₃.rc x = 1 := fun x hx ↦
    ho₃.one x (List.mem_append_left _ hx)
  have ho₄ : Owned h₃ (c.hd.addr :: (spineAddrs up ++ Z))
      (((c.rest.map Rep.addr : List Addr) : Multiset Addr) + ((sideRefs up : Multiset Addr) + R)) :=
    ho₃.congr (by rw [sideRefs_cons, ← Multiset.coe_add, add_assoc])
  obtain ⟨ho₅, hheld, hvnode⟩ := closeNode ho₄ hc₃
    (fun t ht ↦ ⟨hside c List.mem_cons_self t ht, hvrest t ht⟩) hc (by omega) (by omega)
  have hspine : SpineHeld true h₃ (shrinkSpine n up) c.hd.addr := by
    refine ⟨hup₃, fun d hd t ht ↦ ?_⟩
    obtain ⟨d', hd', rfl⟩ := List.mem_map.mp hd
    exact hside d' (List.mem_cons_of_mem _ hd') t ht
  have hplug := plug_held.mpr ⟨hheld, hspine⟩
  have hle : n ≤ c.hd.length := by omega
  rw [← Nat.sub_add_cancel hle] at hvup
  have hvplug : (plug true (shrinkSpine n up)
      (.node ⟨c.hd.addr, c.hd.length - n, c.hd.height, c.hd.begin⟩ c.rest)).Valid
      (c.hd.height + 1 + (shrinkSpine n up).length) := plug_valid.mpr ⟨hvnode, hvup.shrink⟩
  refine hQ _ h₃ rfl (closeSpine ?_ hplug hvplug) hplug (by simpa using hvplug) hone hother
  simpa using ho₅

/-- The last flat is taken out of a tree that nothing else refers to on the way there. Others lose
a node only if they share one at the top of what is left. -/
private theorem wp_removeExtracted {a : Addr} {tag : ℕ} {data : Bytes}
    (heq : t = plug true cs (.leaf (.whole a (.flat tag data)))) (ht : Holding h Z R (k + 1) t)
    (hone : h.rc a = 1) (hall : ∀ b ∈ spineAddrs cs, h.rc b = 1)
    {Q : Option Addr → Heap Node → Prop}
    (hlast : ∀ h', t.removeLast data.length = none → t.bytes = data → Owned h' (a :: Z) R →
      h'.node? a = h.node? a → Frame Z R h h' → Q none h')
    (hrest : ∀ t' j h', t.removeLast data.length = some t' → t.bytes = t'.bytes ++ data →
      t'.collapsed.Valid j → j ≤ maxDepth → ((∀ x ∈ t'.chain, h.rc x = 1) → Remains h Z R a t' h') →
      ((∃ x ∈ t'.chain, h.rc x ≠ 1) → ∃ x ∈ t'.chain, Reach h R x ∧ h'.node? x = none) →
      Q (some t'.collapsed.addr) h') :
    wp (removeExtracted k t.addr (spineAddrs cs) data.length) Q h := by
  obtain ⟨ho, hheld, hv, hdepth⟩ := ht
  obtain ⟨del, rest, rfl, hdel, hbottom⟩ := exists_emptied cs
  rw [heq] at ho hheld hv
  have hleaf : (Edge.whole a (.flat tag data)).Held h := Rep.held_leaf.mp (plug_held.mp hheld).1
  have hopen := openSpine ho hheld hall
  -- The flat and the nodes above it are opened; the others of the path have no other edges.
  have hside : sideRefs (del ++ rest) = sideRefs rest := by
    rw [sideRefs_append, show sideRefs del = [] from List.flatMap_eq_nil_iff.mpr fun d hd ↦ by
      rw [hdel d hd, List.map_nil], List.nil_append]
  rw [hside] at hopen
  have ho₀ : Owned h (spineAddrs (del ++ rest) ++ a :: Z) ((sideRefs rest : Multiset Addr) + R) :=
    ((hopen.openCell hleaf.1 hone).congr (zero_add _)).perm List.perm_middle.symm
  have hZ₀ : (spineAddrs (del ++ rest) ++ a :: Z).Perm
      (spineAddrs del ++ (spineAddrs rest ++ a :: Z)) := by
    rw [spineAddrs_append, List.append_assoc]
  rw [plug_append] at hheld hv
  obtain ⟨-, hspine⟩ := plug_held.mp hheld
  obtain ⟨j, hj, hsv, hspv⟩ := exists_level hv
  have hleaves := leaves_plug_single hdel (.leaf (.whole a (.flat tag data)))
  have hslen : (plug true del (.leaf (.whole a (.flat tag data)))).length = data.length := by
    rw [← hsv.length_bytes, Rep.bytes, hleaves]
    simp [Edge.data, Payload.data]
  rw [removeExtracted, wp_bind]
  refine wp_deleteEmptied ho₀ (plug_held.mp (plug_append del rest _ ▸ hheld)).2.1 hdel hbottom
    fun h₁ ho₁ hdel₁ hother₁ ↦ ?_
  have hf₁ : Frame (spineAddrs rest ++ a :: Z) ((sideRefs rest : Multiset Addr) + R) h h₁ :=
    ho₀.frame_of_outside hZ₀ fun x hx ↦ Heap.node?_eq_of_get?_eq (hother₁ x hx)
  cases rest with
  | nil =>
    refine (wp_pure _ _ _).mpr (hlast h₁ ?_ ?_ (ho₁.congr (zero_add R)) ?_ ?_)
    · rw [heq, List.append_nil]
      exact Rep.removeLast_plug_single _ hdel _
    · rw [heq, List.append_nil, Rep.bytes, hleaves]
      simp [Edge.data, Payload.data]
    · exact hf₁.opened a List.mem_cons_self
    · exact hf₁.mono (List.subset_cons_self _ _) (Multiset.le_add_left _ _)
  | cons c up =>
    have hc := hbottom c up rfl
    have hspine₁ := hspine.frame hf₁ (List.subset_append_left _ _)
      fun b hb ↦ Multiset.mem_add.mpr (.inl hb)
    simp only [spineAddrs_cons]
    rw [← bind_assoc, wp_bind]
    refine wp_removeEdge ho₁ hspine₁ hspv hslen hc fun t₁ h₂ ht₁ ho₂ hheld₂ hv₂ hone₂ hother₂ ↦ ?_
    have hf₂ : Frame (a :: Z) ((sideRefs (c :: up) : Multiset Addr) + R) h h₂ :=
      (hf₁.mono (List.subset_append_right _ _) le_rfl).trans
        (ho₁.frame_of_outside (.refl _) fun x hx ↦ Heap.node?_eq_of_get?_eq (hother₂ x hx))
    have hfR : Frame Z R h h₂ := hf₂.mono (List.subset_cons_self _ _) (Multiset.le_add_left _ _)
    have haddr : t.addr = t₁.addr := by
      rw [heq, ht₁, plug_append, addr_plug (c :: up), addr_plug (shrinkSpine _ up),
        rootAddr_shrinkSpine, rootAddr, Rep.addr_node]
    -- The counts of the nodes that are left did not change.
    have hrc : ∀ x ∈ t₁.chain, (h.rc x = 1 ↔ h₂.rc x = 1) := by
      intro x hx
      by_cases hxs : x ∈ spineAddrs (c :: up)
      · rw [hall x (by rw [spineAddrs_append]; exact List.mem_append_right _ hxs), hone₂ x hxs]
      · have hxd : x ∉ spineAddrs del := fun hxd ↦ by
          obtain ⟨d, hd⟩ := hheld₂.live_chain x hx
          rw [hother₂ x hxs, hdel₁ x hxd] at hd
          cases hd
        rw [Heap.rc_eq_of_get?_eq (hother₂ x hxs), Heap.rc_eq_of_get?_eq (hother₁ x hxd)]
    rw [haddr, wp_bind]
    refine wp_collapse_owned ho₂ hheld₂ (by rwa [show j + 1 + up.length = k + 1 by
      rw [List.length_cons] at hj; omega] at hv₂) fun h₃ hgood hbad ↦ ?_
    obtain ⟨i, hi, hvi⟩ := hv₂.collapsed
    rw [wp_pure]
    refine hrest t₁ i h₃ ?_ ?_ hvi ?_ (fun hone' ↦ ?_) fun hshared ↦ ?_
    · rw [heq, ht₁]
      exact Rep.removeLast_emptied _ hdel hc _
    · rw [heq, ht₁, Rep.bytes, leaves_emptied data.length hdel, List.flatMap_append]
      simp [Rep.bytes, Edge.data, Payload.data]
    · rw [List.length_cons] at hj
      omega
    · obtain ⟨ho₃, hheld₃, hf₃⟩ := hgood fun x hx ↦ (hrc x hx).mp (hone' x hx)
      exact ⟨ho₃, hheld₃, (hf₃.opened a List.mem_cons_self).trans (hf₂.opened a List.mem_cons_self),
        hfR.trans (hf₃.mono (List.subset_cons_self _ _) le_rfl)⟩
    · obtain ⟨x, hx, hne⟩ := hshared
      obtain ⟨y, hmem, hr, hy⟩ := hbad ⟨x, hx, fun h' ↦ hne ((hrc x hx).mpr h')⟩
      exact ⟨y, hmem, hfR.reach hr, hy⟩

/-- The last flat is taken out of a tree if nothing else refers to it or to a node on the way to it
and it has room. Others lose a node only if they share one at the top of what is left. -/
theorem wp_extractAppendBuffer {extra : ℕ} (ht : Holding h Z R (k + 1) t)
    {Q : ExtractResult → Heap Node → Prop}
    (hkeep : ¬t.Extractable h extra → Q ⟨some t.addr, none⟩ h)
    (hlast : ∀ a tag data h', t.Extractable h extra →
      t.leaves.getLast? = some (.whole a (.flat tag data)) → (Edge.whole a (.flat tag data)).Held h →
      (Edge.whole a (.flat tag data)).Valid → t.remains = none → t.bytes = data →
      Owned h' (a :: Z) R → h'.node? a = h.node? a → Frame Z R h h' → Q ⟨none, some a⟩ h')
    (hrest : ∀ a tag data t' j h', t.Extractable h extra →
      t.leaves.getLast? = some (.whole a (.flat tag data)) → (Edge.whole a (.flat tag data)).Held h →
      (Edge.whole a (.flat tag data)).Valid → t.remains = some t' → t.bytes = t'.bytes ++ data →
      t'.collapsed.Valid j → j ≤ maxDepth → ((∀ x ∈ t'.chain, h.rc x = 1) → Remains h Z R a t' h') →
      ((∃ x ∈ t'.chain, h.rc x ≠ 1) → ∃ x ∈ t'.chain, Reach h R x ∧ h'.node? x = none) →
      Q ⟨some t'.collapsed.addr, some a⟩ h') :
    wp (extractAppendBuffer t.addr extra) Q h := by
  obtain ⟨cs, e, heq, hcs⟩ := exists_spine true ht.valid
  obtain ⟨ho, hheld, hv, hdepth⟩ := id ht
  rw [heq] at hheld hv
  obtain ⟨hehld, hspine⟩ := plug_held.mp hheld
  obtain ⟨i, -, hev, -⟩ := exists_level hv
  have hevalid := (Rep.Valid.leaf_iff.mp hev).2
  obtain ⟨hd, es, hnode⟩ := ht.valid.exists_node
  have hheight : hd.height = k := by
    have := ht.valid
    rw [hnode] at this
    exact (Nat.succ_injective (Rep.Valid.node_iff.mp this).1).symm
  have hroot := ht.held.node?
  have hroot' := hroot
  rw [hnode] at hroot'
  have hiff := Rep.extractable_plug h extra cs e
  rw [← heq] at hiff
  have hremains := Rep.remains_plug cs e
  rw [← heq] at hremains
  have hgetLast : t.leaves.getLast? = some e := by
    rw [heq, leaves_plug]
    simp [join]
  rw [extractAppendBuffer, wp_bind, hnode]
  refine wp_asBtree hroot' ?_
  rw [← hnode, wp_bind]
  refine wp_refIsOne hroot ?_
  cases cs with
  | nil => cases hcs
  | cons c up =>
    have hup : up.length = k := Nat.succ_injective hcs
    have hplug : t = plug true up (.node c.hd (join true c.rest [.leaf e])) := heq
    have hlastSpine : t.addr ∈ spineAddrs (c :: up) := by
      rw [heq, addr_plug, rootAddr_eq_getLastD, spineAddrs_cons, List.getLastD_cons]
      exact List.getLastD_mem_cons
    by_cases hone : h.rc t.addr = 1
    · rw [decide_eq_true hone, if_pos rfl, Rep.btree_height, hheight, ← hup, wp_bind]
      nth_rewrite 1 [hplug]
      refine wp_ownedPath (hplug ▸ ht.held) (hplug ▸ hone) (fun hall ↦ ?_) fun hnot ↦ ?_
      · rw [List.append_nil]
        change wp (edgeAt true c.hd.addr >>= _) Q h
        rw [wp_bind]
        refine wp_edgeAt (plug_held.mp (show (plug true up (plug true ([] ++ [c]) (.leaf e))).Held h
          from hheld)).1 fun _ ↦ ?_
        change wp (refIsOne e.addr >>= _) Q h
        rw [wp_bind]
        refine wp_refIsOne hehld.node? ?_
        rw [wp_bind]
        refine wp_read hehld.node? ?_
        have hrefuse : e.extractable extra = false → Q ⟨some t.addr, none⟩ h := fun hfalse ↦
          hkeep fun hext ↦ by simpa [hfalse] using (hiff.mp hext).2
        by_cases hrc : h.rc (Rep.addr (.leaf e)) = 1
        · rw [decide_eq_true hrc]
          cases e with
          | part a length start child p => exact (wp_pure _ _ _).mpr (hrefuse rfl)
          | whole a p =>
            cases p with
            | external data allocation => exact (wp_pure _ _ _).mpr (hrefuse rfl)
            | flat tag data =>
              change wp (if tagToLength tag - data.length < extra then pure _ else _) Q h
              by_cases hroom : tagToLength tag - data.length < extra
              · rw [if_pos hroom, wp_pure]
                exact hrefuse (decide_eq_false (not_le.mpr hroom))
              · have hext := hiff.mpr ⟨⟨hrc, hall⟩, decide_eq_true (not_lt.mp hroom)⟩
                have hehld' := Rep.held_leaf.mp hehld
                rw [if_neg hroom, hup, wp_bind]
                refine wp_removeExtracted heq ht hrc hall ?_ ?_
                · intro h' hnone hbytes ho' ha hf
                  exact (wp_pure _ _ _).mpr (hlast a tag data h' hext hgetLast hehld' hevalid
                    (hremains.trans hnone) hbytes ho' ha hf)
                · intro t' j h' hsome hbytes hj hdj hgood hbad
                  exact (wp_pure _ _ _).mpr (hrest a tag data t' j h' hext hgetLast hehld'
                    hevalid (hremains.trans hsome) hbytes hj hdj hgood hbad)
        · rw [decide_eq_false hrc]
          exact (wp_pure _ _ _).mpr (hkeep fun hext ↦ hrc (hiff.mp hext).1.1)
      · refine (wp_pure _ _ _).mpr (hkeep fun hext ↦ ?_)
        obtain ⟨a, ha, hne⟩ := hnot
        exact hne ((hiff.mp hext).1.2 a ha)
    · rw [decide_eq_false hone, if_neg Bool.false_ne_true, wp_pure]
      exact hkeep fun hext ↦ hone ((hiff.mp hext).1.2 _ hlastSpine)

end Rules

end CordRs
