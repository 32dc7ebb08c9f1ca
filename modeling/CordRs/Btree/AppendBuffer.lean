import CordRs.Btree.Append

/-!
# The last flat of a tree

A flat at the end of a tree may be written to while nothing else refers to it or to a node on the
way to it. Bytes are put into its spare capacity in place.

## Main definitions

* `CordRs.ownedPath`, `CordRs.getAppendBuffer`.
* `CordRs.Rep.lastPath`, `CordRs.Rep.room`: the way to the last data edge, and the bytes that can be
  added in place.

## Main results

* `CordRs.wp_getAppendBuffer`: the bytes that fit are at the end of the tree.
-/

namespace CordRs

open RefHeap LevelTree

/-- Go down `depth` last edges as long as nothing else refers to the edges. What comes back are the
nodes passed, from the bottom. -/
def ownedPath : ℕ → Addr → List Addr → HeapM (Option (List Addr))
  | 0, node, stack => pure (some (node :: stack))
  | depth + 1, node, stack => do
    let edge ← edgeAt true node
    if ← refIsOne edge then
      ownedPath depth edge (node :: stack)
    else
      pure none

section Target

variable [Target]

/-- Put bytes into the spare capacity of the last flat of a tree that nothing else refers to, and
return how many fit. The source hands out the spare capacity, which the caller fills at once. -/
def getAppendBuffer (this : Addr) (src : Bytes) : HeapM ℕ := do
  let b ← asBtree this
  match ← ownedPath b.height this [] with
  | none => pure 0
  | some path =>
    let edge ← edgeAt true (path.headD this)
    let unique ← refIsOne edge
    match unique, ← read edge with
    | true, .payload (.flat tag data) =>
      let avail := tagToLength tag - data.length
      if avail = 0 then
        pure 0
      else
        let delta := min src.length avail
        write edge (.payload (.flat tag (data ++ src.take delta)))
        addLengths path delta
        pure delta
    | _, _ => pure 0

end Target

/-! ### The way to the last data edge -/

namespace Rep

mutual
/-- The addresses from the root of a tree down to its last data edge. -/
def lastPath : Rep → List Addr
  | .leaf e => [e.addr]
  | .node hd es => hd.addr :: lastPathAux es
/-- The addresses from the root of the last tree down. -/
def lastPathAux : List Rep → List Addr
  | [] => []
  | [t] => lastPath t
  | _ :: t :: ts => lastPathAux (t :: ts)
end

private theorem lastPathAux_concat (ts : List Rep) (t : Rep) :
    lastPathAux (ts ++ [t]) = t.lastPath := by
  induction ts with
  | nil => rw [List.nil_append, lastPathAux]
  | cons s ts ih =>
    cases ts with
    | nil => rw [List.cons_append, List.nil_append, lastPathAux, lastPathAux]
    | cons s' ts => rw [← ih, List.cons_append, List.cons_append, lastPathAux]

theorem lastPath_plug (cs : List Crumb) (s : Rep) :
    (plug true cs s).lastPath = (spineAddrs cs).reverse ++ s.lastPath := by
  induction cs generalizing s with
  | nil => rfl
  | cons c cs ih =>
    rw [plug, ih, lastPath, join, if_pos rfl, lastPathAux_concat]
    simp

end Rep

/-- The capacity of a data edge that is not in use. -/
def Edge.spare [Target] : Edge → ℕ
  | .whole _ (.flat tag data) => tagToLength tag - data.length
  | _ => 0

/-- The number of bytes that can be added at the end of a tree in place. -/
def Rep.room [Target] (h : Heap Node) (t : Rep) : ℕ :=
  if ∀ a ∈ t.lastPath, h.rc a = 1 then (t.leaves.getLast?.map Edge.spare).getD 0 else 0

theorem Rep.room_plug [Target] (h : Heap Node) (cs : List Crumb) (e : Edge) :
    (plug true cs (.leaf e)).room h =
      if h.rc e.addr = 1 ∧ ∀ a ∈ spineAddrs cs, h.rc a = 1 then e.spare else 0 := by
  rw [Rep.room, Rep.lastPath_plug, leaves_plug]
  simp [Rep.lastPath, join, or_imp, forall_and, and_comm]

section Down

variable {h : Heap Node} {cs : List Crumb} {s : Rep}

/-- The nodes on the way down are returned if nothing else refers to them. -/
theorem wp_ownedPath {stack : List Addr} (ht : (plug true cs s).Held h)
    (hroot : h.rc (plug true cs s).addr = 1) {Q : Option (List Addr) → Heap Node → Prop}
    (hall : (∀ a ∈ s.addr :: spineAddrs cs, h.rc a = 1) →
      Q (some (s.addr :: spineAddrs cs ++ stack)) h)
    (hnot : (∃ a ∈ s.addr :: spineAddrs cs, h.rc a ≠ 1) → Q none h) :
    wp (ownedPath cs.length (plug true cs s).addr stack) Q h := by
  induction cs using List.reverseRecOn generalizing stack with
  | nil =>
    rw [List.length_nil, ownedPath, wp_pure]
    exact hall (by simpa using hroot)
  | append_singleton cs c ih =>
    rw [addr_plug_concat] at hroot ⊢
    rw [List.length_append, List.length_singleton, ownedPath, wp_bind]
    refine wp_edgeAt ht fun ht' ↦ ?_
    rw [wp_bind]
    refine wp_refIsOne ht'.node? ?_
    by_cases hone : h.rc (plug true cs s).addr = 1
    · rw [decide_eq_true hone, if_pos rfl]
      refine ih ht' hone (fun hall' ↦ ?_) fun hnot' ↦ ?_
      · have := hall fun a ha ↦ by
          simp only [spineAddrs_append, spineAddrs_cons, spineAddrs_nil, List.mem_cons,
            List.mem_append, List.not_mem_nil, or_false] at ha
          obtain rfl | ha | rfl := ha
          · exact hall' _ List.mem_cons_self
          · exact hall' a (List.mem_cons_of_mem _ ha)
          · exact hroot
        simpa using this
      · obtain ⟨a, ha, hne⟩ := hnot'
        refine hnot ⟨a, ?_, hne⟩
        obtain rfl | ha := List.mem_cons.mp ha
        · exact List.mem_cons_self
        · exact List.mem_cons_of_mem _ (by simp [ha])
    · rw [decide_eq_false hone, if_neg Bool.false_ne_true, wp_pure]
      refine hnot ⟨_, ?_, hone⟩
      cases cs using List.reverseRecOn with
      | nil => exact List.mem_cons_self
      | append_singleton cs d _ => exact List.mem_cons_of_mem _ (by simp [addr_plug_concat])

end Down

section Rules

variable [Target] {h h' : Heap Node} {Z : List Addr} {R : Multiset Addr} {k : ℕ} {t : Rep}
  {c : Crumb} {cs : List Crumb} {e : Edge}

/-! ### Writing to the last flat -/

/-- Bytes are written behind those of a flat that nothing else refers to. -/
theorem wp_writeFlat {a : Addr} {tag : ℕ} {data src : Bytes} (ho : Owned h Z (a ::ₘ R))
    (he : (Edge.whole a (.flat tag data)).Held h) (hv : (Edge.whole a (.flat tag data)).Valid)
    (hone : h.rc a = 1) (hle : data.length + src.length ≤ tagToLength tag)
    {Q : Unit → Heap Node → Prop}
    (hQ : ∀ h', (Edge.whole a (.flat tag (data ++ src))).Held h' →
      (Edge.whole a (.flat tag (data ++ src))).Valid → Owned h' Z (a ::ₘ R) → Frame Z R h h' →
      Q () h') :
    wp (write a (.payload (.flat tag (data ++ src))) : HeapM Unit) Q h := by
  obtain ⟨hlo, hhi, hpos, -⟩ := hv
  have hv' : Payload.Valid (.flat tag (data ++ src)) := by
    refine ⟨hlo, hhi, ?_, ?_⟩ <;> rw [List.length_append] <;> omega
  have ho₁ : Owned h (a :: Z) R := (ho.openCell he.1 hone).congr (zero_add R)
  refine wp_write ho₁ List.mem_cons_self fun h₂ ho₂ hne ha ↦ ?_
  exact hQ h₂ ⟨ha, ha⟩ hv' (ho₂.closeCell ha ⟨[], rfl, hv', rfl⟩ (zero_add R).symm)
    (ho₁.frame_of_opened List.mem_cons_self (List.nodup_cons.mp ho₁.nodup).1 hne)

/-- The last flat of a tree and the lengths above it grow. -/
private theorem wp_growLast {a : Addr} {tag : ℕ} {data more : Bytes}
    (ht : Holding h Z R k (plug true cs (.leaf (.whole a (.flat tag data))))) (hone : h.rc a = 1)
    (hcs : ∀ b ∈ spineAddrs cs, h.rc b = 1) (hle : data.length + more.length ≤ tagToLength tag)
    (hlen : (plug true cs (.leaf (.whole a (.flat tag data)))).length + more.length ≤ usizeMax)
    {Q : Unit → Heap Node → Prop}
    (hQ : ∀ (t' : Rep) h', t'.addr = (plug true cs (.leaf (.whole a (.flat tag data)))).addr →
      Holding h' Z R k t' →
      t'.bytes = (plug true cs (.leaf (.whole a (.flat tag data)))).bytes ++ more →
      t'.leaves.length = (plug true cs (.leaf (.whole a (.flat tag data)))).leaves.length →
      Frame Z R h h' → Q () h') :
    wp (write a (.payload (.flat tag (data ++ more))) : HeapM Unit)
      (fun _ h₁ ↦ wp (addLengths (spineAddrs cs) more.length) Q h₁) h := by
  obtain ⟨ho, hheld, hv, hdepth⟩ := ht
  obtain ⟨j, rfl, hev, hsv⟩ := exists_level hv
  obtain ⟨rfl, hev⟩ := Rep.Valid.leaf_iff.mp hev
  obtain ⟨he, hspine⟩ := plug_held.mp hheld
  refine wp_writeFlat (openSpine ho hheld hcs) (Rep.held_leaf.mp he) hev hone hle
    fun h₁ he₁ hv₁ ho₁ hf₁ ↦ ?_
  have hl₁ : Leg true h₁ (spineAddrs cs ++ Z) ((sideRefs cs : Multiset Addr) + R) 0 []
      (.leaf (.whole a (.flat tag (data ++ more)))) :=
    ⟨ho₁.congr (by simp [Edge.addr]), Rep.held_leaf.mpr he₁, Rep.Valid.leaf_iff.mpr ⟨rfl, hv₁⟩,
      trivial⟩
  refine wp_growLengths data.length hl₁ (hspine.frame hf₁ (List.subset_append_left _ _)
    fun b hb ↦ Multiset.mem_add.mpr (.inl hb)) hsv ?_ ?_ fun h₂ hl₂ hf₂ ↦ ?_
  · simp [Edge.length, Payload.data]
  · rwa [length_plug] at hlen
  · rw [List.nil_append] at hl₂
    refine hQ _ h₂ ?_ ⟨hl₂.close, hl₂.held, by simpa using hl₂.valid, hdepth⟩ ?_ ?_
      ((hf₁.mono (List.subset_append_right _ _) (Multiset.le_add_left _ _)).trans hf₂)
    · rw [addr_plug, addr_plug, rootAddr_eq_getLastD, rootAddr_eq_getLastD, spineAddrs_growSpine]
      rfl
    · simp [Rep.bytes, leaves_plug, join, Edge.data, Payload.data]
    · simp [leaves_plug, join]

/-- The bytes that fit in place are put at the end of a tree. -/
theorem wp_getAppendBuffer {src : Bytes} (ht : Holding h Z R (k + 1) t) (hone : h.rc t.addr = 1)
    (hlen : t.length + src.length ≤ usizeMax) {Q : ℕ → Heap Node → Prop}
    (hQ : ∀ (t' : Rep) h', t'.addr = t.addr → Holding h' Z R (k + 1) t' →
      t'.bytes = t.bytes ++ src.take (t.room h) → t'.leaves.length = t.leaves.length →
      Frame Z R h h' → Q (min src.length (t.room h)) h') :
    wp (getAppendBuffer t.addr src) Q h := by
  obtain ⟨ho, hheld, hv, hdepth⟩ := ht
  obtain ⟨cs, e, rfl, hcs⟩ := exists_spine true hv
  -- Nothing changes where nothing fits.
  have hzero : (plug true cs (.leaf e)).room h = 0 → Q 0 h := by
    intro hroom
    have := hQ _ h rfl ⟨ho, hheld, hv, hdepth⟩ (by rw [hroom]; simp) rfl (.refl h)
    rwa [hroom, Nat.min_zero] at this
  cases cs with
  | nil => cases hcs
  | cons c up =>
    have hup : up.length = k := Nat.succ_injective hcs
    obtain ⟨hehld, hspine⟩ := plug_held.mp hheld
    have hv₀ := hv
    rw [← hcs, ← Nat.zero_add (c :: up).length, plug_valid] at hv₀
    obtain ⟨hev, hsv⟩ := hv₀
    have hroot := hheld.node?
    have hvroot := hv
    obtain ⟨hd, es, hplug⟩ := hv.exists_node
    rw [hplug] at hroot hvroot
    have hheight : hd.height = up.length := by
      rw [hup]
      exact (Nat.succ_injective (Rep.Valid.node_iff.mp hvroot).1).symm
    rw [getAppendBuffer, wp_bind, hplug]
    refine wp_asBtree hroot ?_
    rw [Rep.btree_height, hheight, ← hplug, wp_bind]
    refine @wp_ownedPath _ up (.node c.hd (join true c.rest [.leaf e])) _ hheld hone _
      (fun hall ↦ ?_) fun hnot ↦ ?_
    · rw [List.append_nil]
      change wp (edgeAt true c.hd.addr >>= _) Q h
      rw [wp_bind]
      have hleaf : (plug true ([] ++ [c]) (.leaf e)).Held h := (plug_held.mp
        (show (plug true up (plug true ([] ++ [c]) (.leaf e))).Held h from hheld)).1
      refine wp_edgeAt hleaf fun _ ↦ ?_
      change wp (refIsOne e.addr >>= _) Q h
      rw [wp_bind]
      refine wp_refIsOne hehld.node? ?_
      rw [wp_bind]
      refine wp_read hehld.node? ?_
      have hroom : h.rc e.addr = 1 → (plug true (c :: up) (.leaf e)).room h = e.spare := by
        intro hrc
        rw [Rep.room_plug, if_pos ⟨hrc, hall⟩]
      by_cases hrc : h.rc (Rep.addr (.leaf e)) = 1
      · rw [decide_eq_true hrc]
        cases e with
        | part a length start child p => exact (wp_pure _ _ _).mpr (hzero (hroom hrc))
        | whole a p =>
          cases p with
          | external data allocation => exact (wp_pure _ _ _).mpr (hzero (hroom hrc))
          | flat tag data =>
            have hroom' : (plug true (c :: up) (.leaf (.whole a (.flat tag data)))).room h =
              tagToLength tag - data.length := hroom hrc
            change wp (if tagToLength tag - data.length = 0 then pure 0 else _) Q h
            by_cases havail : tagToLength tag - data.length = 0
            · rw [if_pos havail, wp_pure]
              exact hzero (hroom'.trans havail)
            · obtain ⟨delta, hdelta⟩ : ∃ delta, min src.length (tagToLength tag - data.length) = delta :=
                ⟨_, rfl⟩
              have htake : (src.take delta).length = delta := by
                rw [List.length_take]
                omega
              rw [if_neg havail, hdelta]
              have hgrow := @wp_growLast _ h Z R _ _ a tag data (src.take delta)
                ⟨ho, hheld, hv, hdepth⟩ hrc hall (by omega) (by omega) (fun _ h' ↦ Q delta h')
                fun t' h' haddr ht' hbytes hleaves hf ↦ ?_
              · rw [htake] at hgrow
                simp only [wp_bind, wp_pure]
                exact hgrow
              · have := hQ t' h' haddr ht' ?_ hleaves hf
                · rwa [hroom', hdelta] at this
                · rw [hbytes, hroom', ← hdelta, Nat.min_comm, ← List.take_eq_take_min]
      · rw [decide_eq_false hrc]
        refine (wp_pure _ _ _).mpr (hzero ?_)
        rw [Rep.room_plug, if_neg fun h' ↦ hrc h'.1]
    · obtain ⟨a, ha, hne⟩ := hnot
      refine (wp_pure _ _ _).mpr (hzero ?_)
      rw [Rep.room_plug, if_neg]
      rintro ⟨-, hall⟩
      exact hne (hall a ha)

end Rules

end CordRs
