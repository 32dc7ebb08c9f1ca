import CordRs.Rep.View

/-!
# Looking up an edge of a node by a byte position

The four searches of a btree node walk over the lengths of the edges in its window and stop at
the edge that contains, ends at or starts at a byte position. They take the first slot of the
window and the lengths of the edges; running off the window is a fault.

## Main definitions

* `CordRs.Position`, `CordRs.indexOf`, `CordRs.indexBeforeFrom`, `CordRs.indexOfLength`,
  `CordRs.indexBeyond`.
* `CordRs.Position.ContainsByte`, `CordRs.Position.EndsAt`, `CordRs.Position.StartsFrom`: what the
  position found says about the bytes of the node.

## Main results

* `CordRs.indexOf_spec`, `CordRs.indexBeforeFrom_spec`, `CordRs.indexOfLength_spec`,
  `CordRs.indexBeyond_spec`: the edges around the slot found, and the distance from its edge.
* `CordRs.indexOf_locates`, `CordRs.indexBeforeFrom_locates`, `CordRs.indexOfLength_locates`,
  `CordRs.indexBeyond_locates`: each lookup fails exactly outside its precondition, and finds the
  only position there is.
-/

namespace CordRs

/-- A slot of a node and a size or offset. -/
structure Position where
  index : ℕ
  n : ℕ
  deriving Repr, DecidableEq

/-- The edge that contains the byte at `offset`, and the offset of the byte in it. -/
def indexOf (index : ℕ) : List ℕ → ℕ → Except Fault Position
  | [], _ => .error .window
  | l :: ls, offset =>
    if l ≤ offset then indexOf (index + 1) ls (offset - l) else .ok ⟨index, offset⟩

/-- The edge in which `offset` bytes counted from the first edge given end. -/
def indexBefore (index : ℕ) : List ℕ → ℕ → Except Fault Position
  | [], _ => .error .window
  | l :: ls, offset =>
    if l < offset then indexBefore (index + 1) ls (offset - l) else .ok ⟨index, offset⟩

/-- The edge in which the `n` bytes that start at the position `front` end. -/
def indexBeforeFrom (begin : ℕ) (lens : List ℕ) (front : Position) (n : ℕ) :
    Except Fault Position :=
  indexBefore front.index (lens.drop (front.index - begin)) (n + front.n)

/-- The edge reached when `strip` bytes are taken from the back of the edges given last first. -/
def indexStrip (index : ℕ) : List ℕ → ℕ → Except Fault Position
  | [], _ => .error .window
  | l :: ls, strip =>
    if l ≤ strip then indexStrip (index - 1) ls (strip - l) else .ok ⟨index, l - strip⟩

/-- The edge in which the first `n` bytes of a node of the given length end. -/
def indexOfLength (begin : ℕ) (lens : List ℕ) (length n : ℕ) : Except Fault Position :=
  if length < n then .error .window
  else indexStrip (begin + lens.length - 1) lens.reverse (length - n)

/-- The first edge that starts at or after `offset`, and its distance; `off` bytes come before
the edges given. -/
def indexBeyondFrom (index : ℕ) (offset : ℕ) : List ℕ → ℕ → Except Fault Position
  | [], off => if off < offset then .error .window else .ok ⟨index, off - offset⟩
  | l :: ls, off =>
    if off < offset then indexBeyondFrom (index + 1) offset ls (off + l)
    else .ok ⟨index, off - offset⟩

/-- The first edge of a node that starts at or after `offset`, and its distance. -/
def indexBeyond (begin : ℕ) (lens : List ℕ) (offset : ℕ) : Except Fault Position :=
  indexBeyondFrom begin offset lens 0

/-- The bytes of a node before the edge at a slot. -/
def startOf (begin : ℕ) (lens : List ℕ) (index : ℕ) : ℕ := (lens.take (index - begin)).sum

namespace Position

/-- The position leads to the byte at `offset`: it is `n` bytes into the edge at the slot. -/
def ContainsByte (p : Position) (begin : ℕ) (lens : List ℕ) (offset : ℕ) : Prop :=
  begin ≤ p.index ∧ startOf begin lens p.index + p.n = offset ∧
    ∃ l, lens[p.index - begin]? = some l ∧ p.n < l

/-- The first `length` bytes end `n` bytes into the edge at the slot, of which they have one. -/
def EndsAt (p : Position) (begin : ℕ) (lens : List ℕ) (length : ℕ) : Prop :=
  begin ≤ p.index ∧ startOf begin lens p.index + p.n = length ∧ 0 < p.n ∧
    ∃ l, lens[p.index - begin]? = some l ∧ p.n ≤ l

/-- The slot is the first that starts at or after `offset`, at the distance `n`. -/
def StartsFrom (p : Position) (begin : ℕ) (lens : List ℕ) (offset : ℕ) : Prop :=
  begin ≤ p.index ∧ p.index ≤ begin + lens.length ∧ startOf begin lens p.index = offset + p.n ∧
    ∀ i, begin ≤ i → i < p.index → startOf begin lens i < offset

end Position

/-- A lookup succeeds exactly if `pre` holds, and then finds the only position that is `Found`. -/
def Locates (lookup : Except Fault Position) (pre : Prop) (Found : Position → Prop) : Prop :=
  (pre ↔ ∃ p, lookup = .ok p) ∧ ∀ p, lookup = .ok p ↔ Found p

section Specs

variable {α : Type} (len : α → ℕ)

theorem indexOf_spec {es : List α} {offset : ℕ} (index : ℕ) (h : offset < (es.map len).sum) :
    ∃ as b cs, es = as ++ b :: cs ∧ (as.map len).sum ≤ offset ∧
      offset - (as.map len).sum < len b ∧
      indexOf index (es.map len) offset = .ok ⟨index + as.length, offset - (as.map len).sum⟩ := by
  induction es generalizing index offset with
  | nil => simp at h
  | cons e es ih =>
    by_cases hle : len e ≤ offset
    · have hlt : offset - len e < (es.map len).sum := by
        simp only [List.map_cons, List.sum_cons] at h
        omega
      obtain ⟨as, b, cs, rfl, hsum, hb, hrun⟩ := ih (index + 1) hlt
      refine ⟨e :: as, b, cs, rfl, ?_, ?_, ?_⟩
      · simp only [List.map_cons, List.sum_cons]
        omega
      · simp only [List.map_cons, List.sum_cons]
        omega
      · simp only [List.map_cons, indexOf, if_pos hle, hrun, List.sum_cons, List.length_cons,
          Nat.sub_sub]
        congr 2
        omega
    · refine ⟨[], e, es, rfl, by simp, ?_, ?_⟩
      · simpa using Nat.lt_of_not_le hle
      · simp [indexOf, hle]

private theorem indexBefore_spec {es : List α} {offset : ℕ} (index : ℕ) (hpos : 0 < offset)
    (h : offset ≤ (es.map len).sum) :
    ∃ as b cs, es = as ++ b :: cs ∧ (as.map len).sum < offset ∧
      offset - (as.map len).sum ≤ len b ∧
      indexBefore index (es.map len) offset =
        .ok ⟨index + as.length, offset - (as.map len).sum⟩ := by
  induction es generalizing index offset with
  | nil => simp at h; omega
  | cons e es ih =>
    by_cases hlt : len e < offset
    · have hle : offset - len e ≤ (es.map len).sum := by
        simp only [List.map_cons, List.sum_cons] at h
        omega
      obtain ⟨as, b, cs, rfl, hsum, hb, hrun⟩ := ih (index + 1) (by omega) hle
      refine ⟨e :: as, b, cs, rfl, ?_, ?_, ?_⟩
      · simp only [List.map_cons, List.sum_cons]
        omega
      · simp only [List.map_cons, List.sum_cons]
        omega
      · simp only [List.map_cons, indexBefore, if_pos hlt, hrun, List.sum_cons, List.length_cons,
          Nat.sub_sub]
        congr 2
        omega
    · refine ⟨[], e, es, rfl, by simpa using hpos, ?_, ?_⟩
      · simpa using Nat.le_of_not_lt hlt
      · simp [indexBefore, hlt]

/-- From a position in the edge after `as`, the edge in which the next `n` bytes end. -/
theorem indexBeforeFrom_spec {as es : List α} {front n : ℕ} (begin : ℕ) (hpos : 0 < n)
    (h : n + front ≤ (es.map len).sum) :
    ∃ bs c cs, es = bs ++ c :: cs ∧ (bs.map len).sum < n + front ∧
      n + front - (bs.map len).sum ≤ len c ∧
      indexBeforeFrom begin ((as ++ es).map len) ⟨begin + as.length, front⟩ n =
        .ok ⟨begin + as.length + bs.length, n + front - (bs.map len).sum⟩ := by
  obtain ⟨bs, c, cs, rfl, hsum, hc, hrun⟩ :=
    indexBefore_spec len (begin + as.length) (Nat.add_pos_left hpos front) h
  refine ⟨bs, c, cs, rfl, hsum, hc, ?_⟩
  rw [indexBeforeFrom, Nat.add_sub_cancel_left, List.map_append, List.drop_left' (by simp), hrun]

private theorem indexStrip_spec {es : List α} {strip : ℕ} (begin : ℕ)
    (h : strip < (es.map len).sum) :
    ∃ as b cs, es = as ++ b :: cs ∧ (cs.map len).sum ≤ strip ∧
      strip - (cs.map len).sum < len b ∧
      indexStrip (begin + es.length - 1) (es.map len).reverse strip =
        .ok ⟨begin + as.length, len b - (strip - (cs.map len).sum)⟩ := by
  induction es using List.reverseRecOn generalizing strip with
  | nil => simp at h
  | append_singleton es e ih =>
    by_cases hle : len e ≤ strip
    · have hlt : strip - len e < (es.map len).sum := by
        simp only [List.map_append, List.map_cons, List.map_nil, List.sum_append, List.sum_cons,
          List.sum_nil] at h
        omega
      obtain ⟨as, b, cs, rfl, hsum, hb, hrun⟩ := ih hlt
      refine ⟨as, b, cs ++ [e], by simp, ?_, ?_, ?_⟩
      · simp only [List.map_append, List.map_cons, List.map_nil, List.sum_append, List.sum_cons,
          List.sum_nil]
        omega
      · simp only [List.map_append, List.map_cons, List.map_nil, List.sum_append, List.sum_cons,
          List.sum_nil]
        omega
      · rw [List.map_append, List.map_singleton, List.reverse_append, List.reverse_singleton,
          List.singleton_append, indexStrip, if_pos hle]
        have hidx : begin + (as ++ b :: cs ++ [e]).length - 1 - 1 =
            begin + (as ++ b :: cs).length - 1 := by
          simp only [List.length_append, List.length_cons, List.length_nil]
          omega
        rw [hidx, hrun]
        simp only [List.map_append, List.map_cons, List.map_nil, List.sum_append, List.sum_cons,
          List.sum_nil, Nat.sub_sub]
        congr 3
        omega
    · refine ⟨es, e, [], rfl, by simp, ?_, ?_⟩
      · simpa using Nat.lt_of_not_le hle
      · simp [indexStrip, hle]

theorem indexOfLength_spec {es : List α} {n : ℕ} (begin : ℕ) (hpos : 0 < n)
    (h : n ≤ (es.map len).sum) :
    ∃ as b cs, es = as ++ b :: cs ∧ (as.map len).sum < n ∧ n - (as.map len).sum ≤ len b ∧
      indexOfLength begin (es.map len) (es.map len).sum n =
        .ok ⟨begin + as.length, n - (as.map len).sum⟩ := by
  obtain ⟨as, b, cs, rfl, hsum, hb, hrun⟩ :=
    indexStrip_spec len begin (show (es.map len).sum - n < (es.map len).sum by omega)
  have htotal : ((as ++ b :: cs).map len).sum = (as.map len).sum + (len b + (cs.map len).sum) := by
    simp only [List.map_append, List.map_cons, List.sum_append, List.sum_cons]
  refine ⟨as, b, cs, rfl, by omega, by omega, ?_⟩
  rw [indexOfLength, if_neg h.not_gt, List.length_map, hrun]
  congr 2
  omega

private theorem indexBeyondFrom_spec {es : List α} {offset off : ℕ} (index : ℕ)
    (hoff : off < offset) (h : offset ≤ off + (es.map len).sum) :
    ∃ as b cs, es = as ++ b :: cs ∧ off + (as.map len).sum < offset ∧
      offset ≤ off + (as.map len).sum + len b ∧
      indexBeyondFrom index offset (es.map len) off =
        .ok ⟨index + as.length + 1, off + (as.map len).sum + len b - offset⟩ := by
  induction es generalizing index off with
  | nil => simp at h; omega
  | cons e es ih =>
    rw [List.map_cons, indexBeyondFrom, if_pos hoff]
    by_cases hlt : off + len e < offset
    · have hle : offset ≤ off + len e + (es.map len).sum := by
        simp only [List.map_cons, List.sum_cons] at h
        omega
      obtain ⟨as, b, cs, rfl, hlo, hhi, hrun⟩ := ih (index + 1) hlt hle
      refine ⟨e :: as, b, cs, rfl, ?_, ?_, ?_⟩
      · simp only [List.map_cons, List.sum_cons]
        omega
      · simp only [List.map_cons, List.sum_cons]
        omega
      · rw [hrun]
        simp only [List.map_cons, List.sum_cons, List.length_cons]
        congr 2 <;> omega
    · refine ⟨[], e, es, rfl, by simpa using hoff, by simpa using Nat.le_of_not_lt hlt, ?_⟩
      cases es <;> simp [indexBeyondFrom, hlt]

/-- A positive offset falls behind or into the edge before the one found. -/
theorem indexBeyond_spec {es : List α} {offset : ℕ} (begin : ℕ) (hpos : 0 < offset)
    (h : offset ≤ (es.map len).sum) :
    ∃ as b cs, es = as ++ b :: cs ∧ (as.map len).sum < offset ∧
      offset ≤ (as.map len).sum + len b ∧
      indexBeyond begin (es.map len) offset =
        .ok ⟨begin + as.length + 1, (as.map len).sum + len b - offset⟩ := by
  simpa only [indexBeyond, Nat.zero_add] using
    indexBeyondFrom_spec len begin hpos (by simpa using h)

end Specs

/-! ### Positions in a node -/

section Positions

variable {begin offset length : ℕ} {lens : List ℕ} {p q : Position} {i j l m : ℕ}

theorem startOf_le_sum (begin : ℕ) (lens : List ℕ) (i : ℕ) : startOf begin lens i ≤ lens.sum :=
  (List.take_sublist _ _).sum_le_sum fun _ _ ↦ Nat.zero_le _

/-- The bytes before the edge after `as`, and its length. -/
private theorem startOf_split (begin : ℕ) (as : List ℕ) (l : ℕ) (cs : List ℕ) :
    startOf begin (as ++ l :: cs) (begin + as.length) = as.sum ∧
      (as ++ l :: cs)[begin + as.length - begin]? = some l := by
  simp [startOf]

private theorem startOf_succ (hi : begin ≤ i) (hl : lens[i - begin]? = some l) :
    startOf begin lens (i + 1) = startOf begin lens i + l := by
  obtain ⟨hlt, rfl⟩ := List.getElem?_eq_some_iff.mp hl
  rw [startOf, startOf, Nat.sub_add_comm hi, List.sum_take_succ _ _ hlt]

/-- An edge ends where or before any later one starts. -/
private theorem startOf_add_le (hi : begin ≤ i) (hl : lens[i - begin]? = some l) (hij : i < j) :
    startOf begin lens i + l ≤ startOf begin lens j := by
  rw [← startOf_succ hi hl]
  exact (List.take_sublist_take_left (by omega)).sum_le_sum fun _ _ ↦ Nat.zero_le _

/-- Edges that overlap are one edge. -/
private theorem slot_unique (hi : begin ≤ i) (hl : lens[i - begin]? = some l) (hj : begin ≤ j)
    (hm : lens[j - begin]? = some m) (hij : startOf begin lens i < startOf begin lens j + m)
    (hji : startOf begin lens j < startOf begin lens i + l) : i = j := by
  rcases lt_trichotomy i j with hlt | heq | hgt
  · exact absurd (startOf_add_le hi hl hlt) (by omega)
  · exact heq
  · exact absurd (startOf_add_le hj hm hgt) (by omega)

namespace Position

private theorem eq_of_index_eq (hindex : p.index = q.index)
    (hn : startOf begin lens p.index + p.n = startOf begin lens q.index + q.n) : p = q := by
  cases p
  cases q
  subst hindex
  exact congrArg (mk _) (Nat.add_left_cancel hn)

theorem ContainsByte.unique (hp : p.ContainsByte begin lens offset)
    (hq : q.ContainsByte begin lens offset) : p = q := by
  obtain ⟨hbp, hsp, l, hl, hlp⟩ := hp
  obtain ⟨hbq, hsq, m, hm, hmq⟩ := hq
  exact eq_of_index_eq (slot_unique hbp hl hbq hm (by omega) (by omega)) (hsp.trans hsq.symm)

theorem EndsAt.unique (hp : p.EndsAt begin lens length) (hq : q.EndsAt begin lens length) :
    p = q := by
  obtain ⟨hbp, hsp, hpp, l, hl, hlp⟩ := hp
  obtain ⟨hbq, hsq, hqp, m, hm, hmq⟩ := hq
  exact eq_of_index_eq (slot_unique hbp hl hbq hm (by omega) (by omega)) (hsp.trans hsq.symm)

theorem StartsFrom.unique (hp : p.StartsFrom begin lens offset)
    (hq : q.StartsFrom begin lens offset) : p = q := by
  obtain ⟨hbp, -, hsp, hp⟩ := hp
  obtain ⟨hbq, -, hsq, hq⟩ := hq
  have hindex : p.index = q.index := by
    rcases lt_trichotomy p.index q.index with hlt | heq | hgt
    · exact absurd (hq p.index hbp hlt) (by omega)
    · exact heq
    · exact absurd (hp q.index hbq hgt) (by omega)
  cases p
  cases q
  subst hindex
  exact congrArg (mk _) (Nat.add_left_cancel (hsp.symm.trans hsq))

theorem ContainsByte.lt (hp : p.ContainsByte begin lens offset) : offset < lens.sum := by
  obtain ⟨hb, hs, l, hl, hn⟩ := hp
  have hend := startOf_le_sum begin lens (p.index + 1)
  rw [startOf_succ hb hl] at hend
  omega

theorem EndsAt.le (hp : p.EndsAt begin lens length) : length ≤ lens.sum := by
  obtain ⟨hb, hs, -, l, hl, hn⟩ := hp
  have hend := startOf_le_sum begin lens (p.index + 1)
  rw [startOf_succ hb hl] at hend
  omega

theorem EndsAt.pos (hp : p.EndsAt begin lens length) : 0 < length := by
  obtain ⟨-, hs, hpos, -⟩ := hp
  omega

theorem StartsFrom.le (hp : p.StartsFrom begin lens offset) : offset ≤ lens.sum := by
  have hle := startOf_le_sum begin lens p.index
  rw [hp.2.2.1] at hle
  omega

end Position

/-! ### What the lookups find -/

theorem locates_of {lookup : Except Fault Position} {pre : Prop} {Found : Position → Prop}
    (hfound : pre → ∃ p, lookup = .ok p ∧ Found p) (hfails : ¬pre → ∃ f, lookup = .error f)
    (hpre : ∀ p, Found p → pre) (hunique : ∀ p q, Found p → Found q → p = q) :
    Locates lookup pre Found := by
  by_cases h : pre
  · obtain ⟨p, hp, hfound⟩ := hfound h
    refine ⟨⟨fun _ ↦ ⟨p, hp⟩, fun _ ↦ h⟩, fun q ↦ ⟨fun hq ↦ ?_, fun hq ↦ ?_⟩⟩
    · obtain rfl := Except.ok.inj (hp.symm.trans hq)
      exact hfound
    · rw [hp, hunique p q hfound hq]
  · obtain ⟨f, hf⟩ := hfails h
    rw [hf]
    refine ⟨⟨fun hp ↦ absurd hp h, ?_⟩, fun q ↦ ⟨fun hq ↦ ?_, fun hq ↦ absurd (hpre q hq) h⟩⟩
    · rintro ⟨p, hp⟩
      cases hp
    · cases hq

private theorem indexOf_fails {index : ℕ} (h : lens.sum ≤ offset) :
    indexOf index lens offset = .error .window := by
  induction lens generalizing index offset with
  | nil => rfl
  | cons l ls ih =>
    rw [List.sum_cons] at h
    rw [indexOf, if_pos (by omega), ih (by omega)]

/-- The lookup of a byte finds its edge, for any byte of the node and for no other offset. -/
theorem indexOf_locates (begin : ℕ) (lens : List ℕ) (offset : ℕ) :
    Locates (indexOf begin lens offset) (offset < lens.sum)
      (·.ContainsByte begin lens offset) := by
  refine locates_of (fun h ↦ ?_) (fun h ↦ ⟨_, indexOf_fails (not_lt.mp h)⟩) (fun _ hp ↦ hp.lt)
    fun _ _ hp hq ↦ hp.unique hq
  obtain ⟨as, l, cs, rfl, hlo, hhi, hrun⟩ := indexOf_spec id begin (by simpa using h)
  simp only [List.map_id] at hlo hhi hrun
  obtain ⟨hstart, hl⟩ := startOf_split begin as l cs
  exact ⟨_, hrun, Nat.le_add_right _ _, by dsimp only; omega, l, hl, hhi⟩

private theorem indexBefore_fails {index : ℕ} (h : lens.sum < offset) :
    indexBefore index lens offset = .error .window := by
  induction lens generalizing index offset with
  | nil => rfl
  | cons l ls ih =>
    rw [List.sum_cons] at h
    rw [indexBefore, if_pos (by omega), ih (by omega)]

/-- The lookup from the position of a byte finds the edge in which the next `n` bytes end. -/
theorem indexBeforeFrom_locates {front : Position} {n : ℕ}
    (hfront : front.ContainsByte begin lens offset) (hn : 0 < n) :
    Locates (indexBeforeFrom begin lens front n) (n ≤ lens.sum - offset)
      (·.EndsAt begin lens (offset + n)) := by
  have hlt := hfront.lt
  obtain ⟨hb, hs, l, hl, hlf⟩ := hfront
  obtain ⟨index, r⟩ := front
  obtain ⟨i, rfl⟩ := Nat.exists_eq_add_of_le hb
  dsimp only at hs hl hlf
  have hsum : (lens.take i).sum + (lens.drop i).sum = lens.sum := List.sum_take_add_sum_drop ..
  have hstart : (lens.take i).sum + r = offset := by simpa [startOf] using hs
  have hlen : (lens.take i).length = i := by
    obtain ⟨hi, -⟩ := List.getElem?_eq_some_iff.mp hl
    rw [List.length_take]
    omega
  refine locates_of (fun h ↦ ?_) (fun h ↦ ⟨.window, ?_⟩) (fun _ hp ↦ ?_) fun _ _ hp hq ↦ hp.unique hq
  · obtain ⟨bs, c, cs, hdrop, hlo, hhi, hrun⟩ := @indexBeforeFrom_spec _ id (lens.take i)
      (lens.drop i) r n begin hn (by rw [List.map_id]; omega)
    simp only [List.map_id, List.take_append_drop, hlen, id] at hlo hhi hrun
    have hsplit : lens = (lens.take i ++ bs) ++ c :: cs := by
      rw [List.append_assoc, ← hdrop, List.take_append_drop]
    obtain ⟨hst, hc⟩ := startOf_split begin (lens.take i ++ bs) c cs
    rw [← hsplit, List.length_append, hlen, List.sum_append, ← Nat.add_assoc] at hst
    rw [← hsplit, List.length_append, hlen, ← Nat.add_assoc] at hc
    exact ⟨_, hrun, by dsimp only; omega, by dsimp only; omega, by dsimp only; omega, c, hc, hhi⟩
  · rw [indexBeforeFrom, Nat.add_sub_cancel_left]
    exact indexBefore_fails (by dsimp only; omega)
  · have := hp.le
    omega

private theorem indexStrip_fails {index strip : ℕ} (h : lens.sum ≤ strip) :
    indexStrip index lens strip = .error .window := by
  induction lens generalizing index strip with
  | nil => rfl
  | cons l ls ih =>
    rw [List.sum_cons] at h
    rw [indexStrip, if_pos (by omega), ih (by omega)]

/-- The lookup of a length finds the edge in which that many bytes end. -/
theorem indexOfLength_locates (begin : ℕ) (lens : List ℕ) (n : ℕ) :
    Locates (indexOfLength begin lens lens.sum n) (0 < n ∧ n ≤ lens.sum)
      (·.EndsAt begin lens n) := by
  refine locates_of ?_ (fun h ↦ ⟨.window, ?_⟩) (fun _ hp ↦ ⟨hp.pos, hp.le⟩)
    fun _ _ hp hq ↦ hp.unique hq
  · rintro ⟨hpos, hle⟩
    obtain ⟨as, l, cs, rfl, hlo, hhi, hrun⟩ :=
      indexOfLength_spec id begin hpos (by simpa using hle)
    simp only [List.map_id, id] at hlo hhi hrun
    obtain ⟨hstart, hl⟩ := startOf_split begin as l cs
    exact ⟨_, hrun, Nat.le_add_right _ _, by dsimp only; omega, by dsimp only; omega, l, hl, hhi⟩
  · rw [indexOfLength]
    split_ifs with hlt
    · rfl
    · exact indexStrip_fails (by rw [List.sum_reverse]; omega)

private theorem indexBeyondFrom_fails {index off : ℕ} (h : off + lens.sum < offset) :
    indexBeyondFrom index offset lens off = .error .window := by
  induction lens generalizing index off with
  | nil => rw [indexBeyondFrom, if_pos (by simpa using h)]
  | cons l ls ih =>
    rw [List.sum_cons] at h
    rw [indexBeyondFrom, if_pos (by omega), ih (by omega)]

/-- The lookup of the edge beyond an offset finds the first one that starts there or later. -/
theorem indexBeyond_locates (begin : ℕ) (lens : List ℕ) (offset : ℕ) :
    Locates (indexBeyond begin lens offset) (offset ≤ lens.sum)
      (·.StartsFrom begin lens offset) := by
  refine locates_of (fun h ↦ ?_) (fun h ↦ ⟨.window, indexBeyondFrom_fails (by omega)⟩)
    (fun _ hp ↦ hp.le) fun _ _ hp hq ↦ hp.unique hq
  obtain rfl | hpos := Nat.eq_zero_or_pos offset
  · refine ⟨⟨begin, 0⟩, ?_, le_rfl, Nat.le_add_right _ _, by simp [startOf], fun i hi hlt ↦ ?_⟩
    · cases lens <;> rfl
    · exact absurd hlt hi.not_gt
  · obtain ⟨as, l, cs, rfl, hlo, hhi, hrun⟩ := indexBeyond_spec id begin hpos (by simpa using h)
    simp only [List.map_id, id] at hlo hhi hrun
    obtain ⟨hstart, hl⟩ := startOf_split begin as l cs
    have hnext := startOf_succ (Nat.le_add_right _ _) hl
    refine ⟨_, hrun, by dsimp only; omega, ?_, by dsimp only; omega, fun i hi hlt ↦ ?_⟩
    · simp
    · refine lt_of_le_of_lt ?_ hlo
      rw [← hstart]
      exact (List.take_sublist_take_left (by dsimp only at hlt; omega)).sum_le_sum
        fun _ _ ↦ Nat.zero_le _

end Positions

end CordRs
