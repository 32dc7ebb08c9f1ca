import CordRs.Rep.Node

/-!
# Inline data

A short cord keeps up to fifteen bytes in a sixteen byte block: a tag byte that holds the size,
then the bytes, then zeros. The zero tail lets two inline values be compared by two overlapping
eight byte loads. `CordRs.smallMemmove` copies at most fifteen bytes by wide overlapping loads and
stores, all loads coming first.

## Main definitions

* `CordRs.compareBytes`: the lexicographic order of byte strings.
* `CordRs.writeAt`, `CordRs.smallMemmove`.
* `CordRs.InlineData` and its operations; `CordRs.InlineData.WellFormed`.

## Main results

* `CordRs.smallMemmove_false`, `CordRs.smallMemmove_true`: what a short move writes.
* `CordRs.InlineData.isSame_ofBytes`, `CordRs.InlineData.compare_ofBytes`: the wide comparisons
  are those of the byte strings.
-/

namespace CordRs

/-! ### Byte strings -/

/-- The lexicographic order of byte strings. -/
def compareBytes : Bytes → Bytes → Ordering
  | [], [] => .eq
  | [], _ :: _ => .lt
  | _ :: _, [] => .gt
  | x :: xs, y :: ys =>
    if x.toNat < y.toNat then .lt else if y.toNat < x.toNat then .gt else compareBytes xs ys

/-- The order of two natural numbers. -/
def compareNat (m n : ℕ) : Ordering := if m < n then .lt else if n < m then .gt else .eq

section CompareBytes

variable {a b c d : Bytes}

theorem compareBytes_self (a : Bytes) : compareBytes a a = .eq := by
  induction a with
  | nil => rfl
  | cons x xs ih => simp [compareBytes, ih]

theorem compareBytes_eq_iff : compareBytes a b = .eq ↔ a = b := by
  induction a generalizing b with
  | nil => cases b <;> simp [compareBytes]
  | cons x xs ih =>
    cases b with
    | nil => simp [compareBytes]
    | cons y ys =>
      rw [compareBytes, List.cons.injEq]
      split_ifs with h₁ h₂
      · simp only [false_iff, not_and]
        rintro rfl
        omega
      · simp only [false_iff, not_and]
        rintro rfl
        omega
      · rw [ih]
        have : x = y := UInt8.toNat_inj.mp (by omega)
        simp [this]

theorem compareBytes_swap (a b : Bytes) : (compareBytes a b).swap = compareBytes b a := by
  induction a generalizing b with
  | nil => cases b <;> rfl
  | cons x xs ih =>
    cases b with
    | nil => rfl
    | cons y ys =>
      simp only [compareBytes]
      split_ifs with h₁ h₂
      · omega
      · rfl
      · rfl
      · exact ih ys

/-- The order is the lexicographic one. -/
theorem compareBytes_eq_lt_iff :
    compareBytes a b = .lt ↔ List.Lex (fun x y : UInt8 ↦ x.toNat < y.toNat) a b := by
  induction a generalizing b with
  | nil =>
    cases b with
    | nil => simp [compareBytes]
    | cons y ys => simp [compareBytes]
  | cons x xs ih =>
    cases b with
    | nil => simp [compareBytes]
    | cons y ys =>
      rw [compareBytes]
      split_ifs with h₁ h₂
      · simp only [true_iff]
        exact .rel h₁
      · simp only [false_iff]
        intro hlex
        cases hlex with
        | cons _ => omega
        | rel h => omega
      · obtain rfl : x = y := UInt8.toNat_inj.mp (by omega)
        rw [ih]
        constructor
        · exact .cons
        · intro hlex
          cases hlex with
          | cons h => exact h
          | rel h => omega

/-- Equal prefixes do not matter. -/
theorem compareBytes_append_left (p a b : Bytes) :
    compareBytes (p ++ a) (p ++ b) = compareBytes a b := by
  induction p with
  | nil => rfl
  | cons x xs ih => simp [compareBytes, ih]

/-- Different prefixes of one length decide. -/
theorem compareBytes_append_of_ne {p q : Bytes} (hlen : p.length = q.length)
    (hne : compareBytes p q ≠ .eq) (a b : Bytes) :
    compareBytes (p ++ a) (q ++ b) = compareBytes p q := by
  induction p generalizing q with
  | nil =>
    obtain rfl : q = [] := List.eq_nil_of_length_eq_zero hlen.symm
    exact absurd rfl hne
  | cons x xs ih =>
    cases q with
    | nil => simp at hlen
    | cons y ys =>
      simp only [List.cons_append, compareBytes] at hne ⊢
      split_ifs at hne ⊢ with h₁ h₂
      · rfl
      · rfl
      · exact ih (by simpa using hlen) hne

end CompareBytes

/-! ### Moving a few bytes -/

/-- Overwrite the bytes from offset `i` on. -/
def writeAt (mem : Bytes) (i : ℕ) (bs : Bytes) : Bytes :=
  mem.take i ++ bs ++ mem.drop (i + bs.length)

/-- Move `n` bytes, at most fifteen, from `src` to `dst`, and zero `dst` up to fifteen bytes on
request. -/
def smallMemmove (nullifyTail : Bool) (dst src : Bytes) (n : ℕ) : Bytes :=
  let zeros := List.replicate 8 (0 : UInt8)
  if 8 ≤ n then
    let buf1 := src.take 8
    let buf2 := (src.drop (n - 8)).take 8
    let dst := if nullifyTail then writeAt dst 7 zeros else dst
    writeAt (writeAt dst 0 buf1) (n - 8) buf2
  else if 4 ≤ n then
    let buf1 := src.take 4
    let buf2 := (src.drop (n - 4)).take 4
    let dst := if nullifyTail then writeAt (writeAt dst 4 (zeros.take 4)) 7 zeros else dst
    writeAt (writeAt dst 0 buf1) (n - 4) buf2
  else
    let dst :=
      if n ≠ 0 then
        let b0 := src.take 1
        let bm := (src.drop (n / 2)).take 1
        let bl := (src.drop (n - 1)).take 1
        writeAt (writeAt (writeAt dst 0 b0) (n / 2) bm) (n - 1) bl
      else
        dst
    if nullifyTail then writeAt (writeAt dst 7 zeros) n zeros else dst

theorem getElem?_writeAt {mem : Bytes} {i : ℕ} {bs : Bytes} (hi : i + bs.length ≤ mem.length)
    (j : ℕ) :
    (writeAt mem i bs)[j]? = if i ≤ j ∧ j < i + bs.length then bs[j - i]? else mem[j]? := by
  rw [writeAt, List.append_assoc]
  by_cases h₁ : j < i
  · rw [List.getElem?_append_left (by simp; omega), List.getElem?_take_of_lt h₁, if_neg (by omega)]
  · rw [List.getElem?_append_right (by simp; omega), List.length_take, Nat.min_eq_left (by omega)]
    by_cases h₂ : j < i + bs.length
    · rw [List.getElem?_append_left (by omega), if_pos (by omega)]
    · rw [List.getElem?_append_right (by omega), List.getElem?_drop, if_neg (by omega)]
      congr 1
      omega

theorem length_writeAt {mem : Bytes} {i : ℕ} {bs : Bytes} (hi : i + bs.length ≤ mem.length) :
    (writeAt mem i bs).length = mem.length := by
  simp only [writeAt, List.length_append, List.length_take, List.length_drop]
  omega

/-- Two overlapping stores of `m` bytes move `n` bytes when `n` is between `m` and twice `m`. -/
private theorem writeAt_writeAt {dst src : Bytes} {m n : ℕ} (hm : m ≤ n) (hn : n ≤ 2 * m)
    (hsrc : n ≤ src.length) (hdst : n ≤ dst.length) :
    writeAt (writeAt dst 0 (src.take m)) (n - m) ((src.drop (n - m)).take m) =
      src.take n ++ dst.drop n := by
  have hl₁ : (src.take m).length = m := by simp; omega
  have hl₂ : ((src.drop (n - m)).take m).length = m := by simp; omega
  have hw : (writeAt dst 0 (src.take m)).length = dst.length := length_writeAt (by omega)
  apply List.ext_getElem?
  intro j
  rw [getElem?_writeAt (by omega), getElem?_writeAt (by omega), hl₁, hl₂]
  by_cases hj : j < n
  · rw [List.getElem?_append_left (by simp; omega), List.getElem?_take_of_lt hj]
    split_ifs with h₁ h₂
    · rw [List.getElem?_take_of_lt (by omega), List.getElem?_drop]
      congr 1
      omega
    · rw [List.getElem?_take_of_lt (by omega), Nat.sub_zero]
    · omega
  · rw [List.getElem?_append_right (by simp; omega), if_neg (by omega), if_neg (by omega),
      List.getElem?_drop, List.length_take, Nat.min_eq_left hsrc]
    congr 1
    omega

/-- Stores at the first, middle and last byte move up to three bytes. -/
private theorem writeAt_three {dst src : Bytes} {n : ℕ} (hn : n < 4) (hsrc : n ≤ src.length)
    (hdst : n ≤ dst.length) :
    (if n ≠ 0 then
      writeAt (writeAt (writeAt dst 0 (src.take 1)) (n / 2) ((src.drop (n / 2)).take 1)) (n - 1)
        ((src.drop (n - 1)).take 1)
    else dst) = src.take n ++ dst.drop n := by
  by_cases hpos : n = 0
  · simp [hpos]
  rw [if_pos hpos]
  obtain ⟨a, as, rfl⟩ := List.exists_cons_of_length_pos (by omega : 0 < src.length)
  obtain ⟨x, xs, rfl⟩ := List.exists_cons_of_length_pos (by omega : 0 < dst.length)
  obtain rfl | rfl | rfl : n = 1 ∨ n = 2 ∨ n = 3 := by omega
  · simp [writeAt]
  · obtain ⟨b, bs, rfl⟩ := List.exists_cons_of_length_pos (by simp at hsrc; omega : 0 < as.length)
    obtain ⟨y, ys, rfl⟩ := List.exists_cons_of_length_pos (by simp at hdst; omega : 0 < xs.length)
    simp [writeAt]
  · obtain ⟨b, bs, rfl⟩ := List.exists_cons_of_length_pos (by simp at hsrc; omega : 0 < as.length)
    obtain ⟨y, ys, rfl⟩ := List.exists_cons_of_length_pos (by simp at hdst; omega : 0 < xs.length)
    obtain ⟨c, cs, rfl⟩ := List.exists_cons_of_length_pos (by simp at hsrc; omega : 0 < bs.length)
    obtain ⟨z, zs, rfl⟩ := List.exists_cons_of_length_pos (by simp at hdst; omega : 0 < ys.length)
    simp [writeAt]

/-- A plain move writes the bytes moved and nothing else. -/
theorem smallMemmove_false {dst src : Bytes} {n : ℕ} (hn : n ≤ maxInline) (hsrc : n ≤ src.length)
    (hdst : n ≤ dst.length) : smallMemmove false dst src n = src.take n ++ dst.drop n := by
  simp only [maxInline] at hn
  simp only [smallMemmove, Bool.false_eq_true, if_false]
  by_cases h₁ : 8 ≤ n
  · rw [if_pos h₁]
    exact writeAt_writeAt h₁ (by omega) hsrc hdst
  rw [if_neg h₁]
  by_cases h₂ : 4 ≤ n
  · rw [if_pos h₂]
    exact writeAt_writeAt h₂ (by omega) hsrc hdst
  rw [if_neg h₂]
  exact writeAt_three (by omega) hsrc hdst

/-- A move that zeroes the tail writes the bytes moved and zeros up to fifteen bytes. -/
theorem smallMemmove_true {dst src : Bytes} {n : ℕ} (hn : n ≤ maxInline) (hsrc : n ≤ src.length)
    (hdst : maxInline ≤ dst.length) :
    smallMemmove true dst src n =
      src.take n ++ List.replicate (maxInline - n) 0 ++ dst.drop maxInline := by
  simp only [maxInline] at hn hdst ⊢
  have hzero : ∀ m ≤ n, n ≤ 15 → ∀ mem : Bytes, mem.length = dst.length →
      (∀ j, m ≤ j → mem[j]? = if j < 15 then some 0 else dst[j]?) →
      mem.drop n = List.replicate (15 - n) 0 ++ dst.drop 15 := by
    intro m hmn _ mem hlen hmem
    apply List.ext_getElem?
    intro j
    rw [List.getElem?_drop, hmem _ (by omega)]
    by_cases hj : n + j < 15
    · rw [if_pos hj, List.getElem?_append_left (by simp; omega), List.getElem?_replicate,
        if_pos (by omega)]
    · rw [if_neg hj, List.getElem?_append_right (by simp; omega), List.getElem?_drop,
        List.length_replicate]
      congr 1
      omega
  simp only [smallMemmove, if_true]
  by_cases h₁ : 8 ≤ n
  · rw [if_pos h₁]
    have hw : (writeAt dst 7 (List.replicate 8 0)).length = dst.length :=
      length_writeAt (by simp; omega)
    rw [writeAt_writeAt h₁ (by omega) hsrc (by omega), List.append_assoc]
    congr 1
    refine hzero 7 (by omega) hn _ hw fun j hj ↦ ?_
    rw [getElem?_writeAt (by simp; omega), List.length_replicate, List.getElem?_replicate]
    split_ifs <;> first | rfl | omega
  rw [if_neg h₁]
  by_cases h₂ : 4 ≤ n
  · rw [if_pos h₂]
    have hw₁ : (writeAt dst 4 ((List.replicate 8 0).take 4)).length = dst.length :=
      length_writeAt (by simp; omega)
    have hw : (writeAt (writeAt dst 4 ((List.replicate 8 0).take 4)) 7
        (List.replicate 8 0)).length = dst.length := by
      rw [length_writeAt (by rw [hw₁]; simp; omega), hw₁]
    rw [writeAt_writeAt h₂ (by omega) hsrc (by omega), List.append_assoc]
    congr 1
    refine hzero 4 (by omega) hn _ hw fun j hj ↦ ?_
    rw [getElem?_writeAt (by rw [hw₁]; simp; omega), getElem?_writeAt (by simp; omega)]
    simp only [List.length_replicate, List.take_replicate, List.getElem?_replicate]
    split_ifs <;> first | rfl | omega
  rw [if_neg h₂]
  rw [writeAt_three (by omega) hsrc (by omega)]
  have hlen : (src.take n ++ dst.drop n).length = dst.length := by simp; omega
  have hw₁ : (writeAt (src.take n ++ dst.drop n) 7 (List.replicate 8 0)).length =
      dst.length := by
    rw [length_writeAt (by rw [hlen]; simp; omega), hlen]
  have hw : (writeAt (writeAt (src.take n ++ dst.drop n) 7 (List.replicate 8 0)) n
      (List.replicate 8 0)).length = dst.length := by
    rw [length_writeAt (by rw [hw₁]; simp; omega), hw₁]
  rw [← List.take_append_drop n (writeAt _ n _), List.append_assoc]
  congr 1
  · apply List.ext_getElem?
    intro j
    by_cases hj : j < n
    · rw [List.getElem?_take_of_lt hj, List.getElem?_take_of_lt hj,
        getElem?_writeAt (by rw [hw₁]; simp; omega), if_neg (by omega),
        getElem?_writeAt (by rw [hlen]; simp; omega), if_neg (by omega),
        List.getElem?_append_left (by simp; omega), List.getElem?_take_of_lt hj]
    · rw [List.getElem?_eq_none (by simp; omega), List.getElem?_eq_none (by simp; omega)]
  · refine hzero n le_rfl hn _ hw fun j hj ↦ ?_
    rw [getElem?_writeAt (by rw [hw₁]; simp; omega), getElem?_writeAt (by rw [hlen]; simp; omega),
      List.getElem?_append_right (by simp; omega), List.getElem?_drop, List.length_take,
      Nat.min_eq_left hsrc, Nat.add_sub_cancel' hj]
    simp only [List.length_replicate, List.getElem?_replicate]
    split_ifs <;> first | rfl | omega

/-! ### Inline data -/

/-- The size of an inline value and the fifteen bytes after its tag. -/
structure InlineData where
  size : ℕ
  tail : Bytes
  deriving Repr, DecidableEq

namespace InlineData

/-- The empty inline value. -/
def new : InlineData := ⟨0, List.replicate maxInline 0⟩

/-- The bytes of an inline value. -/
def inlineSlice (d : InlineData) : Bytes := d.tail.take d.size

/-- Copy at most fifteen bytes into a new value. -/
def inlineFrom (data : Bytes) : InlineData :=
  ⟨data.length, smallMemmove true new.tail data data.length⟩

/-- Append bytes; there must be room for them. -/
def pushBackInline (d : InlineData) (src : Bytes) : InlineData :=
  ⟨d.size + src.length, writeAt d.tail d.size src⟩

/-- The concatenation of two byte strings of at most fifteen bytes together. -/
def concatInline (a b : Bytes) : InlineData :=
  ⟨a.length + b.length, writeAt (writeAt new.tail 0 a) a.length b⟩

/-- Prepend bytes; there must be room for them. -/
def pushFrontInline (d : InlineData) (src : Bytes) : InlineData := concatInline src d.inlineSlice

/-- Keep the first `newLen` bytes. -/
def truncateInline (d : InlineData) (newLen : ℕ) : InlineData :=
  ⟨newLen, writeAt d.tail newLen (List.replicate (d.size - newLen) 0)⟩

/-- Drop the first `n` bytes. -/
def dropFrontInline (d : InlineData) (n : ℕ) : InlineData :=
  let tail := writeAt d.tail 0 ((d.tail.take d.size).drop n)
  ⟨d.size - n, writeAt tail (d.size - n) (List.replicate n 0)⟩

/-- Whether two inline values are the same sixteen bytes. -/
def isSame (a b : InlineData) : Bool := a.size = b.size ∧ a.tail = b.tail

/-- A big-endian load. -/
def loadBe (bs : Bytes) : ℕ := bs.foldl (fun acc b ↦ acc * 256 + b.toNat) 0

/-- Compare by two overlapping big-endian loads, of the bytes 1 to 8 and 8 to 15 of the block,
and then by size. -/
def compare (l r : InlineData) : Ordering :=
  let x := loadBe (l.tail.take 8)
  let y := loadBe (r.tail.take 8)
  if x = y then
    let x := loadBe ((l.tail.drop 7).take 8)
    let y := loadBe ((r.tail.drop 7).take 8)
    if x = y then compareNat l.size r.size else compareNat x y
  else
    compareNat x y

/-- The inline value of a byte string: its bytes, then zeros. -/
def ofBytes (bs : Bytes) : InlineData :=
  ⟨bs.length, bs ++ List.replicate (maxInline - bs.length) 0⟩

/-- The block holds at most fifteen bytes, and zeros beyond its size. -/
def WellFormed (d : InlineData) : Prop := d.size ≤ maxInline ∧ d = ofBytes d.inlineSlice

@[simp] theorem inlineSlice_ofBytes (bs : Bytes) : (ofBytes bs).inlineSlice = bs := by
  simp [inlineSlice, ofBytes]

@[simp] theorem size_ofBytes (bs : Bytes) : (ofBytes bs).size = bs.length := rfl

theorem wellFormed_ofBytes {bs : Bytes} (h : bs.length ≤ maxInline) : (ofBytes bs).WellFormed :=
  ⟨h, by rw [inlineSlice_ofBytes]⟩

theorem WellFormed.length_inlineSlice {d : InlineData} (hd : d.WellFormed) :
    d.inlineSlice.length = d.size := by
  conv_rhs => rw [hd.2]
  rfl

theorem WellFormed.length_le {d : InlineData} (hd : d.WellFormed) :
    d.inlineSlice.length ≤ maxInline := by
  rw [hd.length_inlineSlice]
  exact hd.1

theorem new_eq : new = ofBytes [] := rfl

/-! ### The operations on byte strings -/

section Operations

variable {a b : Bytes}

private theorem writeAt_append_replicate (a b : Bytes) (n : ℕ) :
    writeAt (a ++ List.replicate n 0) a.length b = a ++ b ++ List.replicate (n - b.length) 0 := by
  rw [writeAt, List.take_left, ← List.drop_drop, List.drop_left, List.drop_replicate]

theorem inlineFrom_eq (h : a.length ≤ maxInline) : inlineFrom a = ofBytes a := by
  rw [inlineFrom, smallMemmove_true h le_rfl (by simp [new]), ofBytes, List.take_length]
  simp [new]

theorem pushBackInline_eq (a b : Bytes) :
    pushBackInline (ofBytes a) b = ofBytes (a ++ b) := by
  rw [pushBackInline, ofBytes, ofBytes, writeAt_append_replicate, List.length_append,
    Nat.sub_sub]

theorem concatInline_eq (a b : Bytes) : concatInline a b = ofBytes (a ++ b) := by
  have ha : writeAt new.tail 0 a = a ++ List.replicate (maxInline - a.length) 0 := by
    exact writeAt_append_replicate [] a maxInline
  rw [concatInline, ha, ofBytes, writeAt_append_replicate, List.length_append,
    Nat.sub_sub]

theorem pushFrontInline_eq (a b : Bytes) :
    pushFrontInline (ofBytes b) a = ofBytes (a ++ b) := by
  rw [pushFrontInline, inlineSlice_ofBytes, concatInline_eq]

theorem truncateInline_eq {n : ℕ} (hn : n ≤ a.length) (h : a.length ≤ maxInline) :
    truncateInline (ofBytes a) n = ofBytes (a.take n) := by
  have hlen : (a.take n).length = n := by simp [hn]
  simp only [truncateInline, ofBytes, hlen]
  rw [writeAt, List.take_append_of_le_length hn,
    List.length_replicate, Nat.add_sub_cancel' hn, List.drop_left, List.append_assoc,
    List.replicate_append_replicate]
  congr 3
  omega

theorem dropFrontInline_eq {n : ℕ} (hn : n ≤ a.length) (h : a.length ≤ maxInline) :
    dropFrontInline (ofBytes a) n = ofBytes (a.drop n) := by
  have hmove : writeAt (a ++ List.replicate (maxInline - a.length) 0) 0 (a.drop n) =
      a.drop n ++ (a ++ List.replicate (maxInline - a.length) 0).drop (a.length - n) := by
    rw [writeAt, List.take_zero, List.nil_append, List.length_drop, Nat.zero_add]
  rw [dropFrontInline]
  simp only [ofBytes, List.take_left]
  rw [hmove, writeAt, List.take_left' (by simp), List.length_replicate, ← List.drop_drop,
    List.drop_left' (by simp), List.drop_drop, Nat.sub_add_cancel hn, List.drop_left,
    List.append_assoc, List.replicate_append_replicate, List.length_drop]
  congr 3
  omega

end Operations

/-! ### The wide comparisons -/

section Compare

variable {a b : Bytes}

private theorem loadBe_append (xs : Bytes) (x : UInt8) :
    loadBe (xs ++ [x]) = loadBe xs * 256 + x.toNat := by
  simp [loadBe, List.foldl_append]

private theorem then_of_ne_eq {o p : Ordering} (ho : o ≠ .eq) : o.then p = o := by
  cases o <;> simp_all

private theorem compareBytes_append_singleton {xs ys : Bytes} (hlen : xs.length = ys.length)
    (x y : UInt8) : compareBytes (xs ++ [x]) (ys ++ [y]) =
      (compareBytes xs ys).then (compareNat x.toNat y.toNat) := by
  by_cases heq : compareBytes xs ys = .eq
  · obtain rfl := compareBytes_eq_iff.mp heq
    rw [compareBytes_append_left, heq, Ordering.eq_then]
    rfl
  · rw [compareBytes_append_of_ne hlen heq, then_of_ne_eq heq]

/-- A big-endian load orders byte strings of one length. -/
private theorem compareNat_loadBe {xs ys : Bytes} (hlen : xs.length = ys.length) :
    compareNat (loadBe xs) (loadBe ys) = compareBytes xs ys := by
  induction xs using List.reverseRecOn generalizing ys with
  | nil =>
    obtain rfl : ys = [] := List.eq_nil_of_length_eq_zero hlen.symm
    rfl
  | append_singleton xs x ih =>
    obtain ⟨ys, y, rfl⟩ := (List.eq_nil_or_concat' ys).resolve_left (by rintro rfl; simp at hlen)
    have hlen' : xs.length = ys.length := by simpa using hlen
    rw [compareBytes_append_singleton hlen', ← ih hlen', loadBe_append, loadBe_append]
    have hx := x.toNat_lt
    have hy := y.toNat_lt
    simp only [compareNat]
    split_ifs <;> first | rfl | omega

private theorem loadBe_eq_iff {xs ys : Bytes} (hlen : xs.length = ys.length) :
    loadBe xs = loadBe ys ↔ xs = ys := by
  rw [← compareBytes_eq_iff, ← compareNat_loadBe hlen, compareNat]
  split_ifs <;> simp <;> omega

private theorem compareBytes_replicate_ne_gt (n : ℕ) (ys : Bytes) (hlen : ys.length = n) :
    compareBytes (List.replicate n 0) ys ≠ .gt := by
  induction n generalizing ys with
  | zero =>
    obtain rfl := List.eq_nil_of_length_eq_zero hlen
    simp [compareBytes]
  | succ n ih =>
    obtain ⟨y, ys, rfl⟩ := List.exists_cons_of_length_eq_add_one hlen
    rw [List.replicate_succ, compareBytes]
    split_ifs with h₁ h₂
    · simp
    · simp at h₂
    · exact ih ys (by simpa using hlen)

/-- Padding with zeros orders byte strings, up to their lengths. -/
private theorem compareBytes_pad (n : ℕ) (ha : a.length ≤ n) (hb : b.length ≤ n) :
    compareBytes a b = (compareBytes (a ++ List.replicate (n - a.length) 0)
      (b ++ List.replicate (n - b.length) 0)).then (compareNat a.length b.length) := by
  induction n generalizing a b with
  | zero =>
    obtain rfl := List.eq_nil_of_length_eq_zero (Nat.le_zero.mp ha)
    obtain rfl := List.eq_nil_of_length_eq_zero (Nat.le_zero.mp hb)
    rfl
  | succ n ih =>
    cases a with
    | nil =>
      cases b with
      | nil => simp [compareBytes_self, compareBytes, compareNat]
      | cons y ys =>
        have hne := compareBytes_replicate_ne_gt (n + 1)
          (y :: ys ++ List.replicate (n + 1 - (y :: ys).length) 0) (by simp at hb ⊢; omega)
        have hlt : compareNat ([] : Bytes).length (y :: ys).length = .lt := by simp [compareNat]
        rw [hlt, List.nil_append, List.length_nil, Nat.sub_zero]
        revert hne
        generalize compareBytes (List.replicate (n + 1) 0) _ = o
        cases o <;> simp [compareBytes]
    | cons x xs =>
      cases b with
      | nil =>
        have hne := compareBytes_replicate_ne_gt (n + 1)
          (x :: xs ++ List.replicate (n + 1 - (x :: xs).length) 0) (by simp at ha ⊢; omega)
        have hgt : compareNat (x :: xs).length ([] : Bytes).length = .gt := by simp [compareNat]
        rw [hgt, List.nil_append, List.length_nil, Nat.sub_zero,
          ← compareBytes_swap (List.replicate (n + 1) 0)]
        revert hne
        generalize compareBytes (List.replicate (n + 1) 0) _ = o
        cases o <;> simp [compareBytes]
      | cons y ys =>
        have hx : n + 1 - (x :: xs).length = n - xs.length := by simp
        have hy : n + 1 - (y :: ys).length = n - ys.length := by simp
        simp only [List.cons_append, compareBytes, hx, hy]
        split_ifs
        · rfl
        · rfl
        · rw [ih (by simpa using ha) (by simpa using hb)]
          simp [compareNat]

theorem isSame_ofBytes : isSame (ofBytes a) (ofBytes b) ↔ a = b := by
  rw [isSame, decide_eq_true_iff]
  constructor
  · rintro ⟨hlen, htail⟩
    exact (List.append_inj htail hlen).1
  · rintro rfl
    exact ⟨rfl, rfl⟩

/-- The two overlapping loads and the sizes order the byte strings. -/
theorem compare_ofBytes (ha : a.length ≤ maxInline) (hb : b.length ≤ maxInline) :
    compare (ofBytes a) (ofBytes b) = compareBytes a b := by
  rw [compareBytes_pad maxInline ha hb]
  obtain ⟨l, hl⟩ : ∃ l, l = a ++ List.replicate (maxInline - a.length) (0 : UInt8) := ⟨_, rfl⟩
  obtain ⟨r, hr⟩ : ∃ r, r = b ++ List.replicate (maxInline - b.length) (0 : UInt8) := ⟨_, rfl⟩
  have hll : l.length = 15 := by rw [hl]; simp only [maxInline] at ha ⊢; simp; omega
  have hrl : r.length = 15 := by rw [hr]; simp only [maxInline] at hb ⊢; simp; omega
  simp only [compare, ofBytes, ← hl, ← hr]
  have h₁ : (l.take 8).length = (r.take 8).length := by simp [hll, hrl]
  have h₂ : ((l.drop 7).take 8).length = ((r.drop 7).take 8).length := by simp [hll, hrl]
  -- The second load starts at the last byte of the first one.
  have hsplit : ∀ m : Bytes, m.length = 15 → m = m.take 7 ++ (m.drop 7).take 8 := by
    intro m hm
    rw [List.take_of_length_le (l := m.drop 7) (by simp [hm]), List.take_append_drop]
  have hcompare : compareBytes l r = if l.take 8 = r.take 8 then
      compareBytes ((l.drop 7).take 8) ((r.drop 7).take 8)
      else compareBytes (l.take 8) (r.take 8) := by
    split_ifs with heq
    · have h7 : l.take 7 = r.take 7 := by
        have := congrArg (List.take 7) heq
        simpa [List.take_take] using this
      conv_lhs => rw [hsplit l hll, hsplit r hrl, h7]
      exact compareBytes_append_left _ _ _
    · conv_lhs => rw [← List.take_append_drop 8 l, ← List.take_append_drop 8 r]
      exact compareBytes_append_of_ne h₁ (fun h ↦ heq (compareBytes_eq_iff.mp h)) _ _
  rw [hcompare]
  by_cases heq : l.take 8 = r.take 8
  · rw [if_pos ((loadBe_eq_iff h₁).mpr heq), if_pos heq]
    by_cases heq' : (l.drop 7).take 8 = (r.drop 7).take 8
    · rw [if_pos ((loadBe_eq_iff h₂).mpr heq'), compareBytes_eq_iff.mpr heq', Ordering.eq_then]
    · rw [if_neg fun h ↦ heq' ((loadBe_eq_iff h₂).mp h), compareNat_loadBe h₂,
        then_of_ne_eq fun h ↦ heq' (compareBytes_eq_iff.mp h)]
  · rw [if_neg fun h ↦ heq ((loadBe_eq_iff h₁).mp h), if_neg heq, compareNat_loadBe h₁,
      then_of_ne_eq fun h ↦ heq (compareBytes_eq_iff.mp h)]

end Compare

end InlineData

end CordRs
