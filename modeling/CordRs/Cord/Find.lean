import CordRs.Cord.Compare

/-!
# Searching a cord

A needle that is one chunk is searched chunk by chunk: inside a chunk with a substring search, and
at the last positions of a chunk, where a match would go on in the next one, byte by byte. A needle
of several chunks is searched by its first chunk, and the rest is compared where that is found.

The two searches inside a slice are parameters; all that is assumed of them is that they return the
first match.

## Main definitions

* `CordRs.FirstFrom`: the first index with a property, if there is one.
* `CordRs.Cursor`, `CordRs.Cursor.findImpl`, `CordRs.Cord.find`, `CordRs.Cord.contains`.

## Main results

* `CordRs.Cursor.findImpl_spec`: the search for a needle of one chunk.
* `CordRs.Cord.find_first`: a search returns the first occurrence.
-/

namespace CordRs

open RefHeap

/-! ### First indices -/

/-- The first index from `pos` on with a property, `none` if there is no such index. -/
def FirstFrom (p : ℕ → Prop) (pos : ℕ) : Option ℕ → Prop
  | some i => pos ≤ i ∧ p i ∧ ∀ j, pos ≤ j → j < i → ¬ p j
  | none => ∀ j, pos ≤ j → ¬ p j

namespace FirstFrom

variable {p q : ℕ → Prop} {pos n : ℕ} {r : Option ℕ}

/-- Indices without the property can be skipped. -/
theorem skip (h : FirstFrom p n r) (hle : pos ≤ n) (hskip : ∀ j, pos ≤ j → j < n → ¬ p j) :
    FirstFrom p pos r := by
  cases r with
  | none => exact fun j hj ↦ if hjn : j < n then hskip j hj hjn else h j (not_lt.mp hjn)
  | some i =>
    refine ⟨hle.trans h.1, h.2.1, fun j hj hji ↦ ?_⟩
    exact if hjn : j < n then hskip j hj hjn else h.2.2 j (not_lt.mp hjn) hji

/-- A first index of a part that starts at `pos` is one of the whole. -/
theorem shift (h : FirstFrom p 0 (some n)) (hpq : ∀ i ≤ n, (p i ↔ q (pos + i))) :
    FirstFrom q pos (some (pos + n)) := by
  refine ⟨Nat.le_add_right _ _, (hpq n le_rfl).mp h.2.1, fun j hj hjn hq ↦ ?_⟩
  obtain ⟨i, rfl⟩ := Nat.exists_eq_add_of_le hj
  exact h.2.2 i (Nat.zero_le _) (by omega) ((hpq i (by omega)).mpr hq)

theorem eq_some_iff (h : FirstFrom p 0 r) {i : ℕ} : r = some i ↔ p i ∧ ∀ j < i, ¬ p j := by
  constructor
  · rintro rfl
    exact ⟨h.2.1, fun j hj ↦ h.2.2 j (Nat.zero_le _) hj⟩
  · rintro ⟨hi, hlt⟩
    cases r with
    | none => exact absurd hi (h i (Nat.zero_le _))
    | some k =>
      rcases lt_trichotomy i k with hik | rfl | hki
      · exact absurd hi (h.2.2 i (Nat.zero_le _) hik)
      · rfl
      · exact absurd h.2.1 (hlt k hki)

theorem eq_none_iff (h : FirstFrom p 0 r) : r = none ↔ ∀ i, ¬ p i := by
  constructor
  · rintro rfl i
    exact h i (Nat.zero_le _)
  · intro hp
    cases r with
    | none => rfl
    | some k => exact absurd h.2.1 (hp k)

end FirstFrom

/-! ### Cursors -/

/-- A position inside a cord. -/
structure Cursor where
  chunks : ForwardChunks
  len : ℕ

namespace Cursor

/-- Start at the first byte of a cord. -/
def new (cord : Cord Rep) : Except Fault Cursor := do
  pure ⟨← ForwardChunks.new cord, cord.len⟩

/-- The number of bytes after the cursor. -/
def remaining (it : Cursor) : ℕ := it.chunks.bytesRemaining

/-- The offset from the start of the cord. -/
def position (it : Cursor) : ℕ := it.len - it.chunks.bytesRemaining

/-- The rest of the chunk at the cursor. -/
def chunk (it : Cursor) : Bytes := it.chunks.currentChunk

/-- Advance by at most the bytes that remain. -/
def advance (it : Cursor) (n : ℕ) : Except Fault Cursor := do
  if n ≤ it.chunks.bytesRemaining then
    pure { it with chunks := ← it.chunks.advanceBytes n }
  else
    .error (.panic ("cannot advance past the end of a Cord: n = " ++ toString n ++
      ", remaining = " ++ toString it.chunks.bytesRemaining))

/-- Whether the bytes at a position start with `needle`. Each iteration matches at least one byte
of the needle, whose length bounds the fuel. -/
def isSliceAt : ℕ → Cursor → Bytes → Except Fault Bool
  | 0, _, _ => .error .unreachable
  | fuel + 1, position, needle => do
    let haystackChunk := position.chunk
    if haystackChunk = [] then
      pure false
    else
      let minLength := min haystackChunk.length needle.length
      if haystackChunk.take minLength ≠ needle.take minLength then
        pure false
      else
        let needle := needle.drop minLength
        if needle = [] then
          pure true
        else
          isSliceAt fuel (← position.advance minLength) needle

section Search

variable (memmem : Bytes → Bytes → Option ℕ) (memchr : UInt8 → Bytes → Option ℕ)

/-- Look for a match that starts in the chunk at the cursor from `offset` on and before `stop`.
The fuel bounds the number of candidates. -/
def findCandidate : ℕ → Cursor → Bytes → ℕ → ℕ → Except Fault (Option ℕ)
  | 0, _, _, _, _ => .error .unreachable
  | fuel + 1, it, needle, offset, stop => do
    if offset < stop then
      match needle.head? with
      | none => .error (.panic "index out of bounds")
      | some first =>
        match memchr first ((it.chunk.take stop).drop offset) with
        | none => pure none
        | some relative =>
          let candidate := offset + relative
          let position ← it.advance candidate
          if ← isSliceAt (needle.length + 1) position needle then
            pure (some candidate)
          else
            findCandidate fuel it needle (candidate + 1) stop
    else
      pure none

/-- Search `needle`, a single chunk, from the cursor on and move to the match. The fuel bounds the
number of chunks. -/
def findImpl : ℕ → Cursor → Bytes → Except Fault (Cursor × Bool)
  | 0, _, _ => .error .unreachable
  | fuel + 1, it, needle => do
    if needle.length ≤ it.remaining then
      let haystackChunk := it.chunk
      match if needle.length ≤ haystackChunk.length then memmem needle haystackChunk else none with
      | some idx => pure (← it.advance idx, true)
      | none =>
        let offset := haystackChunk.length - (needle.length - 1)
        let stop := min haystackChunk.length (it.remaining - needle.length + 1)
        match ← findCandidate memchr (haystackChunk.length + 1) it needle offset stop with
        | some candidate => pure (← it.advance candidate, true)
        | none => findImpl fuel (← it.advance haystackChunk.length) needle
    else
      pure (it, false)

end Search

/-! ### Positions -/

section Spec

variable [Target]

/-- The cursor is at the byte `pos` of `bs`. -/
structure On (it : Cursor) (bs : Bytes) (pos : ℕ) : Prop where
  len : it.len = bs.length
  le : pos ≤ bs.length
  rest : it.chunks.Rest (bs.drop pos)

variable {it : Cursor} {bs needle : Bytes} {pos : ℕ}

theorem new_on {c : Cord Rep} (hc : c.Valid) : ∃ it, new c = .ok it ∧ it.On c.bytes 0 := by
  obtain ⟨chunks, hrun, hrest⟩ := ForwardChunks.new_rest hc.source
  exact ⟨⟨chunks, c.len⟩, by simp only [new, hrun, ok_bind]; rfl, Cord.len_eq hc, Nat.zero_le _,
    hrest⟩

theorem On.remaining_eq (hon : it.On bs pos) : it.remaining = bs.length - pos := by
  rw [remaining, ← hon.rest.length_eq, List.length_drop]

theorem On.position_eq (hon : it.On bs pos) : it.position = pos := by
  have hrem := hon.remaining_eq
  have hle := hon.le
  rw [position, hon.len]
  rw [remaining] at hrem
  omega

/-- Advancing within what remains moves the position. -/
theorem On.advance {n : ℕ} (hon : it.On bs pos) (hn : pos + n ≤ bs.length) :
    ∃ it', it.advance n = .ok it' ∧ it'.On bs (pos + n) := by
  have hrem := hon.remaining_eq
  rw [remaining] at hrem
  obtain ⟨chunks, hrun, hrest⟩ :=
    Cord.advanceBytes_rest hon.rest (show n ≤ (bs.drop pos).length by rw [List.length_drop]; omega)
  refine ⟨{ it with chunks }, ?_, hon.len, hn, ?_⟩
  · rw [Cursor.advance, if_pos (by omega), hrun]
    rfl
  · rwa [List.drop_drop] at hrest

/-- The chunk at the cursor is empty exactly at the end. -/
theorem On.chunk (hon : it.On bs pos) : (pos = bs.length ∧ it.chunk = []) ∨
    ∃ rest, it.chunk ≠ [] ∧ bs.drop pos = it.chunk ++ rest := by
  rcases hon.rest.nextChunk_eq with ⟨hnil, hchunk⟩ | ⟨-, rest, -, hne, heq, -⟩
  · exact .inl ⟨le_antisymm hon.le (List.drop_eq_nil_iff.mp hnil), hchunk⟩
  · exact .inr ⟨rest, hne, heq⟩

omit [Target] in
/-- A prefix of a concatenation that is no longer than its first part is a prefix of that. -/
private theorem prefix_append_iff {as bs cs : Bytes} (hle : as.length ≤ bs.length) :
    as <+: bs ++ cs ↔ as <+: bs :=
  ⟨fun h ↦ List.prefix_of_prefix_length_le h (List.prefix_append bs cs) hle,
    fun h ↦ h.trans (List.prefix_append bs cs)⟩

/-- Whether the needle is at the cursor. -/
theorem isSliceAt_spec {fuel : ℕ} (hon : it.On bs pos) (hne : needle ≠ [])
    (hfuel : needle.length < fuel) :
    isSliceAt fuel it needle = .ok (decide (needle <+: bs.drop pos)) := by
  induction fuel generalizing it pos needle with
  | zero => omega
  | succ fuel ih =>
    rcases hon.chunk with ⟨rfl, hnil⟩ | ⟨rest, hchunk, heq⟩
    · have hnot : ¬ needle <+: bs.drop bs.length := fun hp ↦
        hne (List.prefix_nil.mp (List.drop_length (l := bs) ▸ hp))
      simp only [isSliceAt, hnil, if_true, decide_eq_false hnot]
      rfl
    obtain ⟨m, hm⟩ : ∃ m, m = min it.chunk.length needle.length := ⟨_, rfl⟩
    have hcpos := List.length_pos_iff.mpr hchunk
    have hnpos := List.length_pos_iff.mpr hne
    have hlen : it.chunk.length + rest.length = bs.length - pos := by
      rw [← List.length_append, ← heq, List.length_drop]
    by_cases hcmp : it.chunk.take m = needle.take m
    · have happ : it.chunk ++ rest = needle.take m ++ (bs.drop (pos + m)) := by
        rw [← hcmp, ← List.drop_drop, heq, List.drop_append_of_le_length (by omega),
          ← List.append_assoc, List.take_append_drop]
      have hiff : needle <+: bs.drop pos ↔ needle.drop m <+: bs.drop (pos + m) := by
        conv_lhs => rw [← List.take_append_drop m needle, heq, happ]
        exact List.prefix_append_right_inj _
      by_cases hdrop : needle.drop m = []
      · simp only [isSliceAt, if_neg hchunk, ← hm, hcmp, ne_eq, not_true_eq_false, if_false, hdrop,
          if_true, hiff, List.nil_prefix, decide_true]
        rfl
      · obtain ⟨it', hrun, hon'⟩ := hon.advance (n := m) (by omega)
        have hshort : (needle.drop m).length < fuel := by
          rw [List.length_drop]
          omega
        simp only [isSliceAt, if_neg hchunk, ← hm, hcmp, ne_eq, not_true_eq_false, if_false, hdrop,
          hrun, ok_bind, ih hon' hdrop hshort, hiff]
    · have hnot : ¬ needle <+: bs.drop pos := by
        rintro ⟨tail, htail⟩
        refine hcmp ?_
        have htake := congrArg (List.take m) (htail.trans heq)
        rw [List.take_append_of_le_length (by omega), List.take_append_of_le_length (by omega)]
          at htake
        exact htake.symm
      simp only [isSliceAt, if_neg hchunk, ← hm, ne_eq, hcmp, not_false_iff, if_true,
        decide_eq_false hnot]
      rfl

/-! ### The searches -/

variable {memmem : Bytes → Bytes → Option ℕ} {memchr : UInt8 → Bytes → Option ℕ}

/-- The candidates are tried in order. -/
theorem findCandidate_spec
    (hmemchr : ∀ b s, FirstFrom (fun i ↦ s[i]? = some b) 0 (memchr b s)) (fuel offset stop : ℕ)
    (hon : it.On bs pos) (hne : needle ≠ []) (hstop : stop ≤ it.chunk.length)
    (hfuel : stop - offset < fuel) :
    ∃ r, findCandidate memchr fuel it needle offset stop = .ok r ∧
      FirstFrom (fun i ↦ i < stop ∧ needle <+: bs.drop (pos + i)) offset r := by
  induction fuel generalizing offset with
  | zero => omega
  | succ fuel ih =>
    by_cases hlt : offset < stop
    swap
    · refine ⟨none, ?_, fun j hj hp ↦ hlt (hj.trans_lt hp.1)⟩
      rw [findCandidate, if_neg hlt]
      rfl
    obtain ⟨first, tail, rfl⟩ := List.exists_cons_of_ne_nil hne
    obtain ⟨rest, -, heq⟩ : ∃ rest, it.chunk ≠ [] ∧ bs.drop pos = it.chunk ++ rest := by
      rcases hon.chunk with ⟨-, hnil⟩ | h
      · rw [hnil, List.length_nil] at hstop
        omega
      · exact h
    have hlen : it.chunk.length + rest.length = bs.length - pos := by
      rw [← List.length_append, ← heq, List.length_drop]
    -- A match before `stop` shows its first byte in the chunk.
    have hbyte : ∀ j, offset + j < stop → first :: tail <+: bs.drop (pos + (offset + j)) →
        ((it.chunk.take stop).drop offset)[j]? = some first := by
      rintro j hj ⟨t, ht⟩
      have hget := congrArg List.head? ht
      rw [List.head?_drop, ← List.getElem?_drop, heq,
        List.getElem?_append_left (by omega)] at hget
      rw [List.getElem?_drop, List.getElem?_take_of_lt hj, ← hget]
      rfl
    have hfirst := hmemchr first ((it.chunk.take stop).drop offset)
    simp only [findCandidate, if_pos hlt, List.head?_cons]
    cases hrel : memchr first ((it.chunk.take stop).drop offset) with
    | none =>
      rw [hrel] at hfirst
      refine ⟨none, rfl, fun j hj hp ↦ ?_⟩
      obtain ⟨i, rfl⟩ := Nat.exists_eq_add_of_le hj
      exact hfirst i (Nat.zero_le _) (hbyte i hp.1 hp.2)
    | some relative =>
      rw [hrel] at hfirst
      have hcand : offset + relative < stop := by
        have hsome := List.getElem?_eq_some_iff.mp hfirst.2.1
        obtain ⟨hlt', -⟩ := hsome
        rw [List.length_drop, List.length_take] at hlt'
        omega
      have hskip : ∀ j, offset ≤ j → j < offset + relative →
          ¬ (j < stop ∧ first :: tail <+: bs.drop (pos + j)) := by
        intro j hj hjc hp
        obtain ⟨i, rfl⟩ := Nat.exists_eq_add_of_le hj
        exact hfirst.2.2 i (Nat.zero_le _) (by omega) (hbyte i hp.1 hp.2)
      obtain ⟨position, hrun, hon'⟩ := hon.advance (n := offset + relative) (by omega)
      have hslice := isSliceAt_spec hon' hne (Nat.lt_succ_self _)
      simp only [hrun, ok_bind, hslice]
      by_cases hp : first :: tail <+: bs.drop (pos + (offset + relative))
      · refine ⟨some (offset + relative), ?_, Nat.le_add_right _ _, ⟨hcand, hp⟩, hskip⟩
        rw [decide_eq_true hp, if_pos rfl]
        rfl
      · obtain ⟨r, hrun', hr⟩ := ih (offset + relative + 1) (by omega)
        refine ⟨r, ?_, hr.skip (by omega) fun j hj hjn hp' ↦ ?_⟩
        · rw [decide_eq_false hp, if_neg Bool.false_ne_true, hrun']
        · rcases Nat.lt_succ_iff_lt_or_eq.mp hjn with hjc | rfl
          · exact hskip j hj hjc hp'
          · exact hp hp'.2

/-- The search for one chunk moves to the first match, if there is one. -/
theorem findImpl_spec
    (hmemmem : ∀ needle s, FirstFrom (fun i ↦ needle <+: s.drop i) 0 (memmem needle s))
    (hmemchr : ∀ b s, FirstFrom (fun i ↦ s[i]? = some b) 0 (memchr b s)) {fuel : ℕ}
    (hon : it.On bs pos) (hne : needle ≠ []) (hfuel : bs.length - pos < fuel) :
    (∃ it' i, findImpl memmem memchr fuel it needle = .ok (it', true) ∧ it'.On bs i ∧
      FirstFrom (fun i ↦ needle <+: bs.drop i) pos (some i)) ∨
    ∃ it', findImpl memmem memchr fuel it needle = .ok (it', false) ∧
      FirstFrom (fun i ↦ needle <+: bs.drop i) pos none := by
  induction fuel generalizing it pos with
  | zero => omega
  | succ fuel ih =>
    have hnpos := List.length_pos_iff.mpr hne
    have hfit : ∀ {j}, needle <+: bs.drop j → j + needle.length ≤ bs.length := by
      intro j hp
      have hle := hp.length_le
      rw [List.length_drop] at hle
      omega
    by_cases hrem : needle.length ≤ it.remaining
    swap
    · refine .inr ⟨it, ?_, fun j hj hp ↦ hrem ?_⟩
      · rw [findImpl, if_neg hrem]
        rfl
      · have := hfit hp
        rw [hon.remaining_eq]
        omega
    have hremaining := hon.remaining_eq
    obtain ⟨rest, hchunk, heq⟩ : ∃ rest, it.chunk ≠ [] ∧ bs.drop pos = it.chunk ++ rest := by
      rcases hon.chunk with ⟨rfl, -⟩ | h
      · omega
      · exact h
    have hcpos := List.length_pos_iff.mpr hchunk
    have hlen : it.chunk.length + rest.length = bs.length - pos := by
      rw [← List.length_append, ← heq, List.length_drop]
    -- A match that ends in the chunk is a match in the chunk.
    have hinside : ∀ j, j + needle.length ≤ it.chunk.length →
        (needle <+: it.chunk.drop j ↔ needle <+: bs.drop (pos + j)) := by
      intro j hj
      rw [← List.drop_drop, heq, List.drop_append_of_le_length (by omega),
        prefix_append_iff (by rw [List.length_drop]; omega)]
    have hfirst := hmemmem needle it.chunk
    cases hfound : if needle.length ≤ it.chunk.length then memmem needle it.chunk else none with
    | some idx =>
      obtain ⟨-, hidx⟩ : needle.length ≤ it.chunk.length ∧ memmem needle it.chunk = some idx := by
        split_ifs at hfound with hle
        exact ⟨hle, hfound⟩
      rw [hidx] at hfirst
      have hend : idx + needle.length ≤ it.chunk.length := by
        have hle := hfirst.2.1.length_le
        rw [List.length_drop] at hle
        omega
      obtain ⟨it', hrun, hon'⟩ := hon.advance (n := idx) (by omega)
      refine .inl ⟨it', pos + idx, ?_, hon', hfirst.shift fun i hi ↦ hinside i (by omega)⟩
      simp only [findImpl, if_pos hrem, hfound, hrun, ok_bind]
      rfl
    | none =>
      have hbefore : ∀ j, j + needle.length ≤ it.chunk.length → ¬ needle <+: bs.drop (pos + j) := by
        intro j hj hp
        rw [if_pos (by omega)] at hfound
        rw [hfound] at hfirst
        exact hfirst j (Nat.zero_le _) ((hinside j hj).mpr hp)
      obtain ⟨r, hrun, hr⟩ := findCandidate_spec hmemchr (it.chunk.length + 1)
        (it.chunk.length - (needle.length - 1))
        (min it.chunk.length (it.remaining - needle.length + 1)) hon hne (by omega) (by omega)
      cases r with
      | some candidate =>
        obtain ⟨-, ⟨hstop, hp⟩, hskip⟩ := hr
        obtain ⟨it', hadvance, hon'⟩ := hon.advance (n := candidate) (by omega)
        refine .inl ⟨it', pos + candidate, ?_, hon', Nat.le_add_right _ _, hp, fun j hj hjc hp' ↦ ?_⟩
        · simp only [findImpl, if_pos hrem, hfound, hrun, hadvance, ok_bind]
          rfl
        · obtain ⟨i, rfl⟩ := Nat.exists_eq_add_of_le hj
          rcases Nat.lt_or_ge i (it.chunk.length - (needle.length - 1)) with hi | hi
          · exact hbefore i (by omega) hp'
          · exact hskip i hi (by omega) ⟨by omega, hp'⟩
      | none =>
        obtain ⟨it', hadvance, hon'⟩ := hon.advance (n := it.chunk.length) (by omega)
        have hskip : ∀ j, pos ≤ j → j < pos + it.chunk.length → ¬ needle <+: bs.drop j := by
          intro j hj hjn hp
          obtain ⟨i, rfl⟩ := Nat.exists_eq_add_of_le hj
          have hend := hfit hp
          rcases Nat.lt_or_ge i (it.chunk.length - (needle.length - 1)) with hi | hi
          · exact hbefore i (by omega) hp
          · exact hr i hi ⟨by omega, hp⟩
        have hrest : findImpl memmem memchr (fuel + 1) it needle =
            findImpl memmem memchr fuel it' needle := by
          simp only [findImpl, if_pos hrem, hfound, hrun, hadvance, ok_bind]
        rw [hrest]
        rcases ih hon' (by omega) with ⟨it'', i, hrun', hon'', hfirst'⟩ | ⟨it'', hrun', hnone⟩
        · exact .inl ⟨it'', i, hrun', hon'', hfirst'.skip (Nat.le_add_right _ _) hskip⟩
        · exact .inr ⟨it'', hrun', hnone.skip (Nat.le_add_right _ _) hskip⟩

end Spec

end Cursor

namespace Cord

section Find

variable (memmem : Bytes → Bytes → Option ℕ) (memchr : UInt8 → Bytes → Option ℕ)

/-- Search a needle of several chunks by its first one. The fuel bounds the candidates. -/
def findChunks : ℕ → Cursor → CordLike → Bytes → Except Fault (Option ℕ)
  | 0, _, _, _ => .error .unreachable
  | fuel + 1, haystack, needle, needleChunk => do
    let needleSize := needle.len
    let (haystack, found) ←
      Cursor.findImpl memmem memchr (haystack.remaining + 1) haystack needleChunk
    if !found || haystack.remaining < needleSize then
      pure none
    else
      let (needleIt, _) ← (← needle.chunks).next
      let haystackAdvanced ← haystack.advance needleChunk.length
      if ← isSubcordAt haystackAdvanced.chunks needleIt then
        pure (some haystack.position)
      else
        let haystack ← haystack.advance 1
        if haystack.remaining < needleSize then
          pure none
        else if haystack.remaining = needleSize then
          if ← isSubcordAt haystack.chunks (← needle.chunks) then
            pure (some haystack.position)
          else
            pure none
        else
          findChunks fuel haystack needle needleChunk

/-- The first index at which the needle occurs. -/
def find (self : Cord Rep) (needle : CordLike) : Except Fault (Option ℕ) := do
  let needleSize := needle.len
  if needleSize = 0 then
    pure (some 0)
  else if needleSize > self.len then
    pure none
  else if needleSize = self.len then
    if ← self.equals needle then pure (some 0) else pure none
  else
    let needleChunk ← needle.firstChunk
    let haystack ← Cursor.new self
    if needleChunk.length = needleSize then
      let (haystack, found) ←
        Cursor.findImpl memmem memchr (haystack.remaining + 1) haystack needleChunk
      if found then pure (some haystack.position) else pure none
    else
      findChunks memmem memchr (haystack.remaining + 1) haystack needle needleChunk

/-- Whether the needle occurs. -/
def contains (self : Cord Rep) (needle : CordLike) : Except Fault Bool := do
  if needle.len = 0 then
    pure true
  else
    pure (← self.find memmem memchr needle).isSome

end Find

section Spec

variable [Target] {memmem : Bytes → Bytes → Option ℕ} {memchr : UInt8 → Bytes → Option ℕ}
  {needle : CordLike} {bs : Bytes} {pos : ℕ}

/-- A needle of several chunks is where its first chunk is, followed by the others. -/
private theorem findChunks_spec
    (hmemmem : ∀ needle s, FirstFrom (fun i ↦ needle <+: s.drop i) 0 (memmem needle s))
    (hmemchr : ∀ b s, FirstFrom (fun i ↦ s[i]? = some b) 0 (memchr b s)) (hn : needle.Valid)
    {chunk : Bytes} (hchunk : needle.firstChunk = .ok chunk) (hne : chunk ≠ []) {fuel : ℕ}
    {it : Cursor} (hon : it.On bs pos) (hfuel : bs.length - pos < fuel) :
    ∃ r, findChunks memmem memchr fuel it needle chunk = .ok r ∧
      FirstFrom (fun i ↦ needle.bytes <+: bs.drop i) pos r := by
  obtain ⟨cs, chunk', hchunks, hall, -, hfirst, hcase⟩ := needle.chunks_spec hn
  obtain rfl : chunk' = chunk := Except.ok.inj (hfirst.symm.trans hchunk)
  obtain ⟨cs', tail, hnext, -, happ, htail⟩ : ∃ cs' rest, cs.next = .ok (cs', some chunk') ∧
      chunk' ≠ [] ∧ needle.bytes = chunk' ++ rest ∧ cs'.Denotes rest := by
    rcases hcase with ⟨-, hnil⟩ | h
    · exact absurd hnil hne
    · exact h
  have hlen : needle.len = needle.bytes.length := CordLike.len_eq hn
  have hcpos := List.length_pos_iff.mpr hne
  have hsize : needle.bytes.length = chunk'.length + tail.length := by
    rw [happ, List.length_append]
  have hfit : ∀ {j}, needle.bytes <+: bs.drop j → j + needle.bytes.length ≤ bs.length := by
    intro j hp
    have hle := hp.length_le
    rw [List.length_drop] at hle
    omega
  induction fuel generalizing it pos with
  | zero => omega
  | succ fuel ih =>
    have hfuel' : bs.length - pos < it.remaining + 1 := by
      rw [hon.remaining_eq]
      omega
    have hhead : ∀ j, needle.bytes <+: bs.drop j → chunk' <+: bs.drop j := fun j hp ↦
      (happ ▸ List.prefix_append chunk' tail : chunk' <+: needle.bytes).trans hp
    rcases Cursor.findImpl_spec hmemmem hmemchr hon hne hfuel' with
      ⟨it', i, hrun, hon', hpi, hi, hlt⟩ | ⟨it', hrun, hnone⟩
    swap
    · refine ⟨none, ?_, fun j hj hp ↦ hnone j hj (hhead j hp)⟩
      simp only [findChunks, hrun, ok_bind, Bool.not_false, Bool.true_or, if_true]
      rfl
    have hskip : ∀ j, pos ≤ j → j < i → ¬ needle.bytes <+: bs.drop j := fun j hj hji hp ↦
      hlt j hj hji (hhead j hp)
    have hrem := hon'.remaining_eq
    by_cases hshort : it'.remaining < needle.len
    · refine ⟨none, ?_, fun j hj hp ↦ ?_⟩
      · simp only [findChunks, hrun, ok_bind, Bool.not_true, Bool.false_or, hshort, decide_true,
          if_true]
        rfl
      · rcases Nat.lt_or_ge j i with hji | hij
        · exact hskip j hj hji hp
        · have := hfit hp
          omega
    obtain ⟨it₁, hadvance, hon₁⟩ := hon'.advance (n := chunk'.length) (by omega)
    have hmatch : needle.bytes <+: bs.drop i ↔ tail <+: bs.drop (i + chunk'.length) := by
      obtain ⟨t, ht⟩ := hi
      rw [happ, ← List.drop_drop, ← ht, List.drop_left, List.prefix_append_right_inj]
    have hstep : findChunks memmem memchr (fuel + 1) it needle chunk' =
        (if decide (needle.bytes <+: bs.drop i) = true then pure (some it'.position) else do
          let haystack ← it'.advance 1
          if haystack.remaining < needle.len then
            pure none
          else if haystack.remaining = needle.len then
            if ← isSubcordAt haystack.chunks cs then
              pure (some haystack.position)
            else
              pure none
          else
            findChunks memmem memchr fuel haystack needle chunk') := by
      simp only [findChunks, hrun, ok_bind, Bool.not_true, Bool.false_or, hshort, decide_false,
        Bool.false_eq_true, if_false, hchunks, hnext, hadvance, isSubcordAt_spec hon₁.rest htail,
        hmatch]
    rw [hstep]
    by_cases hp : needle.bytes <+: bs.drop i
    · refine ⟨some i, ?_, hpi, hp, hskip⟩
      rw [decide_eq_true hp, if_pos rfl, hon'.position_eq]
      rfl
    obtain ⟨it₂, hadvance₂, hon₂⟩ := hon'.advance (n := 1) (by omega)
    have hskip' : ∀ j, pos ≤ j → j < i + 1 → ¬ needle.bytes <+: bs.drop j := by
      intro j hj hji
      rcases Nat.lt_succ_iff_lt_or_eq.mp hji with hji | rfl
      · exact hskip j hj hji
      · exact hp
    have hrem₂ := hon₂.remaining_eq
    rw [decide_eq_false hp, if_neg Bool.false_ne_true, hadvance₂, ok_bind]
    by_cases hshort₂ : it₂.remaining < needle.len
    · refine ⟨none, ?_, fun j hj hp' ↦ ?_⟩
      · rw [if_pos hshort₂]
        rfl
      · rcases Nat.lt_or_ge j (i + 1) with hji | hij
        · exact hskip' j hj hji hp'
        · have := hfit hp'
          omega
    rw [if_neg hshort₂]
    by_cases hexact : it₂.remaining = needle.len
    · rw [if_pos hexact, isSubcordAt_spec hon₂.rest hall, ok_bind]
      by_cases hlast : needle.bytes <+: bs.drop (i + 1)
      · refine ⟨some (i + 1), ?_, by omega, hlast, hskip'⟩
        rw [decide_eq_true hlast, if_pos rfl, hon₂.position_eq]
        rfl
      · refine ⟨none, ?_, fun j hj hp' ↦ ?_⟩
        · rw [decide_eq_false hlast, if_neg Bool.false_ne_true]
          rfl
        · have := hfit hp'
          rcases Nat.lt_or_ge j (i + 1) with hji | hij
          · exact hskip' j hj hji hp'
          · obtain rfl : j = i + 1 := by omega
            exact hlast hp'
    · rw [if_neg hexact]
      obtain ⟨r, hrun', hr⟩ := ih hon₂ (by omega)
      exact ⟨r, hrun', hr.skip (by omega) hskip'⟩

/-- **The first occurrence.** When the searches inside a slice return the first match, a search
returns the least index at which the needle occurs, and none exactly if it does not occur. -/
theorem find_first {h : Heap Node} {c : Cord Rep}
    (hmemmem : ∀ needle s, FirstFrom (fun i ↦ needle <+: s.drop i) 0 (memmem needle s))
    (hmemchr : ∀ b s, FirstFrom (fun i ↦ s[i]? = some b) 0 (memchr b s))
    (hc : c.Valid) (hn : needle.Valid) (hch : c.Held h) (hnh : needle.Held h) :
    ∃ r found, c.find memmem memchr needle = .ok r ∧
      (∀ i, r = some i ↔
        needle.bytes <+: c.bytes.drop i ∧ ∀ j < i, ¬ needle.bytes <+: c.bytes.drop j) ∧
      (r = none ↔ ∀ i, ¬ needle.bytes <+: c.bytes.drop i) ∧
      c.contains memmem memchr needle = .ok found ∧
      (found = true ↔ ∃ i, needle.bytes <+: c.bytes.drop i) := by
  have hlen : c.len = c.bytes.length := len_eq hc
  have hnlen : needle.len = needle.bytes.length := CordLike.len_eq hn
  obtain ⟨r, hrun, hr⟩ : ∃ r, c.find memmem memchr needle = .ok r ∧
      FirstFrom (fun i ↦ needle.bytes <+: c.bytes.drop i) 0 r := by
    by_cases hzero : needle.len = 0
    · have hnil : needle.bytes = [] := List.eq_nil_of_length_eq_zero (hnlen ▸ hzero)
      refine ⟨some 0, by simp only [find, if_pos hzero]; rfl, le_rfl, ?_, by omega⟩
      rw [hnil]
      exact List.nil_prefix
    have hfit : ∀ j, needle.bytes <+: c.bytes.drop j → j + needle.len ≤ c.len := by
      intro j hp
      have hle := hp.length_le
      rw [List.length_drop] at hle
      omega
    by_cases hlong : needle.len > c.len
    · refine ⟨none, by simp only [find, if_neg hzero, if_pos hlong]; rfl, fun j _ hp ↦ ?_⟩
      have := hfit j hp
      omega
    by_cases hsame : needle.len = c.len
    · have hiff : c.bytes = needle.bytes ↔ needle.bytes <+: c.bytes := by
        refine ⟨fun h ↦ h ▸ List.prefix_refl _, fun hp ↦ (hp.eq_of_length ?_).symm⟩
        omega
      by_cases heq : c.bytes = needle.bytes
      · refine ⟨some 0, ?_, le_rfl, hiff.mp heq, by omega⟩
        simp only [find, if_neg hzero, if_neg hlong, if_pos hsame, equals_eq hc hn hch hnh, ok_bind,
          decide_eq_true heq, if_true]
        rfl
      · refine ⟨none, ?_, fun j _ hp ↦ ?_⟩
        · simp only [find, if_neg hzero, if_neg hlong, if_pos hsame, equals_eq hc hn hch hnh,
            ok_bind, decide_eq_false heq, if_neg Bool.false_ne_true]
          rfl
        · obtain rfl : j = 0 := by have := hfit j hp; omega
          exact heq (hiff.mpr hp)
    obtain ⟨cs, chunk, -, -, -, hchunk, hcase⟩ := needle.chunks_spec hn
    obtain ⟨rest, hne, happ⟩ : ∃ rest, chunk ≠ [] ∧ needle.bytes = chunk ++ rest := by
      rcases hcase with ⟨hnil, -⟩ | ⟨-, rest, -, hne, happ, -⟩
      · rw [hnlen, hnil] at hzero
        exact absurd rfl hzero
      · exact ⟨rest, hne, happ⟩
    obtain ⟨it, hnew, hon⟩ := Cursor.new_on hc
    have hfuel : c.bytes.length - 0 < it.remaining + 1 := by
      rw [hon.remaining_eq]
      omega
    by_cases hsingle : chunk.length = needle.len
    · obtain rfl : chunk = needle.bytes := by
        refine (happ ▸ List.prefix_append chunk rest : chunk <+: needle.bytes).eq_of_length ?_
        omega
      rcases Cursor.findImpl_spec hmemmem hmemchr hon hne hfuel with
        ⟨it', i, hrun, hon', hfirst⟩ | ⟨it', hrun, hnone⟩
      · refine ⟨some i, ?_, hfirst⟩
        simp only [find, if_neg hzero, if_neg hlong, if_neg hsame, hchunk, hnew, if_pos hsingle,
          hrun, ok_bind, if_true, hon'.position_eq]
        rfl
      · refine ⟨none, ?_, hnone⟩
        simp only [find, if_neg hzero, if_neg hlong, if_neg hsame, hchunk, hnew, if_pos hsingle,
          hrun, ok_bind, if_neg Bool.false_ne_true]
        rfl
    · obtain ⟨r, hrun, hr⟩ := findChunks_spec hmemmem hmemchr hn hchunk hne hon hfuel
      refine ⟨r, ?_, hr⟩
      simp only [find, if_neg hzero, if_neg hlong, if_neg hsame, hchunk, hnew, if_neg hsingle,
        hrun, ok_bind]
  have hnone := hr.eq_none_iff
  by_cases hzero : needle.len = 0
  · have hnil : needle.bytes = [] := List.eq_nil_of_length_eq_zero (hnlen ▸ hzero)
    refine ⟨r, true, hrun, fun i ↦ hr.eq_some_iff, hnone, by simp only [contains, if_pos hzero]; rfl,
      ?_⟩
    rw [hnil]
    simp
  · refine ⟨r, r.isSome, hrun, fun i ↦ hr.eq_some_iff, hnone, ?_, ?_⟩
    · simp only [contains, if_neg hzero, hrun, ok_bind]
      rfl
    · rw [Option.isSome_iff_ne_none, ne_eq, hnone, not_forall_not]

end Spec

/-- Searches inside a slice that try every index in turn. -/
private def scan (p : ℕ → Bool) (n : ℕ) : Option ℕ := (List.range n).find? p

private theorem scan_first {p : ℕ → Prop} {q : ℕ → Bool} (hpq : ∀ i, q i = true ↔ p i) {n : ℕ}
    (hn : ∀ i, p i → ∃ j < n, p j) : FirstFrom p 0 (scan q n) := by
  cases hscan : scan q n with
  | none =>
    intro i _ hp
    obtain ⟨j, hj, hpj⟩ := hn i hp
    exact List.find?_eq_none.mp hscan j (List.mem_range.mpr hj) ((hpq j).mpr hpj)
  | some k =>
    obtain ⟨hk, -, hlt⟩ := List.find?_range_eq_some.mp hscan
    refine ⟨Nat.zero_le _, (hpq k).mp hk, fun j _ hj hp ↦ ?_⟩
    have hnot := hlt j hj
    rw [(hpq j).mpr hp] at hnot
    exact absurd hnot (by decide)

/-- A btree with two flats. -/
private def twoFlats (a : Addr) (x y : Bytes) : Rep :=
  .node ⟨a + 2, x.length + y.length, 0, 0⟩
    [.leaf (.whole a (.flat 6 x)), .leaf (.whole (a + 1) (.flat 6 y))]

private def twoFlatsHeap : Heap Node where
  cells := [some ⟨1, .payload (.flat 6 [1, 2])⟩, some ⟨1, .payload (.flat 6 [3, 4])⟩,
    some ⟨1, .btree ⟨4, 0, 0, [0, 1]⟩⟩, some ⟨1, .payload (.flat 6 [2])⟩,
    some ⟨1, .payload (.flat 6 [3])⟩, some ⟨1, .btree ⟨2, 0, 0, [3, 4]⟩⟩]

private theorem valid_twoFlats [Target] {a : Addr} {x y : Bytes} (hx : (Payload.flat 6 x).Valid)
    (hy : (Payload.flat 6 y).Valid) : (Cord.tree (twoFlats a x y)).Valid := by
  refine ⟨1, by decide, Rep.Valid.node_iff.mpr ⟨rfl, by simp, by simp [maxCapacity], ?_, ?_⟩⟩
  · simp [Edge.length, Payload.data]
  · intro t ht
    rcases List.mem_pair.mp ht with rfl | rfl
    · exact Rep.Valid.leaf_iff.mpr ⟨rfl, hx⟩
    · exact Rep.Valid.leaf_iff.mpr ⟨rfl, hy⟩

private theorem held_twoFlats {h : Heap Node} {a : Addr} {x y : Bytes}
    (ha : h.node? a = some (.payload (.flat 6 x)))
    (hb : h.node? (a + 1) = some (.payload (.flat 6 y)))
    (hc : h.node? (a + 2) = some (.btree ⟨x.length + y.length, 0, 0, [a, a + 1]⟩)) :
    (twoFlats a x y).Held h := by
  refine Rep.held_node.mpr ⟨hc, fun t ht ↦ ?_⟩
  rcases List.mem_pair.mp ht with rfl | rfl
  · exact Rep.held_leaf.mpr ⟨ha, ha⟩
  · exact Rep.held_leaf.mpr ⟨hb, hb⟩

/-- A needle of two chunks in a cord of two chunks, across their boundary. -/
theorem find_first_across_chunks :
    letI : Target := ⟨64, .inr rfl⟩
    let memmem := fun (needle s : Bytes) ↦ scan (fun i ↦ needle.isPrefixOf (s.drop i)) (s.length + 1)
    let memchr := fun (b : UInt8) (s : Bytes) ↦ scan (fun i ↦ s[i]? = some b) s.length
    Cord.find memmem memchr (.tree (twoFlats 0 [1, 2] [3, 4])) (.cord (.tree (twoFlats 3 [2] [3]))) =
      .ok (some 1) := by
  let _ : Target := ⟨64, .inr rfl⟩
  intro memmem memchr
  have hmemmem : ∀ needle s, FirstFrom (fun i ↦ needle <+: s.drop i) 0 (memmem needle s) := by
    intro needle s
    refine scan_first (fun i ↦ List.isPrefixOf_iff_prefix) fun i hp ↦ ?_
    rcases Nat.lt_or_ge s.length i with hi | hi
    · rw [List.drop_eq_nil_of_le hi.le, List.prefix_nil] at hp
      exact ⟨0, Nat.succ_pos _, hp ▸ List.nil_prefix⟩
    · exact ⟨i, Nat.lt_succ_of_le hi, hp⟩
  have hmemchr : ∀ b s, FirstFrom (fun i ↦ s[i]? = some b) 0 (memchr b s) := fun b s ↦
    scan_first (fun i ↦ decide_eq_true_iff) fun i hp ↦
      ⟨i, (List.getElem?_eq_some_iff.mp hp).1, hp⟩
  have hflat : ∀ {data : Bytes}, 0 < data.length → data.length ≤ 2 → (Payload.flat 6 data).Valid :=
    fun hpos hle ↦ ⟨by decide, by decide, hpos, hle.trans (by decide)⟩
  have hhay : (Cord.tree (twoFlats 0 [1, 2] [3, 4])).Valid :=
    valid_twoFlats (hflat (by decide) (by decide)) (hflat (by decide) (by decide))
  have hneedle : (CordLike.cord (.tree (twoFlats 3 [2] [3]))).Valid :=
    valid_twoFlats (hflat (by decide) (by decide)) (hflat (by decide) (by decide))
  have hhayHeld : (Cord.tree (twoFlats 0 [1, 2] [3, 4])).Held twoFlatsHeap :=
    held_twoFlats rfl rfl rfl
  have hneedleHeld : (CordLike.cord (.tree (twoFlats 3 [2] [3]))).Held twoFlatsHeap :=
    held_twoFlats rfl rfl rfl
  obtain ⟨r, -, hrun, hsome, -⟩ :=
    find_first hmemmem hmemchr hhay hneedle hhayHeld hneedleHeld
  have hhayBytes : (Cord.tree (twoFlats 0 [1, 2] [3, 4])).bytes = [1, 2, 3, 4] := by
    simp [Cord.bytes, Cord.source, Source.bytes, twoFlats, Edge.data, Payload.data]
  have hneedleBytes : (CordLike.cord (.tree (twoFlats 3 [2] [3]))).bytes = [2, 3] := by
    simp [CordLike.bytes, Cord.bytes, Cord.source, Source.bytes, twoFlats, Edge.data, Payload.data]
  rw [hrun, (hsome 1).mpr ?_]
  rw [hhayBytes, hneedleBytes]
  exact ⟨by decide, by decide⟩

end Cord

end CordRs
