import CordRs.Rep.Release

/-!
# Ranges of data edges

A range of bytes meets some data edges in full and cuts the outer two. A piece is a part of a data
edge; the pieces of a range are found by dropping and taking bytes from the pieces that are whole
data edges. An operation that extracts a range makes data edges that are these pieces: a piece that
is a whole data edge is the data edge itself, and any other one is a substring of the same flat or
external.

## Main definitions

* `CordRs.Piece`, `CordRs.dropPieces`, `CordRs.takePieces`, `CordRs.pieces`.
* `CordRs.Meets`: the data edges that meet a range.
* `CordRs.Cuts`: data edges that are the given pieces.
* `CordRs.Extracts`: data edges that are a range of others.

## Main results

* `CordRs.dropPieces_append_of_le`, `CordRs.takePieces_append_of_lt` and their like: what is dropped
  and taken node by node.
* `CordRs.meets_pieces`: the pieces of a range are parts of the data edges that meet it.
* `CordRs.Cuts.data`: data edges that are the pieces of a range have its bytes.
* `CordRs.pieces_within`: a range within a data edge has a single piece.
-/

namespace CordRs

/-- A part of a data edge. -/
structure Piece where
  edge : Edge
  start : ℕ
  length : ℕ

/-- The bytes of a piece. -/
def Piece.data (p : Piece) : Bytes := (p.edge.data.drop p.start).take p.length

/-- A data edge as a piece. -/
def Edge.piece (e : Edge) : Piece := ⟨e, 0, e.length⟩

/-- The length of all pieces. -/
def piecesLength (ps : List Piece) : ℕ := (ps.map Piece.length).sum

/-- What remains without the first `n` bytes. -/
def dropPieces : List Piece → ℕ → List Piece
  | [], _ => []
  | p :: ps, n =>
    if p.length ≤ n then dropPieces ps (n - p.length)
    else ⟨p.edge, p.start + n, p.length - n⟩ :: ps

/-- The first `n` bytes. -/
def takePieces : List Piece → ℕ → List Piece
  | [], _ => []
  | p :: ps, n =>
    if p.length ≤ n then p :: takePieces ps (n - p.length)
    else if n = 0 then [] else [⟨p.edge, p.start, n⟩]

/-- The pieces of `n` bytes from `offset` on. -/
def pieces (es : List Edge) (offset n : ℕ) : List Piece :=
  takePieces (dropPieces (es.map Edge.piece) offset) n

section Append

variable {ps qs : List Piece} {n : ℕ}

@[simp] theorem piecesLength_nil : piecesLength [] = 0 := rfl

@[simp] theorem piecesLength_cons (p : Piece) (ps : List Piece) :
    piecesLength (p :: ps) = p.length + piecesLength ps := by simp [piecesLength]

@[simp] theorem piecesLength_append (ps qs : List Piece) :
    piecesLength (ps ++ qs) = piecesLength ps + piecesLength qs := by simp [piecesLength]

@[simp] theorem piecesLength_map (es : List Edge) :
    piecesLength (es.map Edge.piece) = edgesLength es := by
  rw [piecesLength, List.map_map]
  rfl

theorem dropPieces_append_of_le (h : piecesLength ps ≤ n) :
    dropPieces (ps ++ qs) n = dropPieces qs (n - piecesLength ps) := by
  induction ps generalizing n with
  | nil => rfl
  | cons p ps ih =>
    rw [piecesLength_cons] at h ⊢
    rw [List.cons_append, dropPieces, if_pos (by omega), ih (by omega), Nat.sub_sub]

theorem dropPieces_append_of_lt (h : n < piecesLength ps) :
    dropPieces (ps ++ qs) n = dropPieces ps n ++ qs := by
  induction ps generalizing n with
  | nil => exact absurd h (Nat.not_lt_zero n)
  | cons p ps ih =>
    rw [piecesLength_cons] at h
    rw [List.cons_append, dropPieces, dropPieces]
    split_ifs with hp
    · exact ih (by omega)
    · rfl

theorem takePieces_append_of_le (h : piecesLength ps ≤ n) :
    takePieces (ps ++ qs) n = ps ++ takePieces qs (n - piecesLength ps) := by
  induction ps generalizing n with
  | nil => rfl
  | cons p ps ih =>
    rw [piecesLength_cons] at h ⊢
    rw [List.cons_append, takePieces, if_pos (by omega), ih (by omega), Nat.sub_sub,
      List.cons_append]

theorem takePieces_append_of_lt (h : n < piecesLength ps) :
    takePieces (ps ++ qs) n = takePieces ps n := by
  induction ps generalizing n with
  | nil => exact absurd h (Nat.not_lt_zero n)
  | cons p ps ih =>
    rw [piecesLength_cons] at h
    rw [List.cons_append, takePieces, takePieces]
    split_ifs with hp hn
    · rw [ih (by omega)]
    · rfl
    · rfl

theorem takePieces_of_le (h : piecesLength ps ≤ n) : takePieces ps n = ps := by
  have : takePieces (ps ++ []) n = ps ++ takePieces [] (n - piecesLength ps) :=
    takePieces_append_of_le h
  rwa [List.append_nil, takePieces, List.append_nil] at this

theorem dropPieces_zero (hps : ∀ p ∈ ps, 0 < p.length) : dropPieces ps 0 = ps := by
  cases ps with
  | nil => rfl
  | cons p ps =>
    have := hps p List.mem_cons_self
    rw [dropPieces, if_neg (by omega)]
    rfl

theorem takePieces_zero (hps : ∀ p ∈ ps, 0 < p.length) : takePieces ps 0 = [] := by
  cases ps with
  | nil => rfl
  | cons p ps =>
    have := hps p List.mem_cons_self
    rw [takePieces, if_neg (by omega), if_pos rfl]

/-- What is behind the pieces does not matter if they have as many bytes as are taken. -/
theorem takePieces_append_left (h : n ≤ piecesLength ps) (hqs : ∀ p ∈ qs, 0 < p.length) :
    takePieces (ps ++ qs) n = takePieces ps n := by
  rcases h.eq_or_lt with rfl | hlt
  · rw [takePieces_append_of_le le_rfl, Nat.sub_self, takePieces_zero hqs, List.append_nil,
      takePieces_of_le le_rfl]
  · exact takePieces_append_of_lt hlt

theorem dropPieces_piece {e : Edge} (hn : n < e.length) :
    dropPieces [e.piece] n = [⟨e, n, e.length - n⟩] := by
  simp [dropPieces, Edge.piece, hn.not_ge]

theorem takePieces_piece {e : Edge} (hpos : 0 < n) (hn : n ≤ e.length) :
    takePieces [e.piece] n = [⟨e, 0, n⟩] := by
  rcases hn.eq_or_lt with rfl | hn
  · simp [takePieces, Edge.piece]
  · simp [takePieces, Edge.piece, hn.not_ge, hpos.ne']

theorem piecesLength_dropPieces (ps : List Piece) (n : ℕ) :
    piecesLength (dropPieces ps n) = piecesLength ps - n := by
  induction ps generalizing n with
  | nil => simp [dropPieces]
  | cons p ps ih =>
    rw [dropPieces]
    split_ifs
    · rw [ih, piecesLength_cons]
      omega
    · rw [piecesLength_cons, piecesLength_cons]
      simp only
      omega

theorem piecesLength_takePieces (ps : List Piece) (n : ℕ) :
    piecesLength (takePieces ps n) = min n (piecesLength ps) := by
  induction ps generalizing n with
  | nil => simp [takePieces]
  | cons p ps ih =>
    rw [takePieces, piecesLength_cons]
    split_ifs with hp hn
    · rw [piecesLength_cons, ih]
      omega
    · rw [hn, piecesLength_nil, Nat.zero_min]
    · rw [piecesLength_cons, piecesLength_nil]
      simp only
      omega

/-- The pieces inside a range are whole data edges. -/
theorem eq_piece_of_inner {es : List Edge} {offset : ℕ} {p : Piece}
    (h : pieces es offset n = ps ++ p :: qs) (hps : ps ≠ []) (hqs : qs ≠ []) :
    ∃ e ∈ es, p = e.piece := by
  have htake : ∀ {es : List Edge} {n ps qs p}, takePieces (es.map Edge.piece) n = ps ++ p :: qs →
      qs ≠ [] → ∃ e ∈ es, p = e.piece := by
    intro es
    induction es with
    | nil => intro n ps qs p h _; simp [takePieces] at h
    | cons e es ih =>
      intro n ps qs p h hqs
      rw [List.map_cons, takePieces] at h
      split_ifs at h with hle hn
      · cases ps with
        | nil =>
          obtain ⟨rfl, -⟩ := List.cons.inj h
          exact ⟨e, List.mem_cons_self, rfl⟩
        | cons q ps =>
          obtain ⟨u, hu, hp⟩ := ih (List.cons.inj h).2 hqs
          exact ⟨u, List.mem_cons_of_mem _ hu, hp⟩
      · simp at h
      · cases ps with
        | nil => exact absurd (List.cons.inj h).2.symm hqs
        | cons q ps => simp at h
  rw [pieces] at h
  induction es generalizing offset with
  | nil => simp [dropPieces, takePieces] at h
  | cons e es ih =>
    rw [List.map_cons, dropPieces] at h
    split_ifs at h with hle
    · obtain ⟨u, hu, hp⟩ := ih h
      exact ⟨u, List.mem_cons_of_mem _ hu, hp⟩
    · obtain ⟨q, ps, rfl⟩ := List.exists_cons_of_ne_nil hps
      rw [takePieces] at h
      split_ifs at h with hle hn
      · obtain ⟨u, hu, hp⟩ := htake (List.cons.inj h).2 hqs
        exact ⟨u, List.mem_cons_of_mem _ hu, hp⟩
      · simp at h
      · simp at h

end Append

section Cuts

variable {us vs : List Edge} {ps qs : List Piece} {n : ℕ}

/-- Data edges that are the given pieces. -/
def Cuts (us : List Edge) (ps : List Piece) : Prop :=
  List.Forall₂ (fun u p ↦ u.PartOf p.edge p.start p.length) us ps

theorem Cuts.append (h : Cuts us ps) (h' : Cuts vs qs) : Cuts (us ++ vs) (ps ++ qs) :=
  List.rel_append h h'

theorem Cuts.length_eq (h : Cuts us ps) : us.length = ps.length := List.Forall₂.length_eq h

/-- Data edges are the pieces that are all of them. -/
theorem cuts_map (es : List Edge) : Cuts es (es.map Edge.piece) := by
  induction es with
  | nil => exact .nil
  | cons e es ih => exact .cons (Edge.partOf_self e rfl rfl) ih

theorem cuts_singleton {e e' : Edge} {start length : ℕ} (h : e'.PartOf e start length) :
    Cuts [e'] [⟨e, start, length⟩] := .cons h .nil

/-- A piece that lies within its data edge. -/
def Piece.Within (p : Piece) : Prop :=
  p.start + p.length ≤ p.edge.length ∧ p.edge.data.length = p.edge.length

theorem Piece.Within.length_data {p : Piece} (hp : p.Within) : p.data.length = p.length := by
  obtain ⟨hle, hdata⟩ := hp
  rw [Piece.data, List.length_take, List.length_drop]
  omega

theorem within_dropPieces (hps : ∀ p ∈ ps, p.Within) (n : ℕ) :
    ∀ p ∈ dropPieces ps n, p.Within := by
  induction ps generalizing n with
  | nil => simp [dropPieces]
  | cons p ps ih =>
    obtain ⟨⟨hle, hdata⟩, hps⟩ := List.forall_mem_cons.mp hps
    rw [dropPieces]
    split_ifs with hn
    · exact ih hps _
    · refine List.forall_mem_cons.mpr ⟨⟨?_, hdata⟩, hps⟩
      simp only
      omega

theorem within_takePieces (hps : ∀ p ∈ ps, p.Within) (n : ℕ) :
    ∀ p ∈ takePieces ps n, p.Within := by
  induction ps generalizing n with
  | nil => simp [takePieces]
  | cons p ps ih =>
    obtain ⟨hp, hps⟩ := List.forall_mem_cons.mp hps
    rw [takePieces]
    split_ifs with hn h0
    · exact List.forall_mem_cons.mpr ⟨hp, ih hps _⟩
    · simp
    · refine List.forall_mem_cons.mpr ⟨⟨?_, hp.2⟩, by simp⟩
      have := hp.1
      simp only
      omega

theorem data_dropPieces (hps : ∀ p ∈ ps, p.Within) (n : ℕ) :
    (dropPieces ps n).flatMap Piece.data = (ps.flatMap Piece.data).drop n := by
  induction ps generalizing n with
  | nil => simp [dropPieces]
  | cons p ps ih =>
    obtain ⟨hp, hps⟩ := List.forall_mem_cons.mp hps
    have hlen := hp.length_data
    rw [dropPieces, List.flatMap_cons]
    split_ifs with hn
    · have hnil : p.data.drop n = [] := List.drop_of_length_le (by omega)
      rw [ih hps, List.drop_append, hnil, hlen, List.nil_append]
    · rw [List.flatMap_cons, List.drop_append_of_le_length (by omega), Piece.data, Piece.data,
        List.drop_take, List.drop_drop]

theorem data_takePieces (hps : ∀ p ∈ ps, p.Within) (n : ℕ) :
    (takePieces ps n).flatMap Piece.data = (ps.flatMap Piece.data).take n := by
  induction ps generalizing n with
  | nil => simp [takePieces]
  | cons p ps ih =>
    obtain ⟨hp, hps⟩ := List.forall_mem_cons.mp hps
    have hlen := hp.length_data
    rw [takePieces, List.flatMap_cons]
    split_ifs with hn h0
    · have hall : p.data.take n = p.data := List.take_of_length_le (by omega)
      rw [List.flatMap_cons, ih hps, List.take_append, hall, hlen]
    · simp [h0]
    · rw [List.flatMap_singleton, List.take_append_of_le_length (by omega), Piece.data, Piece.data,
        List.take_take, Nat.min_eq_left (by omega)]

/-- Data edges have the bytes of the pieces they are. -/
theorem Cuts.flatMap_data (h : Cuts us ps) (hps : ∀ p ∈ ps, p.Within) :
    us.flatMap Edge.data = ps.flatMap Piece.data := by
  induction h with
  | nil => rfl
  | cons hu _ ih =>
    obtain ⟨hp, hps⟩ := List.forall_mem_cons.mp hps
    rw [List.flatMap_cons, List.flatMap_cons, hu.data hp.1, ih hps]
    rfl

/-- The pieces before and behind a data edge. -/
theorem Cuts.split {u : Edge} (h : Cuts (us ++ u :: vs) ps) : ∃ qs p rs, ps = qs ++ p :: rs ∧
    Cuts us qs ∧ u.PartOf p.edge p.start p.length ∧ Cuts vs rs := by
  induction us generalizing ps with
  | nil =>
    obtain ⟨p, rs, hu, hvs, rfl⟩ := List.forall₂_cons_left_iff.mp h
    exact ⟨[], p, rs, rfl, .nil, hu, hvs⟩
  | cons x us ih =>
    obtain ⟨p, rs, hx, hus, rfl⟩ := List.forall₂_cons_left_iff.mp h
    obtain ⟨qs, q, rs, rfl, hqs, hu, hvs⟩ := ih hus
    exact ⟨p :: qs, q, rs, rfl, .cons hx hqs, hu, hvs⟩

/-- Data edges that are pieces of two kinds. -/
theorem Cuts.split_append (h : Cuts us (ps ++ qs)) :
    ∃ vs ws, us = vs ++ ws ∧ Cuts vs ps ∧ Cuts ws qs := by
  induction ps generalizing us with
  | nil => exact ⟨[], us, rfl, .nil, h⟩
  | cons p ps ih =>
    obtain ⟨u, us, hu, hus, rfl⟩ := List.forall₂_cons_right_iff.mp h
    obtain ⟨vs, ws, rfl, hvs, hws⟩ := ih hus
    exact ⟨u :: vs, ws, rfl, .cons hu hvs, hws⟩

/-- Data edges that are whole ones are these. -/
theorem Cuts.eq_of_map {as : List Edge} (h : Cuts us (as.map Edge.piece)) : us = as := by
  induction as generalizing us with
  | nil => exact List.forall₂_nil_right_iff.mp h
  | cons a as ih =>
    obtain ⟨u, us, hu, hus, rfl⟩ := List.forall₂_cons_right_iff.mp h
    rw [ih hus, hu.whole rfl]
    rfl

theorem Cuts.edgesLength_eq (h : Cuts us ps) : edgesLength us = piecesLength ps := by
  induction h with
  | nil => rfl
  | cons hu _ ih => rw [edgesLength_cons, piecesLength_cons, hu.length, ih]

variable [Target] {es : List Edge}

theorem Edge.Valid.within {e : Edge} (he : e.Valid) : e.piece.Within :=
  ⟨(Nat.zero_add _).le, he.length_data⟩

theorem within_map (hes : ∀ e ∈ es, e.Valid) : ∀ p ∈ es.map Edge.piece, p.Within := by
  intro p hp
  obtain ⟨e, he, rfl⟩ := List.mem_map.mp hp
  exact (hes e he).within

theorem pos_map (hes : ∀ e ∈ es, e.Valid) : ∀ p ∈ es.map Edge.piece, 0 < p.length := by
  intro p hp
  obtain ⟨e, he, rfl⟩ := List.mem_map.mp hp
  exact (hes e he).length_pos

/-- A range within a data edge has a single piece. -/
theorem pieces_within {as bs : List Edge} {e : Edge} {offset : ℕ} (hbs : ∀ b ∈ bs, b.Valid)
    (hlt : edgesLength as ≤ offset) (hle : offset + n ≤ edgesLength as + e.length) (hn : 0 < n) :
    pieces (as ++ e :: bs) offset n = [⟨e, offset - edgesLength as, n⟩] := by
  rw [pieces, List.map_append, dropPieces_append_of_le (by rwa [piecesLength_map]),
    piecesLength_map, List.map_cons, dropPieces, Edge.piece, if_neg (by simp only; omega), takePieces]
  simp only [Nat.zero_add]
  split_ifs with hall h0
  · rw [show n - (e.length - (offset - edgesLength as)) = 0 by omega, takePieces_zero (pos_map hbs),
      show e.length - (offset - edgesLength as) = n by omega]
  · omega
  · rfl

/-- The data edges `ms` are those of `es` that meet the `n` bytes from `offset` on: what comes before
them ends at or before the range, what comes behind them starts at or after its end. -/
def Meets (es : List Edge) (offset n : ℕ) (ms : List Edge) : Prop :=
  ∃ as bs, es = as ++ ms ++ bs ∧ edgesLength as ≤ offset ∧ offset + n ≤ edgesLength (as ++ ms) ∧
    ∀ us e vs, ms = us ++ e :: vs →
      edgesLength (as ++ us) < offset + n ∧ offset < edgesLength (as ++ us) + e.length

private theorem meets_takePieces (hes : ∀ e ∈ es, e.Valid) (hle : n ≤ edgesLength es) :
    ∃ ms bs, es = ms ++ bs ∧ (takePieces (es.map Edge.piece) n).map Piece.edge = ms ∧
      n ≤ edgesLength ms ∧ ∀ us e vs, ms = us ++ e :: vs → edgesLength us < n := by
  induction es generalizing n with
  | nil => exact ⟨[], [], rfl, rfl, hle, by simp⟩
  | cons e es ih =>
    rw [edgesLength_cons] at hle
    by_cases hzero : n = 0
    · subst hzero
      exact ⟨[], e :: es, rfl, by rw [takePieces_zero (pos_map hes)]; rfl, le_rfl, by simp⟩
    rw [List.map_cons, takePieces]
    by_cases hall : e.piece.length ≤ n
    · rw [if_pos hall]
      simp only [Edge.piece] at hall
      obtain ⟨ms, bs, rfl, hms, hlen, hstart⟩ :=
        ih (n := n - e.length) (fun u hu ↦ hes u (List.mem_cons_of_mem _ hu)) (by omega)
      refine ⟨e :: ms, bs, rfl, by rw [List.map_cons]; exact congrArg (e :: ·) hms, ?_, ?_⟩
      · rw [edgesLength_cons]
        omega
      · intro us u vs h
        cases us with
        | nil => exact Nat.pos_of_ne_zero hzero
        | cons x us =>
          rw [List.cons_append] at h
          obtain ⟨rfl, hms'⟩ := List.cons.inj h
          have := hstart us u vs hms'
          rw [edgesLength_cons]
          omega
    · rw [if_neg hall, if_neg hzero]
      simp only [Edge.piece] at hall
      refine ⟨[e], es, rfl, rfl, ?_, ?_⟩
      · rw [edgesLength_cons, edgesLength_nil]
        omega
      · intro us u vs h
        cases us with
        | nil => exact Nat.pos_of_ne_zero hzero
        | cons x us => simp at h

/-- The pieces of a range are parts of the data edges that meet it. -/
theorem meets_pieces {offset : ℕ} (hes : ∀ e ∈ es, e.Valid) (hn : 0 < n)
    (hle : offset + n ≤ edgesLength es) :
    Meets es offset n ((pieces es offset n).map Piece.edge) := by
  induction es generalizing offset with
  | nil =>
    rw [edgesLength_nil] at hle
    omega
  | cons e es ih =>
    rw [edgesLength_cons] at hle
    have hes' : ∀ u ∈ es, u.Valid := fun u hu ↦ hes u (List.mem_cons_of_mem _ hu)
    by_cases hdrop : e.length ≤ offset
    · have hpieces : pieces (e :: es) offset n = pieces es (offset - e.length) n := by
        rw [pieces, List.map_cons, dropPieces, if_pos (show e.piece.length ≤ offset from hdrop)]
        rfl
      rw [hpieces]
      obtain ⟨as, bs, hsplit, hlo, hhi, hmeet⟩ := @ih (offset - e.length) hes' (by omega)
      refine ⟨e :: as, bs, congrArg (e :: ·) hsplit, ?_, ?_, fun us u vs h ↦ ?_⟩
      · rw [edgesLength_cons]
        omega
      · rw [List.cons_append, edgesLength_cons]
        omega
      · have := hmeet us u vs h
        rw [List.cons_append, edgesLength_cons]
        omega
    · rw [pieces, List.map_cons, dropPieces, if_neg (show ¬e.piece.length ≤ offset from hdrop),
        takePieces]
      simp only [Edge.piece, Nat.zero_add]
      by_cases hall : e.length - offset ≤ n
      · rw [if_pos hall]
        obtain ⟨ms, bs, rfl, hms, hlen, hstart⟩ :=
          meets_takePieces (n := n - (e.length - offset)) hes' (by omega)
        rw [List.map_cons, hms]
        change Meets (e :: (ms ++ bs)) offset n (e :: ms)
        refine ⟨[], bs, rfl, Nat.zero_le _, ?_, fun us u vs h ↦ ?_⟩
        · rw [List.nil_append, edgesLength_cons]
          omega
        · cases us with
          | nil =>
            obtain ⟨rfl, -⟩ := List.cons.inj h
            simp only [List.append_nil, edgesLength_nil]
            omega
          | cons x us =>
            rw [List.cons_append] at h
            obtain ⟨rfl, hms'⟩ := List.cons.inj h
            have := hstart us u vs hms'
            rw [List.nil_append, edgesLength_cons]
            omega
      · rw [if_neg hall, if_neg hn.ne']
        change Meets (e :: es) offset n [e]
        refine ⟨[], es, rfl, Nat.zero_le _, ?_, fun us u vs h ↦ ?_⟩
        · rw [List.nil_append, edgesLength_cons]
          omega
        · cases us with
          | nil =>
            obtain ⟨rfl, -⟩ := List.cons.inj h
            simp only [List.append_nil, edgesLength_nil]
            omega
          | cons x us => simp at h

omit [Target] in
/-- A range with a single piece lies within a data edge. -/
theorem exists_within {offset : ℕ} (hle : offset + n ≤ edgesLength es)
    (hone : (pieces es offset n).length = 1) :
    ∃ as e bs, es = as ++ e :: bs ∧ edgesLength as ≤ offset ∧
      offset + n ≤ edgesLength as + e.length := by
  induction es generalizing offset with
  | nil => simp [pieces, dropPieces, takePieces] at hone
  | cons e es ih =>
    rw [edgesLength_cons] at hle
    by_cases hdrop : e.length ≤ offset
    · have hpieces : pieces (e :: es) offset n = pieces es (offset - e.length) n := by
        rw [pieces, List.map_cons, dropPieces, if_pos (show e.piece.length ≤ offset from hdrop)]
        rfl
      obtain ⟨as, u, bs, rfl, hlo, hhi⟩ := ih (by omega) (hpieces ▸ hone)
      refine ⟨e :: as, u, bs, rfl, ?_, ?_⟩
      · rw [edgesLength_cons]
        omega
      · rw [edgesLength_cons]
        omega
    · refine ⟨[], e, es, rfl, Nat.zero_le _, ?_⟩
      rw [edgesLength_nil, Nat.zero_add]
      by_contra hgt
      have hpieces : pieces (e :: es) offset n = ⟨e, 0 + offset, e.length - offset⟩ ::
          takePieces (es.map Edge.piece) (n - (e.length - offset)) := by
        rw [pieces, List.map_cons, dropPieces, if_neg (show ¬e.piece.length ≤ offset from hdrop),
          takePieces, if_pos]
        · rfl
        · simp only [Edge.piece]
          omega
      rw [hpieces, List.length_cons] at hone
      have hlen := piecesLength_takePieces (es.map Edge.piece) (n - (e.length - offset))
      rw [List.length_eq_zero_iff.mp (Nat.succ_injective hone), piecesLength_nil,
        piecesLength_map] at hlen
      omega

/-- Data edges that are the pieces of a range have the bytes of the range. -/
theorem Cuts.data {offset : ℕ} (h : Cuts us (pieces es offset n)) (hes : ∀ e ∈ es, e.Valid) :
    us.flatMap Edge.data = ((es.flatMap Edge.data).drop offset).take n := by
  have hdrop := within_dropPieces (within_map hes) offset
  have hmap : (es.map Edge.piece).flatMap Piece.data = es.flatMap Edge.data := by
    rw [List.flatMap_map]
    refine List.flatMap_congr fun e he ↦ ?_
    rw [Piece.data, Edge.piece, List.drop_zero, ← (hes e he).length_data, List.take_length]
  rw [h.flatMap_data (within_takePieces hdrop n), pieces, data_takePieces hdrop,
    data_dropPieces (within_map hes), hmap]

omit [Target] in
private theorem length_dropPieces_le (ps : List Piece) (n : ℕ) :
    (dropPieces ps n).length ≤ ps.length := by
  induction ps generalizing n with
  | nil => exact le_rfl
  | cons p ps ih =>
    rw [dropPieces]
    split_ifs
    · exact (ih _).trans (Nat.le_succ _)
    · exact le_rfl

omit [Target] in
private theorem length_takePieces_le (ps : List Piece) (n : ℕ) :
    (takePieces ps n).length ≤ ps.length := by
  induction ps generalizing n with
  | nil => exact le_rfl
  | cons p ps ih =>
    rw [takePieces]
    split_ifs
    · exact Nat.succ_le_succ (ih _)
    · exact Nat.zero_le _
    · exact Nat.succ_le_succ (Nat.zero_le _)

omit [Target] in
/-- A range has no more pieces than there are data edges. -/
theorem Cuts.length_le {offset : ℕ} (h : Cuts us (pieces es offset n)) :
    us.length ≤ es.length := by
  calc us.length = (pieces es offset n).length := h.length_eq
    _ ≤ (dropPieces (es.map Edge.piece) offset).length := length_takePieces_le _ _
    _ ≤ (es.map Edge.piece).length := length_dropPieces_le _ _
    _ = es.length := List.length_map _

/-- The data edges `us` are the `n` bytes from `offset` on of `es`: they are parts of those that meet
the range, and the same data edges but for the first and the last one. -/
structure Extracts (es : List Edge) (offset n : ℕ) (us : List Edge) : Prop where
  data : us.flatMap Edge.data = ((es.flatMap Edge.data).drop offset).take n
  meets : Meets es offset n ((pieces es offset n).map Piece.edge)
  cuts : Cuts us (pieces es offset n)
  inner : ∀ as u bs, us = as ++ u :: bs → as ≠ [] → bs ≠ [] → u ∈ es

theorem Cuts.extracts {offset : ℕ} (h : Cuts us (pieces es offset n)) (hes : ∀ e ∈ es, e.Valid)
    (hn : 0 < n) (hle : offset + n ≤ edgesLength es) : Extracts es offset n us where
  data := h.data hes
  meets := meets_pieces hes hn hle
  cuts := h
  inner as u bs hus has hbs := by
    subst hus
    obtain ⟨qs, p, rs, hps, hqs, hu, hrs⟩ := h.split
    have hne : qs ≠ [] ∧ rs ≠ [] := by
      constructor
      · rintro rfl
        exact has (List.length_eq_zero_iff.mp hqs.length_eq)
      · rintro rfl
        exact hbs (List.length_eq_zero_iff.mp hrs.length_eq)
    obtain ⟨e, he, rfl⟩ := eq_piece_of_inner hps hne.1 hne.2
    exact hu.whole rfl ▸ he

end Cuts

end CordRs
