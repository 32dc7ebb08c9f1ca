import CordRs.Iter.Chunks

/-!
# Loops over chunks

Most readers of a cord are loops `while let Some(chunk) = it.next_chunk()` or `for chunk in
chunks`. `CordRs.forNext` is such a loop over any iterator, with a body that may stop it, and
`CordRs.forNext_spec` is its invariant rule: the iterator has to yield non-empty pieces of the
bytes it denotes.

## Main definitions

* `CordRs.forNext`, `CordRs.Yields`, `CordRs.ForwardChunks.Rest`.

## Main results

* `CordRs.forNext_spec`: the rule for a loop with an invariant over the bytes already seen.
* `CordRs.ForwardChunks.yields_nextChunk`, `CordRs.Chunks.yields_next`.
-/

namespace CordRs

open RefHeap

section Loop

variable {σ τ : Type}

/-- Run `body` on each chunk until there is none left or it stops. The fuel bounds the iterations;
running out of it is a fault. -/
def forNext (next : τ → Except Fault (τ × Option Bytes))
    (body : σ → Bytes → Except Fault (ForInStep σ)) : ℕ → τ → σ → Except Fault σ
  | 0, _, _ => .error .unreachable
  | fuel + 1, it, s => do
    match ← next it with
    | (_, none) => pure s
    | (it, some chunk) =>
      match ← body s chunk with
      | .done s => pure s
      | .yield s => forNext next body fuel it s

/-- An iterator that denotes `bs` yields a non-empty chunk at the front of `bs`, and none exactly
when `bs` is empty. -/
def Yields (next : τ → Except Fault (τ × Option Bytes)) (denotes : τ → Bytes → Prop) : Prop :=
  ∀ it bs, denotes it bs → (bs = [] ∧ next it = .ok (it, none)) ∨
    ∃ it' chunk rest, next it = .ok (it', some chunk) ∧ chunk ≠ [] ∧ bs = chunk ++ rest ∧
      denotes it' rest

variable {next : τ → Except Fault (τ × Option Bytes)} {denotes : τ → Bytes → Prop}

/-- A loop keeps an invariant over the bytes already seen. -/
theorem forNext_spec (hy : Yields next denotes) (body : σ → Bytes → Except Fault (ForInStep σ))
    (I : Bytes → σ → Prop) (Q : σ → Prop) {all : Bytes}
    (hbody : ∀ seen chunk rest s, all = seen ++ chunk ++ rest → chunk ≠ [] → I seen s →
      (∃ s', body s chunk = .ok (.yield s') ∧ I (seen ++ chunk) s') ∨
        ∃ s', body s chunk = .ok (.done s') ∧ Q s')
    (hend : ∀ s, I all s → Q s) {it : τ} {seen bs : Bytes} {s : σ} {fuel : ℕ}
    (hall : all = seen ++ bs) (hd : denotes it bs) (hI : I seen s) (hfuel : bs.length < fuel) :
    ∃ s', forNext next body fuel it s = .ok s' ∧ Q s' := by
  induction fuel generalizing it seen bs s with
  | zero => omega
  | succ fuel ih =>
    rcases hy it bs hd with ⟨rfl, hrun⟩ | ⟨it', chunk, rest, hrun, hne, rfl, hd'⟩
    · refine ⟨s, ?_, hend s (by rwa [hall, List.append_nil])⟩
      simp only [forNext, hrun, ok_bind]
      rfl
    · have hall' : all = seen ++ chunk ++ rest := by rw [hall, List.append_assoc]
      rcases hbody seen chunk rest s hall' hne hI with ⟨s', hb, hI'⟩ | ⟨s', hb, hQ⟩
      · have hpos := List.length_pos_iff.mpr hne
        rw [List.length_append] at hfuel
        obtain ⟨s'', hloop, hQ⟩ := ih hall' hd' hI' (by omega)
        refine ⟨s'', ?_, hQ⟩
        simp only [forNext, hrun, ok_bind, hb, hloop]
      · refine ⟨s', ?_, hQ⟩
        simp only [forNext, hrun, ok_bind, hb]
        rfl

end Loop

variable [Target]

/-- The iteration has exactly the bytes `bs` left. -/
def ForwardChunks.Rest (it : ForwardChunks) (bs : Bytes) : Prop :=
  ∃ src pos, src.Valid ∧ it.Inv src pos 0 ∧ bs = src.bytes.drop pos

theorem ForwardChunks.Rest.length_eq {it : ForwardChunks} {bs : Bytes} (hr : it.Rest bs) :
    bs.length = it.bytesRemaining := by
  obtain ⟨src, pos, -, hi, rfl⟩ := hr
  have := hi.total
  rw [List.length_drop]
  omega

theorem ForwardChunks.yields_nextChunk : Yields ForwardChunks.nextChunk ForwardChunks.Rest := by
  rintro it bs hr
  have hlen := hr.length_eq
  obtain ⟨src, pos, hs, hi, rfl⟩ := hr
  rcases ForwardChunks.nextChunk_spec hi hs with ⟨hz, hrun⟩ | ⟨it', hrun, hne, hi'⟩
  · exact .inl ⟨List.eq_nil_of_length_eq_zero (by omega), hrun⟩
  · obtain ⟨rest, hdrop⟩ := hi.chunk_prefix hs
    refine .inr ⟨it', _, rest, hrun, hne, hdrop.symm, src, _, hs, hi', ?_⟩
    rw [← List.drop_drop, ← hdrop, List.drop_left]

theorem ForwardChunks.new_rest {c : Cord Rep} (hs : c.source.Valid) :
    ∃ it, ForwardChunks.new c = .ok it ∧ it.Rest c.bytes := by
  obtain ⟨it, hrun, hi⟩ := ForwardChunks.new_spec hs
  exact ⟨it, hrun, c.source, 0, hs, hi, rfl⟩

theorem Chunks.yields_next : Yields Chunks.next Chunks.Denotes := by
  intro cs bs hd
  exact Chunks.next_spec hd

end CordRs
