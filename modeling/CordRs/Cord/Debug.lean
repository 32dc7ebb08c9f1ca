import CordRs.Btree.Append
import CordRs.ByteLiteral
import CordRs.Cord.Read
import CordRs.Iter.Loop

/-!
# Debug output

A cord is printed chunk by chunk as a byte string literal.

## Main definitions

* `CordRs.Cord.debug`.

## Main results

* `CordRs.Cord.debug_reads_back`: the literal has the bytes of the cord, however these are stored.
-/

namespace CordRs

open ByteLiteral RefHeap

section Target

variable [Target]

/-- Print a chunk. -/
def debugChunk (text : List Char) (chunk : Bytes) : Except Fault (ForInStep (List Char)) :=
  pure (.yield (text ++ escapeAscii chunk))

/-- Print a cord. -/
def Cord.debug (c : Cord Rep) : Except Fault (List Char) := do
  let text := ['b', '"']
  let it ← ForwardChunks.new c
  let text ← forNext ForwardChunks.nextChunk debugChunk (it.bytesRemaining + 1) it text
  pure (text ++ ['"'])

end Target

section Rules

variable [Target] {c : Cord Rep}

/-- The chunks are printed one behind the other. -/
theorem Cord.debug_eq (hc : c.Valid) : c.debug = .ok (literal c.bytes) := by
  obtain ⟨it, hrun, hrest⟩ := ForwardChunks.new_rest hc.source
  have hlen := hrest.length_eq
  have hloop : ∃ text, forNext ForwardChunks.nextChunk debugChunk (it.bytesRemaining + 1) it
      ['b', '"'] = .ok text ∧ text = 'b' :: '"' :: escapeAscii c.bytes := by
    refine forNext_spec ForwardChunks.yields_nextChunk debugChunk
      (fun seen text ↦ text = 'b' :: '"' :: escapeAscii seen) _ ?_ (fun _ htext ↦ htext)
      (List.nil_append _).symm hrest rfl (by omega)
    rintro seen chunk rest text - - rfl
    refine .inl ⟨_, rfl, ?_⟩
    rw [escapeAscii_append]
    rfl
  obtain ⟨text, hloop, rfl⟩ := hloop
  rw [debug, hrun, ok_bind, hloop]
  rfl

/-- A cord prints as a literal of printable characters that reads back as its bytes, and as other
cords do exactly if they have the same bytes. -/
theorem Cord.debug_reads_back (hc : c.Valid) : ∃ text, c.debug = .ok text ∧
    readLiteral text = some c.bytes ∧ (∀ ch ∈ text, Printable ch) ∧
    ∀ c' : Cord Rep, c'.Valid → (c'.debug = .ok text ↔ c'.bytes = c.bytes) := by
  refine ⟨literal c.bytes, debug_eq hc, readLiteral_literal _, fun ch hch ↦
    printable_of_mem_literal hch, fun c' hc' ↦ ?_⟩
  rw [debug_eq hc', Except.ok.injEq]
  exact literal_injective.eq_iff

end Rules

/-- Two flats print as an inline cord with their bytes does. -/
theorem Cord.debug_reads_back_pair :
    letI : Target := ⟨64, .inr rfl⟩
    ∃ text, (Cord.tree pairTree).debug = .ok text ∧ readLiteral text = some [1, 2, 3] ∧
      (Cord.inline (.ofBytes [1, 2, 3])).debug = .ok text := by
  let _ : Target := ⟨64, .inr rfl⟩
  have hc : Cord.Valid (.tree pairTree) := ⟨1, by decide, holding_sharedPair.valid⟩
  obtain ⟨text, hrun, hread, -, hsame⟩ := debug_reads_back hc
  have hc' : Cord.Valid (.inline (.ofBytes [1, 2, 3])) := InlineData.wellFormed_ofBytes (by decide)
  exact ⟨text, hrun, hread, (hsame _ hc').mpr rfl⟩

end CordRs
