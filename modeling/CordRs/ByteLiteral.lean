import Mathlib.Data.List.Basic
import Mathlib.Tactic.Common

/-!
# Byte string literals

Bytes are printed as the characters that they stand for in ASCII, or as escapes. Between quotes that
is a byte string literal, and a reader of such literals gets the bytes back.

## Main definitions

* `ByteLiteral.escapeDefault`, `ByteLiteral.escapeAscii`: what is printed.
* `ByteLiteral.literal`, `ByteLiteral.readLiteral`: literals, and a reader of them.

## Main results

* `ByteLiteral.readLiteral_literal`: a literal reads back as its bytes.
* `ByteLiteral.printable_of_mem_literal`: a literal has printable characters only.
-/

namespace ByteLiteral

/-! ### Printing -/

/-- A hexadecimal digit. -/
def hexDigit (n : ℕ) : Char :=
  if n < 10 then .ofNat (48 + n) else .ofNat (87 + n)

/-- What is printed for a byte. -/
def escapeDefault (b : UInt8) : List Char :=
  if b = 9 then ['\\', 't']
  else if b = 13 then ['\\', 'r']
  else if b = 10 then ['\\', 'n']
  else if b = 39 then ['\\', '\'']
  else if b = 34 then ['\\', '"']
  else if b = 92 then ['\\', '\\']
  else if 32 ≤ b.toNat ∧ b.toNat ≤ 126 then [.ofNat b.toNat]
  else ['\\', 'x', hexDigit (b.toNat / 16), hexDigit (b.toNat % 16)]

/-- What is printed for bytes. -/
def escapeAscii (bs : List UInt8) : List Char := bs.flatMap escapeDefault

/-- The byte string literal for bytes. -/
def literal (bs : List UInt8) : List Char := 'b' :: '"' :: (escapeAscii bs ++ ['"'])

/-! ### Reading -/

/-- The value of a hexadecimal digit. -/
def hexValue (c : Char) : Option ℕ :=
  if 48 ≤ c.toNat ∧ c.toNat ≤ 57 then some (c.toNat - 48)
  else if 97 ≤ c.toNat ∧ c.toNat ≤ 102 then some (c.toNat - 87)
  else if 65 ≤ c.toNat ∧ c.toNat ≤ 70 then some (c.toNat - 55)
  else none

/-- The byte of an escape with one letter. -/
def letterValue : Char → Option UInt8
  | 't' => some 9
  | 'r' => some 13
  | 'n' => some 10
  | '0' => some 0
  | '\'' => some 39
  | '"' => some 34
  | '\\' => some 92
  | _ => none

/-- Read up to the closing quote, which has to be the end. -/
def readBody : List Char → Option (List UInt8)
  | [] => none
  | c :: cs =>
    if c = '"' then
      if cs = [] then some [] else none
    else if c = '\\' then
      match cs with
      | 'x' :: high :: low :: cs => do
        let high ← hexValue high
        let low ← hexValue low
        let bs ← readBody cs
        pure (.ofNat (16 * high + low) :: bs)
      | c :: cs => do
        let b ← letterValue c
        let bs ← readBody cs
        pure (b :: bs)
      | [] => none
    else if c.toNat < 128 then do
      let bs ← readBody cs
      pure (.ofNat c.toNat :: bs)
    else
      none

/-- Read a byte string literal. -/
def readLiteral : List Char → Option (List UInt8)
  | 'b' :: '"' :: cs => readBody cs
  | _ => none

/-! ### Round trip -/

variable {b : UInt8} {bs : List UInt8} {c : Char} {cs : List Char}

theorem hexValue_hexDigit : ∀ n < 16, hexValue (hexDigit n) = some n := by decide

theorem toNat_ofNat : ∀ n ≤ 126, (Char.ofNat n).toNat = n := by decide

theorem readBody_letter {c : Char} (hc : letterValue c = some b) (hx : c ≠ 'x') :
    readBody ('\\' :: c :: cs) = (readBody cs).map (b :: ·) := by
  rw [readBody, if_neg (by decide), if_pos rfl, hc, Option.map_eq_bind]
  · rfl
  · exact fun _ _ _ heq _ ↦ hx heq

theorem readBody_hex (b : UInt8) :
    readBody ('\\' :: 'x' :: hexDigit (b.toNat / 16) :: hexDigit (b.toNat % 16) :: cs) =
      (readBody cs).map (b :: ·) := by
  have hlt := b.toNat_lt
  have hvalue : 16 * (b.toNat / 16) + b.toNat % 16 = b.toNat := by omega
  rw [readBody, if_neg (by decide), if_pos rfl]
  simp only [hexValue_hexDigit _ (show b.toNat / 16 < 16 by omega),
    hexValue_hexDigit _ (show b.toNat % 16 < 16 by omega), Option.pure_def, Option.bind_eq_bind,
    Option.bind_some, hvalue, UInt8.ofNat_toNat, Option.map_eq_bind]
  rfl

theorem readBody_plain (hhigh : b.toNat ≤ 126) (hquote : b ≠ 34) (hback : b ≠ 92) :
    readBody (.ofNat b.toNat :: cs) = (readBody cs).map (b :: ·) := by
  have hchar := toNat_ofNat b.toNat hhigh
  have hne {c : Char} {n : UInt8} (hn : c.toNat = n.toNat) (hb : b ≠ n) :
      Char.ofNat b.toNat ≠ c := by
    intro heq
    rw [heq, hn] at hchar
    exact hb (UInt8.toNat_inj.mp hchar.symm)
  rw [readBody.eq_def]
  dsimp only
  rw [if_neg (hne (n := 34) (by decide) hquote), if_neg (hne (n := 92) (by decide) hback),
    hchar, if_pos (by omega)]
  simp only [Option.pure_def, Option.bind_eq_bind, UInt8.ofNat_toNat, Option.map_eq_bind]
  rfl

/-- What is printed for a byte reads back as the byte. -/
theorem readBody_escapeDefault (b : UInt8) (cs : List Char) :
    readBody (escapeDefault b ++ cs) = (readBody cs).map (b :: ·) := by
  rw [escapeDefault]
  split_ifs with htab hreturn hnewline hsingle hquote hback hplain
  · exact readBody_letter (htab ▸ rfl) (by decide)
  · exact readBody_letter (hreturn ▸ rfl) (by decide)
  · exact readBody_letter (hnewline ▸ rfl) (by decide)
  · exact readBody_letter (hsingle ▸ rfl) (by decide)
  · exact readBody_letter (hquote ▸ rfl) (by decide)
  · exact readBody_letter (hback ▸ rfl) (by decide)
  · exact readBody_plain hplain.2 hquote hback
  · exact readBody_hex b

theorem readBody_escapeAscii (bs : List UInt8) : readBody (escapeAscii bs ++ ['"']) = some bs := by
  induction bs with
  | nil => rfl
  | cons b bs ih =>
    rw [escapeAscii, List.flatMap_cons, List.append_assoc, readBody_escapeDefault, ← escapeAscii, ih]
    rfl

/-- A literal reads back as its bytes. -/
theorem readLiteral_literal (bs : List UInt8) : readLiteral (literal bs) = some bs :=
  readBody_escapeAscii bs

theorem literal_injective : Function.Injective literal := by
  intro bs bs' heq
  have hread := readLiteral_literal bs
  rw [heq, readLiteral_literal] at hread
  exact (Option.some.inj hread).symm

theorem escapeAscii_append (bs bs' : List UInt8) :
    escapeAscii (bs ++ bs') = escapeAscii bs ++ escapeAscii bs' := List.flatMap_append

/-! ### Printable characters -/

/-- A character that can be printed. -/
def Printable (c : Char) : Prop := 32 ≤ c.toNat ∧ c.toNat ≤ 126

instance : DecidablePred Printable := fun _ ↦ inferInstanceAs (Decidable (_ ∧ _))

theorem printable_hexDigit : ∀ n < 16, Printable (hexDigit n) := by decide

theorem printable_of_mem_escapeDefault (hc : c ∈ escapeDefault b) : Printable c := by
  have hpair {c' : Char} (hc' : Printable c') (hmem : c ∈ ['\\', c']) : Printable c := by
    obtain rfl | rfl := List.mem_pair.mp hmem
    · decide
    · exact hc'
  have hlt := b.toNat_lt
  rw [escapeDefault] at hc
  split_ifs at hc with htab hreturn hnewline hsingle hquote hback hplain
  · exact hpair (by decide) hc
  · exact hpair (by decide) hc
  · exact hpair (by decide) hc
  · exact hpair (by decide) hc
  · exact hpair (by decide) hc
  · exact hpair (by decide) hc
  · obtain rfl := List.mem_singleton.mp hc
    rwa [Printable, toNat_ofNat _ hplain.2]
  · simp only [List.mem_cons, List.not_mem_nil, or_false] at hc
    rcases hc with rfl | rfl | rfl | rfl
    · decide
    · decide
    · exact printable_hexDigit _ (by omega)
    · exact printable_hexDigit _ (by omega)

/-- A literal has printable characters only. -/
theorem printable_of_mem_literal (hc : c ∈ literal bs) : Printable c := by
  rw [literal, List.mem_cons, List.mem_cons, List.mem_append, List.mem_singleton] at hc
  rcases hc with rfl | rfl | hc | rfl
  · decide
  · decide
  · obtain ⟨b, -, hc⟩ := List.mem_flatMap.mp hc
    exact printable_of_mem_escapeDefault hc
  · decide

end ByteLiteral
