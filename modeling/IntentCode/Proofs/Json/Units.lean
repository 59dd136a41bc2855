import IntentCode.Json.Units
import IntentCode.Json.Writer
import Mathlib.Data.List.Basic

/-!
# Strings in JSON

Every character is written so that reading gives its code point back (`literalTail_escapedChar`), whether it
stands for itself or is escaped. A character is not a surrogate, so no two of these units are taken for a
pair, and every string is read back as it was written (`literalTail_flatMap`, `text?_units`).
-/

set_option autoImplicit false

namespace IntentCode.Json

/-! ## One character -/

theorem hexWord?_hexDigit {n : Nat} (h : n < 0x20) :
    hexWord? '0' '0' (hexDigit (n / 16)) (hexDigit (n % 16)) = some n := by
  have hall : ∀ n < 0x20, hexWord? '0' '0' (hexDigit (n / 16)) (hexDigit (n % 16)) = some n := by
    decide
  exact hall n h

/-- A character that stands for itself. -/
theorem literalTail_plain {c : Char} (hquote : c ≠ '"') (hslash : c ≠ '\\') (h : ¬ c.toNat < 0x20)
    (cs : List Char) :
    literalTail (c :: cs) = (literalTail cs).map fun r => (c.toNat :: r.1, r.2) := by
  rw [literalTail, if_neg (not_or.mpr ⟨h, hslash⟩)]
  · cases literalTail cs <;> rfl
  · exact fun heq => hquote heq
  · exact fun _ _ _ _ _ heq => absurd heq hslash
  · exact fun _ _ heq => absurd heq hslash

/-- A character with a short escape. -/
theorem literalTail_short {e c : Char} (h : shortEscape? e = some c) (cs : List Char) :
    literalTail ('\\' :: e :: cs) = (literalTail cs).map fun r => (c.toNat :: r.1, r.2) := by
  have hu : e ≠ 'u' := by
    rintro rfl
    cases h
  rw [literalTail, h]
  · cases literalTail cs <;> rfl
  · exact fun _ _ _ _ _ heq => absurd heq hu

/-- **A written character is read as its code point.** -/
theorem literalTail_escapedChar (c : Char) (cs : List Char) :
    literalTail (escapedChar c ++ cs) = (literalTail cs).map fun r => (c.toNat :: r.1, r.2) := by
  unfold escapedChar
  split
  case h_8 hquote hslash _ _ _ _ _ =>
    split
    · next h =>
      rw [List.cons_append, List.cons_append, List.cons_append, List.cons_append, List.cons_append,
        List.cons_append, List.nil_append, literalTail, hexWord?_hexDigit h]
      cases literalTail cs <;> rfl
    · next h => exact literalTail_plain hquote hslash h cs
  all_goals exact literalTail_short rfl cs

/-! ## A whole string -/

/-- The units of a string: the code points of its characters. -/
def units (s : String) : List Nat := s.toList.map Char.toNat

/-- **A written string is read as its code points**, up to its closing quote. -/
theorem literalTail_flatMap (cs rest : List Char) :
    literalTail (cs.flatMap escapedChar ++ '"' :: rest) = some (cs.map Char.toNat, rest) := by
  induction cs with
  | nil => rfl
  | cons c cs ih =>
    rw [List.flatMap_cons, List.append_assoc, literalTail_escapedChar, ih]
    rfl

theorem stringChars_append (s : String) (rest : List Char) :
    stringChars s ++ rest = '"' :: (s.toList.flatMap escapedChar ++ '"' :: rest) := by
  simp [stringChars]

theorem not_isSurrogate (c : Char) :
    isHighSurrogate c.toNat = false ∧ isLowSurrogate c.toNat = false := by
  have hvalid : c.toNat < 0xD800 ∨ (0xDFFF < c.toNat ∧ c.toNat < 0x110000) := c.valid
  simp only [isHighSurrogate, isLowSurrogate, Bool.and_eq_false_iff, decide_eq_false_iff_not]
  omega

theorem joined?_map_toNat (cs : List Char) : joined? (cs.map Char.toNat) = some cs := by
  induction cs with
  | nil => rfl
  | cons c cs ih =>
    obtain ⟨hhigh, hlow⟩ := not_isSurrogate c
    rw [List.map_cons, joined?.eq_def]
    simp only [hhigh, hlow, ih, Bool.false_eq_true, if_false, Option.map_some, Char.ofNat_toNat]

/-- The units of a string are those of that string. -/
theorem text?_units (s : String) : text? (units s) = some s := by
  rw [text?, units, joined?_map_toNat, Option.map_some, String.ofList_toList]

end IntentCode.Json
