import IntentCode.Json.Numeral
import IntentCode.Json.Writer
import Mathlib.Data.Nat.Log
import Mathlib.Tactic.NormNum

/-!
# Natural numbers in JSON

A natural number is written with its decimal digits and nothing else. Read back, they are a whole part
without a leading zero, so the digits are taken together and nothing of what follows, as long as it does
not go on like a numeral (`numeral?_toDigits`). A number below `2 ^ 64` is far from the end of the range and
is held (`value_natural`).
-/

set_option autoImplicit false

namespace IntentCode.Json

/-! ## Digits -/

theorem ne_of_isDigit {c b : Char} (hc : c.isDigit = true) (hb : b.isDigit = false) : c ≠ b := by
  rintro rfl
  rw [hc] at hb
  cases hb

theorem exists_toDigits (n : Nat) :
    ∃ c cs, Nat.toDigits 10 n = c :: cs ∧ c.isDigit = true := by
  obtain ⟨c, cs, hcs⟩ := List.exists_cons_of_ne_nil (Nat.toDigits_ne_nil (n := n) (b := 10))
  have hmem : c ∈ Nat.toDigits 10 n := by
    rw [hcs]
    exact List.mem_cons_self
  exact ⟨c, cs, hcs, Nat.isDigit_of_mem_toDigits (by decide) (by decide) hmem⟩

theorem head?_toDigits_ne_zero {n : Nat} (h : 0 < n) : (Nat.toDigits 10 n).head? ≠ some '0' := by
  induction n using Nat.strongRecOn with
  | ind n ih =>
    rw [Nat.toDigits_eq_if (by decide)]
    split
    · next hlt =>
      have hdigits : ∀ d < 10, 0 < d → [Nat.digitChar d].head? ≠ some '0' := by decide
      exact hdigits n hlt h
    · next hge =>
      rw [List.head?_append, Option.or_of_isSome (by simp [Nat.toDigits_ne_nil])]
      exact ih (n / 10) (Nat.div_lt_self h (by decide)) (by omega)

/-- The number of the digits that a number is written with. -/
theorem decimalValue_toDigits (n : Nat) : decimalValue 0 (Nat.toDigits 10 n) = n :=
  Nat.ofDigitChars_toDigits (by decide) (by decide)

theorem eq_of_toString_eq {n m : Nat} (h : toString n = toString m) : n = m := by
  have hdigits : Nat.toDigits 10 n = Nat.toDigits 10 m := String.ofList_injective h
  rw [← decimalValue_toDigits n, hdigits, decimalValue_toDigits]

theorem le_decimalValue (acc : Nat) (digits : List Char) : acc ≤ decimalValue acc digits := by
  induction digits generalizing acc with
  | nil => exact Nat.le_refl acc
  | cons c digits ih =>
    have hnext : 10 * acc + digitValue c ≤ decimalValue acc (c :: digits) :=
      ih (10 * acc + digitValue c)
    omega

/-! ## Reading digits -/

/-- What follows a numeral and is not part of it. -/
def Stops (rest : List Char) : Prop :=
  ∀ c ∈ rest.head?, c.isDigit = false ∧ c ≠ '.' ∧ c ≠ 'e' ∧ c ≠ 'E'

theorem stops_nil : Stops [] := by
  intro c hc
  cases hc

theorem stops_cons {c : Char} {cs : List Char} :
    Stops (c :: cs) ↔ c.isDigit = false ∧ c ≠ '.' ∧ c ≠ 'e' ∧ c ≠ 'E' := by
  simp [Stops]

section

variable {rest : List Char} (h : Stops rest)

include h

theorem takeWhile_toDigits (n : Nat) :
    (Nat.toDigits 10 n ++ rest).takeWhile Char.isDigit = Nat.toDigits 10 n ∧
      (Nat.toDigits 10 n ++ rest).dropWhile Char.isDigit = rest := by
  have hdigits : ∀ c ∈ Nat.toDigits 10 n, c.isDigit = true :=
    fun c hc => Nat.isDigit_of_mem_toDigits (by decide) (by decide) hc
  rw [List.takeWhile_append_of_pos hdigits, List.dropWhile_append_of_pos hdigits]
  cases rest with
  | nil => simp
  | cons c rest =>
    have hc := (stops_cons.mp h).1
    simp [hc]

theorem integerDigits?_toDigits (n : Nat) :
    integerDigits? (Nat.toDigits 10 n ++ rest) = some (Nat.toDigits 10 n, rest) := by
  obtain ⟨htake, hdrop⟩ := takeWhile_toDigits h n
  unfold integerDigits?
  simp only
  rw [htake, hdrop, if_neg]
  rintro (hnil | ⟨hzero, hlength⟩)
  · exact Nat.toDigits_ne_nil hnil
  · -- only zero itself starts with a zero
    obtain rfl | hpos := Nat.eq_zero_or_pos n
    · exact absurd hlength (by decide)
    · exact head?_toDigits_ne_zero hpos hzero

theorem fraction?_of_stops : fraction? rest = some ([], rest) := by
  unfold fraction?
  split
  · next cs => exact absurd rfl (stops_cons.mp h).2.1
  · rfl

theorem exponent?_of_stops : exponent? rest = some (none, rest) := by
  cases rest with
  | nil => rfl
  | cons c rest =>
    obtain ⟨-, -, hlower, hupper⟩ := stops_cons.mp h
    unfold exponent?
    exact if_neg (not_or.mpr ⟨hlower, hupper⟩)

/-- **The digits of a number are read back as the number**, and nothing after them is read. -/
theorem numeral?_toDigits (n : Nat) :
    numeral? (Nat.toDigits 10 n ++ rest) = some (⟨false, Nat.toDigits 10 n, [], none⟩, rest) := by
  have hunsigned : unsigned? false (Nat.toDigits 10 n ++ rest) =
      some (⟨false, Nat.toDigits 10 n, [], none⟩, rest) := by
    simp only [unsigned?, integerDigits?_toDigits h, fraction?_of_stops h, exponent?_of_stops h,
      Option.bind_eq_bind, Option.bind_some, Option.pure_def]
  rw [← hunsigned]
  unfold numeral?
  split
  · next cs hminus =>
    -- a digit is not a sign
    obtain ⟨c, digits, hdigits, hc⟩ := exists_toDigits n
    rw [hdigits, List.cons_append, List.cons.injEq] at hminus
    exact absurd hminus.1 (ne_of_isDigit hc rfl)
  · rfl

end

/-! ## The range -/

/-- Digits that fit into 64 bits are all taken. -/
theorem leading_eq {acc : Nat} {digits : List Char}
    (h : decimalValue acc digits < 0x10000000000000000) :
    Numeral.leading acc digits = (decimalValue acc digits, 0) := by
  induction digits generalizing acc with
  | nil => rfl
  | cons c digits ih =>
    have hrest : decimalValue (10 * acc + digitValue c) digits < 0x10000000000000000 := h
    have hle := le_decimalValue (10 * acc + digitValue c) digits
    rw [Numeral.leading, if_pos (Nat.lt_of_le_of_lt hle hrest), ih hrest]
    rfl

theorem roundedTo53_le {n : Nat} (h : 0 < n) : Numeral.roundedTo53 n ≤ 2 * n := by
  have hunit : Nat.pow 2 (Nat.log2 n - 52) ≤ n := by
    have hself : 2 ^ Nat.log2 n ≤ n := Nat.log2_self_le h.ne'
    exact (Nat.pow_le_pow_right (by decide) (Nat.sub_le _ _)).trans hself
  have hbelow : n / Nat.pow 2 (Nat.log2 n - 52) * Nat.pow 2 (Nat.log2 n - 52) ≤ n :=
    Nat.div_mul_le_self _ _
  unfold Numeral.roundedTo53
  simp only
  split
  · rw [Nat.add_mul, Nat.one_mul]
    omega
  · omega

theorem isFinite_of_lt {n : Nat} (h : n < 0x10000000000000000) :
    Numeral.isFinite n 0 = true := by
  unfold Numeral.isFinite
  split
  · rfl
  · next hn =>
    have hpos : 0 < n := by omega
    have hrounded := roundedTo53_le hpos
    have hone : Numeral.roundedTo53 (Nat.pow 10 (0 : Int).toNat) = 1 := by decide +kernel
    have hfar : (0x20000000000000000 : Nat) < Numeral.overflow := by decide +kernel
    rw [if_neg (by decide), hone, Nat.mul_one, decide_eq_true_iff]
    omega

/-- A number below `2 ^ 64` is held, and it is natural. -/
theorem value_natural {n : Nat} (h : n < 0x10000000000000000) :
    Numeral.value ⟨false, Nat.toDigits 10 n, [], none⟩ = .number (.natural n) := by
  have hvalue := decimalValue_toDigits n
  have hscaled : Numeral.scaled ⟨false, Nat.toDigits 10 n, [], none⟩ = (n, 0) := by
    have hleading : Numeral.leading 0 (Nat.toDigits 10 n) = (n, 0) := by
      rw [leading_eq (by rw [hvalue]; exact h), hvalue]
    simp only [Numeral.scaled, hleading]
    rfl
  have hnumber : Numeral.number ⟨false, Nat.toDigits 10 n, [], none⟩ = .natural n := by
    simp only [Numeral.number, hvalue]
    rfl
  unfold Numeral.value
  rw [hscaled]
  simp only
  rw [if_pos (isFinite_of_lt h), hnumber]

end IntentCode.Json
