import IntentCode.Json.Value

/-!
# Numerals

How a number is written in JSON, what number that is, and which numbers can be held.

A numeral is taken apart into its sign, the digits before and after the point and the exponent. A
whole part has no leading zeros; a point and an exponent mark are followed by at least one digit.

A number can be held if it stays finite in binary64 when it is computed in the quick way: the digits
in front, as many as fit into 64 bits, make a whole number, which is rounded to 53 binary digits and
multiplied by a power of ten that is rounded to 53 binary digits too. Close to the greatest finite
number this is a little stricter than rounding once: `1.7976931348623158e308` is already too large.
-/

set_option autoImplicit false

namespace IntentCode.Json

/-- A numeral in its parts. `power` is missing if there is no exponent. -/
structure Numeral where
  negative : Bool
  whole : List Char
  fraction : List Char
  power : Option Int
deriving DecidableEq, Inhabited

/-! ## The number of a numeral -/

def digitValue (c : Char) : Nat := c.toNat - '0'.toNat

/-- The number that a run of decimal digits denotes, after the digits already read as `acc`. -/
def decimalValue (acc : Nat) (digits : List Char) : Nat :=
  digits.foldl (fun n c => 10 * n + digitValue c) acc

namespace Numeral

def number (n : Numeral) : Number :=
  let digits := decimalValue (decimalValue 0 n.whole) n.fraction
  if !n.negative && n.fraction.isEmpty && n.power.isNone then .natural digits
  else .decimal n.negative digits (n.power.getD 0 - n.fraction.length)

/-! ## The range -/

/-- Appends digits to `acc` as long as the number stays below `2 ^ 64`; also how many are left. -/
def leading (acc : Nat) : List Char → Nat × Nat
  | [] => (acc, 0)
  | c :: cs =>
    let next := 10 * acc + digitValue c
    if next < 0x10000000000000000 then leading next cs else (acc, cs.length + 1)

/-- The whole number that the digits in front make, and the power of ten that belongs to it. Digits
of the whole part that are left still count as places; those of the fraction do not. -/
def scaled (n : Numeral) : Nat × Int :=
  let (front, places) := leading 0 n.whole
  let (front, dropped) := leading front n.fraction
  (front, n.power.getD 0 + places - (n.fraction.length - dropped : Nat))

/-- The number with 53 binary digits that is nearest; a half goes to the even neighbour. -/
def roundedTo53 (n : Nat) : Nat :=
  let unit := Nat.pow 2 (Nat.log2 n - 52)
  let below := n / unit
  let rest := n % unit
  if 2 * rest > unit ∨ (2 * rest = unit ∧ below % 2 = 1) then (below + 1) * unit
  else below * unit

/-- The least number that rounds to more than the greatest finite binary64 number. -/
def overflow : Nat := Nat.pow 2 1024 - Nat.pow 2 970

/-- Whether `front · 10 ^ power`, both factors rounded, is finite in binary64. -/
def isFinite (front : Nat) (power : Int) : Bool :=
  if front = 0 ∨ power < 0 then true
  else if power > 308 then false
  else roundedTo53 front * roundedTo53 (Nat.pow 10 power.toNat) < overflow

/-- The number as a value. -/
def value (n : Numeral) : Value :=
  let (front, power) := n.scaled
  if isFinite front power then .number n.number else .unheld

end Numeral

/-! ## Reading a numeral -/

/-- The digits before the point: a lone zero, or digits that do not start with one. -/
def integerDigits? (cs : List Char) : Option (List Char × List Char) :=
  let digits := cs.takeWhile Char.isDigit
  if digits = [] ∨ (digits.head? = some '0' ∧ digits.length > 1) then none
  else some (digits, cs.dropWhile Char.isDigit)

/-- A non-empty run of digits. -/
def digitRun? (cs : List Char) : Option (List Char × List Char) :=
  let digits := cs.takeWhile Char.isDigit
  if digits = [] then none else some (digits, cs.dropWhile Char.isDigit)

/-- The digits after the point; none if there is no point. -/
def fraction? : List Char → Option (List Char × List Char)
  | '.' :: cs => digitRun? cs
  | cs => some ([], cs)

/-- The exponent as a number; `none` inside if there is no exponent. -/
def exponent? : List Char → Option (Option Int × List Char)
  | c :: cs =>
    if c = 'e' ∨ c = 'E' then
      match cs with
      | '-' :: cs => (digitRun? cs).map fun r => (some (-(decimalValue 0 r.1 : Int)), r.2)
      | '+' :: cs => (digitRun? cs).map fun r => (some (decimalValue 0 r.1 : Int), r.2)
      | cs => (digitRun? cs).map fun r => (some (decimalValue 0 r.1 : Int), r.2)
    else some (none, c :: cs)
  | [] => some (none, [])

/-- A numeral without its sign. -/
def unsigned? (negative : Bool) (cs : List Char) : Option (Numeral × List Char) := do
  let (whole, cs) ← integerDigits? cs
  let (fraction, cs) ← fraction? cs
  let (power, cs) ← exponent? cs
  pure (⟨negative, whole, fraction, power⟩, cs)

def numeral? : List Char → Option (Numeral × List Char)
  | '-' :: cs => unsigned? true cs
  | cs => unsigned? false cs

end IntentCode.Json
