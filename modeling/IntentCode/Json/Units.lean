import IntentCode.Json.Value

/-!
# String literals

A string is read in two steps. The literal is taken apart into units: a character that stands for
itself or has a short escape is its code point, and `\u` with four hexadecimal digits is the number
that they denote. Then the units are joined to characters: a high and a low surrogate make one
character, and a surrogate on its own makes none, so there are literals that no string has.
-/

set_option autoImplicit false

namespace IntentCode.Json

/-! ## Units of a literal -/

def hexValue? (c : Char) : Option Nat :=
  if '0' ≤ c ∧ c ≤ '9' then some (c.toNat - '0'.toNat)
  else if 'a' ≤ c ∧ c ≤ 'f' then some (c.toNat - 'a'.toNat + 10)
  else if 'A' ≤ c ∧ c ≤ 'F' then some (c.toNat - 'A'.toNat + 10)
  else none

/-- The value of four hexadecimal digits. -/
def hexWord? (a b c d : Char) : Option Nat := do
  pure (16 * (16 * (16 * (← hexValue? a) + (← hexValue? b)) + (← hexValue? c)) + (← hexValue? d))

def shortEscape? : Char → Option Char
  | '"' => some '"'
  | '\\' => some '\\'
  | '/' => some '/'
  | 'b' => some '\x08'
  | 'f' => some '\x0c'
  | 'n' => some '\n'
  | 'r' => some '\r'
  | 't' => some '\t'
  | _ => none

/-- The units of a literal whose opening quote has been read, and what follows the literal. -/
def literalTail : List Char → Option (List Nat × List Char)
  | [] => none
  | '"' :: cs => some ([], cs)
  | '\\' :: 'u' :: a :: b :: c :: d :: cs => do
    let unit ← hexWord? a b c d
    let (units, rest) ← literalTail cs
    pure (unit :: units, rest)
  | '\\' :: e :: cs => do
    let c ← shortEscape? e
    let (units, rest) ← literalTail cs
    pure (c.toNat :: units, rest)
  | c :: cs =>
    if c.toNat < 0x20 ∨ c = '\\' then none
    else do
      let (units, rest) ← literalTail cs
      pure (c.toNat :: units, rest)

/-! ## Joining units -/

def isHighSurrogate (n : Nat) : Bool := 0xD800 ≤ n && n < 0xDC00

def isLowSurrogate (n : Nat) : Bool := 0xDC00 ≤ n && n < 0xE000

/-- The character of a surrogate pair. -/
def pairedChar (high low : Nat) : Char :=
  .ofNat (0x10000 + (high - 0xD800) * 0x400 + (low - 0xDC00))

/-- The characters of units, if every surrogate is in a pair. -/
def joined? : List Nat → Option (List Char)
  | [] => some []
  | unit :: units =>
    if isHighSurrogate unit then
      match units with
      | low :: units =>
        if isLowSurrogate low then (joined? units).map (pairedChar unit low :: ·) else none
      | [] => none
    else if isLowSurrogate unit then none
    else (joined? units).map (Char.ofNat unit :: ·)

/-- The string of units, if there is one. -/
def text? (units : List Nat) : Option String := (joined? units).map .ofList

end IntentCode.Json
