/-!
# Blank characters and trimming

A source text is cut into words, references and descriptions, and every cut is trimmed. What
counts as blank is Unicode's `White_Space` property, not the ASCII blanks of `Char.isWhitespace`:
an ideographic space (U+3000) ends a keyword and is trimmed off a name, while a zero-width space
(U+200B) or a byte-order mark (U+FEFF) is an ordinary character of the text.

Everything is defined on lists of characters, where trimming is `dropWhile` from either end. The
string forms at the end only change the representation.
-/

set_option autoImplicit false

namespace IntentCode.Text

/-- The code points with the property `White_Space`, as inclusive ranges in ascending order. -/
def blankRanges : List (Nat × Nat) :=
  [(0x09, 0x0D), (0x20, 0x20), (0x85, 0x85), (0xA0, 0xA0), (0x1680, 0x1680),
   (0x2000, 0x200A), (0x2028, 0x2029), (0x202F, 0x202F), (0x205F, 0x205F), (0x3000, 0x3000)]

def isBlank (c : Char) : Bool :=
  blankRanges.any fun r => r.1 ≤ c.toNat && c.toNat ≤ r.2

/-! ## Trimming -/

def trimLeft (cs : List Char) : List Char := cs.dropWhile isBlank

def trimRight (cs : List Char) : List Char := (cs.reverse.dropWhile isBlank).reverse

def trim (cs : List Char) : List Char := trimRight (trimLeft cs)

/-- A text of blank characters only, the empty text included. -/
def isBlankText (cs : List Char) : Bool := cs.all isBlank

@[simp] theorem trim_nil : trim [] = [] := rfl

theorem trimLeft_eq_nil_iff {cs : List Char} : trimLeft cs = [] ↔ isBlankText cs = true := by
  induction cs with
  | nil => simp [trimLeft, isBlankText]
  | cons c cs ih =>
    by_cases h : isBlank c = true
    · have step : trimLeft (c :: cs) = trimLeft cs := by simp [trimLeft, h]
      rw [step, ih]
      simp [isBlankText, h]
    · simp [trimLeft, isBlankText, h]

/-! ## The same on strings -/

def trimmed (s : String) : String := .ofList (trim s.toList)

/-- Drops trailing blanks only. -/
def trimmedRight (s : String) : String := .ofList (trimRight s.toList)

def isBlankString (s : String) : Bool := isBlankText s.toList

def containsBlank (s : String) : Bool := s.toList.any isBlank

end IntentCode.Text
