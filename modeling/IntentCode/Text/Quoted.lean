import IntentCode.Text.Visible

/-!
# Quoted text

The token listing shows each token's text between double quotes, so that leading blanks, line
endings and marks that do not print can be read off the line. The usual five characters have a
short escape; everything else that cannot be shown on its own is written by its code point, as
lower-case hexadecimal digits in braces. A single quote stays as it is.
-/

set_option autoImplicit false

namespace IntentCode.Text

/-- A character by its code point. -/
def escapedCode (c : Char) : List Char :=
  ['\\', 'u', '\x7b'] ++ Nat.toDigits 16 c.toNat ++ ['\x7d']

def quotedChar (c : Char) : List Char :=
  match c with
  | '"' => ['\\', '"']
  | '\\' => ['\\', '\\']
  | '\t' => ['\\', 't']
  | '\n' => ['\\', 'n']
  | '\r' => ['\\', 'r']
  | '\x00' => ['\\', '0']
  | c => if isExtending c || isUnprintable c then escapedCode c else [c]

/-- The text between double quotes, with escapes. -/
def quoted (s : String) : String := .ofList ('"' :: s.toList.flatMap quotedChar ++ ['"'])

end IntentCode.Text
