import IntentCode.Json.Value

/-!
# Writing JSON

Two layouts of one value. The compact one has no blanks at all. The indented one puts every element
on a line of its own, two spaces deeper than its container, and writes one space after the colon of
a member; an empty container stays `[]` or `{}` on one line.

A string is written with as few escapes as JSON allows: the quote, the backslash, and the control
characters below U+0020, of which five have a short escape. What could not be held when it was read
cannot be written either; `null` stands in its place.
-/

set_option autoImplicit false

namespace IntentCode.Json

/-! ## Strings and numbers -/

/-- A hexadecimal digit, lower case. -/
def hexDigit (n : Nat) : Char := (Nat.digitChar n)

def escapedChar (c : Char) : List Char :=
  match c with
  | '"' => ['\\', '"']
  | '\\' => ['\\', '\\']
  | '\x08' => ['\\', 'b']
  | '\x0c' => ['\\', 'f']
  | '\n' => ['\\', 'n']
  | '\r' => ['\\', 'r']
  | '\t' => ['\\', 't']
  | c =>
    if c.toNat < 0x20 then
      ['\\', 'u', '0', '0', hexDigit (c.toNat / 16), hexDigit (c.toNat % 16)]
    else [c]

def stringChars (s : String) : List Char := '"' :: s.toList.flatMap escapedChar ++ ['"']

def numberChars : Number → List Char
  | .natural n => Nat.toDigits 10 n
  | .decimal negative digits exponent =>
    (if negative then ['-'] else []) ++ Nat.toDigits 10 digits ++ 'e' :: (toString exponent).toList

def wordChars : Bool → List Char
  | true => ['t', 'r', 'u', 'e']
  | false => ['f', 'a', 'l', 's', 'e']

/-! ## The compact layout -/

mutual

def compactChars : Value → List Char
  | .null | .unheld => ['n', 'u', 'l', 'l']
  | .bool b => wordChars b
  | .number n => numberChars n
  | .string s => stringChars s
  | .array items => '[' :: compactItems items ++ [']']
  | .object members => '\x7b' :: compactMembers members ++ ['\x7d']
termination_by structural v => v

def compactItems : List Value → List Char
  | [] => []
  | v :: rest => compactChars v ++ (if rest.isEmpty then [] else ',' :: compactItems rest)
termination_by structural l => l

def compactMembers : List (String × Value) → List Char
  | [] => []
  | m :: rest => compactMember m ++ (if rest.isEmpty then [] else ',' :: compactMembers rest)
termination_by structural l => l

def compactMember : String × Value → List Char
  | (key, v) => stringChars key ++ ':' :: compactChars v
termination_by structural m => m

end

/-! ## The indented layout -/

/-- A line ending and the indentation of the next line. -/
def lineBreak (level : Nat) : List Char := '\n' :: List.replicate (2 * level) ' '

mutual

def prettyChars (level : Nat) : Value → List Char
  | .null | .unheld => ['n', 'u', 'l', 'l']
  | .bool b => wordChars b
  | .number n => numberChars n
  | .string s => stringChars s
  | .array items =>
    if items.isEmpty then ['[', ']']
    else '[' :: prettyItems (level + 1) items ++ lineBreak level ++ [']']
  | .object members =>
    if members.isEmpty then ['\x7b', '\x7d']
    else '\x7b' :: prettyMembers (level + 1) members ++ lineBreak level ++ ['\x7d']
termination_by structural v => v

def prettyItems (level : Nat) : List Value → List Char
  | [] => []
  | v :: rest =>
    lineBreak level ++ prettyChars level v ++
      (if rest.isEmpty then [] else ',' :: prettyItems level rest)
termination_by structural l => l

def prettyMembers (level : Nat) : List (String × Value) → List Char
  | [] => []
  | m :: rest =>
    lineBreak level ++ prettyMember level m ++
      (if rest.isEmpty then [] else ',' :: prettyMembers level rest)
termination_by structural l => l

def prettyMember (level : Nat) : String × Value → List Char
  | (key, v) => stringChars key ++ ':' :: ' ' :: prettyChars level v
termination_by structural m => m

end

/-- The value without any blanks. -/
def Value.compact (v : Value) : String := .ofList (compactChars v)

/-- The value over several lines, indented by two spaces. -/
def Value.pretty (v : Value) : String := .ofList (prettyChars 0 v)

end IntentCode.Json
