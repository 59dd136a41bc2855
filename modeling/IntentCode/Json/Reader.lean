import IntentCode.Json.Numeral
import IntentCode.Json.Units

/-!
# Reading JSON

The grammar is strict: no leading zeros, no trailing commas, no raw control characters in strings,
nothing but blanks around the value. What follows the grammar is read, even where its value cannot
be held; then `Value.unheld` stands in its place:

* for a string with a surrogate that is not in a pair, and for an object with such a key,
* for a number that is not finite in binary64,
* for a container inside 127 others.

Whether that matters is for the reader of the value to say. A record may skip it in a member that it
does not know.

A value is read off the front of the characters and what follows it is returned. `budget` counts the
containers that may still be opened. `fuel` only makes the recursion structural: every two calls
consume a character, so twice the length of the text is enough, and `readValue` starts with that.
-/

set_option autoImplicit false

namespace IntentCode.Json

/-! ## Blanks -/

def isJsonBlank (c : Char) : Bool := c = ' ' || c = '\n' || c = '\t' || c = '\r'

def skipBlanks (cs : List Char) : List Char := cs.dropWhile isJsonBlank

/-! ## What is held -/

def stringValue (units : List Nat) : Value :=
  match text? units with
  | some s => .string s
  | none => .unheld

/-- The object with the given members, the keys given by their units. -/
def objectValue (members : List (List Nat × Value)) : Value :=
  match members.mapM fun m => (text? m.1).map fun key => (key, m.2) with
  | some members => .object members
  | none => .unheld

/-- A container, if it may be opened at all. -/
def within (budget : Nat) (v : Value) : Value := if budget = 0 then .unheld else v

/-! ## Values -/

mutual

def value? (fuel budget : Nat) (cs : List Char) : Option (Value × List Char) :=
  match fuel with
  | 0 => none
  | fuel + 1 =>
    match skipBlanks cs with
    | 'n' :: 'u' :: 'l' :: 'l' :: cs => some (.null, cs)
    | 't' :: 'r' :: 'u' :: 'e' :: cs => some (.bool true, cs)
    | 'f' :: 'a' :: 'l' :: 's' :: 'e' :: cs => some (.bool false, cs)
    | '"' :: cs => (literalTail cs).map fun r => (stringValue r.1, r.2)
    | '[' :: cs =>
      match skipBlanks cs with
      | ']' :: cs => some (within budget (.array []), cs)
      | cs => (items? fuel (budget - 1) cs).map fun r => (within budget (.array r.1), r.2)
    | '\x7b' :: cs =>
      match skipBlanks cs with
      | '\x7d' :: cs => some (within budget (.object []), cs)
      | cs => (members? fuel (budget - 1) cs).map fun r => (within budget (objectValue r.1), r.2)
    | cs => (numeral? cs).map fun r => (r.1.value, r.2)

/-- The items of an array up to its closing bracket; at least one. -/
def items? (fuel budget : Nat) (cs : List Char) : Option (List Value × List Char) :=
  match fuel with
  | 0 => none
  | fuel + 1 => do
    let (v, cs) ← value? fuel budget cs
    match skipBlanks cs with
    | ']' :: cs => pure ([v], cs)
    | ',' :: cs =>
      let (vs, cs) ← items? fuel budget cs
      pure (v :: vs, cs)
    | _ => none

/-- The members of an object up to its closing brace, each key by its units; at least one. -/
def members? (fuel budget : Nat) (cs : List Char) :
    Option (List (List Nat × Value) × List Char) :=
  match fuel with
  | 0 => none
  | fuel + 1 =>
    match skipBlanks cs with
    | '"' :: cs => do
      let (key, cs) ← literalTail cs
      match skipBlanks cs with
      | ':' :: cs =>
        let (v, cs) ← value? fuel budget cs
        match skipBlanks cs with
        | '\x7d' :: cs => pure ([(key, v)], cs)
        | ',' :: cs =>
          let (ms, cs) ← members? fuel budget cs
          pure ((key, v) :: ms, cs)
        | _ => none
      | _ => none
    | _ => none

end

/-- Containers may be nested this deep and no deeper. -/
def maxDepth : Nat := 127

/-- The value at the front of a text, and the characters after it. -/
def readValue (cs : List Char) : Option (Value × List Char) :=
  value? (2 * cs.length + 2) maxDepth cs

/-- The value of a text that holds one value and otherwise only blanks. -/
def read (text : String) : Option Value := do
  let (v, rest) ← readValue text.toList
  if (skipBlanks rest).isEmpty then pure v else none

end IntentCode.Json
