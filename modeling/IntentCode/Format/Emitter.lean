/-!
# Building indented text

Text grows at its end, a fragment, a line ending or an indentation at a time. `endLine` brings the
text into the form of a file: if there is any text it ends with a line ending, and with only one.
-/

set_option autoImplicit false

namespace IntentCode.Format

structure Emitter where
  buffer : String
  /-- Spaces per level. -/
  indentSize : Nat
deriving DecidableEq, Inhabited

namespace Emitter

def new (indentSize : Nat) : Emitter := ⟨"", indentSize⟩

def isEmpty (e : Emitter) : Bool := e.buffer.isEmpty

def emit (e : Emitter) (text : String) : Emitter := { e with buffer := e.buffer ++ text }

def newline (e : Emitter) : Emitter := e.emit "\n"

def indent (e : Emitter) (level : Nat) : Emitter :=
  e.emit (.ofList (List.replicate (level * e.indentSize) ' '))

/-- Leaves one of the line endings at the front of a reversed text. -/
def dropExtraBreaks : List Char → List Char
  | '\n' :: '\n' :: cs => dropExtraBreaks ('\n' :: cs)
  | cs => cs

/-- A reversed text that ends with exactly one line ending, unless it is empty. -/
def endBreak (reversed : List Char) : List Char :=
  match dropExtraBreaks reversed with
  | [] => []
  | '\n' :: cs => '\n' :: cs
  | c :: cs => '\n' :: c :: cs

def endLine (e : Emitter) : Emitter :=
  { e with buffer := .ofList (endBreak e.buffer.toList.reverse).reverse }

end Emitter

end IntentCode.Format
