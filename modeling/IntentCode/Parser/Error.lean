import IntentCode.Diagnostic

/-!
# Token streams that do not parse

A lexer puts at most one `indent` before a line or some `dedent` tokens, never closes more levels than
it has opened, has no layout inside a line and ends with the end of the file. Where a token stream does
otherwise, parsing stops: nothing that a source says can lead there.
-/

set_option autoImplicit false

namespace IntentCode.Parser

inductive ParseError where
  | missingEnd
  | layoutInsideLine (line : Nat)
  | secondIndent (line : Nat)
  | indentAfterDedent (line : Nat)
  | dedentBelowTop (line : Nat)
deriving DecidableEq, Inhabited

namespace ParseError

def line : ParseError → Nat
  | missingEnd => 0
  | layoutInsideLine n | secondIndent n | indentAfterDedent n | dedentBelowTop n => n

/-- What the layout tokens do that no lexer produces. -/
def detail : ParseError → String
  | missingEnd => ""
  | layoutInsideLine _ => "layout token inside a line"
  | secondIndent _ => "more than one INDENT for a line"
  | indentAfterDedent _ => "INDENT after DEDENT"
  | dedentBelowTop _ => "DEDENT below top level"

def message (e : ParseError) : String :=
  match e with
  | missingEnd => "token stream does not end with EOF"
  | e => s!"line {e.line}: corrupted token stream: {e.detail}"

def diagnostic (e : ParseError) : Diagnostic :=
  .error .corruptedStream e.message e.line ""

end ParseError

end IntentCode.Parser
