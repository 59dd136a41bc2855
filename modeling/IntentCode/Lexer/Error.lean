import IntentCode.Diagnostic

/-!
# What stops the lexer

Once the indentation or the pairing of `$` is broken, the tokens after it mean nothing, so a lexer
error ends the file. The causes are few and each has its code and its wording. Only one finding is
not fatal: a reference with nothing between its two `$` is dropped with a warning.
-/

set_option autoImplicit false

namespace IntentCode

namespace LexError

inductive Cause where
  | tabIndentation
  /-- Deeper than the line before by a number of columns that no level has. -/
  | indentNotMultiple (width unit : Nat)
  | indentJump (fromLevel toLevel : Nat)
  | inconsistentDedent (width : Nat)
  | unpairedDollar (count : Nat)
  | continuationColon
  | continuationAtEnd
deriving DecidableEq, Inhabited

def Cause.code : Cause → Diagnostic.Code
  | .tabIndentation => .tabIndentation
  | .indentNotMultiple .. => .indentNotMultiple
  | .indentJump .. => .indentJump
  | .inconsistentDedent _ => .inconsistentDedent
  | .unpairedDollar _ => .unpairedDollar
  | .continuationColon => .continuationColon
  | .continuationAtEnd => .continuationAtEnd

def Cause.message : Cause → String
  | .tabIndentation => "tab used in indentation"
  | .indentNotMultiple width unit =>
    s!"indentation of {width} columns is not a multiple of {unit}"
  | .indentJump fromLevel toLevel =>
    s!"indentation jumped from level {fromLevel} to level {toLevel}"
  | .inconsistentDedent width => s!"dedent to {width} columns does not match any enclosing block"
  | .unpairedDollar count => s!"unpaired `$`: found {count} delimiters"
  | .continuationColon => "backslash continuation line cannot end with colon"
  | .continuationAtEnd => "backslash continuation at end of file"

end LexError

/-- A cause with the physical line that shows it. -/
structure LexError where
  cause : LexError.Cause
  line : Nat
  content : String
deriving DecidableEq, Inhabited

namespace LexError

def message (e : LexError) : String := s!"line {e.line}: {e.cause.message}"

def diagnostic (e : LexError) : Diagnostic :=
  .error e.cause.code e.cause.message e.line e.content

end LexError

/-- A reference with nothing between its two `$`. -/
structure EmptyReference where
  line : Nat
  content : String
deriving DecidableEq, Inhabited

def EmptyReference.diagnostic (w : EmptyReference) : Diagnostic :=
  .warning .emptyReference "empty `$$` reference ignored" w.line w.content

end IntentCode
