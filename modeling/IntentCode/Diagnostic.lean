/-!
# Diagnostics

Every phase reports what it finds as a diagnostic: a code that names the class of the problem, a
message, the source line it points at, and, where there are any, notes and ranked suggestions.

A code is identified by what it means. How it is written (`Code.text`) is a property of it: an `E`
and four digits, of which the first is the phase that reports it, and `Code.phase` reads it there.
-/

set_option autoImplicit false

namespace IntentCode

namespace Diagnostic

/-! ## Codes -/

inductive Code where
  | tabIndentation
  | indentNotMultiple
  | indentJump
  | inconsistentDedent
  | unpairedDollar
  | continuationColon
  | emptyReference
  | continuationAtEnd
  | notAllowedHere
  | lateModule
  | malformedDeclaration
  | unexpectedIndentation
  | expectedBlock
  | detachedNote
  | duplicateName
  | corruptedStream
  | unscopedReference
  | selfOutsideClass
  | unknownMember
  | unknownModule
  | unknownSymbol
  | duplicateConstructor
  | internal
deriving DecidableEq, Inhabited

namespace Code

def all : List Code :=
  [tabIndentation, indentNotMultiple, indentJump, inconsistentDedent, unpairedDollar,
   continuationColon, emptyReference, continuationAtEnd, notAllowedHere, lateModule,
   malformedDeclaration, unexpectedIndentation, expectedBlock, detachedNote, duplicateName,
   corruptedStream, unscopedReference, selfOutsideClass, unknownMember, unknownModule,
   unknownSymbol, duplicateConstructor, internal]

def text : Code → String
  | tabIndentation => "E0001"
  | indentNotMultiple => "E0002"
  | indentJump => "E0003"
  | inconsistentDedent => "E0004"
  | unpairedDollar => "E0005"
  | continuationColon => "E0006"
  | emptyReference => "E0007"
  | continuationAtEnd => "E0008"
  | notAllowedHere => "E1001"
  | lateModule => "E1002"
  | malformedDeclaration => "E1003"
  | unexpectedIndentation => "E1004"
  | expectedBlock => "E1005"
  | detachedNote => "E1006"
  | duplicateName => "E1007"
  | corruptedStream => "E1008"
  | unscopedReference => "E2001"
  | selfOutsideClass => "E2002"
  | unknownMember => "E2003"
  | unknownModule => "E2004"
  | unknownSymbol => "E2005"
  | duplicateConstructor => "E2006"
  | internal => "E9001"

/-- The class of problems that the code stands for. -/
def description : Code → String
  | tabIndentation => "tab used in indentation"
  | indentNotMultiple => "indentation is not a multiple of the indent unit"
  | indentJump => "indentation jumped more than one level"
  | inconsistentDedent => "inconsistent dedent"
  | unpairedDollar => "unpaired `$` delimiter"
  | continuationColon => "backslash continuation line cannot end with colon"
  | emptyReference => "empty `$$` reference"
  | continuationAtEnd => "backslash continuation at end of file"
  | notAllowedHere => "node not allowed here"
  | lateModule => "module import after declarations"
  | malformedDeclaration => "malformed declaration"
  | unexpectedIndentation => "unexpected indentation"
  | expectedBlock => "expected an indented block"
  | detachedNote => "detached description or intent comment"
  | duplicateName => "duplicate name"
  | corruptedStream => "corrupted token stream"
  | unscopedReference => "single-segment reference"
  | selfOutsideClass => "`self` used outside a class"
  | unknownMember => "unknown member of enclosing class"
  | unknownModule => "unknown module"
  | unknownSymbol => "symbol not found in module"
  | duplicateConstructor => "duplicate constructor"
  | internal => "internal error"

/-- The code written as `text`. -/
def ofText? (text : String) : Option Code := all.find? fun c => c.text == text

/-- The digit after the `E`: lexer, parser, resolver, or the front end itself. -/
def phase (c : Code) : Char := (c.text.toList[1]?).getD ' '

def isLexer (c : Code) : Bool := c.phase = '0'

def isParser (c : Code) : Bool := c.phase = '1'

def isResolver (c : Code) : Bool := c.phase = '2'

end Code

/-! ## Severity and suggestions -/

inductive Severity where
  | error
  | warning
deriving DecidableEq, Inhabited

def Severity.text : Severity → String
  | .error => "error"
  | .warning => "warning"

/-- A name that was probably meant, with its description if one is known. -/
structure Suggestion where
  candidate : String
  description : Option String
deriving DecidableEq, Inhabited

def Suggestion.display (s : Suggestion) : String :=
  match s.description with
  | some d => s!"`{s.candidate}` ({d})"
  | none => s!"`{s.candidate}`"

end Diagnostic

/-! ## The diagnostic -/

structure Diagnostic where
  code : Diagnostic.Code
  severity : Diagnostic.Severity
  message : String
  /-- The source line, counted from one; zero if there is none. -/
  line : Nat
  /-- The line as quoted in the report. -/
  content : String
  suggestions : List Diagnostic.Suggestion
  notes : List String
deriving DecidableEq, Inhabited

namespace Diagnostic

/-- An error with neither notes nor suggestions. -/
def error (code : Code) (message : String) (line : Nat) (content : String) : Diagnostic :=
  ⟨code, .error, message, line, content, [], []⟩

def warning (code : Code) (message : String) (line : Nat) (content : String) : Diagnostic :=
  ⟨code, .warning, message, line, content, [], []⟩

def isError (d : Diagnostic) : Bool := d.severity = .error

def isWarning (d : Diagnostic) : Bool := d.severity = .warning

/-- The suggestions as they are listed in a report. -/
def suggestionList (d : Diagnostic) : String :=
  String.intercalate ", " (d.suggestions.map Suggestion.display)

/-- The message on one line, with the suggestions after it. -/
def fullMessage (d : Diagnostic) : String :=
  if d.suggestions.isEmpty then d.message
  else s!"{d.message}; did you mean: {d.suggestionList}?"

/-- The lines of the printed report. -/
def reportLines (d : Diagnostic) : List String :=
  [s!"{d.severity.text} [{d.code.text}]: {d.message}"] ++
  (if d.line > 0 then
    s!"  --> line {d.line}" :: (if d.content.isEmpty then [] else [s!"   | {d.content}"])
   else []) ++
  d.notes.map (fun note => s!"   = note: {note}") ++
  (if d.suggestions.isEmpty then [] else [s!"   = help: did you mean {d.suggestionList}?"])

/-- The printed report, every line ended. -/
def display (d : Diagnostic) : String := String.join (d.reportLines.map (· ++ "\n"))

end Diagnostic

end IntentCode
