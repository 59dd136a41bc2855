import IntentCode.Ast.NodeType
import IntentCode.Diagnostic
import IntentCode.Token

/-!
# What the parser complains about

The parser drops or keeps a line and goes on, and each complaint names what was wrong. A complaint
is a value of `Complaint`; its code, its wording and its note are functions of that value, so a
statement about which lines are reported never has to look into a message.

`HeaderFault` is the finer cause of a malformed declaration.
-/

set_option autoImplicit false

namespace IntentCode.Parser

/-! ## Malformed declarations -/

/-- What is wrong with the words of a line that starts with a keyword. `what` is the declaration
that the line starts, `found` the token that stands where something else is needed. -/
inductive HeaderFault where
  | blankInName (what : String) (name : String)
  | nameMissing (what : String) (found : Option Token.Kind)
  | unclosedParen
  | emptyEntry
  | blankInEntryName (name : String)
  | entryNameMissing (found : Token.Kind)
  | afterEntryName (name : String) (found : Token.Kind)
  | afterHeader (what : String) (found : Token.Kind)
  | afterModulePath (found : Token.Kind)
  | afterVariableName (found : Token.Kind)
  | noDeclaration (word : String)
  | descriptionWithoutColon
deriving DecidableEq, Inhabited

def HeaderFault.message : HeaderFault → String
  | blankInName what name => s!"{what} name `{name}` cannot contain whitespace"
  | nameMissing what (some found) => s!"expected {what} name, found {found.describe}"
  | nameMissing what none => s!"expected {what} name"
  | unclosedParen => "unclosed `(`"
  | emptyEntry => "empty entry in parameter list"
  | blankInEntryName name => s!"parameter name `{name}` cannot contain whitespace"
  | entryNameMissing found => s!"expected a name in parameter list, found {found.describe}"
  | afterEntryName name found => s!"expected `:` or `,` after `{name}`, found {found.describe}"
  | afterHeader what found => s!"unexpected {found.describe} after {what} header"
  | afterModulePath found => s!"expected `:` after module path, found {found.describe}"
  | afterVariableName found => s!"expected `:` after variable name, found {found.describe}"
  | noDeclaration word => s!"`{word}` cannot start a declaration here"
  | descriptionWithoutColon => "expected `:` after `description`"

/-! ## Complaints -/

/-- The two kinds of line that describe a declaration. -/
inductive NoteKind where
  | description
  | intent
deriving DecidableEq, Inhabited

def NoteKind.describe : NoteKind → String
  | description => "description"
  | intent => "intent comment"

inductive Complaint where
  | notAllowed (found scope : Ast.NodeType) (allowed : Ast.NodeSet)
  | lateModule
  | malformed (fault : HeaderFault)
  | unexpectedIndentation
  | expectedBlock
  | detachedNote (kind : NoteKind)
  /-- A parameter or a base class occurs twice in one list. -/
  | repeatedEntry (what name : String)
  /-- A second declaration of a name in one scope. -/
  | redeclared (type : Ast.NodeType) (name : String)
deriving DecidableEq, Inhabited

namespace Complaint

def code : Complaint → Diagnostic.Code
  | notAllowed .. => .notAllowedHere
  | lateModule => .lateModule
  | malformed _ => .malformedDeclaration
  | unexpectedIndentation => .unexpectedIndentation
  | expectedBlock => .expectedBlock
  | detachedNote _ => .detachedNote
  | repeatedEntry .. | redeclared .. => .duplicateName

/-- Only a note without a declaration is a warning. -/
def severity : Complaint → Diagnostic.Severity
  | detachedNote _ => .warning
  | _ => .error

def scopePhrase : Ast.NodeType → String
  | .root => "at top level"
  | type => s!"inside a {type.describe}"

def message : Complaint → String
  | notAllowed found scope allowed =>
    s!"{found.describe} not allowed {scopePhrase scope}; expected {allowed.describe}"
  | lateModule => "module import after other declarations"
  | malformed fault => fault.message
  | unexpectedIndentation => "unexpected indentation; the previous line does not open a block"
  | expectedBlock => "expected an indented block after `:`"
  | detachedNote kind => s!"{kind.describe} is not attached to any declaration"
  | repeatedEntry what name => s!"duplicate {what} `{name}`; the first one is kept"
  | redeclared type name => s!"{type.describe} `{name}` is already declared in this scope"

def notes : Complaint → List String
  | lateModule => ["all `module` lines must come before the first class, func or var"]
  | unexpectedIndentation => ["the indented block was skipped"]
  | _ => []

/-- The line is dropped and leaves nothing in the tree. -/
def rejects : Complaint → Bool
  | notAllowed .. | lateModule | malformed _ => true
  | _ => false

end Complaint

/-- A complaint about a source line, quoted in canonical spacing. -/
structure Finding where
  complaint : Complaint
  line : Nat
  content : String
deriving DecidableEq, Inhabited

def Finding.diagnostic (f : Finding) : Diagnostic :=
  { code := f.complaint.code
    severity := f.complaint.severity
    message := f.complaint.message
    line := f.line
    content := f.content
    suggestions := []
    notes := f.complaint.notes }

end IntentCode.Parser
