import IntentCode.Diagnostic
import IntentCode.Json.Reader
import IntentCode.Json.Record
import IntentCode.Json.Writer

/-!
# Diagnostics in JSON

A diagnostic is written as a record on one line. Empty lists of suggestions and notes are left out,
and so is a description that a suggestion does not have.
-/

set_option autoImplicit false

namespace IntentCode.Diagnostic

open Json (Value Record.required Record.withDefault Record.nullable)

/-! ## Writing -/

def Suggestion.toJson (s : Suggestion) : Value :=
  .object (("candidate", .string s.candidate) ::
    s.description.toList.map fun d => ("description", .string d))

/-- A list under its key, unless it is empty. -/
def listField (key : String) (items : List Value) : List (String × Value) :=
  if items.isEmpty then [] else [(key, .array items)]

def toJson (d : Diagnostic) : Value :=
  .object
    ([("code", .string d.code.text), ("severity", .string d.severity.text),
      ("message", .string d.message), ("line_num", .number (.natural d.line)),
      ("line_content", .string d.content)] ++
     listField "suggestions" (d.suggestions.map Suggestion.toJson) ++
     listField "notes" (d.notes.map .string))

/-- The exchanged form of a diagnostic. -/
def write (d : Diagnostic) : String := d.toJson.compact

/-! ## Reading -/

/-- A word, or the object whose only key is the word and which holds `null`. -/
def enumWord? : Value → Option String
  | .string s => some s
  | .object [(s, .null)] => some s
  | _ => none

def severity? (v : Value) : Option Severity := do
  let text ← enumWord? v
  [Severity.error, Severity.warning].find? fun s => s.text == text

def suggestion? (v : Value) : Option Suggestion := do
  let members ← Json.Record.members? ["candidate", "description"] v
  let candidate ← Record.required members "candidate" Value.string?
  let description ← Record.nullable members "description" Value.string?
  pure ⟨candidate, description⟩

def suggestions? (v : Value) : Option (List Suggestion) := do (← v.array?).mapM suggestion?

def ofJson? (v : Value) : Option Diagnostic := do
  let members ← Json.Record.members?
    ["code", "severity", "message", "line_num", "line_content", "suggestions", "notes"] v
  let code ← Record.required members "code" fun v => (enumWord? v).bind Code.ofText?
  let severity ← Record.required members "severity" severity?
  let message ← Record.required members "message" Value.string?
  let line ← Record.required members "line_num" Value.word32?
  let content ← Record.required members "line_content" Value.string?
  let suggestions ← Record.withDefault members "suggestions" suggestions? []
  let notes ← Record.withDefault members "notes" Value.strings? []
  pure ⟨code, severity, message, line, content, suggestions, notes⟩

/-- The diagnostic that a text holds. -/
def read (text : String) : Option Diagnostic := do ofJson? (← Json.read text)

end IntentCode.Diagnostic
