import IntentCode.Ast.Node
import IntentCode.Parser.Finding
import IntentCode.Text.Blank

/-!
# What one line declares

The content tokens of a line determine a node body on their own; which bodies may stand where is
not decided here. A line that does not start with a keyword is a step. A line that does has a name,
and then either a text after a colon (modules, variables) or a list in parentheses (classes,
functions) and nothing more.

The list is cut in two scans. `untilClose` finds the parenthesis that matches the opening one, and
`cutCommas` cuts what lies between at the commas that are inside no further parentheses.

A colon at the end of a step, a class or a function announces a block and is not part of its text.
-/

set_option autoImplicit false

namespace IntentCode.Parser

open Ast

/-- The body that a line declares, and whether the line announces a block with a colon. -/
structure LineNode where
  body : Body
  explicit : Bool
  /-- Names that occur a second time in the list of the line. -/
  repeated : List Complaint
deriving DecidableEq, Inhabited

/-- Whether an indented block may follow. -/
def LineNode.acceptsBlock (l : LineNode) : Bool :=
  l.explicit || l.body.type = .classDecl || l.body.type = .funcDecl

def endsWithColon (ts : List Token) : Bool := (ts.getLast?.map Token.kind) = some .colon

/-- The tokens without a colon at the end, and whether there was one. -/
def stripColon (ts : List Token) : List Token × Bool :=
  if endsWithColon ts then (ts.dropLast, true) else (ts, false)

/-! ## Names -/

/-- A declared name is one identifier without blanks. -/
def name? (what : String) : List Token → Except HeaderFault (String × List Token)
  | [] => .error (.nameMissing what none)
  | t :: ts =>
    if t.kind ≠ .identifier then .error (.nameMissing what (some t.kind))
    else if Text.containsBlank t.text then .error (.blankInName what t.text)
    else .ok (t.text, ts)

/-! ## Lists in parentheses -/

/-- The tokens before the parenthesis that closes the current one, and the tokens after it, with
`depth` further parentheses open. -/
def untilClose (depth : Nat) : List Token → Option (List Token × List Token)
  | [] => none
  | t :: ts =>
    match t.kind, depth with
    | .closeParen, 0 => some ([], ts)
    | .closeParen, depth + 1 => (untilClose depth ts).map fun r => (t :: r.1, r.2)
    | .openParen, depth => (untilClose (depth + 1) ts).map fun r => (t :: r.1, r.2)
    | _, depth => (untilClose depth ts).map fun r => (t :: r.1, r.2)

/-- How a token changes the number of parentheses that are open. -/
def depthAfter (depth : Nat) : Token.Kind → Nat
  | .openParen => depth + 1
  | .closeParen => depth - 1
  | _ => depth

/-- The groups between the commas at depth zero. -/
def cutCommas (depth : Nat) : List Token → List (List Token)
  | [] => [[]]
  | t :: ts =>
    if t.kind = .comma ∧ depth = 0 then [] :: cutCommas depth ts
    else match cutCommas (depthAfter depth t.kind) ts with
      | [] => [[t]]
      | g :: gs => (t :: g) :: gs

/-- A name of a list and the tokens that describe it. -/
structure Entry where
  name : String
  description : List Token
deriving DecidableEq, Inhabited

/-- The name that the first token of an entry gives; a base class may be a reference. -/
def entryName? (allowRefs : Bool) (t : Token) : Except HeaderFault String :=
  match t.kind with
  | .identifier =>
    if Text.containsBlank t.text then .error (.blankInEntryName t.text) else .ok t.text
  | .reference => if allowRefs then .ok t.display else .error (.entryNameMissing t.kind)
  | kind => .error (.entryNameMissing kind)

def entryOf? (allowRefs : Bool) : List Token → Except HeaderFault Entry
  | [] => .error .emptyEntry
  | t :: ts => do
    let name ← entryName? allowRefs t
    match ts with
    | [] => .ok ⟨name, []⟩
    | u :: us =>
      if u.kind = .colon then .ok ⟨name, us⟩ else .error (.afterEntryName name u.kind)

/-- The entries of a list in parentheses, and the tokens after it; no entries if there is no
list. -/
def parenEntries (allowRefs : Bool) (ts : List Token) :
    Except HeaderFault (List Entry × List Token) :=
  match ts with
  | [] => .ok ([], [])
  | t :: inside =>
    if t.kind ≠ .openParen then .ok ([], t :: inside)
    else match untilClose 0 inside with
      | none => .error .unclosedParen
      | some ([], rest) => .ok ([], rest)
      | some (inner, rest) => do return (← (cutCommas 0 inner).mapM (entryOf? allowRefs), rest)

/-- A class or function header ends after its list. -/
def noMore (what : String) : List Token → Except HeaderFault Unit
  | [] => .ok ()
  | t :: _ => .error (.afterHeader what t.kind)

/-- A list with the names that occur again left out, and those names. -/
def distinctEntries (entries : List Entry) : List Entry × List String :=
  entries.foldl
    (fun r e =>
      if (r.1.map Entry.name).contains e.name then (r.1, r.2 ++ [e.name]) else (r.1 ++ [e], r.2))
    ([], [])

/-- What each entry of a list says about its name. -/
def descriptions (entries : List Entry) : OrderedMap String :=
  .ofList (entries.map fun e => (e.name, Token.render e.description))

/-- The first reference in each entry that has one. -/
def firstReferences (entries : List Entry) : OrderedMap String :=
  .ofList (entries.filterMap fun e =>
    (Token.references e.description).head?.map fun r => (e.name, r))

/-! ## The declarations -/

/-- The text after the colon that follows a name; `fault` says what stands there instead. -/
def textAfterColon (fault : Token.Kind → HeaderFault) :
    List Token → Except HeaderFault (List Token)
  | [] => .ok []
  | t :: ts => if t.kind = .colon then .ok ts else .error (fault t.kind)

def moduleLine (ts : List Token) : Except HeaderFault LineNode := do
  let (path, ts) ← name? "module" ts
  let text ← textAfterColon .afterModulePath ts
  return ⟨.moduleImport ⟨path, Token.render text⟩, false, []⟩

def variableLine (ts : List Token) : Except HeaderFault LineNode := do
  let (name, ts) ← name? "variable" ts
  let text ← textAfterColon .afterVariableName ts
  return ⟨.varDecl ⟨name, .none, Token.render text, Token.references text⟩, false, []⟩

def classLine (ts : List Token) : Except HeaderFault LineNode := do
  let (ts, explicit) := stripColon ts
  let (name, ts) ← name? "class" ts
  let (entries, ts) ← parenEntries true ts
  noMore "class" ts
  let (entries, repeated) := distinctEntries entries
  return ⟨.classDecl ⟨name, .none, descriptions entries⟩, explicit,
    repeated.map (.repeatedEntry "base class")⟩

def functionLine (ts : List Token) : Except HeaderFault LineNode := do
  let (ts, explicit) := stripColon ts
  let (name, ts) ← name? "function" ts
  let (entries, ts) ← parenEntries false ts
  noMore "function" ts
  let (entries, repeated) := distinctEntries entries
  return ⟨.funcDecl ⟨name, .none, descriptions entries, firstReferences entries⟩, explicit,
    repeated.map (.repeatedEntry "parameter")⟩

def stepLine (ts : List Token) : LineNode :=
  let (ts, explicit) := stripColon ts
  ⟨.step ⟨Token.render ts, Token.references ts, explicit⟩, explicit, []⟩

/-- The node of a line that is not a note. -/
def lineNode (ts : List Token) : Except HeaderFault LineNode :=
  match ts with
  | [] => .ok (stepLine [])
  | t :: rest =>
    if t.kind ≠ .keyword then .ok (stepLine ts)
    else match t.text with
      | "module" => moduleLine rest
      | "var" => variableLine rest
      | "class" => classLine rest
      | "func" => functionLine rest
      | word => .error (.noDeclaration word)

end IntentCode.Parser
