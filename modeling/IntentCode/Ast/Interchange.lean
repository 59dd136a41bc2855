import IntentCode.Ast.Table
import IntentCode.Json.Reader
import IntentCode.Json.Record
import IntentCode.Json.Writer

/-!
# Syntax trees in JSON

A table is written as one object with a member per node, keyed by the decimal number of the node.
Each node is a flat record: its links and its line, the word for its type, and the fields of its
body.

Reading needs the links and the type, and takes empty texts and lists for most of what is missing.
The members may come in any order, since every node says its own number; a node that does not have
the number it is keyed by, or a number that no node has, is reported as such. The table is accepted
only if it is a tree.
-/

set_option autoImplicit false

namespace IntentCode.Ast

open Json (Value Record.required Record.withDefault Record.nullable)

/-! ## Writing -/

/-- The word for a type in the exchanged form. -/
def NodeType.word : NodeType → String
  | .root => "Root"
  | .moduleImport => "Module"
  | .classDecl => "Class"
  | .funcDecl => "Function"
  | .varDecl => "Variable"
  | .step => "BehaviorStep"

/-- An object of strings. -/
def ofEntries (entries : OrderedMap String) : Value :=
  .object (entries.toList.map fun e => (e.1, .string e.2))

def ofStrings (texts : List String) : Value := .array (texts.map .string)

def ofNat (n : Nat) : Value := .number (.natural n)

def ofNotes (notes : Notes) : List (String × Value) :=
  [("external_desc", .string notes.description), ("intent_comment", .string notes.intent)]

/-- The fields of a body, without its type. -/
def Body.fields : Body → List (String × Value)
  | .root => []
  | .moduleImport m => [("identifier", .string m.path), ("content", .string m.content)]
  | .classDecl c =>
    ("identifier", .string c.name) :: ofNotes c.notes ++ [("inh_params", ofEntries c.bases)]
  | .funcDecl f =>
    ("identifier", .string f.name) :: ofNotes f.notes ++
      [("params", ofEntries f.params), ("param_type_refs", ofEntries f.paramRefs)]
  | .varDecl v =>
    [("identifier", .string v.name), ("content", .string v.content)] ++ ofNotes v.notes ++
      [("type_ref", ofStrings v.refs)]
  | .step s =>
    [("content", .string s.content), ("symbol_refs", ofStrings s.refs),
     ("new_block_flag", .bool s.opensBlock)]

def Node.toJson (n : Node) : Value :=
  .object
    ([("uid", ofNat n.uid),
      ("parent_uid", (n.parent.map ofNat).getD .null),
      ("children_uids", .array (n.children.map ofNat)),
      ("line_number", ofNat n.line),
      ("node_type", .string n.type.word)] ++ n.body.fields)

def Table.toJson (t : Table) : Value :=
  .object (t.toList.map fun n => (toString n.uid, n.toJson))

/-- The exchanged form of a table. -/
def Table.write (t : Table) : String := t.toJson.pretty

/-! ## Reading one node -/

/-- A type by its word, or by its place among the types. -/
def nodeType? : Value → Option NodeType
  | .string word => NodeType.all.find? fun type => type.word == word
  | .number (.natural n) => NodeType.all[n]?
  | _ => none

def entries? (v : Value) : Option (OrderedMap String) := v.stringPairs?.map .ofList

def notes? (members : List (String × Value)) : Option Notes := do
  let description ← Record.withDefault members "external_desc" Value.string? ""
  let intent ← Record.withDefault members "intent_comment" Value.string? ""
  pure ⟨description, intent⟩

/-- The body of a given type with the given fields. -/
def body? (members : List (String × Value)) : NodeType → Option Body
  | .root => some .root
  | .moduleImport => do
    let path ← Record.required members "identifier" Value.string?
    let content ← Record.required members "content" Value.string?
    pure (.moduleImport ⟨path, content⟩)
  | .classDecl => do
    let name ← Record.required members "identifier" Value.string?
    let notes ← notes? members
    let bases ← Record.withDefault members "inh_params" entries? .empty
    pure (.classDecl ⟨name, notes, bases⟩)
  | .funcDecl => do
    let name ← Record.required members "identifier" Value.string?
    let notes ← notes? members
    let params ← Record.withDefault members "params" entries? .empty
    let refs ← Record.withDefault members "param_type_refs" entries? .empty
    pure (.funcDecl ⟨name, notes, params, refs⟩)
  | .varDecl => do
    let name ← Record.required members "identifier" Value.string?
    let content ← Record.withDefault members "content" Value.string? ""
    let notes ← notes? members
    let refs ← Record.withDefault members "type_ref" Value.strings? []
    pure (.varDecl ⟨name, notes, content, refs⟩)
  | .step => do
    let content ← Record.required members "content" Value.string?
    let refs ← Record.withDefault members "symbol_refs" Value.strings? []
    let opens ← Record.withDefault members "new_block_flag" Value.bool? false
    pure (.step ⟨content, refs, opens⟩)

def words? (v : Value) : Option (List Nat) := do (← v.array?).mapM Value.word32?

/-- A node of a flat record. Which keys are known depends on the type, which may come last, so all
values have to be held. -/
def node? (v : Value) : Option Node := do
  let members ← (← v.held?).object?
  let uid ← Record.required members "uid" Value.word32?
  let parent ← Record.nullable members "parent_uid" Value.word32?
  let children ← Record.withDefault members "children_uids" words? []
  let line ← Record.required members "line_number" Value.word32?
  let body ← body? members (← Record.required members "node_type" nodeType?)
  pure ⟨uid, parent, children, line, body⟩

/-! ## Reading a table -/

/-- Why a text is no table. -/
inductive ReadFault where
  | notATable
  | uidMismatch (key : String) (uid : Nat)
  /-- No node has this number, but a later one exists or the table is empty at it. -/
  | gap (uid : Nat)
  | notATree (fault : Table.Fault)
deriving DecidableEq, Inhabited

def ReadFault.message : ReadFault → String
  | notATable => "invalid AST document"
  | uidMismatch key uid => s!"node keyed `{key}` declares uid {uid}"
  | gap uid => (Table.Fault.missingNode uid).message
  | notATree fault => fault.message

/-- The nodes of keyed members, with the number that each is keyed by. -/
def keyedNodes (members : OrderedMap Node) : Except ReadFault (List Node) :=
  members.toList.mapM fun e =>
    if e.1 = toString e.2.uid then .ok e.2 else .error (.uidMismatch e.1 e.2.uid)

/-- The table of nodes with the numbers `0, 1, 2, …`, in any order. -/
def tableOf (nodes : List Node) : Except ReadFault Table :=
  let sorted := nodes.mergeSort fun a b => decide (a.uid ≤ b.uid)
  match (sorted.zipIdx).find? fun p => p.1.uid != p.2 with
  | some (_, i) => .error (.gap i)
  | none => .ok ⟨sorted.toArray⟩

/-- The tree that a text holds. -/
def Table.read (text : String) : Except ReadFault Table := do
  let some (v, rest) := Json.readValue text.toList | throw .notATable
  let some members := v.object? | throw .notATable
  let some nodes := members.mapM fun m => (node? m.2).map fun n => (m.1, n) | throw .notATable
  let t ← tableOf (← keyedNodes (.ofList nodes))
  if !(Json.skipBlanks rest).isEmpty then throw .notATable
  match t.validate with
  | .ok () => pure t
  | .error fault => throw (.notATree fault)

end IntentCode.Ast
