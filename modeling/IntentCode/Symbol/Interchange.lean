import IntentCode.Json.Reader
import IntentCode.Json.Record
import IntentCode.Json.Writer
import IntentCode.Symbol.Metadata

/-!
# Symbol tables in JSON

A table is written as its tree, an object of nested objects, and its metadata, an object with one
record per symbol. The record starts with the kind of the symbol. A description that folders and
files do not have, and the tags of a symbol that is not local, are left out and are restored when
they are missing.
-/

set_option autoImplicit false

namespace IntentCode

open Json (Value Record.required Record.withDefault Record.nullable)

/-! ## Writing -/

def SymbolTree.jsonMembers : SymbolTree → List (String × Value)
  | .empty => []
  | .entry name below beside => (name, .object below.jsonMembers) :: beside.jsonMembers

def SymbolTree.toJson (t : SymbolTree) : Value := .object t.jsonMembers

/-- The tags of a symbol, each only if it is set. -/
def Origin.fields (o : Origin) : List (String × Value) :=
  (if o.isLocal then [("__is_local__", .bool true)] else []) ++
  (o.file.toList.map fun f => ("__local_file__", .string f))

/-- The fields of a declaration; `own` are those of its kind. -/
def SymbolInfo.fields (info : SymbolInfo) (own : List (String × Value)) : List (String × Value) :=
  [("visibility", .string info.visibility.text), ("description", .string info.description),
   ("normalized_name", .string info.normalizedName)] ++ own ++ info.origin.fields

def parameterFields (params : OrderedMap String) : Value :=
  .object (params.toList.map fun e => (e.1, .string e.2))

/-- The word for the kind of a symbol. -/
def Metadata.kindWord : Metadata → String
  | .folder _ => "folder"
  | .file _ => "file"
  | .ofClass .. => "class"
  | .ofFunction .. => "function"
  | .ofVariable .. => "variable"

def Metadata.fields : Metadata → List (String × Value)
  | .folder description | .file description =>
    description.toList.map fun d => ("description", .string d)
  | .ofClass info params => info.fields [("init_parameters", parameterFields params)]
  | .ofFunction info params => info.fields [("parameters", parameterFields params)]
  | .ofVariable info scope => info.fields [("scope", .string scope.text)]

def Metadata.toJson (m : Metadata) : Value := .object (("type", .string m.kindWord) :: m.fields)

def SymbolTable.toJson (s : SymbolTable) : Value :=
  .object
    [("tree", s.tree.toJson),
     ("metadata", .object (s.metadata.toList.map fun e => (e.1, e.2.toJson)))]

/-- The exchanged form of a table. -/
def SymbolTable.write (s : SymbolTable) : String := s.toJson.pretty

/-! ## Reading trees -/

mutual

/-- The tree of nested objects. -/
def symbolTree? : Value → Option SymbolTree
  | .object members => symbolMembers? .empty members
  | _ => none
termination_by structural v => v

/-- Enters the members one by one; of two with the same key the later tree stays. -/
def symbolMembers? (t : SymbolTree) : List (String × Value) → Option SymbolTree
  | [] => some t
  | m :: rest =>
    match symbolMember? m with
    | some (name, below) => symbolMembers? (t.insert name below) rest
    | none => none
termination_by structural l => l

def symbolMember? : String × Value → Option (String × SymbolTree)
  | (name, v) => (symbolTree? v).map fun below => (name, below)
termination_by structural m => m

end

/-! ## Reading metadata -/

/-- A word, or the object whose only key is the word and which holds nothing. -/
def word? : Value → Option String
  | .string s => some s
  | .object [(s, .null)] => some s
  | .object [(s, .object [])] => some s
  | _ => none

def parameters? (v : Value) : Option (OrderedMap String) := v.stringPairs?.map .ofList

def symbolInfo? (members : List (String × Value)) : Option SymbolInfo := do
  let visibility ←
    Record.withDefault members "visibility" (fun v => (word? v).bind Visibility.ofText?) .unstated
  let description ← Record.withDefault members "description" Value.string? ""
  let normalizedName ← Record.withDefault members "normalized_name" Value.string? ""
  let isLocal ← Record.withDefault members "__is_local__" Value.bool? false
  let file ← Record.nullable members "__local_file__" Value.string?
  pure ⟨visibility, description, normalizedName, ⟨isLocal, file⟩⟩

/-- The metadata of the given kind with the given fields. -/
def metadataOf? (members : List (String × Value)) : String → Option Metadata
  | "folder" => (Record.nullable members "description" Value.string?).map .folder
  | "file" => (Record.nullable members "description" Value.string?).map .file
  | "class" => do
    let params ← Record.withDefault members "init_parameters" parameters? .empty
    pure (.ofClass (← symbolInfo? members) params)
  | "function" => do
    let params ← Record.withDefault members "parameters" parameters? .empty
    pure (.ofFunction (← symbolInfo? members) params)
  | "variable" => do
    let scope ← Record.required members "scope" fun v => (word? v).bind VariableScope.ofText?
    pure (.ofVariable (← symbolInfo? members) scope)
  | _ => none

/-- The metadata that a record holds. Folders and files may also be written as an array. Which keys
are known depends on the kind, which may come last, so all values have to be held. -/
def metadata? (v : Value) : Option Metadata := do
  match ← v.held? with
  | .object members => metadataOf? members (← Record.required members "type" Value.string?)
  | .array (.string kind :: values) =>
    if kind == "folder" || kind == "file" then
      metadataOf? (← Json.Record.members? ["description"] (.array values)) kind
    else none
  | _ => none

/-! ## Reading tables -/

def metadataMap? (v : Value) : Option (OrderedMap Metadata) := do
  let entries ← (← v.object?).mapM fun m => (metadata? m.2).map fun d => (m.1, d)
  pure (.ofList entries)

def symbolTable? (v : Value) : Option SymbolTable := do
  let members ← Json.Record.members? ["tree", "metadata"] v
  let tree ← Record.required members "tree" symbolTree?
  let metadata ← Record.required members "metadata" metadataMap?
  pure ⟨tree, metadata⟩

/-- The table that a text holds. -/
def SymbolTable.read (text : String) : Option SymbolTable := do symbolTable? (← Json.read text)

/-- The metadata of one symbol that a text holds. -/
def Metadata.read (text : String) : Option Metadata := do metadata? (← Json.read text)

end IntentCode
