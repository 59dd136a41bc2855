import IntentCode.Diagnostic
import IntentCode.Format
import IntentCode.Reference.Import
import IntentCode.Symbol.Declared
import IntentCode.Text.Ranking

/-!
# References

A reference is written `$scope.name$`, with more names after further dots and perhaps a call or an
index at the end, which is ignored. Its first name decides what the rest is looked up in:

* `self` is the class around the reference, and only the next name is looked up, as a member of it;
* the alias of an import stands for the path of the imported file;
* a package that is listed as external is not looked into;
* any other name is taken for the beginning of a symbol path.

Looking up is asking whether the view has an entry at the path; nothing else about the entry
matters. A reference without an entry is reported once for every place where it is written, with
the names that come closest to what was asked for.
-/

set_option autoImplicit false

namespace IntentCode.Reference

open Ast

/-! ## Reading a reference -/

/-- The names of a reference, each trimmed, without what follows an opening bracket. -/
def segments (raw : String) : List String :=
  let path := (Text.trim raw.toList).takeWhile fun c => c ≠ '(' && c ≠ '['
  (Text.cutAt '.' path).map fun name => .ofList (Text.trim name)

/-! ## What can be wrong -/

inductive Fault where
  /-- One name only. -/
  | unscoped (raw : String)
  | selfOutsideClass (raw : String)
  | unknownMember (path member raw : String)
  /-- The import at `path` has no symbol `wanted`. -/
  | unknownSymbol (path wanted raw : String)
  | unknownModule (first raw : String)
deriving DecidableEq, Inhabited

namespace Fault

def code : Fault → Diagnostic.Code
  | unscoped _ => .unscopedReference
  | selfOutsideClass _ => .selfOutsideClass
  | unknownMember .. => .unknownMember
  | unknownSymbol .. => .unknownSymbol
  | unknownModule .. => .unknownModule

def message : Fault → String
  | unscoped raw => s!"reference `${raw}$` has no scope; write it as `scope.symbol`"
  | selfOutsideClass raw => s!"`${raw}$` uses `self` outside of a class"
  | unknownMember path member raw => s!"class `{path}` has no member `{member}` (in `${raw}$`)"
  | unknownSymbol path wanted raw =>
    s!"`{wanted}` not found in module `{path}` (in `${raw}$`)"
  | unknownModule first raw => s!"unknown module `{first}` in `${raw}$`"

def notes : Fault → List String
  | unknownModule .. => ["the scope is not an imported module or a visible symbol"]
  | _ => []

end Fault

/-- An unresolved reference, with what may have been meant. -/
structure Issue where
  fault : Fault
  suggestions : List Diagnostic.Suggestion
deriving DecidableEq, Inhabited

/-! ## Where to look -/

structure Config where
  maxSuggestions : Nat
  /-- Names less similar than this are not suggested. -/
  minSimilarity : Float
  /-- The name of the method that initializes an instance. -/
  initializer : String
deriving Inhabited

def Config.default : Config := ⟨3, 0.6, "__init__"⟩

/-- What the references of one file are looked up in. -/
structure Scope where
  view : SymbolTable
  imports : Imports
  /-- Packages whose references are never checked. -/
  external : List String
  /-- Files whose names are worth suggesting as modules. -/
  related : List String
deriving Inhabited

namespace Scope

def has (s : Scope) (path : String) : Bool := s.view.metadata.contains path

/-- The description of a visible symbol. -/
def describe? (s : Scope) (path : String) : Option String := do
  (← s.view.metadata.get? path).description?

def isExternal (s : Scope) (package : String) : Bool := s.external.contains package

/-- The modules a reference could name, with their descriptions. -/
def modules (s : Scope) : List (String × Option String) :=
  (s.imports.byAlias.toList.map fun e =>
    (e.1, if e.2.description.isEmpty then none else some e.2.description)) ++
  (s.external.map fun lib => (lib, none)) ++
  s.related.filterMap fun file =>
    let names := FilePath.segments file
    names.getLast?.map fun name => (name, s.describe? (SymbolPath.join names))

end Scope

def Config.rank (c : Config) (name : String) (candidates : List String) : List String :=
  Text.rank name c.minSimilarity c.maxSuggestions candidates

/-! ## Looking up -/

/-- The members of a class that come closest to `member`. -/
def memberSuggestions (config : Config) (scope : Scope) (path member : String) :
    List Diagnostic.Suggestion :=
  let members := ((scope.view.tree.getPath? (SymbolPath.names path)).map SymbolTree.names).getD []
  (config.rank member members).map fun name =>
    ⟨"self." ++ name, scope.describe? (path ++ "." ++ name)⟩

/-- A reference to a member of the class around the node `uid`. -/
def checkSelf (config : Config) (t : Table) (scope : Scope) (uid : Nat) (raw : String)
    (rest : List String) : Option Issue :=
  match t.enclosingClass? uid with
  | none => some ⟨.selfOutsideClass raw, []⟩
  | some c => do
    let member ← rest.head?
    let path ← t.symbolPath? c.uid
    if scope.has (path ++ "." ++ member) then none
    else some ⟨.unknownMember path member raw, memberSuggestions config scope path member⟩

/-- The symbols of an imported file that come closest to `wanted`. -/
def symbolSuggestions (config : Config) (scope : Scope) (first path wanted : String) :
    List Diagnostic.Suggestion :=
  let start := path ++ "."
  let members := scope.view.metadata.keys.filterMap fun p => Text.afterStart? p start
  (config.rank wanted members).map fun name =>
    ⟨first ++ "." ++ name, scope.describe? (start ++ name)⟩

/-- A reference through the alias of an import. -/
def checkImport (config : Config) (scope : Scope) (raw first : String) (i : Import)
    (rest : List String) : Option Issue :=
  let wanted := SymbolPath.join rest
  if scope.isExternal i.package || scope.has (i.path ++ "." ++ wanted) then none
  else some ⟨.unknownSymbol i.path wanted raw, symbolSuggestions config scope first i.path wanted⟩

/-- The modules that come closest to `first`. -/
def moduleSuggestions (config : Config) (scope : Scope) (first : String) :
    List Diagnostic.Suggestion :=
  (config.rank first (scope.modules.map Prod.fst)).map fun name =>
    ⟨name, (scope.modules.lookup name).getD none⟩

/-- A reference whose first name is not the alias of an import. -/
def checkPath (config : Config) (scope : Scope) (raw first : String) (rest : List String) :
    Option Issue :=
  if scope.isExternal first || scope.has (SymbolPath.join (first :: rest)) then none
  else some ⟨.unknownModule first raw, moduleSuggestions config scope first⟩

/-- What is wrong with a reference at the node `uid`, if anything. -/
def check (config : Config) (t : Table) (scope : Scope) (uid : Nat) (raw : String) :
    Option Issue :=
  match segments raw with
  | "self" :: rest => checkSelf config t scope uid raw rest
  | [] | [_] => some ⟨.unscoped raw, []⟩
  | first :: rest =>
    match scope.imports.get? first with
    | some i => checkImport config scope raw first i rest
    | none => checkPath config scope raw first rest

/-! ## All references of a file -/

/-- An issue at a node. -/
def Issue.diagnostic (t : Table) (n : Node) (i : Issue) : Diagnostic :=
  { code := i.fault.code
    severity := .error
    message := i.fault.message
    line := n.line
    content := (Format.nodeLine? t n.uid).getD ""
    suggestions := i.suggestions
    notes := i.fault.notes }

/-- The unresolved references of a file, in the order of its nodes. -/
def resolve (config : Config) (t : Table) (scope : Scope) : List Diagnostic :=
  t.toList.flatMap fun n =>
    n.body.references.filterMap fun raw =>
      (check config t scope n.uid raw).map (Issue.diagnostic t n)

end IntentCode.Reference
