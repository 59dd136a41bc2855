import IntentCode.Ast.Forest
import IntentCode.Symbol.Metadata

/-!
# The symbols of one file

Classes, functions and variables declare symbols; imports and steps do not, though declarations
below an import belong to the scope around it. Declarations are searched for in classes, functions
and imports, never below a step.

`declarations` lists what a tree declares, in the order of the source and each with its path. The
symbol table is that list entered one by one: the tree gets every path, and of two declarations with
the same path the later one is described.
-/

set_option autoImplicit false

namespace IntentCode

/-! ## Visibility by name -/

/-- Whether a name that starts with two underscores also ends with two after a further character. -/
def isDunder (rest : List Char) : Bool := !rest.isEmpty && ['_', '_'].isSuffixOf rest

/-- Two leading underscores hide a name, unless two more end it; one leading underscore guards it.
A variable in a function is hidden whatever its name. -/
def Visibility.infer (name : String) (scope : Option VariableScope) : Visibility :=
  if scope = some .inFunction then .hidden
  else match name.toList with
    | '_' :: '_' :: rest => if isDunder rest then .exposed else .hidden
    | '_' :: _ => .guarded
    | _ => .exposed

namespace Ast

/-! ## Symbol paths -/

/-- The dotted path of a declaration: the names of the classes and functions around it, and its
own. -/
def Table.symbolPath? (t : Table) (uid : Nat) : Option String := do
  let n ← t.get? uid
  let name ← n.body.declaredName?
  let scopes := (t.ancestors uid).filter fun a => a.type = .classDecl || a.type = .funcDecl
  pure (SymbolPath.join ((scopes.filterMap fun a => a.body.name?).reverse ++ [name]))

/-! ## Declarations -/

/-- The scope of a variable below a node of the given type. -/
def variableScope : NodeType → VariableScope
  | .funcDecl => .inFunction
  | .classDecl => .field
  | _ => .topLevel

/-- What a declaration below a node of type `parent` stands for. -/
def Body.metadata? (parent : NodeType) : Body → Option Metadata
  | .classDecl c =>
    some (.ofClass ⟨.infer c.name none, c.notes.description, "", .foreign⟩ .empty)
  | .funcDecl f =>
    some (.ofFunction ⟨.infer f.name none, f.notes.description, "", .foreign⟩ f.params)
  | .varDecl v =>
    let scope := variableScope parent
    some (.ofVariable ⟨.infer v.name (some scope), v.notes.description, "", .foreign⟩ scope)
  | .root | .moduleImport _ | .step _ => none

/-- The declarations of sibling nodes below `path` and a node of type `parent`, where `typeOf` tells
the type of a node by its number. -/
def Forest.declarations (typeOf : Nat → NodeType) (path : List String) (parent : NodeType) :
    Forest → List (List String × Metadata)
  | .nil => []
  | .cons n below beside =>
    let inner :=
      match n.body with
      | .moduleImport _ => below.declarations typeOf path (typeOf n.uid)
      | .classDecl c => below.declarations typeOf (path ++ [c.name]) (typeOf n.uid)
      | .funcDecl f => below.declarations typeOf (path ++ [f.name]) (typeOf n.uid)
      | .root | .varDecl _ | .step _ => []
    let own :=
      match n.body.declaredName?, n.body.metadata? parent with
      | some name, some m => [(path ++ [name], m)]
      | _, _ => []
    own ++ inner ++ beside.declarations typeOf path parent

/-- Every declaration of a table, in the order of the source. -/
def Table.declarations (t : Table) : List (List String × Metadata) :=
  t.forest.declarations t.typeAt [] (t.typeAt 0)

end Ast

/-- Adds one declaration. -/
def SymbolTable.declare (s : SymbolTable) (path : List String) (m : Metadata) : SymbolTable :=
  ⟨s.tree.ensure path, s.metadata.insert (SymbolPath.join path) m⟩

/-- The symbol table of a syntax tree. -/
def SymbolTable.ofAst (t : Ast.Table) : SymbolTable :=
  t.declarations.foldl (fun s d => s.declare d.1 d.2) .empty

end IntentCode
