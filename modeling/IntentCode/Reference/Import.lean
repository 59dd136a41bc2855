import IntentCode.Ast.Table
import IntentCode.OrderedMap
import IntentCode.Symbol.Path

/-!
# Imports

A `module` line makes a file known under an alias, the last name of its path. A later line with the
same alias takes the place of the earlier one.
-/

set_option autoImplicit false

namespace IntentCode

structure Import where
  /-- The dotted path of the file. -/
  path : String
  description : String
  line : Nat
deriving DecidableEq, Inhabited

namespace Import

/-- The first name of the path. -/
def package (i : Import) : String := (SymbolPath.names i.path).head?.getD i.path

/-- The last name of the path. -/
def aliasName (i : Import) : String := (SymbolPath.names i.path).getLast?.getD i.path

end Import

/-- Imports by alias, in the order in which the aliases first appear. -/
structure Imports where
  byAlias : OrderedMap Import
deriving DecidableEq, Inhabited

namespace Imports

def empty : Imports := ⟨.empty⟩

def insert (s : Imports) (i : Import) : Imports := ⟨s.byAlias.insert i.aliasName i⟩

def get? (s : Imports) (name : String) : Option Import := s.byAlias.get? name

def size (s : Imports) : Nat := s.byAlias.size

def isEmpty (s : Imports) : Bool := s.byAlias.isEmpty

/-- The imports of a file, in the order of its nodes. -/
def ofAst (t : Ast.Table) : Imports :=
  t.toList.foldl
    (fun s n =>
      match n.body with
      | .moduleImport m => s.insert ⟨m.path, m.content, n.line⟩
      | _ => s)
    empty

end Imports

end IntentCode
