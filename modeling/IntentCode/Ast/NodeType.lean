/-!
# Node types and sets of them

The grammar is about six types of node, and it is stated with sets of the five that a line can
produce. A set says for each of the five whether it is a member. The root is in no set.

A set also has a number, one bit per type. `describe` lists the members in the order of those bits,
which is the order in which a message names them.
-/

set_option autoImplicit false

namespace IntentCode.Ast

inductive NodeType where
  | root
  | moduleImport
  | classDecl
  | funcDecl
  | varDecl
  | step
deriving DecidableEq, Inhabited

namespace NodeType

def all : List NodeType := [root, moduleImport, classDecl, funcDecl, varDecl, step]

/-- What a message calls a node of this type. -/
def describe : NodeType → String
  | root => "root"
  | moduleImport => "module"
  | classDecl => "class"
  | funcDecl => "function"
  | varDecl => "variable"
  | step => "behavior step"

/-- The word that starts a line of this type, if one does. -/
def keyword? : NodeType → Option String
  | moduleImport => some "module"
  | classDecl => some "class"
  | funcDecl => some "func"
  | varDecl => some "var"
  | root | step => none

/-- Classes, functions and variables are declared in a scope and carry notes. -/
def isDeclaration : NodeType → Bool
  | classDecl | funcDecl | varDecl => true
  | _ => false

end NodeType

structure NodeSet where
  moduleImport : Bool
  classDecl : Bool
  funcDecl : Bool
  varDecl : Bool
  step : Bool
deriving DecidableEq, Inhabited

namespace NodeSet

def empty : NodeSet := ⟨false, false, false, false, false⟩

def full : NodeSet := ⟨true, true, true, true, true⟩

def allows (s : NodeSet) : NodeType → Bool
  | .root => false
  | .moduleImport => s.moduleImport
  | .classDecl => s.classDecl
  | .funcDecl => s.funcDecl
  | .varDecl => s.varDecl
  | .step => s.step

/-- The set of the types in a list. -/
def ofList (types : List NodeType) : NodeSet :=
  ⟨types.contains .moduleImport, types.contains .classDecl, types.contains .funcDecl,
   types.contains .varDecl, types.contains .step⟩

def toList (s : NodeSet) : List NodeType := NodeType.all.filter s.allows

def inter (s t : NodeSet) : NodeSet :=
  ⟨s.moduleImport && t.moduleImport, s.classDecl && t.classDecl, s.funcDecl && t.funcDecl,
   s.varDecl && t.varDecl, s.step && t.step⟩

/-! ## Numbers and text -/

/-- Bit 0 stands for modules, bit 4 for steps. -/
def bits (s : NodeSet) : Nat :=
  s.moduleImport.toNat + 2 * s.classDecl.toNat + 4 * s.funcDecl.toNat + 8 * s.varDecl.toNat +
    16 * s.step.toNat

/-- The set with the given bits; higher bits are ignored. -/
def ofBits (n : Nat) : NodeSet :=
  ⟨n.testBit 0, n.testBit 1, n.testBit 2, n.testBit 3, n.testBit 4⟩

/-- The members by name, or the word for none. -/
def describe (s : NodeSet) : String :=
  if s.toList.isEmpty then "nothing"
  else String.intercalate ", " (s.toList.map NodeType.describe)

end NodeSet

/-! ## Which children a scope takes -/

/-- What may come first in a scope of the given type. -/
def expectedChild : NodeType → NodeSet
  | .root => .ofList [.moduleImport, .classDecl, .funcDecl, .varDecl]
  | .classDecl => .ofList [.funcDecl, .varDecl]
  | .funcDecl => .ofList [.varDecl, .step]
  | .step => .ofList [.step]
  | .moduleImport | .varDecl => .empty

/-- What may follow a child of type `previous`: the same again, except that at the top level
modules end with the first declaration. -/
def expectedNext (scope previous : NodeType) : NodeSet :=
  match scope, previous with
  | .root, .moduleImport => expectedChild .root
  | .root, _ => .ofList [.classDecl, .funcDecl, .varDecl]
  | _, _ => expectedChild scope

end IntentCode.Ast
