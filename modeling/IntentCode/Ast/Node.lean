import IntentCode.Ast.NodeType
import IntentCode.OrderedMap

/-!
# Nodes

A node has a number, the number of its parent, the numbers of its children in order, the source line
it was read from, and a body that depends on what the line was. The root is the only node without a
line of its own.

Classes, functions and variables carry notes: the text of the `description:` lines and of the `@`
lines that belong to them. Texts keep their `$` marks; the references among them are listed beside
the text, because resolution only looks at those.
-/

set_option autoImplicit false

namespace IntentCode.Ast

/-- The description and the intent comment of a declaration, one line of text per source line. -/
structure Notes where
  description : String
  intent : String
deriving DecidableEq, Inhabited

def Notes.none : Notes := ⟨"", ""⟩

structure ModuleImport where
  /-- The dotted path of the file that is imported. -/
  path : String
  content : String
deriving DecidableEq, Inhabited

structure ClassDecl where
  name : String
  notes : Notes
  /-- What each base class is inherited for. -/
  bases : OrderedMap String
deriving DecidableEq, Inhabited

structure FuncDecl where
  name : String
  notes : Notes
  params : OrderedMap String
  /-- The first reference in the description of a parameter that has one. -/
  paramRefs : OrderedMap String
deriving DecidableEq, Inhabited

structure VarDecl where
  name : String
  notes : Notes
  content : String
  refs : List String
deriving DecidableEq, Inhabited

/-- A line that declares nothing. -/
structure Step where
  content : String
  refs : List String
  /-- The line ends with a colon, and its block follows. -/
  opensBlock : Bool
deriving DecidableEq, Inhabited

inductive Body where
  | root
  | moduleImport (decl : ModuleImport)
  | classDecl (decl : ClassDecl)
  | funcDecl (decl : FuncDecl)
  | varDecl (decl : VarDecl)
  | step (line : Step)
deriving DecidableEq, Inhabited

namespace Body

def type : Body → NodeType
  | root => .root
  | moduleImport _ => .moduleImport
  | classDecl _ => .classDecl
  | funcDecl _ => .funcDecl
  | varDecl _ => .varDecl
  | step _ => .step

/-- The path of an import, or the name of a declaration. -/
def name? : Body → Option String
  | moduleImport m => some m.path
  | classDecl c => some c.name
  | funcDecl f => some f.name
  | varDecl v => some v.name
  | root | step _ => none

def isDeclaration (b : Body) : Bool := b.type.isDeclaration

/-- The name that a declaration adds to its scope. -/
def declaredName? (b : Body) : Option String := if b.isDeclaration then b.name? else none

def notes? : Body → Option Notes
  | classDecl c => some c.notes
  | funcDecl f => some f.notes
  | varDecl v => some v.notes
  | root | moduleImport _ | step _ => none

/-- Changes the notes of a declaration; other bodies have none to change. -/
def mapNotes (f : Notes → Notes) : Body → Body
  | classDecl c => classDecl { c with notes := f c.notes }
  | funcDecl d => funcDecl { d with notes := f d.notes }
  | varDecl v => varDecl { v with notes := f v.notes }
  | b => b

/-- Whether children may stand below the node. -/
def opensBlock : Body → Bool
  | root | classDecl _ | funcDecl _ => true
  | step s => s.opensBlock
  | moduleImport _ | varDecl _ => false

/-- The references that resolution checks, in the order in which they are checked. -/
def references : Body → List String
  | varDecl v => v.refs
  | funcDecl f => f.paramRefs.values
  | step s => s.refs
  | root | moduleImport _ | classDecl _ => []

/-- The same content; parameters and bases are compared without regard to their order. -/
def same : Body → Body → Bool
  | classDecl c, classDecl d =>
    c.name == d.name && c.notes == d.notes && c.bases.sameEntries d.bases
  | funcDecl f, funcDecl g =>
    f.name == g.name && f.notes == g.notes && f.params.sameEntries g.params &&
      f.paramRefs.sameEntries g.paramRefs
  | a, b => a == b

end Body

structure Node where
  uid : Nat
  /-- Absent only for the root. -/
  parent : Option Nat
  children : List Nat
  /-- The source line, counted from one; zero for the root. -/
  line : Nat
  body : Body
deriving DecidableEq, Inhabited

def Node.type (n : Node) : NodeType := n.body.type

end IntentCode.Ast
