import IntentCode.Ast.Forest
import IntentCode.Format.Emitter
import IntentCode.Text.Lines

/-!
# Canonical source

Every tree has one canonical source: four spaces per level, no comments, no continuations, a blank
line before each class and function at the top level and wherever the type of declaration changes
there. Reading that source gives the tree back, unless one of its lines looks like something else.

The notes of a declaration follow its block, at the indentation of the declaration, because that is
where the parser attaches them to it. A note of several lines is written as several lines.

The source is first a list of indented lines (`lines`), so that what stands on which line can be
stated without looking at the text.
-/

set_option autoImplicit false

namespace IntentCode.Format

open Ast

structure Config where
  indentSize : Nat
  /-- Blank lines between the declarations of the top level. -/
  separateTopLevel : Bool
deriving DecidableEq, Inhabited

def Config.default : Config := ⟨4, true⟩

/-! ## One node -/

/-- The entries of a list in parentheses; an empty description leaves its colon out. -/
def entryList (entries : OrderedMap String) : String :=
  if entries.isEmpty then ""
  else
    let entry := fun (e : String × String) => if e.2.isEmpty then e.1 else s!"{e.1}: {e.2}"
    "(" ++ String.intercalate ", " (entries.toList.map entry) ++ ")"

/-- A name with a text after a colon, if there is a text. -/
def withText (head text : String) : String := if text.isEmpty then head else s!"{head}: {text}"

/-- The source line of a node. A class or a function announces its block only if it has one. -/
def header (n : Node) : String :=
  let colon := if n.children.isEmpty then "" else ":"
  match n.body with
  | .root => ""
  | .moduleImport m => withText s!"module {m.path}" m.content
  | .classDecl c => s!"class {c.name}{entryList c.bases}{colon}"
  | .funcDecl f => s!"func {f.name}{entryList f.params}{colon}"
  | .varDecl v => withText s!"var {v.name}" v.content
  | .step s => if s.opensBlock then s!"{s.content}:" else s.content

/-- The source line of a node in a table; the root has none. -/
def nodeLine? (t : Table) (uid : Nat) : Option String := do
  let n ← t.get? uid
  if n.type = .root then none else some (header n)

/-! ## The tree -/

/-- A line of the source with the level it is indented to. -/
structure Line where
  level : Nat
  text : String
deriving DecidableEq, Inhabited

/-- The lines of a note, each after its marker; empty lines are left out. -/
def noteLines (level : Nat) (marker note : String) : List Line :=
  ((Text.lines note).filter (!·.isEmpty)).map fun text => ⟨level, marker ++ text⟩

def notesOf (level : Nat) (body : Body) : List Line :=
  match body.notes? with
  | some notes =>
    noteLines level "description: " notes.description ++ noteLines level "@ " notes.intent
  | none => []

/-- The lines of sibling nodes and everything below them. -/
def lines (level : Nat) : Forest → List Line
  | .nil => []
  | .cons n below beside =>
    ⟨level, header n⟩ :: lines (level + 1) below ++ notesOf level n.body ++ lines level beside

/-- Whether a blank line separates a top-level node from the one before it. -/
def isSeparated (previous : Option NodeType) (type : NodeType) : Bool :=
  match previous with
  | none => false
  | some p => type = .classDecl || type = .funcDecl || p ≠ type

/-- The lines of the top level, with the blank lines between its nodes. -/
def topLines (config : Config) (previous : Option NodeType) : Forest → List Line
  | .nil => []
  | .cons n below beside =>
    (if config.separateTopLevel && isSeparated previous n.type then [⟨0, ""⟩] else []) ++
      lines 0 (.cons n below .nil) ++ topLines config (some n.type) beside

def emitLine (e : Emitter) (l : Line) : Emitter := ((e.indent l.level).emit l.text).newline

/-- The source of a tree. -/
def source (config : Config) (t : Table) : String :=
  (((topLines config none t.forest).foldl emitLine (.new config.indentSize)).endLine).buffer

/-- The source of a tree with the default configuration. -/
def canonical (t : Table) : String := source .default t

end IntentCode.Format
