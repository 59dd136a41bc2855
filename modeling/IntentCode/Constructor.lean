import IntentCode.Diagnostic
import IntentCode.Format
import IntentCode.Symbol.Declared

/-!
# Constructors

A class may declare its constructor as a method named after the class or as a method with the name
of the initializer. If it does exactly one of the two, the metadata of the class takes over the
parameters of that method; if it does both, that is reported and the metadata stays as it is. One
method can be both at once, when the class itself is named like the initializer.
-/

set_option autoImplicit false

namespace IntentCode.Constructor

open Ast

/-- The methods of a class, as the numbers and declarations of its function children. -/
def methods (t : Table) (uid : Nat) : List (Nat × FuncDecl) :=
  (t.children uid).filterMap fun n =>
    match n.body with
    | .funcDecl f => some (n.uid, f)
    | _ => none

inductive Choice where
  | none
  | one (constructor : FuncDecl)
  | both
deriving DecidableEq, Inhabited

/-- Which constructor a class named `name` has. -/
def choose (initializer name : String) (methods : List (Nat × FuncDecl)) : Choice :=
  let named := methods.find? fun m => m.2.name == name
  let initial := methods.find? fun m => m.2.name == initializer
  match named, initial with
  | some a, some b => if a.1 = b.1 then .one a.2 else .both
  | some a, none => .one a.2
  | none, some b => .one b.2
  | none, none => .none

/-- Two constructors of the class `c` at the node `n`. -/
def duplicate (t : Table) (initializer : String) (n : Node) (c : ClassDecl) : Diagnostic :=
  { code := .duplicateConstructor
    severity := .error
    message := s!"class `{c.name}` declares two constructors: `{c.name}` and `{initializer}`"
    line := n.line
    content := (Format.nodeLine? t n.uid).getD ""
    suggestions := []
    notes := ["keep only one of them"] }

/-- Sets the constructor parameters of the class at `path`; other entries have none to set. -/
def setParams (metadata : OrderedMap Metadata) (path : String) (params : OrderedMap String) :
    OrderedMap Metadata :=
  metadata.modify path fun m =>
    match m with
    | .ofClass info _ => .ofClass info params
    | m => m

/-- The metadata after one node, and what the node has to report. -/
def visit (t : Table) (initializer : String) (metadata : OrderedMap Metadata) (n : Node) :
    OrderedMap Metadata × List Diagnostic :=
  match n.body with
  | .classDecl c =>
    match choose initializer c.name (methods t n.uid) with
    | .none => (metadata, [])
    | .both => (metadata, [duplicate t initializer n c])
    | .one f =>
      match t.symbolPath? n.uid with
      | some path => (setParams metadata path f.params, [])
      | none => (metadata, [])
  | _ => (metadata, [])

/-- Enters the constructors of all classes into the metadata and reports the classes with two. -/
def validate (t : Table) (initializer : String) (metadata : OrderedMap Metadata) :
    OrderedMap Metadata × List Diagnostic :=
  t.toList.foldl
    (fun r n =>
      let (metadata, issues) := visit t initializer r.1 n
      (metadata, r.2 ++ issues))
    (metadata, [])

end IntentCode.Constructor
