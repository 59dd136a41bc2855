import IntentCode.Ast.Node

/-!
# Syntax trees as tables of nodes

The nodes of a tree lie in a table, and the links between them are numbers, so a table can be
exchanged and can also be wrong. Node numbers are given out in the order of the source, the root is
number zero, and a parser that only ever appends (`push`) keeps parents and children in agreement.

A table from elsewhere need not. `validate` walks the links from the root and accepts exactly the
tables that are trees: every listed child is in the table, names its lister as its parent and is
listed once, and nothing is out of reach. The walk keeps a stack of nodes to visit and the list of
nodes already reached. Each node enters the stack once, so as many rounds as there are nodes empty
it, and one more round sees that it is empty.

Look-ups go by position in the table. In a table that a parser built or that was read and accepted,
the node at position `i` has the number `i`.
-/

set_option autoImplicit false

namespace IntentCode.Ast

structure Table where
  nodes : Array Node
deriving DecidableEq, Inhabited

namespace Table

def rootNode : Node := ⟨0, none, [], 0, .root⟩

/-- The tree with nothing below the root. -/
def empty : Table := ⟨#[rootNode]⟩

def size (t : Table) : Nat := t.nodes.size

/-- No node but the root. -/
def isEmpty (t : Table) : Bool := t.size ≤ 1

def toList (t : Table) : List Node := t.nodes.toList

def get? (t : Table) (uid : Nat) : Option Node := t.nodes[uid]?

/-- The type of the node at a position. Outside the table it is that of the root. -/
def typeAt (t : Table) (uid : Nat) : NodeType :=
  match t.get? uid with
  | none => .root
  | some n => n.type

def modify (t : Table) (uid : Nat) (f : Node → Node) : Table := ⟨t.nodes.modify uid f⟩

/-- Appends a node as the last child of `parent`. Its number is the size of the table before. -/
def push (t : Table) (parent line : Nat) (body : Body) : Table :=
  (Table.mk (t.nodes.push ⟨t.size, some parent, [], line, body⟩)).modify parent fun n =>
    { n with children := n.children ++ [t.size] }

@[simp] theorem size_modify (t : Table) (uid : Nat) (f : Node → Node) :
    (t.modify uid f).size = t.size := by
  simp [modify, size]

@[simp] theorem size_push (t : Table) (parent line : Nat) (body : Body) :
    (t.push parent line body).size = t.size + 1 := by
  simp [push, modify, size]

/-! ## Links -/

/-- The children of the node at position `uid` that are in the table. -/
def children (t : Table) (uid : Nat) : List Node :=
  match t.get? uid with
  | none => []
  | some n => n.children.filterMap t.get?

def parent? (t : Table) (uid : Nat) : Option Node := do t.get? (← (← t.get? uid).parent)

/-- At most `bound` ancestors, nearest first. -/
def ancestorsUpTo (t : Table) : Nat → Nat → List Node
  | 0, _ => []
  | bound + 1, uid =>
    match t.parent? uid with
    | none => []
    | some n => n :: t.ancestorsUpTo bound n.uid

/-- The ancestors, nearest first. A tree has fewer of them than nodes. -/
def ancestors (t : Table) (uid : Nat) : List Node := t.ancestorsUpTo t.size uid

def enclosingClass? (t : Table) (uid : Nat) : Option Node :=
  (t.ancestors uid).find? fun n => n.type = .classDecl

/-- How many nodes lie between a node and the root. -/
def depth (t : Table) (uid : Nat) : Nat := (t.ancestors uid).length - 1

/-! ## Validation -/

/-- Why a table is not a tree. -/
inductive Fault where
  | badRoot
  | missingNode (uid : Nat)
  /-- The node `child` is listed under `parent` but names `actual`. -/
  | brokenLink (parent child : Nat) (actual : Option Nat)
  | unreachable (uid : Nat)
deriving DecidableEq, Inhabited

def Fault.message : Fault → String
  | badRoot => "node 0 must be the root"
  | missingNode uid => s!"AST has no node with uid {uid}"
  | brokenLink parent child none =>
    s!"node {child} is listed under {parent} but names None as parent"
  | brokenLink parent child (some actual) =>
    s!"node {child} is listed under {parent} but names Some({actual}) as parent"
  | unreachable uid => s!"node {uid} is not reachable from the root exactly once"

/-- Checks the children listed under `uid` in order and adds them to the reached nodes. -/
def reachChildren (t : Table) (uid : Nat) (reached : List Nat) :
    List Nat → Except Fault (List Nat)
  | [] => .ok reached
  | child :: rest =>
    match t.get? child with
    | none => .error (.missingNode child)
    | some n =>
      if n.parent ≠ some uid then .error (.brokenLink uid child n.parent)
      else if reached.contains child then .error (.unreachable child)
      else t.reachChildren uid (child :: reached) rest

/-- Visits the nodes on the stack, the child listed last before its siblings. -/
def reachFrom (t : Table) : Nat → List Nat → List Nat → Except Fault (List Nat)
  | 0, _, reached => .ok reached
  | _ + 1, [], reached => .ok reached
  | rounds + 1, uid :: stack, reached =>
    match t.get? uid with
    | none => .error (.missingNode uid)
    | some n => do
      let reached ← t.reachChildren uid reached n.children
      t.reachFrom rounds (n.children.reverse ++ stack) reached

def validate (t : Table) : Except Fault Unit := do
  match t.get? 0 with
  | none => throw .badRoot
  | some n => if n.uid ≠ 0 ∨ n.parent ≠ none ∨ n.body ≠ .root then throw .badRoot
  let reached ← t.reachFrom (t.size + 1) [0] [0]
  match (List.range t.size).find? fun uid => !reached.contains uid with
  | some uid => throw (.unreachable uid)
  | none => pure ()

end Table

end IntentCode.Ast
