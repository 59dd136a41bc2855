import IntentCode.Ast.Table

/-!
# A table seen as nested nodes

Writing a tree out, comparing two trees and collecting declarations all go from a node to its
children and on to its next sibling. `Forest` is that shape as an inductive type, so each of the
three is a structural recursion; `Table.forest` unfolds the links of a table into it once.

The unfolding stops at a depth of `size` nodes. No branch of a tree is longer.
-/

set_option autoImplicit false

namespace IntentCode.Ast

/-- Sibling nodes in order, each with the nodes below it. -/
inductive Forest where
  | nil
  | cons (node : Node) (below : Forest) (beside : Forest)
deriving DecidableEq, Inhabited

namespace Forest

/-- Joins siblings, each already unfolded. -/
def ofTrees (below : Node → Forest) : List Node → Forest
  | [] => .nil
  | n :: ns => .cons n (below n) (ofTrees below ns)

/-- Every node of the forest, each before the nodes below it. -/
def nodes : Forest → List Node
  | .nil => []
  | .cons n below beside => n :: below.nodes ++ beside.nodes

end Forest

namespace Table

/-- The children of a node, unfolded to at most `bound` levels. -/
def forestUpTo (t : Table) : Nat → Nat → Forest
  | 0, _ => .nil
  | bound + 1, uid => .ofTrees (fun n => t.forestUpTo bound n.uid) (t.children uid)

/-- Everything below the root. -/
def forest (t : Table) : Forest := t.forestUpTo t.size 0

/-! ## Structural equality -/

/-- Compares the nodes at two positions and what is listed under them, to a depth of `bound`. -/
def sameUpTo (t u : Table) : Nat → Nat → Nat → Bool
  | 0, _, _ => false
  | bound + 1, i, j =>
    match t.get? i, u.get? j with
    | some a, some b =>
      a.body.same b.body && a.children.length == b.children.length &&
        (a.children.zip b.children).all fun p => t.sameUpTo u bound p.1 p.2
    | _, _ => false

/-- The same shape with the same content; numbers and source lines are not compared. -/
def sameStructure (t u : Table) : Bool := t.sameUpTo u (t.size + u.size) 0 0

end Table

end IntentCode.Ast
