import IntentCode.Symbol.Path

/-!
# Symbol trees

A symbol tree is a list of names in order, each with the tree of the names below it. It records only
how declarations nest. What a name stands for is recorded beside the tree, by path.

The type is the list itself: `entry name below beside` is the first name, the tree below it, and the
names that follow. Every operation is a recursion on that list, and those that follow a path recurse
on the path. Names are looked up from the front, so only the first entry of a name is ever seen, and
`insert` and `ensure` add no second one.
-/

set_option autoImplicit false

namespace IntentCode

inductive SymbolTree where
  | empty
  | entry (name : String) (below beside : SymbolTree)
deriving DecidableEq, Inhabited

namespace SymbolTree

/-! ## One level -/

def names : SymbolTree → List String
  | empty => []
  | entry name _ beside => name :: beside.names

/-- The entries of the first level. -/
def toList : SymbolTree → List (String × SymbolTree)
  | empty => []
  | entry name below beside => (name, below) :: beside.toList

def ofList : List (String × SymbolTree) → SymbolTree
  | [] => empty
  | (name, below) :: rest => entry name below (ofList rest)

def size (t : SymbolTree) : Nat := t.names.length

def isEmpty : SymbolTree → Bool
  | empty => true
  | entry .. => false

def get? : SymbolTree → String → Option SymbolTree
  | empty, _ => none
  | entry n below beside, name => if n = name then some below else beside.get? name

def contains (t : SymbolTree) (name : String) : Bool := (t.get? name).isSome

/-- Writes a subtree: in place if the name is present, else at the end. -/
def insert : SymbolTree → String → SymbolTree → SymbolTree
  | empty, name, subtree => entry name subtree empty
  | entry n below beside, name, subtree =>
    if n = name then entry n subtree beside else entry n below (beside.insert name subtree)

/-- Removes a name; the others keep their order. -/
def erase : SymbolTree → String → SymbolTree
  | empty, _ => empty
  | entry n below beside, name => if n = name then beside else entry n below (beside.erase name)

/-! ## Along a path -/

/-- The tree at the end of a path. -/
def getPath? (t : SymbolTree) : List String → Option SymbolTree
  | [] => some t
  | name :: path =>
    match t.get? name with
    | none => none
    | some below => below.getPath? path

/-- Changes the tree at the end of a path; what is missing on the way is added. -/
def alter (t : SymbolTree) (path : List String) (f : SymbolTree → SymbolTree) : SymbolTree :=
  match path with
  | [] => f t
  | name :: path => t.insert name (((t.get? name).getD empty).alter path f)

/-- Adds what is missing of a path. -/
def ensure (t : SymbolTree) (path : List String) : SymbolTree := t.alter path id

/-- Every dotted path of the tree below `start`, parents before children. -/
def pathsFrom (start : String) : SymbolTree → List String
  | empty => []
  | entry name below beside =>
    let path := SymbolPath.child start name
    path :: below.pathsFrom path ++ beside.pathsFrom start

def paths (t : SymbolTree) : List String := t.pathsFrom ""

/-- No level of the tree has two entries of one name. -/
def Distinct : SymbolTree → Prop
  | empty => True
  | entry name below beside => name ∉ beside.names ∧ below.Distinct ∧ beside.Distinct

/-! ## Look-ups after a change -/

@[simp] theorem get?_empty (name : String) : empty.get? name = none := rfl

theorem get?_insert (t : SymbolTree) (name m : String) (subtree : SymbolTree) :
    (t.insert name subtree).get? m = if name = m then some subtree else t.get? m := by
  induction t with
  | empty => simp [SymbolTree.insert, get?]
  | entry n below beside _ ih =>
    by_cases h : n = name <;> by_cases h' : n = m <;> grind [SymbolTree.insert, get?]

theorem names_insert (t : SymbolTree) (name : String) (subtree : SymbolTree) :
    (t.insert name subtree).names = if name ∈ t.names then t.names else t.names ++ [name] := by
  induction t with
  | empty => simp [SymbolTree.insert, names]
  | entry n below beside _ ih => by_cases h : n = name <;> grind [SymbolTree.insert, names]

end SymbolTree

end IntentCode
