import IntentCode.Json.Reader
import IntentCode.Symbol.Path

/-!
# Project layout

A project may come with a JSON document that is shaped like its directories. A directory is an
object, a file is a description or an object with a member `description`. The member
`ExternalLibraryDependencies` at the top names the packages that are not part of the project, as the
keys of an object, as an array of names or as one name.

Where a key occurs twice the last one counts, and the keys of an object come in ascending order.
Anything that does not have the expected shape describes nothing; only text that is no JSON at all
is refused.
-/

set_option autoImplicit false

namespace IntentCode

namespace Json.Value

/-- The member of an object with the given key, the last one if there are several. -/
def member? (v : Value) (key : String) : Option Value := do
  (← v.object?).reverse.lookup key

/-- The keys of an object, each once, in ascending order. -/
def sortedKeys (members : List (String × Value)) : List String :=
  ((members.map Prod.fst).eraseDups).mergeSort fun a b => decide (a ≤ b)

end Json.Value

namespace Project

open Json (Value)

structure Layout where
  root : Value
deriving Inhabited

namespace Layout

/-- The layout that a text holds; every value in it has to be held. -/
def read (text : String) : Option Layout := do pure ⟨← (← Json.read text).held?⟩

def externalKey : String := "ExternalLibraryDependencies"

/-- The packages whose references are never checked. -/
def externalLibraries (l : Layout) : List String :=
  match l.root.member? externalKey with
  | some (.object members) => Value.sortedKeys members
  | some (.array items) => items.filterMap Value.string?
  | some (.string name) => if name.isEmpty then [] else [name]
  | _ => []

/-- The description that the entry of a file holds. -/
def entryText? : Value → Option String
  | .string s => some s
  | .object members => do (← Value.member? (.object members) "description").string?
  | _ => none

/-- The entry at the end of a path of directories and a file, with or without the extension. -/
def entryAt? (v : Value) : List String → Option Value
  | [] => none
  | [file] => (v.member? file).or (v.member? (file ++ .ofList FilePath.extension))
  | dir :: rest =>
    match v.member? dir with
    | none => none
    | some below => entryAt? below rest

/-- The description of a file; an empty one counts as none. -/
def fileDescription? (l : Layout) (path : String) : Option String := do
  let text ← entryText? (← entryAt? l.root (FilePath.segments path))
  if text.isEmpty then none else some text

end Layout

end Project

end IntentCode
