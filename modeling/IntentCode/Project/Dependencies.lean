import IntentCode.Json.Reader
import IntentCode.OrderedMap
import IntentCode.Symbol.Path

/-!
# Declared dependencies

Which files a file depends on, in the order of declaration. Files are keyed by normalized path; the
dependencies are kept as written.
-/

set_option autoImplicit false

namespace IntentCode.Project

structure Dependencies where
  declared : OrderedMap (List String)
deriving DecidableEq, Inhabited

namespace Dependencies

def empty : Dependencies := ⟨.empty⟩

/-- Declares the dependencies of a file, in place of any declared before. -/
def insert (d : Dependencies) (file : String) (paths : List String) : Dependencies :=
  ⟨d.declared.insert (FilePath.normalize file) paths⟩

/-- The dependencies of a file; none if the file is unknown. -/
def of (d : Dependencies) (file : String) : List String :=
  (d.declared.get? (FilePath.normalize file)).getD []

def files (d : Dependencies) : List String := d.declared.keys

def ofList (entries : List (String × List String)) : Dependencies :=
  entries.foldl (fun d e => d.insert e.1 e.2) empty

/-- The dependencies in an object of arrays of strings. A key that occurs twice stands where it
stood first, with the value it had last. -/
def read (text : String) : Option Dependencies := do
  let members ← (← Json.read text).object?
  let entries ← members.mapM fun m => do pure (m.1, ← m.2.strings?)
  pure (ofList (OrderedMap.ofList entries).toList)

end Dependencies

end IntentCode.Project
