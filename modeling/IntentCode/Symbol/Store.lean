import IntentCode.Symbol.Metadata

/-!
# Symbol tables of other files

The tables of the files that have been read so far, by normalized path, so that a file is found
under every spelling that has the same normal form.
-/

set_option autoImplicit false

namespace IntentCode

structure SymbolStore where
  tables : OrderedMap SymbolTable
deriving DecidableEq, Inhabited

namespace SymbolStore

def empty : SymbolStore := ⟨.empty⟩

def size (s : SymbolStore) : Nat := s.tables.size

def isEmpty (s : SymbolStore) : Bool := s.tables.isEmpty

/-- Stores the table of a file, in place of any that it had. -/
def insert (s : SymbolStore) (path : String) (table : SymbolTable) : SymbolStore :=
  ⟨s.tables.insert (FilePath.normalize path) table⟩

def load? (s : SymbolStore) (path : String) : Option SymbolTable :=
  s.tables.get? (FilePath.normalize path)

def contains (s : SymbolStore) (path : String) : Bool :=
  s.tables.contains (FilePath.normalize path)

/-- The store of a list of files; of two with one path the later table stays. -/
def ofList (files : List (String × SymbolTable)) : SymbolStore :=
  files.foldl (fun s f => s.insert f.1 f.2) empty

end SymbolStore

end IntentCode
