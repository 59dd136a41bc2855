import IntentCode.OrderedMap
import IntentCode.Symbol.Tree

/-!
# What a symbol stands for

A declaration's metadata says how visible it is, what it is for, and how it is used. Folders and
files are entries too: they are the front of the path of every symbol of a file, and carry at most a
description.

A declaration of the file that is being checked is tagged with that file (`markLocal`), so that a
view over several files still tells its own symbols from the imported ones.

A symbol table holds the tree of a file's names and, by dotted path, what they stand for.
-/

set_option autoImplicit false

namespace IntentCode

/-! ## Visibility and scope -/

inductive Visibility where
  | exposed
  | guarded
  | hidden
  /-- Nothing is known about it. -/
  | unstated
deriving DecidableEq, Inhabited

namespace Visibility

def text : Visibility → String
  | exposed => "public"
  | guarded => "protected"
  | hidden => "private"
  | unstated => "default"

def all : List Visibility := [exposed, guarded, hidden, unstated]

def ofText? (text : String) : Option Visibility := all.find? fun v => v.text == text

/-- Whether files that depend on this one may see the symbol. -/
def isExported (v : Visibility) : Bool := v ≠ hidden

theorem ofText?_text (v : Visibility) : ofText? v.text = some v := by cases v <;> decide

end Visibility

/-- Where a variable is declared. -/
inductive VariableScope where
  | topLevel
  | field
  | inFunction
deriving DecidableEq, Inhabited

namespace VariableScope

def text : VariableScope → String
  | topLevel => "global"
  | field => "field"
  | inFunction => "local"

def all : List VariableScope := [topLevel, field, inFunction]

def ofText? (text : String) : Option VariableScope := all.find? fun s => s.text == text

theorem ofText?_text (s : VariableScope) : ofText? s.text = some s := by cases s <;> decide

end VariableScope

/-! ## Metadata -/

/-- Whether a symbol belongs to the file being checked, and which file that is. -/
structure Origin where
  isLocal : Bool
  file : Option String
deriving DecidableEq, Inhabited

def Origin.foreign : Origin := ⟨false, none⟩

/-- What all declarations have in common. -/
structure SymbolInfo where
  visibility : Visibility
  description : String
  /-- The name in a target language, once one has been chosen. -/
  normalizedName : String
  origin : Origin
deriving DecidableEq, Inhabited

inductive Metadata where
  | folder (description : Option String)
  | file (description : Option String)
  /-- A class, with the parameters of its constructor. -/
  | ofClass (info : SymbolInfo) (initParams : OrderedMap String)
  | ofFunction (info : SymbolInfo) (params : OrderedMap String)
  | ofVariable (info : SymbolInfo) (scope : VariableScope)
deriving DecidableEq, Inhabited

namespace Metadata

def info? : Metadata → Option SymbolInfo
  | folder _ | file _ => none
  | ofClass info _ | ofFunction info _ | ofVariable info _ => some info

def mapInfo (f : SymbolInfo → SymbolInfo) : Metadata → Metadata
  | folder d => folder d
  | file d => file d
  | ofClass info params => ofClass (f info) params
  | ofFunction info params => ofFunction (f info) params
  | ofVariable info scope => ofVariable (f info) scope

/-- The declared visibility; folders and files have none. -/
def visibility? (m : Metadata) : Option Visibility := m.info?.map SymbolInfo.visibility

def isHidden (m : Metadata) : Bool := m.visibility? = some .hidden

/-- The description, unless it is missing or empty. -/
def description? (m : Metadata) : Option String :=
  let text :=
    match m with
    | folder d | file d => d
    | ofClass info _ | ofFunction info _ | ofVariable info _ => some info.description
  text.filter fun d => !d.isEmpty

def isLocal (m : Metadata) : Bool :=
  match m.info? with
  | some info => info.origin.isLocal
  | none => false

/-- Tags a declaration as one of `file`. -/
def markLocal (file : String) (m : Metadata) : Metadata :=
  m.mapInfo fun info => { info with origin := ⟨true, some file⟩ }

end Metadata

/-! ## Symbol tables -/

structure SymbolTable where
  tree : SymbolTree
  metadata : OrderedMap Metadata
deriving DecidableEq, Inhabited

def SymbolTable.empty : SymbolTable := ⟨.empty, .empty⟩

end IntentCode
