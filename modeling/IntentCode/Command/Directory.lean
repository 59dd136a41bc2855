import IntentCode.Text.Split

/-!
# Reading files

A command reads files by path and says in one line what went wrong when it cannot. `Files` is all it
needs to know of a disk, so a command is a function and can be run on a directory that exists only
in memory (`Directory`).
-/

set_option autoImplicit false

namespace IntentCode.Command

/-- Why a file cannot be read. -/
inductive ReadFault where
  | missing
  | denied
  | notText
  | folder
  /-- A file stands where the path needs a folder. -/
  | throughFile
  /-- A name on the way, or the whole path, is longer than the disk takes. -/
  | nameTooLong
  | other (reason : String)
deriving DecidableEq, Inhabited

def ReadFault.message (path : String) : ReadFault → String
  | missing => s!"cannot find file '{path}'"
  | denied => s!"permission denied reading '{path}'"
  | notText => s!"'{path}' contains invalid UTF-8 data"
  | folder => s!"error reading '{path}': Is a directory (os error 21)"
  | throughFile => s!"error reading '{path}': Not a directory (os error 20)"
  | nameTooLong => s!"error reading '{path}': File name too long (os error 36)"
  | other reason => s!"error reading '{path}': {reason}"

/-- The content of the file at a path. -/
abbrev Files := String → Except ReadFault ByteArray

/-- The text of a file, which has to be encoded in UTF-8. -/
def Files.text (files : Files) (path : String) : Except ReadFault String := do
  match String.fromUTF8? (← files path) with
  | some text => pure text
  | none => throw .notText

/-! ## A directory in memory -/

/-- The files below a directory, each by the names on the way to it. -/
structure Directory where
  files : List (List String × ByteArray)
deriving Inhabited

namespace Directory

def ofList (files : List (String × ByteArray)) : Directory :=
  ⟨files.map fun f => ((Text.pieces '/' f.1).filter (!·.isEmpty), f.2)⟩

def isFolder (d : Directory) (names : List String) : Bool :=
  names.isEmpty || d.files.any fun f => names.length < f.1.length && names.isPrefixOf f.1

/-- The bytes that the name of a file may have. -/
def maxNameSize : Nat := 255

/-- The bytes that a path may have. -/
def maxPathSize : Nat := 4095

/-- Follows path names from a place in the directory, given by the names that lead to it; `none` is
a place above the directory. A name is measured when it is looked up in a folder, so a step that
fails before it hides its length. -/
def follow (d : Directory) (place : Option (List String)) :
    List String → Except ReadFault ByteArray
  | [] =>
    match place with
    | none => .error .folder
    | some names =>
      match d.files.lookup names with
      | some content => .ok content
      | none =>
        if d.isFolder names then .error .folder
        else .error .missing
  | name :: rest =>
    match place with
    | none =>
      if name = "." ∨ name = "" ∨ name = ".." then d.follow none rest
      else if name.utf8ByteSize > maxNameSize then .error .nameTooLong
      else .error .missing
    | some names =>
      if d.isFolder names then
        if name = "." ∨ name = "" then d.follow (some names) rest
        else if name = ".." then
          d.follow (if names.isEmpty then none else some names.dropLast) rest
        else if name.utf8ByteSize > maxNameSize then .error .nameTooLong
        else d.follow (some (names ++ [name])) rest
      else if (d.files.lookup names).isSome then .error .throughFile
      else .error .missing

/-- The file at a path as seen from the directory. A path from the root of the disk leads out of
it. -/
def read (d : Directory) : Files := fun path =>
  if path.isEmpty then .error .missing
  else if path.utf8ByteSize > maxPathSize then .error .nameTooLong
  else if path.toList.head? = some '/' then d.follow none (Text.pieces '/' path)
  else d.follow (some []) (Text.pieces '/' path)

end Directory

end IntentCode.Command
