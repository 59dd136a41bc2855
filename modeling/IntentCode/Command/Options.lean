import IntentCode.Check
import IntentCode.Command.UnixPath

/-!
# Options of the commands

Arguments are read from the left. A word with a leading dash is an option or an error, and every
other word is a path. An option that takes a value takes the next word, whatever it looks like.
-/

set_option autoImplicit false

namespace IntentCode.Command

inductive OptionFault where
  | missingPath
  | missingValue (option what : String)
  | unknownOption (text : String)
  | unexpectedArgument (text : String)
deriving DecidableEq, Inhabited

def OptionFault.message : OptionFault → String
  | missingPath => "missing file path"
  | missingValue option what => s!"{option} needs a {what}"
  | unknownOption text => s!"unknown option '{text}'"
  | unexpectedArgument text => s!"unexpected argument '{text}'"

/-! ## Checking -/

structure CheckOptions where
  file : String
  /-- Source files whose symbols the file may use. -/
  dependencies : List String
  /-- The directory that symbol paths start from; the current one if there is none. -/
  root : Option String
  layout : Option String
  /-- Report everything that is found. -/
  all : Bool
deriving DecidableEq, Inhabited

namespace CheckOptions

/-- What has been read so far, the file perhaps missing. -/
structure Partly where
  file : Option String
  dependencies : List String
  root : Option String
  layout : Option String
  all : Bool
deriving DecidableEq, Inhabited

def Partly.none : Partly := ⟨.none, [], .none, .none, false⟩

def parseFrom (o : Partly) : List String → Except OptionFault Partly
  | [] => .ok o
  | "--dep" :: path :: rest => parseFrom { o with dependencies := o.dependencies ++ [path] } rest
  | ["--dep"] => .error (.missingValue "--dep" "file path")
  | "--root" :: path :: rest => parseFrom { o with root := some path } rest
  | ["--root"] => .error (.missingValue "--root" "directory")
  | "--layout" :: path :: rest => parseFrom { o with layout := some path } rest
  | ["--layout"] => .error (.missingValue "--layout" "file path")
  | "--all" :: rest => parseFrom { o with all := true } rest
  | word :: rest =>
    if Text.startsWith word "-" then .error (.unknownOption word)
    else if o.file.isNone then parseFrom { o with file := some word } rest
    else .error (.unexpectedArgument word)

def parse (args : List String) : Except OptionFault CheckOptions := do
  let o ← parseFrom .none args
  match o.file with
  | some file => pure ⟨file, o.dependencies, o.root, o.layout, o.all⟩
  | none => throw .missingPath

/-- The path of a file in the project: what is left of it after the root, with slashes between the
names. A file outside the root, and the root itself, keep the path they were given by. -/
def projectPath (o : CheckOptions) (cwd path : String) : String :=
  let root := UnixPath.join cwd (o.root.getD ".")
  match UnixPath.stripStart? (UnixPath.join cwd path) root with
  | none => path
  | some rest =>
    let names := rest.filterMap UnixPath.Component.name?
    if names.isEmpty then path else String.intercalate "/" names

def config (o : CheckOptions) : Check.Config :=
  ⟨if o.all then .unlimited else .compact, .default⟩

end CheckOptions

/-! ## Formatting -/

structure FormatOptions where
  /-- Only say which files would change. -/
  check : Bool
  paths : List String
deriving DecidableEq, Inhabited

namespace FormatOptions

def parseFrom (o : FormatOptions) : List String → Except OptionFault FormatOptions
  | [] => .ok o
  | word :: rest =>
    if word = "--check" then parseFrom { o with check := true } rest
    else if Text.startsWith word "-" then .error (.unknownOption word)
    else parseFrom { o with paths := o.paths ++ [word] } rest

def parse (args : List String) : Except OptionFault FormatOptions := do
  let o ← parseFrom ⟨false, []⟩ args
  if o.paths.isEmpty then throw .missingPath else pure o

end FormatOptions

end IntentCode.Command
