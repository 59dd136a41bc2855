import IntentCode.Text.Split

/-!
# Unix paths

A path is a sequence of components. Repeated slashes and `.` say nothing and vanish, except that a
relative path may start with `.`. A `..` is kept as it is, since what it cancels depends on the
disk.

Paths are joined as text and compared by components: `stripStart?` takes one path off the front of
another if the components of the one are the first components of the other.
-/

set_option autoImplicit false

namespace IntentCode.UnixPath

inductive Component where
  | root
  /-- A leading `.`. -/
  | here
  | up
  | name (text : String)
deriving DecidableEq, Inhabited

namespace Component

def name? : Component → Option String
  | name text => some text
  | _ => none

end Component

def isAbsolute (path : String) : Bool := path.toList.head? = some '/'

/-- A piece between two slashes that is not the first of a relative path. -/
def inner? (piece : String) : Option Component :=
  match piece with
  | "" | "." => none
  | ".." => some .up
  | name => some (.name name)

def components (path : String) : List Component :=
  let pieces := Text.pieces '/' path
  if isAbsolute path then .root :: pieces.filterMap inner?
  else match pieces with
    | "." :: rest => .here :: rest.filterMap inner?
    | pieces => pieces.filterMap inner?

/-- `path` as seen from the directory `base`. -/
def join (base path : String) : String :=
  if isAbsolute path then path
  else if base.isEmpty || base.toList.getLast? = some '/' then base ++ path
  else base ++ "/" ++ path

/-- The components of `path` after those of `base`, if those come first. -/
def stripStart? (path base : String) : Option (List Component) :=
  (components base).isPrefixOf? (components path)

end IntentCode.UnixPath
