import IntentCode.Text.Blank
import IntentCode.Text.Split

/-!
# Symbol paths and file paths

A symbol is named by the names of the declarations around it and its own, joined by dots. A file is
a scope like any other: its path in the project, cut at the slashes, is the front of the symbol path
of everything it declares.

File paths come in many spellings. `normalize` gives most of them one: blanks around the path are
trimmed, backslashes become slashes, leading `./` and one source extension are dropped, and so are
slashes at either end. `segments` goes one step further and ignores empty and `.` segments.
-/

set_option autoImplicit false

namespace IntentCode

namespace SymbolPath

/-- The dotted path of a list of names. -/
def join (names : List String) : String := String.intercalate "." names

/-- A name below a path; the empty path is the root. -/
def child (path name : String) : String := if path.isEmpty then name else path ++ "." ++ name

/-- The names of a dotted path. -/
def names (path : String) : List String := Text.pieces '.' path

end SymbolPath

namespace FilePath

/-- The extension of source files. -/
def extension : List Char := ['.', 'i', 'b', 'c']

/-- Drops `./` from the front as often as it stands there. -/
def dropHere : List Char → List Char
  | '.' :: '/' :: cs => dropHere cs
  | cs => cs

/-- Drops one source extension from the end. -/
def dropExtension (cs : List Char) : List Char :=
  if extension.isSuffixOf cs then cs.take (cs.length - extension.length) else cs

/-- Drops slashes from both ends. -/
def trimSlashes (cs : List Char) : List Char :=
  ((cs.dropWhile (· = '/')).reverse.dropWhile (· = '/')).reverse

def normalizeChars (cs : List Char) : List Char :=
  let unified := (Text.trim cs).map fun c => if c = '\\' then '/' else c
  trimSlashes (dropExtension (dropHere unified))

def normalize (path : String) : String := .ofList (normalizeChars path.toList)

/-- The names that the path of a file contributes to its symbols. -/
def segments (path : String) : List String :=
  (Text.pieces '/' (normalize path)).filter fun s => !s.isEmpty && s != "."

end FilePath

end IntentCode
