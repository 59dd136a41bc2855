import IntentCode.Command

/-!
# The program

Everything the program decides is decided by `Command.run`. Here files are read from the disk, the
texts are printed and the exit code is returned. A command asks for files by path in the middle of
its work, so the files that it may ask for, which are among its arguments, are read beforehand.
-/

set_option autoImplicit false

namespace IntentCode

open Command

/-- What an error of the operating system says about a file. The one argument of reading is the
path, and the one thing that can be invalid about it is its length. -/
def readFault : IO.Error → ReadFault
  | .noFileOrDirectory .. => .missing
  | .permissionDenied .. => .denied
  | .inappropriateType _ code _ => if code = 21 then .folder else .throughFile
  | .invalidArgument .. => .nameTooLong
  | e => .other (toString e)

/-- The content of a file on the disk. -/
def readFile (path : String) : IO (Except ReadFault ByteArray) := do
  try
    return .ok (← IO.FS.readBinFile path)
  catch e =>
    return .error (readFault e)

/-- The files named by the arguments. -/
def loadFiles (args : List String) : IO Files := do
  let loaded ← args.mapM fun path => do return (path, ← readFile path)
  return fun path => (loaded.lookup path).getD (.error .missing)

end IntentCode

def main (args : List String) : IO UInt32 := do
  let files ← IntentCode.loadFiles args
  let cwd ← IO.currentDir
  let outcome := IntentCode.Command.run files cwd.toString args
  IO.print outcome.out
  IO.eprint outcome.err
  return outcome.code.toUInt32
