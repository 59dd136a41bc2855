import IntentCode.Check
import IntentCode.Project.Dependencies
import IntentCode.Symbol.Store

/-!
# Checking a project

All files are read first, and the table of each file that could be read is stored under its path.
Then each of those files is resolved against the files it declares to depend on. A dependency that
could not be read is as good as missing.
-/

set_option autoImplicit false

namespace IntentCode.Check

structure SourceFile where
  path : String
  text : String
deriving DecidableEq, Inhabited

structure ProjectReport where
  /-- The files that could be read, in input order. -/
  files : List Report
  failures : List Failure
deriving Inhabited

namespace ProjectReport

/-- The report of a file under any spelling of its path. -/
def get? (r : ProjectReport) (path : String) : Option Report :=
  r.files.find? fun f => FilePath.normalize f.path == FilePath.normalize path

def hasErrors (r : ProjectReport) : Bool := !r.failures.isEmpty || r.files.any Report.hasErrors

def errorCount (r : ProjectReport) : Nat :=
  r.files.foldl (fun n f => n + f.errorCount) r.failures.length

end ProjectReport

/-- The results of a kind, in order. -/
def prepared (results : List (Except Failure Prepared)) : List Prepared :=
  results.filterMap fun
    | .ok p => some p
    | .error _ => none

def failures (results : List (Except Failure Prepared)) : List Failure :=
  results.filterMap fun
    | .ok _ => none
    | .error e => some e

def project (config : Config) (layout : Option Project.Layout)
    (dependencies : Project.Dependencies) (files : List SourceFile) : ProjectReport :=
  let results := files.map fun f => prepare config f.path f.text
  let ready := prepared results
  let store := SymbolStore.ofList (ready.map fun p => (p.path, p.symbols))
  let session : Session := ⟨store.load?, layout, config⟩
  ⟨ready.map fun p => session.resolve p (dependencies.of p.path), failures results⟩

end IntentCode.Check
