import IntentCode.Ast.Interchange
import IntentCode.Check.Project
import IntentCode.Command.Directory
import IntentCode.Command.Options
import IntentCode.Text.Quoted

/-!
# The command line

Four commands show what the phases make of a file: its tokens, its tree, its canonical source, and
everything that is wrong with it. A command is a function from the files, the current directory and
the arguments to what it prints and its exit code. Results go to the standard output and diagnostics
to the standard error; the exit code is one as soon as anything is an error.
-/

set_option autoImplicit false

namespace IntentCode.Command

/-! ## Results -/

structure Outcome where
  code : Nat
  out : String
  err : String
deriving DecidableEq, Inhabited

namespace Outcome

def success (out err : String) : Outcome := ⟨0, out, err⟩

/-- Nothing but a message. -/
def failure (err : String) : Outcome := ⟨1, "", err⟩

/-- The outcome, or the failure that came before it. -/
def ofExcept : Except String Outcome → Outcome
  | .ok o => o
  | .error err => failure err

end Outcome

/-- The lines, each ended. -/
def unlines (ls : List String) : String := String.join (ls.map (· ++ "\n"))

/-- Diagnostics of a file as they are printed. -/
def report (path : String) (ds : List Diagnostic) : String :=
  String.join (ds.map fun d => s!"{path}: {d.display}")

def readText (files : Files) (path : String) : Except String String :=
  (files.text path).mapError fun fault => fault.message path ++ "\n"

/-! ## Tokens and trees -/

def tokenLine (t : Token) : String :=
  s!"  {t.kind.name} {Text.quoted t.text} @ line {t.line}"

def lex (files : Files) (path : String) : Except String Outcome := do
  let text ← readText files path
  match Lexer.tokenize text with
  | .error e => throw (report path [e.diagnostic])
  | .ok scanned =>
    let head := s!"Tokens for '{path}' ({scanned.tokens.length} tokens):"
    pure (.success (unlines (head :: scanned.tokens.map tokenLine))
      (report path (scanned.warnings.map EmptyReference.diagnostic)))

def parse (files : Files) (path : String) : Except String Outcome := do
  let text ← readText files path
  match Check.parse path text with
  | .error e => throw (report path [e.diagnostic])
  | .ok (tree, found) =>
    pure ⟨if found.any Diagnostic.isError then 1 else 0, tree.write ++ "\n", report path found⟩

/-! ## Formatting -/

/-- The canonical source of a text, or what is in the way of it. -/
def rebuild (path text : String) : Except (List Diagnostic) String :=
  match Check.parse path text with
  | .error e => .error [e.diagnostic]
  | .ok (tree, found) =>
    if found.any Diagnostic.isError then .error found else .ok (Format.canonical tree)

/-- What formatting one of several files comes to. -/
def formatOne (options : FormatOptions) (path text : String) : Outcome :=
  match rebuild path text with
  | .error found => .failure (report path found)
  | .ok rebuilt =>
    if options.check then
      if Text.trimmedRight rebuilt = Text.trimmedRight text then .success "" ""
      else ⟨1, s!"would reformat: {path}\n", ""⟩
    else
      .success ((if options.paths.length > 1 then s!"// {path}\n" else "") ++ rebuilt) ""

/-- All of what was printed, and the worst exit code. -/
def combine (os : List Outcome) : Outcome :=
  ⟨(os.map Outcome.code).foldl max 0, String.join (os.map Outcome.out),
   String.join (os.map Outcome.err)⟩

def formatUsage : String := "Usage: ibc fmt [--check] <file.ibc>..."

/-- Formats files. All of them are read before anything is printed. -/
def format (files : Files) (args : List String) : Except String Outcome := do
  let options ← (FormatOptions.parse args).mapError fun fault =>
    unlines [s!"error: {fault.message}", formatUsage]
  let texts ← options.paths.mapM (readText files)
  pure (combine ((options.paths.zip texts).map fun f => formatOne options f.1 f.2))

/-! ## Checking -/

def checkUsage : String :=
  "Usage: ibc check <file.ibc> [--dep <file.ibc>]... [--root <dir>] [--layout <project.json>] " ++
  "[--all]"

def readLayout (files : Files) (path : String) : Except String Project.Layout := do
  let text ← readText files path
  match Project.Layout.read text with
  | some layout => pure layout
  | none => throw s!"{path}: invalid project layout: the text is not valid JSON\n"

/-- What checking the file `path` of a project comes to. -/
def checkOutcome (r : Check.ProjectReport) (path : String) (dependencies : Nat) : Outcome :=
  let failed := String.join (r.failures.map fun f => report f.path [f.diagnostic])
  match r.get? path with
  | none => .failure failed
  | some main =>
    let err := failed ++ report main.path main.diagnostics
    if !r.failures.isEmpty || main.hasErrors then .failure err
    else
      let symbols := main.symbols.metadata.size
      .success s!"OK: {main.path} ({symbols} symbols, {dependencies} dependencies)\n" err

/-- Checks a file against its dependencies. -/
def check (files : Files) (cwd : String) (args : List String) : Except String Outcome := do
  let options ← (CheckOptions.parse args).mapError fun fault =>
    unlines [s!"error: {fault.message}", checkUsage]
  let layout ← options.layout.mapM (readLayout files)
  let sources ← (options.file :: options.dependencies).mapM fun path => do
    pure (Check.SourceFile.mk (options.projectPath cwd path) (← readText files path))
  let main := options.projectPath cwd options.file
  let others := options.dependencies.map (options.projectPath cwd)
  let declared := Project.Dependencies.empty.insert main others
  pure (checkOutcome (Check.project options.config layout declared sources) main others.length)

/-! ## The commands by name -/

def version : String := "ibc 0.1.0-alpha.1"

def usage : String :=
  unlines
    ["IBC front end - developer tools",
     "",
     "Usage: ibc <command> [options]",
     "",
     "Commands:",
     "  lex <file>             Print the token stream",
     "  parse <file>           Print the AST as JSON",
     "  fmt [--check] <file>.. Print files rebuilt from their AST",
     "  check <file> [opts]    Resolve references and report issues",
     "      --dep <file>       Dependency source (repeatable)",
     "      --root <dir>       Project root for symbol paths (default: current dir)",
     "      --layout <json>    Project layout (descriptions, external libraries)",
     "      --all              Do not cap the number of reported errors",
     "  help                   Show this message",
     "  version                Show version",
     "",
     "Set RUST_LOG=debug for phase tracing, IBC_LOG_TREE=1 for span trees."]

/-- What the program does with its arguments. -/
def run (files : Files) (cwd : String) (args : List String) : Outcome :=
  match args with
  | [] | "help" :: _ | "--help" :: _ | "-h" :: _ => .success usage ""
  | "version" :: _ | "--version" :: _ | "-V" :: _ => .success (version ++ "\n") ""
  | ["lex"] => .failure "Usage: ibc lex <file.ibc>\n"
  | "lex" :: path :: _ => .ofExcept (lex files path)
  | ["parse"] => .failure "Usage: ibc parse <file.ibc>\n"
  | "parse" :: path :: _ => .ofExcept (parse files path)
  | "fmt" :: args => .ofExcept (format files args)
  | "check" :: args => .ofExcept (check files cwd args)
  | command :: _ => ⟨1, usage, s!"Unknown command: {command}\n\n"⟩

end IntentCode.Command
