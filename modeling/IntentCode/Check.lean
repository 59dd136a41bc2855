import IntentCode.Constructor
import IntentCode.Diagnostic.Queue
import IntentCode.Lexer
import IntentCode.Parser
import IntentCode.Reference
import IntentCode.Symbol.Visible

/-!
# Checking one file

A file goes through four phases, and each reports into one queue: tokens, tree, symbols, references.
Only the first two can fail. The queue gives the report its order, by line, and nothing that a phase
finds depends on what the queue holds.

The phases are split in two, because a project reads all of its files before it resolves any of
them: `prepare` needs the text alone, `resolve` needs the tables of other files.
-/

set_option autoImplicit false

namespace IntentCode.Check

open Diagnostic (Queue QueueConfig)

structure Config where
  queue : QueueConfig
  reference : Reference.Config
deriving Inhabited

def Config.default : Config := ⟨.unlimited, .default⟩

/-! ## Failures -/

inductive Failure where
  | lexer (path : String) (error : LexError)
  | parser (path : String) (error : Parser.ParseError)
deriving DecidableEq, Inhabited

namespace Failure

def path : Failure → String
  | lexer path _ | parser path _ => path

def message : Failure → String
  | lexer path error => s!"{path}: {error.message}"
  | parser path error => s!"{path}: {error.message}"

def diagnostic : Failure → Diagnostic
  | lexer _ error => error.diagnostic
  | parser _ error => error.diagnostic

end Failure

/-! ## The phases -/

/-- The tree of a source, with what the lexer and the parser had to say, in that order. -/
def parse (path source : String) : Except Failure (Ast.Table × List Diagnostic) := do
  let scanned ← (Lexer.tokenize source).mapError (Failure.lexer path)
  let parsed ← (Parser.parse scanned.tokens).mapError (Failure.parser path)
  pure (parsed.table, scanned.warnings.map EmptyReference.diagnostic ++ parsed.diagnostics)

/-- The symbols of a tree, constructors included, and the issues with those. -/
def symbols (initializer : String) (t : Ast.Table) : SymbolTable × List Diagnostic :=
  let table := SymbolTable.ofAst t
  let (metadata, issues) := Constructor.validate t initializer table.metadata
  ({ table with metadata }, issues)

/-- A file that has been read but not resolved. -/
structure Prepared where
  path : String
  tree : Ast.Table
  symbols : SymbolTable
  queue : Queue
deriving Inhabited

def prepare (config : Config) (path source : String) : Except Failure Prepared := do
  let (tree, found) ← parse path source
  let (table, issues) := symbols config.reference.initializer tree
  pure ⟨path, tree, table, (Queue.new config.queue).recordAll (found ++ issues)⟩

/-- What stays the same while files are resolved. -/
structure Session where
  load : String → Option SymbolTable
  layout : Option Project.Layout
  config : Config

/-- What the references of a file are looked up in. -/
def Session.scope (s : Session) (path : String) (tree : Ast.Table) (own : SymbolTable)
    (dependencies : List String) : Reference.Scope :=
  { view := .visible s.load s.layout path dependencies own
    imports := .ofAst tree
    external := (s.layout.map Project.Layout.externalLibraries).getD []
    related := dependencies }

/-! ## The report -/

structure Report where
  path : String
  tree : Ast.Table
  /-- The file's own symbols, as the files that depend on it load them. -/
  symbols : SymbolTable
  diagnostics : List Diagnostic
deriving Inhabited

namespace Report

def hasErrors (r : Report) : Bool := r.diagnostics.any Diagnostic.isError

def errorCount (r : Report) : Nat := (r.diagnostics.filter Diagnostic.isError).length

end Report

def Session.resolve (s : Session) (p : Prepared) (dependencies : List String) : Report :=
  let scope := s.scope p.path p.tree p.symbols dependencies
  let issues := Reference.resolve s.config.reference p.tree scope
  ⟨p.path, p.tree, p.symbols, (p.queue.recordAll issues).flush.1⟩

/-- Checks one file against the tables of the files it depends on. -/
def file (s : Session) (path source : String) (dependencies : List String) :
    Except Failure Report := do
  pure (s.resolve (← prepare s.config path source) dependencies)

end IntentCode.Check
