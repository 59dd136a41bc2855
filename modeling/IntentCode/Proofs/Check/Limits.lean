import IntentCode.Proofs.Check
import IntentCode.Proofs.Diagnostic.Queue

/-!
# The settings of the queue

The settings of a queue are there to keep a report short, and nothing else depends on them: the tree and
the symbols are those of the source, a report that leaves diagnostics out is a part of the full one, and
it has errors exactly if the full one has (`verdict_withQueue`).

For the last point the phases have to agree on which codes are errors. Each of them does
(`graded_early`, `graded_resolve`): a reference without a name and a note without a declaration are
warnings, everything else is an error.
-/

set_option autoImplicit false

namespace IntentCode

open Diagnostic (ByLine Graded Queue QueueConfig sortByLine)

/-! ## The severity of what the phases find -/

theorem EmptyReference.graded_diagnostic (w : EmptyReference) : w.diagnostic.Graded := rfl

theorem Parser.Finding.graded_diagnostic (f : Finding) : f.diagnostic.Graded := by
  obtain ⟨complaint, line, content⟩ := f
  cases complaint <;> rfl

theorem Parser.Parsed.graded_diagnostics (p : Parsed) : ∀ d ∈ p.diagnostics, d.Graded := by
  intro d hd
  obtain ⟨f, -, rfl⟩ := List.mem_map.mp hd
  exact f.graded_diagnostic

namespace Constructor

theorem graded_visit (t : Ast.Table) (initializer : String) (metadata : OrderedMap Metadata)
    (n : Ast.Node) : ∀ d ∈ (visit t initializer metadata n).2, d.Graded := by
  intro d hd
  unfold visit at hd
  split at hd
  · split at hd
    · cases hd
    · rw [List.mem_singleton.mp hd]
      rfl
    · split at hd <;> cases hd
  · cases hd

theorem graded_validate (t : Ast.Table) (initializer : String) (metadata : OrderedMap Metadata) :
    ∀ d ∈ (validate t initializer metadata).2, d.Graded := by
  apply List.foldlRecOn
    (motive := fun r : OrderedMap Metadata × List Diagnostic => ∀ d ∈ r.2, d.Graded)
  · intro d hd
    cases hd
  · intro r hr n _ d hd
    rcases List.mem_append.mp hd with hd | hd
    · exact hr d hd
    · exact graded_visit t initializer r.1 n d hd

end Constructor

theorem Reference.graded_resolve (config : Reference.Config) (t : Ast.Table)
    (scope : Reference.Scope) : ∀ d ∈ Reference.resolve config t scope, d.Graded := by
  intro d hd
  obtain ⟨n, -, hd⟩ := List.mem_flatMap.mp hd
  obtain ⟨raw, -, hd⟩ := List.mem_filterMap.mp hd
  obtain ⟨issue, -, rfl⟩ := Option.map_eq_some_iff.mp hd
  obtain ⟨fault, suggestions⟩ := issue
  cases fault <;> rfl

namespace Check

theorem graded_early (initializer : String) (scanned : Lexer.Scanned) (parsed : Parser.Parsed) :
    ∀ d ∈ early initializer scanned parsed, d.Graded := by
  intro d hd
  rcases List.mem_append.mp hd with hd | hd
  · rcases List.mem_append.mp hd with hd | hd
    · obtain ⟨w, -, rfl⟩ := List.mem_map.mp hd
      exact w.graded_diagnostic
    · exact parsed.graded_diagnostics d hd
  · exact Constructor.graded_validate _ _ _ d hd

/-! ## One file under two settings -/

/-- The same session with other settings of the queue. -/
def Session.withQueue (s : Session) (queue : QueueConfig) : Session :=
  { s with config := { s.config with queue } }

/-- All that the phases find in a file, in the order in which they run. -/
def found (s : Session) (path : String) (scanned : Lexer.Scanned) (parsed : Parser.Parsed)
    (dependencies : List String) : List Diagnostic :=
  early s.config.reference.initializer scanned parsed ++
    Reference.resolve s.config.reference parsed.table
      (s.scope path parsed.table (symbols s.config.reference.initializer parsed.table).1 dependencies)

theorem graded_found (s : Session) (path : String) (scanned : Lexer.Scanned)
    (parsed : Parser.Parsed) (dependencies : List String) :
    ∀ d ∈ found s path scanned parsed dependencies, d.Graded := by
  intro d hd
  rcases List.mem_append.mp hd with hd | hd
  · exact graded_early _ scanned parsed d hd
  · exact Reference.graded_resolve _ _ _ d hd

section

variable {source : String} {scanned : Lexer.Scanned} {parsed : Parser.Parsed}
  (hlex : Lexer.tokenize source = .ok scanned) (hparse : Parser.parse scanned.tokens = .ok parsed)

include hlex hparse

/-- **The report of a file is what its queue holds of all that is found**, sorted by line. -/
theorem file_eq_found (s : Session) (path : String) (dependencies : List String) :
    file s path source dependencies =
      .ok ⟨path, parsed.table, (symbols s.config.reference.initializer parsed.table).1,
        sortByLine ((Queue.new s.config.queue).recordAll
          (found s path scanned parsed dependencies)).held⟩ := by
  rw [file_eq hlex hparse, Session.resolve, Queue.flush_eq, found, Queue.recordAll,
    Queue.recordAll, Queue.recordAll, List.foldl_append]

/-- If everything is held, the report lists all that is found. -/
theorem file_unlimited_eq {s : Session} (hqueue : s.config.queue = .unlimited) (path : String)
    (dependencies : List String) :
    file s path source dependencies =
      .ok ⟨path, parsed.table, (symbols s.config.reference.initializer parsed.table).1,
        sortByLine (found s path scanned parsed dependencies)⟩ := by
  have hnew : (Queue.new s.config.queue).config = .unlimited := hqueue
  have hheld := (Queue.held_recordAll hnew (found s path scanned parsed dependencies)).2
  rw [file_eq_found hlex hparse, hheld]
  rfl

end

/-- **The settings of the queue do not change the verdict.** Under all of them a file fails in the same
way, or it has one tree, one symbol table, and a report that is part of the full one and has errors
exactly if the full one has. The full report lists what the phases find, in the order in which they run,
sorted by line. -/
theorem verdict_withQueue (s : Session) (path source : String) (dependencies : List String) :
    (∃ e, parse path source = .error e ∧
        ∀ queue, file (s.withQueue queue) path source dependencies = .error e) ∨
      ∃ scanned parsed full,
        Lexer.tokenize source = .ok scanned ∧ Parser.parse scanned.tokens = .ok parsed ∧
        file (s.withQueue .unlimited) path source dependencies = .ok full ∧
        ByLine
          (scanned.warnings.map EmptyReference.diagnostic ++ parsed.diagnostics ++
            (symbols s.config.reference.initializer parsed.table).2 ++
            Reference.resolve s.config.reference parsed.table
              (s.scope path parsed.table full.symbols dependencies))
          full.diagnostics ∧
        ∀ queue, ∃ kept : List Diagnostic,
          file (s.withQueue queue) path source dependencies =
              .ok { full with diagnostics := kept } ∧
            kept.Sublist full.diagnostics ∧
            Report.hasErrors { full with diagnostics := kept } = full.hasErrors := by
  obtain ⟨scanned, parsed, hlex, hparse⟩ | ⟨e, hread, -⟩ := exists_of_parse path source
  · right
    have hgraded := graded_found s path scanned parsed dependencies
    refine ⟨scanned, parsed, _, hlex, hparse,
      file_unlimited_eq hlex hparse rfl path dependencies, Diagnostic.byLine_sortByLine _, ?_⟩
    intro queue
    have hcollected := (Queue.collected_new queue).recordAll
      (Check.found s path scanned parsed dependencies)
    have hany := (Queue.collected_new queue).any_isError_recordAll hgraded
    refine ⟨_, file_eq_found hlex hparse (s.withQueue queue) path dependencies,
      Diagnostic.sublist_sortByLine hcollected.held, ?_⟩
    calc (sortByLine ((Queue.new queue).recordAll
            (Check.found s path scanned parsed dependencies)).held).any Diagnostic.isError
        = ((Queue.new queue).recordAll
            (Check.found s path scanned parsed dependencies)).held.any Diagnostic.isError :=
          (Diagnostic.sortByLine_perm _).any_eq
      _ = (Check.found s path scanned parsed dependencies).any Diagnostic.isError := hany
      _ = (sortByLine (Check.found s path scanned parsed dependencies)).any Diagnostic.isError :=
          (Diagnostic.sortByLine_perm _).any_eq.symm
  · exact .inl ⟨e, hread, fun queue => file_eq_error hread _ dependencies⟩

end Check

end IntentCode
