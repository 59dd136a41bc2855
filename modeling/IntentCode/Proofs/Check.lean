import IntentCode.Check

/-!
# What a check reports

Checking one file fails only where the lexer or the parser does (`file_eq`). If everything is held,
the report lists what the four phases have found, in the order of the lines instead of the order in
which the phases run (`exists_report`).
-/

set_option autoImplicit false

namespace IntentCode

/-! ## A queue that holds everything -/

namespace Diagnostic.Queue

theorem record_unlimited {q : Queue} (h : q.config = .unlimited) (d : Diagnostic) :
    (q.record d).config = .unlimited ∧ (q.record d).held = q.held ++ [d] := by
  have hlimit : q.limitReached = false := by
    rw [limitReached, h]
    rfl
  have hkept : q.config.deduplicate = false := by rw [h]; rfl
  simp only [record, add, hlimit, hkept, Bool.and_false, Bool.false_and, Bool.false_eq_true,
    if_false]
  exact ⟨h, trivial⟩

theorem held_recordAll {q : Queue} (h : q.config = .unlimited) (ds : List Diagnostic) :
    (q.recordAll ds).config = .unlimited ∧ (q.recordAll ds).held = q.held ++ ds := by
  induction ds generalizing q with
  | nil => exact ⟨h, (List.append_nil _).symm⟩
  | cons d ds ih =>
    obtain ⟨hconfig, hheld⟩ := record_unlimited h d
    obtain ⟨hconfig', hheld'⟩ := ih hconfig
    refine ⟨hconfig', ?_⟩
    rw [recordAll, List.foldl_cons, ← recordAll, hheld', hheld, List.append_assoc,
      List.singleton_append]

/-- Ordering by line neither loses nor adds anything. -/
theorem flush_perm (q : Queue) : q.flush.1.Perm q.held := List.mergeSort_perm _ _

end Diagnostic.Queue

/-! ## The symbols -/

namespace Constructor

theorem keys_visit (t : Ast.Table) (initializer : String) (metadata : OrderedMap Metadata)
    (n : Ast.Node) : (visit t initializer metadata n).1.keys = metadata.keys := by
  unfold visit
  split
  · split
    · rfl
    · rfl
    · split
      · exact OrderedMap.keys_modify _ _ _
      · rfl
  · rfl

/-- Entering the constructors adds no symbol. -/
theorem keys_validate (t : Ast.Table) (initializer : String) (metadata : OrderedMap Metadata) :
    (validate t initializer metadata).1.keys = metadata.keys :=
  List.foldlRecOn
    (motive := fun r : OrderedMap Metadata × List Diagnostic => r.1.keys = metadata.keys)
    t.toList _ rfl fun r hr n _ => (keys_visit t initializer r.1 n).trans hr

end Constructor

namespace Check

theorem symbols_tree (initializer : String) (t : Ast.Table) :
    (symbols initializer t).1.tree = (SymbolTable.ofAst t).tree := rfl

theorem keys_symbols (initializer : String) (t : Ast.Table) :
    (symbols initializer t).1.metadata.keys = (SymbolTable.ofAst t).metadata.keys :=
  Constructor.keys_validate t initializer _

/-! ## Reading a file -/

/-- A file that cannot be read has no report, whatever the session is. -/
theorem file_eq_error {path source : String} {e : Failure} (h : parse path source = .error e)
    (s : Session) (dependencies : List String) : file s path source dependencies = .error e := by
  simp only [file, prepare, h, bind, Except.bind]

theorem mapError_ok {ε α : Type} (f : ε → Failure) (a : α) :
    (Except.ok a : Except ε α).mapError f = .ok a := rfl

theorem mapError_error {ε α : Type} (f : ε → Failure) (e : ε) :
    (Except.error e : Except ε α).mapError f = .error (f e) := rfl

/-- A file is read if the lexer and the parser accept it; else it fails under its own path. -/
theorem exists_of_parse (path source : String) :
    (∃ scanned parsed, Lexer.tokenize source = .ok scanned ∧
        Parser.parse scanned.tokens = .ok parsed) ∨
      ∃ e, parse path source = .error e ∧ e.path = path := by
  cases hlex : Lexer.tokenize source with
  | error e =>
    refine .inr ⟨.lexer path e, ?_, rfl⟩
    simp only [parse, hlex, mapError_error, bind, Except.bind]
  | ok scanned =>
    cases hparse : Parser.parse scanned.tokens with
    | error e =>
      refine .inr ⟨.parser path e, ?_, rfl⟩
      simp only [parse, hlex, hparse, mapError_ok, mapError_error, bind, Except.bind]
    | ok parsed => exact .inl ⟨scanned, parsed, rfl, hparse⟩

/-! ## The report -/

section

variable {path source : String} {scanned : Lexer.Scanned} {parsed : Parser.Parsed}
  (hlex : Lexer.tokenize source = .ok scanned) (hparse : Parser.parse scanned.tokens = .ok parsed)

/-- What the phases before resolution find: the lexer, the parser, and what is wrong with
constructors. -/
def early (initializer : String) (scanned : Lexer.Scanned) (parsed : Parser.Parsed) :
    List Diagnostic :=
  scanned.warnings.map EmptyReference.diagnostic ++ parsed.diagnostics ++
    (symbols initializer parsed.table).2

include hlex hparse

theorem parse_eq :
    parse path source =
      .ok (parsed.table, scanned.warnings.map EmptyReference.diagnostic ++ parsed.diagnostics) := by
  simp only [parse, hlex, hparse, mapError_ok, bind, Except.bind, pure, Except.pure]

/-- **A file that is read is checked**: nothing after the parser fails. -/
theorem file_eq (s : Session) (dependencies : List String) :
    file s path source dependencies =
      .ok (s.resolve
        ⟨path, parsed.table, (symbols s.config.reference.initializer parsed.table).1,
          (Diagnostic.Queue.new s.config.queue).recordAll
            (early s.config.reference.initializer scanned parsed)⟩
        dependencies) := by
  simp only [file, prepare, parse_eq hlex hparse, bind, Except.bind, pure, Except.pure]
  rfl

/-- **If everything is held, a report lists what the phases find**, up to the order. -/
theorem exists_report {s : Session} (hqueue : s.config.queue = .unlimited)
    (dependencies : List String) :
    ∃ report, file s path source dependencies = .ok report ∧ report.tree = parsed.table ∧
      report.symbols = (symbols s.config.reference.initializer parsed.table).1 ∧
      report.diagnostics.Perm
        (early s.config.reference.initializer scanned parsed ++
          Reference.resolve s.config.reference parsed.table
            (s.scope path parsed.table report.symbols dependencies)) := by
  refine ⟨_, file_eq hlex hparse s dependencies, rfl, rfl, ?_⟩
  have hnew : (Diagnostic.Queue.new s.config.queue).config = .unlimited := hqueue
  obtain ⟨hconfig, hearly⟩ :=
    Diagnostic.Queue.held_recordAll hnew (early s.config.reference.initializer scanned parsed)
  refine (Diagnostic.Queue.flush_perm _).trans (List.Perm.of_eq ?_)
  rw [(Diagnostic.Queue.held_recordAll hconfig _).2, hearly]
  rfl

end

end Check

end IntentCode
