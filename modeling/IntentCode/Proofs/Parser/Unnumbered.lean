import IntentCode.Proofs.Lexer.Padding
import IntentCode.Proofs.Parser.Recovery
import IntentCode.Proofs.Parser.RoundTrip
import IntentCode.Proofs.Parser.Rounds

/-!
# Parsing does not look at line numbers

Tokens carry line numbers, and the parser hands them on: to the nodes of the tree, to its findings,
to the notes and blocks that it has to report later. It never looks at them. So taking the numbers
out of the tokens takes them out of the result and changes nothing else (`parse_unnumbered`).

One equation says so for each function of the parser. They compose, since each has the numbers taken
out of its arguments on the left and of its result on the right.
-/

set_option autoImplicit false

namespace IntentCode

namespace Parser

open Ast

/-! ## Streams -/

def Move.unnumbered : Move → Move
  | .deeper _ => .deeper 0
  | .back levels => .back levels

def Line.unnumbered (l : Line) : Line := ⟨l.move.unnumbered, l.tokens.map (Token.onLine 0)⟩

def Stream.unnumbered (s : Stream) : Stream := ⟨s.lines.map .unnumbered, s.trailing.unnumbered⟩

namespace ParseError

def unnumbered : ParseError → ParseError
  | missingEnd => missingEnd
  | layoutInsideLine _ => layoutInsideLine 0
  | secondIndent _ => secondIndent 0
  | indentAfterDedent _ => indentAfterDedent 0
  | dedentBelowTop _ => dedentBelowTop 0

/-- A result without numbers: by `f` if there is one. -/
def unnumbering {α β : Type} (f : α → β) : Except ParseError α → Except ParseError β
  | .ok a => .ok (f a)
  | .error e => .error e.unnumbered

end ParseError

open ParseError (unnumbering)

namespace Stream

def Phase.unnumbered : Phase → Phase
  | .layout move => .layout move.unnumbered
  | .content move _ read => .content move.unnumbered 0 (read.map (Token.onLine 0))

theorem unnumbering_cons (l : Line) (r : Except ParseError Stream) :
    (unnumbering unnumbered r).map (cons l.unnumbered) = unnumbering unnumbered (r.map (cons l)) := by
  cases r <;> rfl

/-- A line that ends. -/
theorem linesFrom_newline {depth : Nat} {phase : Phase} {t : Token} {ts : List Token}
    (hk : t.kind = .newline) :
    linesFrom depth phase (t :: ts) =
      (linesFrom depth (.layout (.back 0)) ts).map (cons ⟨phase.move, phase.read⟩) := by
  cases phase <;> simp [linesFrom, hk, Phase.move, Phase.read]

/-- The lines of a token list without numbers are its lines without numbers. -/
theorem linesFrom_unnumbered (depth : Nat) (phase : Phase) (ts : List Token) :
    linesFrom depth phase.unnumbered (ts.map (Token.onLine 0)) =
      unnumbering unnumbered (linesFrom depth phase ts) := by
  fun_induction linesFrom depth phase ts
  case case4 t ts move hk ih =>
    have hk' : (Token.onLine 0 t).kind = .newline := hk
    rw [List.map_cons, linesFrom_newline hk']
    refine (congrArg (Except.map _) ih).trans (unnumbering_cons ⟨move, []⟩ _)
  case case12 t ts move first read hk ih =>
    have hk' : (Token.onLine 0 t).kind = .newline := hk
    rw [List.map_cons, linesFrom_newline hk']
    refine (congrArg (Except.map _) ih).trans (unnumbering_cons ⟨move, read⟩ _)
  case case11 t ts move h₁ h₂ h₃ h₄ h₅ h₆ h₇ ih =>
    -- the cases before this one have taken every layout token
    have hlayout : (Token.onLine 0 t).kind.isLayout = false := by
      cases move with
      | deeper line => exact not_layout h₁ h₂ (h₅ line · rfl) (h₇ line · rfl)
      | back levels =>
        refine not_layout h₁ h₂ ?_ (h₆ levels · rfl)
        cases levels with
        | zero => exact (h₃ · rfl)
        | succ levels => exact (h₄ levels · rfl)
    rw [List.map_cons]
    exact (linesFrom_first hlayout).trans ih
  all_goals
    simp_all [linesFrom, Phase.unnumbered, Move.unnumbered, Token.onLine, unnumbering,
      unnumbered, ParseError.unnumbered]

theorem ofTokens_unnumbered (ts : List Token) :
    ofTokens (ts.map (Token.onLine 0)) = unnumbering unnumbered (ofTokens ts) := by
  have hlast : (ts.map (Token.onLine 0)).getLast?.map Token.kind = ts.getLast?.map Token.kind := by
    rw [List.getLast?_map, Option.map_map]
    rfl
  unfold ofTokens
  rw [hlast]
  split
  · exact linesFrom_unnumbered 0 (.layout (.back 0)) ts
  · rfl

end Stream

/-! ## States -/

def Opener.unnumbered : Opener → Opener
  | .none => .none
  | .block uid type explicit _ content => .block uid type explicit 0 content
  | .rejected => .rejected

def Finding.unnumbered (f : Finding) : Finding := { f with line := 0 }

namespace State

def unnumbered (s : State) : State where
  table := s.table.unnumbered
  scope := s.scope.unnumbered
  outer := s.outer.map .unnumbered
  opener := s.opener.unnumbered
  skipped := s.skipped
  findings := s.findings.map .unnumbered

theorem report_unnumbered (s : State) (complaint : Complaint) (line : Nat) (content : String) :
    (s.report complaint line content).unnumbered = s.unnumbered.report complaint 0 content := by
  simp [report, unnumbered, Finding.unnumbered]

theorem reportAll_unnumbered (s : State) (complaints : List Complaint) (line : Nat)
    (content : String) :
    (s.reportAll complaints line content).unnumbered =
      s.unnumbered.reportAll complaints 0 content := by
  simp [reportAll, unnumbered, Finding.unnumbered]

theorem attach_unnumbered (s : State) (uid : Nat) (kind : NoteKind) (text : String) :
    (s.attach uid kind text).unnumbered = s.unnumbered.attach uid kind text := by
  have htable := unnumbered_modify s.table uid (f := noted kind text) fun n => rfl
  rw [attach_eq, attach_eq]
  simp only [unnumbered, htable]

theorem note_unnumbered (s : State) (kind : NoteKind) (text : String) (line : Nat)
    (content : String) :
    (s.note kind text line content).unnumbered = s.unnumbered.note kind text 0 content := by
  have hlast : s.unnumbered.scope.lastDecl = s.scope.lastDecl := rfl
  unfold note
  rw [hlast]
  cases s.scope.lastDecl with
  | some uid => exact attach_unnumbered s uid kind text
  | none => simp [unnumbered, Scope.unnumbered, PendingNote.unnumbered]

theorem reportPending_unnumbered (s : State) (scope : Scope) :
    (s.reportPending scope).unnumbered = s.unnumbered.reportPending scope.unnumbered := by
  simp [reportPending_eq, pendingFindings, unnumbered, Scope.unnumbered, PendingNote.unnumbered,
    Finding.unnumbered]

theorem closeOpener_unnumbered (s : State) :
    s.closeOpener.unnumbered = s.unnumbered.closeOpener := by
  have hmissing : (missingBlock s.opener).map Finding.unnumbered =
      missingBlock s.unnumbered.opener := by
    unfold unnumbered missingBlock
    cases s.opener with
    | block uid type explicit line content => cases explicit <;> rfl
    | none => rfl
    | rejected => rfl
  rw [closeOpener_eq, closeOpener_eq, ← hmissing]
  simp [unnumbered, Opener.unnumbered]

theorem leave?_unnumbered (s : State) : s.unnumbered.leave? = s.leave?.map unnumbered := by
  have hskipped : s.unnumbered.skipped = s.skipped := rfl
  unfold leave?
  rw [hskipped]
  split
  · rfl
  · have houter : s.unnumbered.outer = s.outer.map Scope.unnumbered := rfl
    rw [houter]
    cases s.outer with
    | nil => rfl
    | cons next outer =>
      exact congrArg some (reportPending_unnumbered { s with scope := next, outer } s.scope).symm

theorem leave_unnumbered (s : State) : s.leave.unnumbered = s.unnumbered.leave := by
  rw [leave, leave, leave?_unnumbered, Option.getD_map]

theorem enter_unnumbered (s : State) (line : Nat) (tokens : List Token) :
    (s.enter line tokens).unnumbered = s.unnumbered.enter 0 (tokens.map (Token.onLine 0)) := by
  have hskipped : s.unnumbered.skipped = s.skipped := rfl
  have hopener : s.unnumbered.opener = s.opener.unnumbered := rfl
  unfold enter
  rw [hskipped, hopener, Token.render_onLine]
  split
  · rfl
  · cases s.opener with
    | block uid type explicit line content => rfl
    | none => exact report_unnumbered _ _ _ _
    | rejected => rfl

theorem move_unnumbered (s : State) (m : Move) (tokens : List Token) :
    (s.move m tokens).unnumbered =
      s.unnumbered.move m.unnumbered (tokens.map (Token.onLine 0)) := by
  cases m with
  | deeper line => exact enter_unnumbered s line tokens
  | back levels =>
    have hrepeat : ∀ (levels : Nat) (s : State),
        (levels.repeat leave s).unnumbered = levels.repeat leave s.unnumbered := by
      intro levels s
      induction levels with
      | zero => rfl
      | succ levels ih => rw [Nat.repeat, Nat.repeat, leave_unnumbered, ih]
    exact (hrepeat levels s.closeOpener).trans
      (congrArg (levels.repeat leave) s.closeOpener_unnumbered)

/-! ## Lines -/

theorem opensSkipped_onLine (n : Nat) (tokens : List Token) :
    opensSkipped (tokens.map (Token.onLine n)) = opensSkipped tokens := by
  unfold opensSkipped
  rw [endsWithColon_onLine, List.head?_map]
  cases tokens.head? <;> rfl

theorem reject_unnumbered (s : State) (complaint : Complaint) (line : Nat) (tokens : List Token)
    (opens : Bool) :
    (s.reject complaint line tokens opens).unnumbered =
      s.unnumbered.reject complaint 0 (tokens.map (Token.onLine 0)) opens := by
  unfold reject
  rw [report_unnumbered, Token.render_onLine]
  cases opens <;> rfl

theorem add_unnumbered (s : State) (node : LineNode) (line : Nat) (tokens : List Token) :
    (s.add node line tokens).unnumbered =
      s.unnumbered.add node 0 (tokens.map (Token.onLine 0)) := by
  have hsize : s.unnumbered.table.size = s.table.size := Table.size_unnumbered s.table
  have hnotes : (if node.body.isDeclaration then s.scope.pending else []).map
      PendingNote.unnumbered =
        if node.body.isDeclaration then s.unnumbered.scope.pending else [] := by
    split <;> rfl
  have hredeclared : redeclaration s.unnumbered.scope node.body =
      redeclaration s.scope node.body := rfl
  rw [add_eq, add_eq, hsize, hredeclared, Token.render_onLine, ← hnotes]
  simp only [unnumbered, State.mk.injEq, true_and, unnumbered_withNotes, unnumbered_push,
    unnumbered_extended, List.map_append, List.map_map]
  refine ⟨rfl, ?_, rfl⟩
  split <;> rfl

theorem accept_unnumbered (s : State) (node : LineNode) (line : Nat) (tokens : List Token) :
    (s.accept node line tokens).unnumbered =
      s.unnumbered.accept node 0 (tokens.map (Token.onLine 0)) := by
  have hallowed : s.unnumbered.scope.allowed = s.scope.allowed := rfl
  have htype : s.unnumbered.scope.type = s.scope.type := rfl
  unfold accept
  rw [hallowed, htype, opensSkipped_onLine]
  dsimp only
  split
  · exact add_unnumbered s node line tokens
  · exact reject_unnumbered s _ line tokens _

theorem content_unnumbered (s : State) (first : Token) (tokens : List Token) :
    (s.content first tokens).unnumbered =
      s.unnumbered.content (first.onLine 0) (tokens.map (Token.onLine 0)) := by
  have hkind : (first.onLine 0).kind = first.kind := rfl
  have htext : (first.onLine 0).text = first.text := rfl
  have hkeyword : (first.onLine 0).isKeyword "description" = first.isKeyword "description" := rfl
  unfold content
  rw [hkind, htext, hkeyword, lineNode_onLine, Token.render_onLine, opensSkipped_onLine,
    ← List.map_drop]
  dsimp only
  split
  · exact note_unnumbered s _ _ _ _
  · split
    · cases tokens.drop 1 with
      | nil => exact reject_unnumbered s _ _ tokens _
      | cons colon text =>
        have hcolon : (colon.onLine 0).kind = colon.kind := rfl
        simp only [List.map_cons, hcolon, Token.render_onLine]
        split
        · exact note_unnumbered s _ _ _ _
        · exact reject_unnumbered s _ _ tokens _
    · cases lineNode tokens with
      | error fault => exact reject_unnumbered s _ _ tokens _
      | ok node =>
        simp only [foldl_report]
        rw [accept_unnumbered, reportAll_unnumbered]
        rfl

theorem line_unnumbered (s : State) (tokens : List Token) :
    (s.line tokens).unnumbered = s.unnumbered.line (tokens.map (Token.onLine 0)) := by
  have hskipped : s.unnumbered.skipped = s.skipped := rfl
  cases tokens with
  | nil => rfl
  | cons first rest =>
    simp only [line, List.map_cons]
    rw [hskipped]
    split
    · rfl
    · exact content_unnumbered s first (first :: rest)

theorem step_unnumbered (s : State) (l : Line) :
    (s.step l).unnumbered = s.unnumbered.step l.unnumbered := by
  rw [step, line_unnumbered, move_unnumbered]
  rfl

theorem close_unnumbered (s : State) : s.close.unnumbered = s.unnumbered.close := by
  have hfold : ∀ (scopes : List Scope) (s : State), (scopes.foldl reportPending s).unnumbered =
      (scopes.map Scope.unnumbered).foldl reportPending s.unnumbered := by
    intro scopes s
    induction scopes generalizing s with
    | nil => rfl
    | cons scope scopes ih =>
      rw [List.map_cons, List.foldl_cons, List.foldl_cons, ih, reportPending_unnumbered]
  unfold close
  rw [hfold, ← closeOpener_unnumbered]
  rfl

theorem finish_unnumbered (s : State) (trailing : Move) :
    (s.finish trailing).unnumbered = s.unnumbered.finish trailing.unnumbered := by
  rw [finish, close_unnumbered, move_unnumbered]
  rfl

end State

/-! ## Parsing -/

def Parsed.unnumbered (p : Parsed) : Parsed := ⟨p.table.unnumbered, p.findings.map .unnumbered⟩

theorem run_unnumbered (lines : List Line) :
    (run lines).unnumbered = run (lines.map .unnumbered) := by
  have hfold : ∀ s : State, (lines.foldl State.step s).unnumbered =
      (lines.map Line.unnumbered).foldl State.step s.unnumbered := by
    induction lines with
    | nil => exact fun s => rfl
    | cons l lines ih =>
      intro s
      rw [List.map_cons, List.foldl_cons, List.foldl_cons, ih, State.step_unnumbered]
  have hinitial : State.initial.unnumbered = .initial := by
    simp [State.unnumbered, State.initial, Table.unnumbered, Table.empty, Table.rootNode,
      Scope.unnumbered, Scope.new, Opener.unnumbered]
  rw [run, hfold, hinitial]
  rfl

/-- **Parsing does not look at line numbers.** -/
theorem parse_unnumbered (ts : List Token) :
    parse (ts.map (Token.onLine 0)) = unnumbering Parsed.unnumbered (parse ts) := by
  rw [parse_eq, parse_eq, Stream.ofTokens_unnumbered]
  cases Stream.ofTokens ts with
  | error e => rfl
  | ok stream =>
    have hfinish : (ofStream stream).unnumbered = ofStream stream.unnumbered := by
      have hstate := (run stream.lines).finish_unnumbered stream.trailing
      rw [run_unnumbered] at hstate
      have htable := congrArg State.table hstate
      have hfindings := congrArg State.findings hstate
      unfold ofStream Parsed.unnumbered
      exact congrArg₂ Parsed.mk htable hfindings
    show Except.ok (ofStream stream.unnumbered) = .ok (ofStream stream).unnumbered
    rw [hfinish]

/-! ## Padded sources -/

end Parser

def Diagnostic.unnumbered (d : Diagnostic) : Diagnostic := { d with line := 0 }

namespace Parser

theorem diagnostics_unnumbered (p : Parsed) :
    p.unnumbered.diagnostics = p.diagnostics.map .unnumbered := by
  simp [Parsed.diagnostics, Parsed.unnumbered, Finding.diagnostic, Finding.unnumbered,
    Diagnostic.unnumbered]

theorem unnumbered_eq_of_parse {ts ts' : List Token} {p p' : Parsed}
    (h : ts'.map (Token.onLine 0) = ts.map (Token.onLine 0)) (hp : parse ts = .ok p)
    (hp' : parse ts' = .ok p') : p'.unnumbered = p.unnumbered := by
  have hboth := parse_unnumbered ts'
  rw [h, parse_unnumbered, hp, hp'] at hboth
  exact (Except.ok.inj hboth).symm

/-- **Blank lines and comments are invisible.** They may be put between any two lines of a source
none of which ends with a backslash: then both texts are refused for the same reason, or both have
the same tokens, the same warnings, the same tree and the same diagnostics, but for the numbers of
lines and the blanks at the ends of quoted ones. -/
theorem padding_invisible {source source' : String}
    (h : Padded (Text.lines source) (Text.lines source'))
    (hlines : ∀ raw ∈ Text.lines source, (Text.trimRight raw.toList).getLast? ≠ some '\\') :
    (∃ e e', Lexer.tokenize source = .error e ∧ Lexer.tokenize source' = .error e' ∧
      e'.unplaced = e.unplaced) ∨
    ∃ scanned scanned' parsed parsed', Lexer.tokenize source = .ok scanned ∧
      Lexer.tokenize source' = .ok scanned' ∧
      scanned'.tokens.map (Token.onLine 0) = scanned.tokens.map (Token.onLine 0) ∧
      scanned'.warnings.map EmptyReference.unplaced =
        scanned.warnings.map EmptyReference.unplaced ∧
      parse scanned.tokens = .ok parsed ∧ parse scanned'.tokens = .ok parsed' ∧
      parsed'.table.sameStructure parsed.table = true ∧
      parsed'.table.unnumbered = parsed.table.unnumbered ∧
      parsed'.diagnostics.map Diagnostic.unnumbered =
        parsed.diagnostics.map Diagnostic.unnumbered := by
  rcases LexError.cases_of_unplacing_eq (Lexer.tokenize_padded h hlines) with
    hfailed | ⟨scanned, scanned', hscanned, hscanned', hsame⟩
  · exact .inl hfailed
  · have htokens : scanned'.tokens.map (Token.onLine 0) = scanned.tokens.map (Token.onLine 0) :=
      congrArg Lexer.Scanned.tokens hsame
    have hwarnings := congrArg Lexer.Scanned.warnings hsame
    obtain ⟨ls, -, -, hparsed⟩ := parse_of_tokenize hscanned
    obtain ⟨ls', -, -, hparsed'⟩ := parse_of_tokenize hscanned'
    have hunnumbered := unnumbered_eq_of_parse htokens hparsed hparsed'
    have htable := congrArg Parsed.table hunnumbered
    have hdiagnostics := congrArg Parsed.diagnostics hunnumbered
    rw [diagnostics_unnumbered, diagnostics_unnumbered] at hdiagnostics
    obtain ⟨rows, hrows, -⟩ := exists_rows_of_parse hscanned hparsed
    refine .inr ⟨scanned, scanned', _, _, hscanned, hscanned', htokens, hwarnings, hparsed,
      hparsed', ?_, htable, hdiagnostics⟩
    unfold Parsed.unnumbered at htable
    rw [hrows] at htable ⊢
    exact Ast.Table.sameStructure_of_unnumbered htable

/-- Comments in a list that goes on after a comma, behind the line that opens a block and at the
end, where the last comma is left without a continuation. -/
theorem padding_invisible_continued :
    Padded (Text.lines "func f(a,\n  b):\n    go,\n")
      (Text.lines "// f\nfunc f(a,  \n\n // a\\\n  b):\n        // deep\n    go,\n//,") ∧
    (∀ raw ∈ Text.lines "func f(a,\n  b):\n    go,\n",
      (Text.trimRight raw.toList).getLast? ≠ some '\\') ∧
    ∃ scanned scanned' parsed parsed',
      Lexer.tokenize "func f(a,\n  b):\n    go,\n" = .ok scanned ∧
      Lexer.tokenize "// f\nfunc f(a,  \n\n // a\\\n  b):\n        // deep\n    go,\n//," =
        .ok scanned' ∧
      scanned'.tokens.map (Token.onLine 0) = scanned.tokens.map (Token.onLine 0) ∧
      parse scanned.tokens = .ok parsed ∧ parse scanned'.tokens = .ok parsed' ∧
      parsed'.table.sameStructure parsed.table = true := by
  have hlines : Text.lines "func f(a,\n  b):\n    go,\n" = ["func f(a,", "  b):", "    go,"] := by
    decide +kernel
  have hpadded :
      Text.lines "// f\nfunc f(a,  \n\n // a\\\n  b):\n        // deep\n    go,\n//," =
        ["// f", "func f(a,  ", "", " // a\\", "  b):", "        // deep", "    go,", "//,"] := by
    decide +kernel
  have h : Padded (Text.lines "func f(a,\n  b):\n    go,\n")
      (Text.lines "// f\nfunc f(a,  \n\n // a\\\n  b):\n        // deep\n    go,\n//,") := by
    rw [hlines, hpadded]
    refine .padding (by decide +kernel) (.line (by decide +kernel) ?_)
    refine .padding (by decide +kernel) (.padding (by decide +kernel) (.line rfl ?_))
    exact .padding (by decide +kernel) (.line rfl (.padding (by decide +kernel) .nil))
  have hbackslash : ∀ raw ∈ Text.lines "func f(a,\n  b):\n    go,\n",
      (Text.trimRight raw.toList).getLast? ≠ some '\\' := by decide +kernel
  have hlexes : (Lexer.tokenize "func f(a,\n  b):\n    go,\n").toOption.isSome = true := by
    decide +kernel
  rcases padding_invisible h hbackslash with ⟨e, e', he, -⟩ | hsame
  · rw [he] at hlexes
    cases hlexes
  · obtain ⟨scanned, scanned', parsed, parsed', hs, hs', htokens, -, hp, hp', hstructure, -⟩ := hsame
    exact ⟨h, hbackslash, scanned, scanned', parsed, parsed', hs, hs', htokens, hp, hp', hstructure⟩

end Parser

end IntentCode
