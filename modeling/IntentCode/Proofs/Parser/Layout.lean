import IntentCode.Proofs.Parser.Rounds

/-!
# What lexes parses

The lexer keeps a stack of widths and the parser a stack of scopes with a count of skipped levels,
and neither knows of the other. They agree on one number, the level of the line: it is the height of
the lexer's stack (`Lexer.adjust_widthsAt`) and the depth of the parser's state (`depth_read`). So
the layout tokens of a lexed source always describe a line at most one level deeper than the one
before, or one further out, and never go back below the top level. That is all the automaton of
`Stream` asks for, and a source that lexes is never refused as corrupted, whatever its lines say.
-/

set_option autoImplicit false

namespace IntentCode.Parser

namespace Stream

/-! ## The automaton on the tokens of a source -/

theorem dedents_bare (count number : Nat) :
    ∀ t ∈ List.replicate count (Token.bare .dedent number), t.kind = .dedent := by
  intro t ht
  rw [List.eq_of_mem_replicate ht]
  rfl

theorem linesFrom_layoutTo {level : Nat} {l : LogicalLine} {ts : List Token}
    (h : l.level ≤ level + 1) :
    linesFrom level (.layout (.back 0)) (Lexer.layoutTo level l.level l.number ++ ts) =
      linesFrom l.level (.layout (moveTo level l)) ts := by
  unfold Lexer.layoutTo moveTo
  split
  · next hl => simp [linesFrom, Token.bare, hl]
  · next hl =>
    have hle : l.level + (level - l.level) = level := by omega
    have := linesFrom_dedents (dedents_bare (level - l.level) l.number) l.level 0 ts
    rw [List.length_replicate, hle, Nat.zero_add] at this
    exact this

theorem linesFrom_tokensAt {last level : Nat} {ls : List LogicalLine} (h : Climbs level ls) :
    linesFrom level (.layout (.back 0)) (Lexer.tokensAt last level ls) =
      .ok ⟨linesAt level ls, .back (LogicalLine.lastLevel level ls)⟩ := by
  induction ls generalizing level with
  | nil =>
    have := linesFrom_dedents (dedents_bare level last) 0 0 [.bare .endOfFile last]
    rw [List.length_replicate, Nat.zero_add] at this
    rw [Lexer.tokensAt, this]
    rfl
  | cons l ls ih =>
    have hsound : ∀ t ∈ l.tokens, t.kind.isLayout = false :=
      fun t ht => (l.sound_tokens.1 t ht).not_layout
    simp only [Lexer.tokensAt, List.append_assoc, List.cons_append, List.nil_append]
    rw [linesFrom_layoutTo h.1, linesFrom_line hsound rfl, ih h.2, LogicalLine.lastLevel_cons]
    rfl

theorem getLast?_tokensAt (last level : Nat) (ls : List LogicalLine) :
    (Lexer.tokensAt last level ls).getLast? = some (.bare .endOfFile last) := by
  induction ls generalizing level with
  | nil => simp [Lexer.tokensAt]
  | cons l ls ih => rw [Lexer.tokensAt, List.getLast?_append, ih, Option.some_or]

theorem ofTokens_tokensAt {last : Nat} {ls : List LogicalLine} (h : Climbs 0 ls) :
    ofTokens (Lexer.tokensAt last 0 ls) =
      .ok ⟨linesAt 0 ls, .back (LogicalLine.lastLevel 0 ls)⟩ := by
  unfold ofTokens
  rw [getLast?_tokensAt, if_pos (by rfl)]
  exact linesFrom_tokensAt h

end Stream

/-! ## Parsing what has been lexed -/

/-- The stream of a source that lexes, line by line. -/
theorem ofTokens_of_tokenize {source : String} {scanned : Lexer.Scanned}
    (h : Lexer.tokenize source = .ok scanned) :
    ∃ ls, LogicalLine.ofSource source = .ok ls ∧ Lexer.Lexes 0 ls ∧
      Stream.ofTokens scanned.tokens =
        .ok ⟨linesAt 0 ls, .back (LogicalLine.lastLevel 0 ls)⟩ := by
  obtain ⟨ls, hls, hlex, hts⟩ := Lexer.tokenize_eq_ok_iff.mp ⟨scanned, h, rfl⟩
  refine ⟨ls, hls, hlex, ?_⟩
  rw [hts]
  exact Stream.ofTokens_tokensAt (climbs_of_lexes hlex)

/-- The parse of a source that lexes is what reading its logical lines comes to. -/
theorem parse_of_tokenize {source : String} {scanned : Lexer.Scanned}
    (h : Lexer.tokenize source = .ok scanned) :
    ∃ ls, LogicalLine.ofSource source = .ok ls ∧ Lexer.Lexes 0 ls ∧
      parse scanned.tokens =
        .ok (ofStream ⟨linesAt 0 ls, .back (LogicalLine.lastLevel 0 ls)⟩) := by
  obtain ⟨ls, hls, hlex, hst⟩ := ofTokens_of_tokenize h
  refine ⟨ls, hls, hlex, ?_⟩
  rw [parse_eq, hst]
  rfl

theorem run_linesAt {ls : List LogicalLine} (h : Climbs 0 ls) :
    run (linesAt 0 ls) = readAll .initial ls := foldl_step_linesAt (s := .initial) h

/-- The tree of a stream is that of its logical lines. -/
theorem table_ofStream {ls : List LogicalLine} (h : Climbs 0 ls) {trailing : Move} :
    (ofStream ⟨linesAt 0 ls, trailing⟩).table = (readAll .initial ls).table := by
  simp only [ofStream]
  rw [State.table_finish, run_linesAt h]

theorem linesAt_append (level : Nat) (ls ms : List LogicalLine) :
    linesAt level (ls ++ ms) =
      linesAt level ls ++ linesAt (LogicalLine.lastLevel level ls) ms := by
  induction ls generalizing level with
  | nil => rfl
  | cons l ls ih => simp [linesAt, ih]

@[simp] theorem length_linesAt (level : Nat) (ls : List LogicalLine) :
    (linesAt level ls).length = ls.length := by
  induction ls generalizing level with
  | nil => rfl
  | cons l ls ih => simp [linesAt, ih]

/-- **A source that lexes parses.** Its stream has one line for each logical line. The run reads one of
them in each round, and after it the open scopes below the top level and the skipped levels are
together as many as the levels by which the line is indented. -/
theorem exists_parse_of_tokenize {source : String} {scanned : Lexer.Scanned}
    (h : Lexer.tokenize source = .ok scanned) :
    ∃ lines stream, LogicalLine.ofSource source = .ok lines ∧
      Stream.ofTokens scanned.tokens = .ok stream ∧
      parse scanned.tokens = .ok (ofStream stream) ∧
      stream.lines.length = lines.length ∧
      ∀ before l after, lines = before ++ l :: after →
        ∃ s ahead, State.Reaches scanned.tokens (before.length + 1) s ahead ∧
          s = run (stream.lines.take (before.length + 1)) ∧
          (s.outer.length + s.skipped) * Lexer.indentUnit = l.indent := by
  obtain ⟨lines, hlines, hlex, hstream⟩ := ofTokens_of_tokenize h
  have hclimbs := climbs_of_lexes hlex
  refine ⟨lines, _, hlines, hstream, ?_, length_linesAt 0 lines, ?_⟩
  · rw [parse_eq, hstream]
    rfl
  · rintro before l after rfl
    have hpair : before ++ l :: after = (before ++ [l]) ++ after := by simp
    have htake : (linesAt 0 (before ++ l :: after)).take (before.length + 1) =
        linesAt 0 (before ++ [l]) := by
      rw [hpair, linesAt_append, List.take_left']
      simp
    rw [hpair] at hclimbs
    have hbefore := (climbs_append.mp hclimbs).1
    have hdepth : (readAll .initial (before ++ [l])).depth = l.level := by
      rw [depth_readAll (s := .initial) hbefore]
      simp [LogicalLine.lastLevel]
    have hcount : before.length + 1 ≤ (linesAt 0 (before ++ l :: after)).length := by simp
    obtain ⟨ahead, hreached, -⟩ := State.reaches_run hstream hcount
    refine ⟨_, ahead, hreached, rfl, ?_⟩
    rw [htake, run_linesAt hbefore]
    show (readAll .initial (before ++ [l])).depth * Lexer.indentUnit = l.indent
    rw [hdepth]
    exact (Lexer.indent_of_lexes hlex (by simp)).symm

/-- A source without one line in its place: a block under nothing, and a block under a header that
is not one. -/
theorem exists_parse_of_broken_source :
    ∃ scanned, Lexer.tokenize "step:\n    class (\n        func\n    @ note\n" = .ok scanned ∧
      ∃ lines stream,
        LogicalLine.ofSource "step:\n    class (\n        func\n    @ note\n" = .ok lines ∧
        Stream.ofTokens scanned.tokens = .ok stream ∧
        parse scanned.tokens = .ok (ofStream stream) ∧
        stream.lines.length = lines.length ∧
        ∀ before l after, lines = before ++ l :: after →
          ∃ s ahead, State.Reaches scanned.tokens (before.length + 1) s ahead ∧
            s = run (stream.lines.take (before.length + 1)) ∧
            (s.outer.length + s.skipped) * Lexer.indentUnit = l.indent := by
  have hlex : (Lexer.tokenize
      "step:\n    class (\n        func\n    @ note\n").toOption.isSome = true := by
    decide +kernel
  cases h : Lexer.tokenize "step:\n    class (\n        func\n    @ note\n" with
  | error e => rw [h] at hlex; exact absurd hlex (by simp [Except.toOption])
  | ok scanned => exact ⟨scanned, rfl, exists_parse_of_tokenize h⟩

end IntentCode.Parser
