import IntentCode.Proofs.Parser.Outcome

/-!
# Parsing in rounds

A run keeps no count of levels. It closes a scope for a `dedent`, or a skipped level, and is stuck where
there is neither. The automaton of `Stream` knows nothing but the count. The two are brought together
here, round by round: as long as the count is the depth of the state, a round is refused exactly where
the automaton refuses the tokens, for the same reason and at the same place, and if it is not, then its
line is the next line of the automaton and the state it leaves is that of reading the line
(`linesFrom_round`), with the depth that the automaton goes on with. So parsing a token list is reading
its lines (`parse_eq`), and the state after some of them is where the run comes to in as many rounds
(`reaches_run`).

A round that does not stop has moved past the `newline` of a line, so it leaves fewer tokens ahead, and
that is why the run ends on every token list, accepted or not (`rounds_eq_some`).
-/

set_option autoImplicit false

namespace IntentCode.Parser

namespace Cursor

/-! ## What lies ahead -/

/-- What lies ahead begins with a line that has a `newline` at its end, or with one that is cut off. -/
theorem takeLine_cases (c : Cursor) :
    (∃ line t after, c.takeLine = (some line, ⟨after⟩) ∧ c.rest = line ++ t :: after ∧
      (∀ u ∈ line, u.kind.isLayout = false) ∧ t.kind = .newline) ∨
    ∃ line rest, c.takeLine.1 = none ∧ c.rest = line ++ rest ∧
      (∀ u ∈ line, u.kind.isLayout = false) ∧
      ∀ t ∈ rest.head?, t.kind.isLayout = true ∧ t.kind ≠ .newline := by
  have hsplit := (c.rest.takeWhile_append_dropWhile (p := fun t => !t.kind.isLayout)).symm
  have hplain : ∀ u ∈ c.rest.takeWhile fun t => !t.kind.isLayout, u.kind.isLayout = false := by
    intro u hu
    simpa using List.all_eq_true.mp List.all_takeWhile u hu
  cases hrest : c.rest.dropWhile fun t => !t.kind.isLayout with
  | nil =>
    rw [hrest] at hsplit
    exact .inr ⟨_, [], by simp [takeLine, hrest], hsplit, hplain, fun t ht => by cases ht⟩
  | cons t after =>
    rw [hrest] at hsplit
    by_cases ht : t.kind = .newline
    · exact .inl ⟨_, t, after, by simp [takeLine, hrest, ht], hsplit, hplain, ht⟩
    · have hlayout : t.kind.isLayout = true := by
        have hhead := List.head?_dropWhile_not (fun t : Token => !t.kind.isLayout) c.rest
        rw [hrest] at hhead
        simpa using hhead
      refine .inr ⟨_, t :: after, by simp [takeLine, hrest, ht], hsplit, hplain, ?_⟩
      intro u hu
      cases hu
      exact ⟨hlayout, ht⟩

theorem rest_of_takeLine {c after : Cursor} {line : List Token}
    (h : c.takeLine = (some line, after)) :
    ∃ t, c.rest = line ++ t :: after.rest ∧ (∀ u ∈ line, u.kind.isLayout = false) ∧
      t.kind = .newline := by
  rcases takeLine_cases c with ⟨ahead, t, rest, htake, hrest⟩ | ⟨_, _, hnone, _⟩
  · rw [h] at htake
    cases htake
    exact ⟨t, hrest⟩
  · rw [h] at hnone
    cases hnone

theorem rest_of_kind {c : Cursor} {kind : Token.Kind} (h : c.current.kind = kind)
    (hne : kind ≠ .endOfFile) :
    ∃ t ts, c = ⟨t :: ts⟩ ∧ t.kind = kind ∧ c.current = t ∧ c.advance.2 = ⟨ts⟩ := by
  obtain ⟨_ | ⟨t, ts⟩⟩ := c
  · exact absurd h.symm hne
  · have hk : t.kind = kind := h
    exact ⟨t, ts, rfl, hk, rfl, by simp [advance, isAtEnd, current, hk, hne]⟩

/-- The next line is the one that is taken, where nothing stands before it. -/
theorem peekLine_of_takeLine {c ahead : Cursor} {line : List Token}
    (h : c.takeLine = (some line, ahead)) : c.peekLine = line := by
  obtain ⟨t, hrest, hplain, ht⟩ := rest_of_takeLine h
  have hdrop : (line ++ t :: ahead.rest).dropWhile
      (fun t => t.kind = .indent || t.kind = .dedent) = line ++ t :: ahead.rest := by
    cases line with
    | nil => simp [ht]
    | cons u line =>
      have hu := hplain u List.mem_cons_self
      cases hk : u.kind <;> simp [hk, Token.Kind.isLayout] at hu <;> simp [hk]
  rw [peekLine, hrest, hdrop, List.takeWhile_append_of_pos (by simpa using hplain)]
  simp [ht, Token.Kind.isLayout]

theorem peekLine_of_isAtEnd {c : Cursor} (h : c.isAtEnd) : c.peekLine = [] := by
  obtain ⟨_ | ⟨t, ts⟩⟩ := c
  · rfl
  · have hk : t.kind = .endOfFile := of_decide_eq_true h
    simp [peekLine, hk, Token.Kind.isLayout]

end Cursor

namespace Stream

section

variable {depth : Nat} {move : Move} {c : Cursor}

/-! ## The automaton at a cursor -/

theorem linesFrom_cut {first : Nat} {read line rest : List Token}
    (hline : ∀ u ∈ line, u.kind.isLayout = false)
    (hrest : ∀ t ∈ rest.head?, t.kind.isLayout = true ∧ t.kind ≠ .newline) :
    linesFrom depth (.content move first read) (line ++ rest) =
      .error (.layoutInsideLine first) := by
  induction line generalizing read with
  | nil =>
    cases rest with
    | nil => rfl
    | cons t rest =>
      obtain ⟨hlayout, hnewline⟩ := hrest t rfl
      cases hk : t.kind <;> simp [hk, Token.Kind.isLayout] at hlayout hnewline <;>
        simp [linesFrom, hk]
  | cons u line ih =>
    rw [List.cons_append, linesFrom_more (hline u List.mem_cons_self)]
    exact ih fun v hv => hline v (List.mem_cons_of_mem _ hv)

theorem linesFrom_of_line {after : Cursor} {line : List Token}
    (h : c.takeLine = (some line, after)) :
    linesFrom depth (.layout move) c.rest =
      (linesFrom depth (.layout (.back 0)) after.rest).map (cons ⟨move, line⟩) := by
  obtain ⟨t, hrest, hplain, ht⟩ := Cursor.rest_of_takeLine h
  rw [hrest, linesFrom_line hplain ht]

/-- A line that is cut off. What may stand before it is a `dedent`, if there is an `indent` before that. -/
theorem linesFrom_of_noLine (hindent : c.current.kind ≠ .indent)
    (hdedent : c.current.kind = .dedent → ∃ line, move = .deeper line) (hend : ¬ c.isAtEnd)
    (h : c.takeLine.1 = none) :
    linesFrom depth (.layout move) c.rest = .error (.layoutInsideLine c.current.line) := by
  obtain ⟨ahead⟩ := c
  rcases Cursor.takeLine_cases ⟨ahead⟩ with
    ⟨_, _, _, hsome, -⟩ | ⟨line, rest, -, hsplit, hplain, hrest⟩
  · rw [hsome] at h
    cases h
  · obtain rfl : ahead = line ++ rest := hsplit
    cases line with
    | cons u line =>
      show linesFrom depth (.layout move) (u :: (line ++ rest)) = _
      rw [linesFrom_first (hplain u List.mem_cons_self)]
      exact linesFrom_cut (fun v hv => hplain v (List.mem_cons_of_mem _ hv)) hrest
    | nil =>
      cases rest with
      | nil => exact absurd rfl hend
      | cons t rest =>
        obtain ⟨hlayout, hnewline⟩ := hrest t rfl
        have hne : t.kind ≠ .endOfFile := fun hk => hend (by simp [Cursor.isAtEnd, Cursor.current, hk])
        have hk : t.kind = .dedent := by
          apply Decidable.byContradiction
          intro hk
          rw [not_layout hne hnewline hindent hk] at hlayout
          cases hlayout
        obtain ⟨n, rfl⟩ := hdedent hk
        show linesFrom depth (.layout (.deeper n)) (t :: rest) = .error (.layoutInsideLine t.line)
        simp [linesFrom, hk]

theorem linesFrom_of_isAtEnd (h : c.isAtEnd) :
    linesFrom depth (.layout move) c.rest = .ok ⟨[], move⟩ := by
  obtain ⟨_ | ⟨t, ts⟩⟩ := c
  · rfl
  · have hk : t.kind = .endOfFile := of_decide_eq_true h
    simp [linesFrom, hk]

end

end Stream

open IntentCode.Parser.Stream (linesFrom)

namespace State

/-! ## The layout before a line -/

/-- Moving past the layout before a line has been a move, and the automaton is as far. The layout that
may still stand at the cursor is layout that the line must not have. -/
structure Landed (s : State) (c : Cursor) (m : Move) (next : State) (ahead : Cursor) : Prop where
  state : next = s.move m ahead.peekLine
  lines : linesFrom s.depth (.layout (.back 0)) c.rest =
    linesFrom next.depth (.layout m) ahead.rest
  indent : ahead.current.kind ≠ .indent
  dedent : ahead.current.kind = .dedent → ∃ line, m = .deeper line

theorem depth_closeOpener (s : State) : s.closeOpener.depth = s.depth := by
  rw [closeOpener_eq]
  rfl

theorem depth_enter (s : State) (line : Nat) (tokens : List Token) :
    (s.enter line tokens).depth = s.depth + 1 :=
  (moves (l := ⟨.deeper line, tokens⟩) trivial).depth_eq

theorem linesFrom_dedent {s next : State} {t : Token} (hk : t.kind = .dedent)
    (h : s.leave? = some next) (levels : Nat) (ts : List Token) :
    next = s.leave ∧ linesFrom s.depth (.layout (.back levels)) (t :: ts) =
      linesFrom next.depth (.layout (.back (levels + 1))) ts := by
  refine ⟨by rw [leave, h, Option.getD_some], ?_⟩
  rw [depth_of_leave? h]
  simp [linesFrom, hk]

/-- The levels that are closed are open ones. -/
theorem linesFrom_passDedents_ok {before s next : State} {levels : Nat} {ts : List Token}
    {ahead : Cursor} (hs : s = levels.repeat leave before)
    (h : s.passDedents ts = .ok (next, ahead)) :
    ∃ more, next = more.repeat leave before ∧
      linesFrom s.depth (.layout (.back levels)) ts =
        linesFrom next.depth (.layout (.back more)) ahead.rest ∧
      ahead.current.kind ≠ .indent ∧ ahead.current.kind ≠ .dedent := by
  fun_induction passDedents s ts generalizing levels with
  | case1 =>
    cases h
    exact ⟨levels, hs, rfl, by simp [Cursor.current, Token.bare], by simp [Cursor.current, Token.bare]⟩
  | case2 => cases h
  | case3 s t ts hk after hafter ih =>
    obtain ⟨rfl, hlines⟩ := linesFrom_dedent hk hafter levels ts
    have hmoved : s.leave = (levels + 1).repeat leave before := by rw [hs, Nat.repeat]
    obtain ⟨more, hnext, hmore, hahead⟩ := ih hmoved h
    exact ⟨more, hnext, hlines.trans hmore, hahead⟩
  | case4 => cases h
  | case5 s t ts hdedent hindent =>
    cases h
    exact ⟨levels, hs, rfl, hindent, hdedent⟩

theorem linesFrom_passDedents_error {s : State} {levels : Nat} {ts : List Token} {e : ParseError}
    (hfirst : levels = 0 → ∀ t ∈ ts.head?, t.kind ≠ .indent) (h : s.passDedents ts = .error e) :
    linesFrom s.depth (.layout (.back levels)) ts = .error e := by
  fun_induction passDedents s ts generalizing levels with
  | case1 => cases h
  | case2 s t ts hk hnone =>
    cases h
    rw [leave?_eq_none_iff.mp hnone]
    simp [linesFrom, hk]
  | case3 s t ts hk after hafter ih =>
    rw [(linesFrom_dedent hk hafter levels ts).2]
    exact ih (by simp) h
  | case4 s t ts hdedent hindent =>
    cases h
    obtain ⟨levels, rfl⟩ := Nat.exists_eq_succ_of_ne_zero fun hzero => hfirst hzero t rfl hindent
    simp [linesFrom, hindent]
  | case5 => cases h

theorem landed_of_passLayout {s next : State} {c ahead : Cursor}
    (h : s.passLayout c = .ok (next, ahead)) : ∃ m, Landed s c m next ahead := by
  unfold passLayout at h
  split at h
  · next hindent =>
    obtain ⟨t, ts, rfl, ht, hcurrent, hadvance⟩ := Cursor.rest_of_kind hindent (by simp)
    rw [hcurrent, hadvance] at h
    dsimp only at h
    split at h
    · cases h
    · next hsecond =>
      cases h
      refine ⟨.deeper t.line, rfl, ?_, hsecond, fun _ => ⟨t.line, rfl⟩⟩
      rw [depth_enter]
      simp [linesFrom, ht]
  · have hstart : s.closeOpener = (0 : Nat).repeat leave s.closeOpener := rfl
    obtain ⟨levels, hnext, hlines, hindent, hdedent⟩ := linesFrom_passDedents_ok hstart h
    rw [depth_closeOpener] at hlines
    exact ⟨.back levels, hnext, hlines, hindent, fun hk => absurd hk hdedent⟩

theorem linesFrom_of_passLayout {s : State} {c : Cursor} {e : ParseError}
    (h : s.passLayout c = .error e) :
    linesFrom s.depth (.layout (.back 0)) c.rest = .error e := by
  unfold passLayout at h
  split at h
  · next hindent =>
    obtain ⟨t, ts, rfl, ht, hcurrent, hadvance⟩ := Cursor.rest_of_kind hindent (by simp)
    rw [hcurrent, hadvance] at h
    dsimp only at h
    split at h
    · next hsecond =>
      obtain ⟨u, us, hts, hu, -, -⟩ := Cursor.rest_of_kind hsecond (by simp)
      cases hts
      cases h
      simp [linesFrom, ht, hu]
    · cases h
  · next hindent =>
    rw [← depth_closeOpener]
    refine linesFrom_passDedents_error (fun _ t ht hk => hindent ?_) h
    rw [Cursor.current, ht, Option.getD_some, hk]

/-! ## A round -/

/-- What the automaton comes to, by what a round comes to. -/
def Follows (s : State) (c : Cursor) : Except ParseError Round → Prop
  | .error e => linesFrom s.depth (.layout (.back 0)) c.rest = .error e
  | .ok (.ended next) =>
    ∃ m, linesFrom s.depth (.layout (.back 0)) c.rest = .ok ⟨[], m⟩ ∧ next.close = s.finish m
  | .ok (.line next ahead) =>
    ∃ l, linesFrom s.depth (.layout (.back 0)) c.rest =
        (linesFrom next.depth (.layout (.back 0)) ahead.rest).map (Stream.cons l) ∧
      next = s.step l

theorem close_closeOpener (s : State) : s.closeOpener.close = s.close := by
  simp only [close]
  rw [closeOpener_eq s.closeOpener, closeOpener_eq]
  simp [missingBlock]

/-- **A round and the automaton agree**, on what is corrupted and on what comes next. -/
theorem linesFrom_round (s : State) (c : Cursor) : s.Follows c (s.round c) := by
  unfold round
  split
  · next hend => exact ⟨.back 0, Stream.linesFrom_of_isAtEnd hend, (close_closeOpener s).symm⟩
  · cases hlayout : s.passLayout c with
    | error e => exact linesFrom_of_passLayout hlayout
    | ok landing =>
      obtain ⟨next, ahead⟩ := landing
      obtain ⟨m, hlanded⟩ := landed_of_passLayout hlayout
      dsimp only
      split
      · next hlast =>
        refine ⟨m, hlanded.lines.trans (Stream.linesFrom_of_isAtEnd hlast), ?_⟩
        rw [hlanded.state, Cursor.peekLine_of_isAtEnd hlast, finish]
      · next hlast =>
        split
        · next line after hline =>
          have hstate := hlanded.state
          rw [Cursor.peekLine_of_takeLine hline] at hstate
          refine ⟨⟨m, line⟩, ?_, by rw [hstate, step]⟩
          rw [hlanded.lines, Stream.linesFrom_of_line hline, hstate, depth_line]
        · next after hline =>
          exact hlanded.lines.trans (Stream.linesFrom_of_noLine hlanded.indent hlanded.dedent hlast
            (congrArg Prod.fst hline))

/-! ## The run -/

theorem loop_eq (s : State) (c : Cursor) :
    s.loop c =
      match s.round c with
      | .error e => .error e
      | .ok (.ended s) => .ok s
      | .ok (.line s ahead) => s.loop ahead := by
  rw [loop]
  split <;> simp_all

/-- **A run reads the lines of what is ahead.** -/
theorem map_parsed_loop (s : State) (c : Cursor) :
    (s.loop c).map parsed =
      (linesFrom s.depth (.layout (.back 0)) c.rest).map fun stream =>
        let last := (stream.lines.foldl step s).finish stream.trailing
        ⟨last.table, last.findings⟩ := by
  have hround := linesFrom_round s c
  fun_induction loop s c with
  | case1 s c e h =>
    rw [h] at hround
    rw [show linesFrom s.depth (.layout (.back 0)) c.rest = .error e from hround]
    rfl
  | case2 s c next h =>
    rw [h] at hround
    obtain ⟨m, hlines, hclose⟩ := hround
    rw [hlines]
    simp [Except.map, parsed, hclose]
  | case3 s c next ahead h ih =>
    rw [h] at hround
    obtain ⟨l, hlines, rfl⟩ := hround
    rw [ih (linesFrom_round _ _), hlines]
    cases linesFrom (s.step l).depth (.layout (.back 0)) ahead.rest with
    | error e => rfl
    | ok stream => rfl

/-- A run in at most `count` rounds, if they are enough. -/
def rounds (s : State) (c : Cursor) (count : Nat) : Option (Except ParseError State) :=
  match count with
  | 0 => none
  | count + 1 =>
    match s.round c with
    | .error e => some (.error e)
    | .ok (.ended s) => some (.ok s)
    | .ok (.line s ahead) => s.rounds ahead count

/-- **The run ends.** The rounds that it takes are no more than the tokens ahead and one. -/
theorem rounds_eq_some {s : State} {c : Cursor} {count : Nat} (h : c.rest.length < count) :
    s.rounds c count = some (s.loop c) := by
  induction count generalizing s c with
  | zero => exact absurd h (Nat.not_lt_zero _)
  | succ count ih =>
    rw [rounds, loop_eq]
    cases hround : s.round c with
    | error e => rfl
    | ok r =>
      cases r with
      | ended last => rfl
      | line next ahead =>
        exact ih (Nat.lt_of_lt_of_le (length_round hround) (Nat.le_of_lt_succ h))

/-! ## The levels of a run -/

/-- From one place of a run to a later one the open levels change as the tokens between them say. -/
def Spans (s : State) (c : Cursor) (next : State) (ahead : Cursor) : Prop :=
  ∃ read, c.rest = read ++ ahead.rest ∧
    next.depth + (read.map Token.kind).count .dedent =
      s.depth + (read.map Token.kind).count .indent

theorem Spans.refl (s : State) (c : Cursor) : Spans s c s c := ⟨[], rfl, rfl⟩

theorem Spans.trans {s₁ s₂ s₃ : State} {c₁ c₂ c₃ : Cursor} (h₁ : Spans s₁ c₁ s₂ c₂)
    (h₂ : Spans s₂ c₂ s₃ c₃) : Spans s₁ c₁ s₃ c₃ := by
  obtain ⟨read₁, hrest₁, hlevels₁⟩ := h₁
  obtain ⟨read₂, hrest₂, hlevels₂⟩ := h₂
  refine ⟨read₁ ++ read₂, by rw [hrest₁, hrest₂, List.append_assoc], ?_⟩
  simp only [List.map_append, List.count_append]
  omega

theorem spans_passDedents {s next : State} {ts : List Token} {ahead : Cursor}
    (h : s.passDedents ts = .ok (next, ahead)) : Spans s ⟨ts⟩ next ahead := by
  fun_induction passDedents s ts with
  | case1 s =>
    cases h
    exact .refl _ _
  | case2 => cases h
  | case3 s t ts hk after hafter ih =>
    have hdepth := depth_of_leave? hafter
    have hclosed : Spans s ⟨t :: ts⟩ after ⟨ts⟩ := ⟨[t], rfl, by simp [hk, hdepth]⟩
    exact hclosed.trans (ih h)
  | case4 => cases h
  | case5 s t ts =>
    cases h
    exact .refl _ _

theorem spans_passLayout {s next : State} {c ahead : Cursor}
    (h : s.passLayout c = .ok (next, ahead)) : Spans s c next ahead := by
  unfold passLayout at h
  split at h
  · next hindent =>
    obtain ⟨t, ts, rfl, ht, hcurrent, hadvance⟩ := Cursor.rest_of_kind hindent (by simp)
    rw [hcurrent, hadvance] at h
    dsimp only at h
    split at h
    · cases h
    · cases h
      exact ⟨[t], rfl, by simp [ht, depth_enter]⟩
  · have hclosed : Spans s c s.closeOpener ⟨c.rest⟩ := ⟨[], rfl, by simp [depth_closeOpener]⟩
    exact hclosed.trans (spans_passDedents h)

theorem spans_line {c ahead : Cursor} {line : List Token} (h : c.takeLine = (some line, ahead))
    (s : State) : Spans s c (s.line line) ahead := by
  obtain ⟨t, hrest, hplain, ht⟩ := Cursor.rest_of_takeLine h
  have hno : ∀ kind : Token.Kind, kind.isLayout = true → kind ≠ .newline →
      ((line ++ [t]).map Token.kind).count kind = 0 := by
    intro kind hlayout hne
    rw [List.count_eq_zero]
    intro hmem
    obtain ⟨u, hu, rfl⟩ := List.mem_map.mp hmem
    rcases List.mem_append.mp hu with hu | hu
    · rw [hplain u hu] at hlayout
      cases hlayout
    · rw [List.mem_singleton.mp hu] at hne
      exact hne ht
  refine ⟨line ++ [t], by simp [hrest], ?_⟩
  rw [hno .dedent rfl (by simp), hno .indent rfl (by simp), depth_line]

theorem spans_round {s next : State} {c ahead : Cursor} (h : s.round c = .ok (.line next ahead)) :
    Spans s c next ahead := by
  unfold round at h
  split at h
  · cases h
  · split at h
    · cases h
    · next hlayout =>
      split at h
      · cases h
      · split at h
        · next hline =>
          cases h
          exact (spans_passLayout hlayout).trans (spans_line hline _)
        · cases h

/-- Where a run comes to in a number of rounds, and what is ahead of it there. -/
inductive Reaches (ts : List Token) : Nat → State → Cursor → Prop
  | start : Reaches ts 0 .initial ⟨ts⟩
  | round {count : Nat} {s next : State} {c ahead : Cursor} (reached : Reaches ts count s c)
    (reads : s.round c = .ok (.line next ahead)) : Reaches ts (count + 1) next ahead

/-- **The levels that are open are those that the tokens have opened and not closed.** -/
theorem Reaches.spans {ts : List Token} {count : Nat} {s : State} {c : Cursor}
    (h : Reaches ts count s c) : Spans .initial ⟨ts⟩ s c := by
  induction h with
  | start => exact .refl _ _
  | round reached reads ih => exact ih.trans (spans_round reads)

/-! ## The lines of a run -/

/-- Where the automaton has a line, a round reads it. -/
theorem round_of_linesFrom {s : State} {c : Cursor} {l : Line} {ls : List Line} {trailing : Move}
    (h : linesFrom s.depth (.layout (.back 0)) c.rest = .ok ⟨l :: ls, trailing⟩) :
    ∃ ahead, s.round c = .ok (.line (s.step l) ahead) ∧
      linesFrom (s.step l).depth (.layout (.back 0)) ahead.rest = .ok ⟨ls, trailing⟩ := by
  have hround := linesFrom_round s c
  cases hr : s.round c with
  | error e =>
    rw [hr] at hround
    cases h.symm.trans hround
  | ok r =>
    rw [hr] at hround
    cases r with
    | ended next =>
      obtain ⟨m, hlines, -⟩ := hround
      cases h.symm.trans hlines
    | line next ahead =>
      obtain ⟨read, hlines, rfl⟩ := hround
      refine ⟨ahead, ?_⟩
      cases hmore : linesFrom (s.step read).depth (.layout (.back 0)) ahead.rest with
      | error e =>
        rw [h, hmore] at hlines
        cases hlines
      | ok stream =>
        rw [h, hmore] at hlines
        cases hlines
        exact ⟨rfl, hmore⟩

/-- **The state after some lines is where the run comes to in as many rounds.** -/
theorem reaches_run {ts : List Token} {stream : Stream} (h : Stream.ofTokens ts = .ok stream)
    {count : Nat} (hcount : count ≤ stream.lines.length) :
    ∃ ahead, Reaches ts count (run (stream.lines.take count)) ahead ∧
      linesFrom (run (stream.lines.take count)).depth (.layout (.back 0)) ahead.rest =
        .ok ⟨stream.lines.drop count, stream.trailing⟩ := by
  induction count with
  | zero =>
    refine ⟨⟨ts⟩, .start, ?_⟩
    unfold Stream.ofTokens at h
    split at h
    · exact h
    · cases h
  | succ count ih =>
    obtain ⟨c, hreached, hlines⟩ := ih (Nat.le_of_succ_le hcount)
    rw [List.drop_eq_getElem_cons hcount] at hlines
    obtain ⟨ahead, hround, hmore⟩ := round_of_linesFrom hlines
    have hstate : run (stream.lines.take (count + 1)) =
        (run (stream.lines.take count)).step stream.lines[count] := by
      rw [List.take_succ_eq_append_getElem hcount, run_concat]
    exact ⟨ahead, hstate ▸ .round hreached hround, hstate ▸ hmore⟩

end State

/-! ## Parsing -/

/-- **To parse a token list is to read its lines.** -/
theorem parse_eq (ts : List Token) : parse ts = (Stream.ofTokens ts).map ofStream := by
  unfold parse Stream.ofTokens
  split
  · exact State.map_parsed_loop .initial ⟨ts⟩
  · rfl

/-- A token list that parses is a stream whose lines have been read. -/
theorem parse_eq_ok_iff {ts : List Token} {parsed : Parsed} :
    parse ts = .ok parsed ↔
      ∃ stream, Stream.ofTokens ts = .ok stream ∧ parsed = ofStream stream := by
  rw [parse_eq]
  cases Stream.ofTokens ts with
  | error e => simp [Except.map]
  | ok stream => simp [Except.map, eq_comm]

end IntentCode.Parser
