import IntentCode.Proofs.Parser.State

/-!
# What a stream holds

`Stream.ofTokens` accepts a token list or refuses it, and what it returns for a list that it accepts
is that list in another form. `Spells` says so: the kinds of the tokens up to the end of the file are
those of the lines with their moves, and the tokens that are not layout are those of the lines. So
whatever is said about the lines of a stream is said about the token list.

The automaton counts the open levels, and the count is all that the lines need to have levels of
their own: a line stands where its move leads (`Move.target`), and no move goes back further than to
the top level (`Fits`).
-/

set_option autoImplicit false

namespace IntentCode.Parser

/-! ## Levels -/

/-- The level to which a move leads. -/
def Move.target (level : Nat) : Move → Nat
  | .deeper _ => level + 1
  | .back levels => level - levels

/-- The move does not go back below the top level. -/
def Move.Fits (level : Nat) : Move → Prop
  | .deeper _ => True
  | .back levels => levels ≤ level

/-- No line goes back below the top level. -/
def Fits (level : Nat) : List Line → Prop
  | [] => True
  | l :: ls => l.move.Fits level ∧ Fits (l.move.target level) ls

/-- The level after some lines. -/
def levelAfter (level : Nat) (ls : List Line) : Nat :=
  ls.foldl (fun level l => l.move.target level) level

theorem fits_append {level : Nat} {ls ms : List Line} :
    Fits level (ls ++ ms) ↔ Fits level ls ∧ Fits (levelAfter level ls) ms := by
  induction ls generalizing level with
  | nil => simp [Fits, levelAfter]
  | cons l ls ih => simp [Fits, levelAfter, ih, and_assoc]

/-! ## Tokens -/

/-- The layout tokens of a move. -/
def Move.kinds : Move → List Token.Kind
  | .deeper _ => [.indent]
  | .back levels => List.replicate levels .dedent

def Line.kinds (l : Line) : List Token.Kind :=
  l.move.kinds ++ l.tokens.map Token.kind ++ [.newline]

namespace Stream

/-- The tokens before the end of the file. -/
def upToEnd (ts : List Token) : List Token := ts.takeWhile fun t => t.kind ≠ .endOfFile

/-- The lines of a stream are the lines of a token list. -/
structure Spells (ts : List Token) (s : Stream) : Prop where
  kinds : (upToEnd ts).map Token.kind = s.lines.flatMap Line.kinds ++ s.trailing.kinds
  content : (upToEnd ts).filter (fun t => !t.kind.isLayout) = s.lines.flatMap Line.tokens

namespace Phase

/-- The move that leads to the line. -/
def move : Phase → Move
  | layout move => move
  | content move _ _ => move

/-- The tokens of the line so far. -/
def read : Phase → List Token
  | layout _ => []
  | content _ _ read => read

end Phase

theorem upToEnd_cons {t : Token} (h : t.kind ≠ .endOfFile) (ts : List Token) :
    upToEnd (t :: ts) = t :: upToEnd ts := List.takeWhile_cons_of_pos (by simpa using h)

theorem upToEnd_end {t : Token} (h : t.kind = .endOfFile) (ts : List Token) :
    upToEnd (t :: ts) = [] := List.takeWhile_cons_of_neg (by simpa using h)

/-- What the automaton has accepted, from a line that is half read. -/
structure Accepted (start : Nat) (phase : Phase) (ts : List Token) (s : Stream) : Prop where
  kinds : phase.move.kinds ++ phase.read.map Token.kind ++ (upToEnd ts).map Token.kind =
    s.lines.flatMap Line.kinds ++ s.trailing.kinds
  content : phase.read ++ (upToEnd ts).filter (fun t => !t.kind.isLayout) =
    s.lines.flatMap Line.tokens
  fits : Fits start s.lines
  trailing : s.trailing.Fits (levelAfter start s.lines)

namespace Accepted

variable {start : Nat} {phase : Phase} {t : Token} {ts : List Token} {s : Stream}

/-- The end of the file, or the end of the list. -/
theorem ended {move : Move} (h : upToEnd ts = []) (hfits : move.Fits start) :
    Accepted start (.layout move) ts ⟨[], move⟩ where
  kinds := by simp [h, Phase.move, Phase.read]
  content := by simp [h, Phase.read]
  fits := trivial
  trailing := hfits

/-- A token that ends a line. -/
theorem newline (hk : t.kind = .newline) (hfits : phase.move.Fits start)
    (h : Accepted (phase.move.target start) (.layout (.back 0)) ts s) :
    Accepted start phase (t :: ts) (cons ⟨phase.move, phase.read⟩ s) where
  kinds := by
    have hkinds : (upToEnd ts).map Token.kind =
        s.lines.flatMap Line.kinds ++ s.trailing.kinds := h.kinds
    simp [upToEnd_cons (t := t) (by simp [hk]), hk, hkinds, cons, Line.kinds]
  content := by
    have hcontent : (upToEnd ts).filter (fun t => !t.kind.isLayout) =
        s.lines.flatMap Line.tokens := h.content
    have hlayout : t.kind.isLayout = true := by rw [hk]; rfl
    rw [upToEnd_cons (by simp [hk]), List.filter_cons_of_neg (by simp [hlayout]), hcontent]
    simp [cons]
  fits := ⟨hfits, h.fits⟩
  trailing := h.trailing

theorem ne_end_of_content (hk : t.kind.isLayout = false) : t.kind ≠ .endOfFile := by
  rintro he
  rw [he] at hk
  cases hk

/-- A token of a line. -/
theorem more (hk : t.kind.isLayout = false) {first : Nat}
    (h : Accepted start (.content phase.move first (phase.read ++ [t])) ts s) :
    Accepted start phase (t :: ts) s where
  kinds := by
    have hkinds : phase.move.kinds ++ (phase.read ++ [t]).map Token.kind ++
        (upToEnd ts).map Token.kind = s.lines.flatMap Line.kinds ++ s.trailing.kinds := h.kinds
    rw [upToEnd_cons (ne_end_of_content hk), ← hkinds]
    simp
  content := by
    have hcontent : phase.read ++ [t] ++ (upToEnd ts).filter (fun t => !t.kind.isLayout) =
        s.lines.flatMap Line.tokens := h.content
    rw [upToEnd_cons (ne_end_of_content hk), List.filter_cons_of_pos (by simp [hk]), ← hcontent]
    simp
  fits := h.fits
  trailing := h.trailing

/-- A token of the layout before a line. -/
theorem layout {m n : Move} (hkinds : n.kinds = m.kinds ++ [t.kind])
    (hk : t.kind.isLayout = true) (hend : t.kind ≠ .endOfFile)
    (h : Accepted start (.layout n) ts s) : Accepted start (.layout m) (t :: ts) s where
  kinds := by
    have hall : n.kinds ++ [] ++ (upToEnd ts).map Token.kind =
        s.lines.flatMap Line.kinds ++ s.trailing.kinds := h.kinds
    rw [upToEnd_cons hend, ← hall, hkinds]
    simp [Phase.move, Phase.read]
  content := by
    rw [upToEnd_cons hend, List.filter_cons_of_neg (by simp [hk])]
    exact h.content
  fits := h.fits
  trailing := h.trailing

end Accepted

theorem not_layout {kind : Token.Kind} (hend : kind ≠ .endOfFile) (hnewline : kind ≠ .newline)
    (hindent : kind ≠ .indent) (hdedent : kind ≠ .dedent) : kind.isLayout = false := by
  cases kind <;> first | rfl | contradiction

theorem map_ok {ε α β : Type} {f : α → β} {x : Except ε α} {b : β} (h : x.map f = .ok b) :
    ∃ a, x = .ok a ∧ b = f a := by
  cases x with
  | error e => cases h
  | ok a => exact ⟨a, rfl, (Except.ok.inj h).symm⟩

/-- **What the automaton accepts is what it returns.** -/
theorem accepted_of_linesFrom {depth start : Nat} {phase : Phase} {ts : List Token} {s : Stream}
    (h : linesFrom depth phase ts = .ok s) (hfits : phase.move.Fits start)
    (htarget : phase.move.target start = depth) : Accepted start phase ts s := by
  fun_induction linesFrom depth phase ts generalizing start s
  case case1 =>
    cases h
    exact .ended rfl hfits
  case case3 hk =>
    cases h
    exact .ended (upToEnd_end hk _) hfits
  case case4 move hk ih =>
    obtain ⟨s, hs, rfl⟩ := map_ok h
    exact .newline hk hfits (ih hs (Nat.zero_le _) htarget)
  case case5 hk ih =>
    refine .layout (by simp [Move.kinds, hk]) (by rw [hk]; rfl) (by simp [hk]) (ih h trivial ?_)
    exact congrArg (· + 1) htarget
  case case9 levels hk depth ih =>
    have hlevels : start - levels = depth + 1 := htarget
    refine .layout (m := .back levels) (n := .back (levels + 1)) ?_ (by rw [hk]; rfl)
      (by simp [hk]) (ih h ?_ ?_)
    · simp [Move.kinds, hk, List.replicate_succ']
    · show levels + 1 ≤ start
      omega
    · show start - (levels + 1) = _
      omega
  case case11 move h₁ h₂ h₃ h₄ h₅ h₆ h₇ ih =>
    refine .more ?_ (ih h hfits htarget)
    cases move with
    | deeper line => exact not_layout h₁ h₂ (h₅ line · rfl) (h₇ line · rfl)
    | back levels =>
      refine not_layout h₁ h₂ ?_ (h₆ levels · rfl)
      cases levels with
      | zero => exact (h₃ · rfl)
      | succ levels => exact (h₄ levels · rfl)
  case case12 move first read hk ih =>
    obtain ⟨s, hs, rfl⟩ := map_ok h
    exact .newline hk hfits (ih hs (Nat.zero_le _) htarget)
  case case16 move first read h₁ h₂ h₃ h₄ ih =>
    exact .more (not_layout h₄ h₁ h₂ h₃) (ih h hfits htarget)
  all_goals cases h

/-- **The stream of a token list** is the list up to the end of the file, and no line of it goes
back below the top level. -/
theorem spells_of_ofTokens {ts : List Token} {s : Stream} (h : ofTokens ts = .ok s) :
    Spells ts s ∧ Fits 0 s.lines ∧ s.trailing.Fits (levelAfter 0 s.lines) := by
  unfold ofTokens at h
  split at h
  · have haccepted : Accepted 0 (.layout (.back 0)) ts s :=
      accepted_of_linesFrom h (Nat.zero_le _) rfl
    exact ⟨⟨by simpa [Phase.move, Phase.read, Move.kinds] using haccepted.kinds,
      by simpa [Phase.read] using haccepted.content⟩, haccepted.fits, haccepted.trailing⟩
  · cases h

/-! ## The automaton on the tokens of a line -/

theorem linesFrom_dedents {dedents : List Token} (h : ∀ t ∈ dedents, t.kind = .dedent)
    (depth levels : Nat) (ts : List Token) :
    linesFrom (depth + dedents.length) (.layout (.back levels)) (dedents ++ ts) =
      linesFrom depth (.layout (.back (levels + dedents.length))) ts := by
  induction dedents generalizing levels with
  | nil => rfl
  | cons t dedents ih =>
    have hstep : linesFrom (depth + dedents.length + 1) (.layout (.back levels))
        (t :: (dedents ++ ts)) =
        linesFrom (depth + dedents.length) (.layout (.back (levels + 1))) (dedents ++ ts) := by
      simp [linesFrom, h t List.mem_cons_self]
    rw [List.cons_append, List.length_cons, ← Nat.add_assoc, hstep,
      ih fun u hu => h u (List.mem_cons_of_mem _ hu), Nat.add_right_comm, Nat.add_assoc]

theorem linesFrom_more {depth first : Nat} {move : Move} {t : Token} {read ts : List Token}
    (h : t.kind.isLayout = false) :
    linesFrom depth (.content move first read) (t :: ts) =
      linesFrom depth (.content move first (read ++ [t])) ts := by
  cases hk : t.kind <;> simp [hk, Token.Kind.isLayout] at h <;> simp [linesFrom, hk]

theorem linesFrom_first {depth : Nat} {move : Move} {t : Token} {ts : List Token}
    (h : t.kind.isLayout = false) :
    linesFrom depth (.layout move) (t :: ts) =
      linesFrom depth (.content move t.line [t]) ts := by
  cases hk : t.kind <;> simp [hk, Token.Kind.isLayout] at h <;> simp [linesFrom, hk]

theorem linesFrom_content {depth first : Nat} {move : Move} {t : Token}
    {read content ts : List Token} (h : ∀ t ∈ content, t.kind.isLayout = false)
    (ht : t.kind = .newline) :
    linesFrom depth (.content move first read) (content ++ t :: ts) =
      (linesFrom depth (.layout (.back 0)) ts).map (cons ⟨move, read ++ content⟩) := by
  induction content generalizing read with
  | nil => simp [linesFrom, ht]
  | cons u content ih =>
    rw [List.cons_append, linesFrom_more (h u List.mem_cons_self),
      ih fun u hu => h u (List.mem_cons_of_mem _ hu), List.append_assoc]
    rfl

theorem linesFrom_line {depth : Nat} {move : Move} {t : Token} {content ts : List Token}
    (h : ∀ t ∈ content, t.kind.isLayout = false) (ht : t.kind = .newline) :
    linesFrom depth (.layout move) (content ++ t :: ts) =
      (linesFrom depth (.layout (.back 0)) ts).map (cons ⟨move, content⟩) := by
  cases content with
  | nil => simp [linesFrom, ht]
  | cons u content =>
    rw [List.cons_append, linesFrom_first (h u List.mem_cons_self),
      linesFrom_content (fun v hv => h v (List.mem_cons_of_mem _ hv)) ht]
    rfl

end Stream

end IntentCode.Parser
