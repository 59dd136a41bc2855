import IntentCode.Lexer
import IntentCode.Proofs.Lexer.Content

/-!
# Indentation as levels

The lexer keeps the widths of the open blocks, and a width is any number. In a source that lexes it
is not: the only stacks that ever arise are `widthsAt level`, the multiples of the unit up to one
level, and `adjust` on such a stack is arithmetic on levels (`adjust_widthsAt`, and
`level_of_adjust` for the way back). From there on nothing has to look at columns again.

What a source is to the parser is then a list of logical lines in which each line says its level and
its tokens itself. `Lexes` is the condition that this takes, and `tokens_of_lexes` lists the tokens
that come out: the layout that leads to each line, its content, its end.
-/

set_option autoImplicit false

namespace IntentCode

namespace LogicalLine

/-- How many levels a line is indented. -/
def level (l : LogicalLine) : Nat := l.indent / Lexer.indentUnit

/-- The content tokens of a line; none if its `$` are not paired. -/
def tokens (l : LogicalLine) : List Token :=
  match Lexer.scan l.text.toList l.number l.raw with
  | .ok scanned => scanned.tokens
  | .error _ => []

theorem sound_tokens (l : LogicalLine) :
    (∀ t ∈ l.tokens, t.Sound) ∧ ∀ t ∈ l.tokens.tail, t.Plain := by
  unfold tokens
  split
  · next h => exact Lexer.sound_of_scan h
  · simp

theorem line_of_mem_tokens {l : LogicalLine} {t : Token} (h : t ∈ l.tokens) :
    t.line = l.number := by
  unfold tokens at h
  split at h
  · next hs => exact Lexer.line_of_mem_scan hs h
  · simp at h

/-- The level of the last line, or `start` if there is none. -/
def lastLevel (start : Nat) (ls : List LogicalLine) : Nat := (ls.getLast?.map level).getD start

@[simp] theorem lastLevel_nil (start : Nat) : lastLevel start [] = start := rfl

@[simp] theorem lastLevel_cons (start : Nat) (l : LogicalLine) (ls : List LogicalLine) :
    lastLevel start (l :: ls) = lastLevel l.level ls := by
  cases ls with
  | nil => rfl
  | cons l' ls => simp [lastLevel, List.getLast?_cons]

end LogicalLine

namespace Lexer

/-! ## The stacks that arise -/

/-- The widths of `level` nested blocks, the innermost first. -/
def widthsAt : Nat → List Nat
  | 0 => []
  | level + 1 => (level + 1) * indentUnit :: widthsAt level

@[simp] theorem length_widthsAt (level : Nat) : (widthsAt level).length = level := by
  induction level with
  | zero => rfl
  | succ level ih => simp [widthsAt, ih]

@[simp] theorem top_widthsAt (level : Nat) : top (widthsAt level) = level * indentUnit := by
  cases level with
  | zero => simp [widthsAt, top]
  | succ level => rfl

/-- Closing what is deeper than a line leaves the levels that the line's columns cover. -/
theorem dropWhile_widthsAt {level width : Nat} (h : width ≤ level * indentUnit) :
    (widthsAt level).dropWhile (width < ·) = widthsAt (width / indentUnit) := by
  induction level with
  | zero =>
    have hw : width = 0 := by omega
    subst hw
    rfl
  | succ level ih =>
    simp only [indentUnit] at h ih ⊢
    simp only [widthsAt, indentUnit, List.dropWhile_cons, decide_eq_true_eq]
    split
    · next hlt =>
      by_cases hle : width ≤ level * 4
      · exact ih hle
      · -- between two levels: the lower one is the last that is covered
        have hdiv : width / 4 = level := by omega
        rw [hdiv]
        cases level with
        | zero => rfl
        | succ level =>
          simp only [widthsAt, indentUnit, List.dropWhile_cons, decide_eq_true_eq]
          rw [if_neg (by omega)]
    · have hw : width = (level + 1) * 4 := by omega
      have hdiv : width / 4 = level + 1 := by omega
      rw [hdiv]
      rfl

/-! ## One line -/

/-- The layout tokens from one level to the next. -/
def layoutTo (level next number : Nat) : List Token :=
  if next = level + 1 then [.bare .indent number]
  else List.replicate (level - next) (.bare .dedent number)

theorem adjust_widthsAt {level : Nat} {l : LogicalLine} (hi : l.indent = l.level * indentUnit)
    (hl : l.level ≤ level + 1) :
    adjust (widthsAt level) l = .ok (layoutTo level l.level l.number, widthsAt l.level) := by
  generalize hk : l.level = next at hi hl
  unfold adjust layoutTo
  simp only [top_widthsAt, hi]
  by_cases hn : next = level + 1
  · subst hn
    rw [if_pos (by simp [indentUnit]), if_neg (by simp), if_neg (by simp [indentUnit]; omega),
      if_pos rfl]
    rfl
  · have hle : next * indentUnit ≤ level * indentUnit := Nat.mul_le_mul_right _ (by omega)
    have hdiv : next * indentUnit / indentUnit = next := by simp [indentUnit]
    rw [if_neg (by omega), dropWhile_widthsAt hle, hdiv, if_neg hn]
    simp

/-- The converse: a line that `adjust` takes stands at a level, and at most one deeper. -/
theorem level_of_adjust {level : Nat} {l : LogicalLine} {r : List Token × List Nat}
    (h : adjust (widthsAt level) l = .ok r) :
    l.indent = l.level * indentUnit ∧ l.level ≤ level + 1 := by
  unfold adjust at h
  simp only [top_widthsAt] at h
  unfold LogicalLine.level
  split at h
  · next hgt =>
    split at h
    · cases h
    · split at h
      · cases h
      · simp only [indentUnit] at *
        omega
  · next hle =>
    rw [dropWhile_widthsAt (by omega)] at h
    simp only [top_widthsAt] at h
    split at h
    · cases h
    · simp only [indentUnit] at *
      omega

/-! ## The lines of a source -/

/-- Lines that lex after a line at the given level. -/
def Lexes (level : Nat) : List LogicalLine → Prop
  | [] => True
  | l :: ls =>
    l.indent = l.level * indentUnit ∧ l.level ≤ level + 1 ∧
      (∃ scanned, scan l.text.toList l.number l.raw = .ok scanned) ∧ Lexes l.level ls

theorem scan_of_lexes {level : Nat} {ls : List LogicalLine} (h : Lexes level ls)
    {l : LogicalLine} (hl : l ∈ ls) :
    l.indent = l.level * indentUnit ∧ ∃ scanned, scan l.text.toList l.number l.raw = .ok scanned := by
  induction ls generalizing level with
  | nil => simp at hl
  | cons l' ls ih =>
    rcases List.mem_cons.mp hl with rfl | hl
    · exact ⟨h.1, h.2.2.1⟩
    · exact ih h.2.2.2 hl

theorem indent_of_lexes {level : Nat} {ls : List LogicalLine} (h : Lexes level ls)
    {l : LogicalLine} (hl : l ∈ ls) : l.indent = l.level * indentUnit := (scan_of_lexes h hl).1

/-- The tokens of such lines, up to the end at line `last`. -/
def tokensAt (last level : Nat) : List LogicalLine → List Token
  | [] => List.replicate level (.bare .dedent last) ++ [.bare .endOfFile last]
  | l :: ls =>
    layoutTo level l.level l.number ++ l.tokens ++ [.bare .newline l.number] ++
      tokensAt last l.level ls

/-- A line that lexes is placed, then cut, and the others lex behind it. -/
theorem tokensFrom_cons_ok {last : Nat} {widths : List Nat} {l : LogicalLine}
    {ls : List LogicalLine} {scanned : Scanned}
    (h : tokensFrom last widths (l :: ls) = .ok scanned) :
    ∃ layout next content rest, adjust widths l = .ok (layout, next) ∧
      scan l.text.toList l.number l.raw = .ok content ∧ tokensFrom last next ls = .ok rest ∧
      scanned = (⟨layout ++ content.tokens ++ [.bare .newline l.number], content.warnings⟩ :
        Scanned).append rest := by
  simp only [tokensFrom, bind, Except.bind] at h
  cases ha : adjust widths l with
  | error e => rw [ha] at h; cases h
  | ok r =>
    obtain ⟨layout, next⟩ := r
    cases hs : scan l.text.toList l.number l.raw with
    | error e => simp only [ha, hs] at h; cases h
    | ok content =>
      simp only [ha, hs] at h
      cases hr : tokensFrom last next ls with
      | error e => rw [hr] at h; cases h
      | ok rest =>
        rw [hr] at h
        exact ⟨layout, next, content, rest, rfl, rfl, hr, (Except.ok.inj h).symm⟩

/-- Where lexing fails, at the first line or behind it. -/
theorem tokensFrom_cons_error {last : Nat} {widths : List Nat} {l : LogicalLine}
    {ls : List LogicalLine} {e : LexError} (h : tokensFrom last widths (l :: ls) = .error e) :
    adjust widths l = .error e ∨ scan l.text.toList l.number l.raw = .error e ∨
      ∃ next, tokensFrom last next ls = .error e := by
  simp only [tokensFrom, bind, Except.bind] at h
  cases ha : adjust widths l with
  | error e' =>
    rw [ha] at h
    exact .inl (congrArg Except.error (Except.error.inj h))
  | ok r =>
    cases hs : scan l.text.toList l.number l.raw with
    | error e' =>
      simp only [ha, hs] at h
      exact .inr (.inl (congrArg Except.error (Except.error.inj h)))
    | ok content =>
      simp only [ha, hs] at h
      cases hr : tokensFrom last r.2 ls with
      | error e' =>
        rw [hr] at h
        exact .inr (.inr ⟨r.2, by rw [hr]; exact congrArg Except.error (Except.error.inj h)⟩)
      | ok rest => rw [hr] at h; cases h

theorem tokens_of_tokensFrom {last level : Nat} {ls : List LogicalLine} {scanned : Scanned}
    (h : tokensFrom last (widthsAt level) ls = .ok scanned) :
    Lexes level ls ∧ scanned.tokens = tokensAt last level ls := by
  induction ls generalizing level scanned with
  | nil =>
    simp only [tokensFrom, Except.ok.injEq] at h
    subst h
    exact ⟨trivial, by simp [tokensAt]⟩
  | cons l ls ih =>
    obtain ⟨layout, next, content, rest, ha, hs, hr, rfl⟩ := tokensFrom_cons_ok h
    obtain ⟨hi, hl⟩ := level_of_adjust ha
    rw [adjust_widthsAt hi hl] at ha
    obtain ⟨rfl, rfl⟩ := Prod.mk.inj (Except.ok.inj ha)
    obtain ⟨hls, hts⟩ := ih hr
    refine ⟨⟨hi, hl, ⟨content, hs⟩, hls⟩, ?_⟩
    simp [tokensAt, Scanned.append, LogicalLine.tokens, hs, hts]

theorem tokensFrom_of_lexes (last : Nat) {level : Nat} {ls : List LogicalLine}
    (h : Lexes level ls) :
    ∃ scanned, tokensFrom last (widthsAt level) ls = .ok scanned := by
  induction ls generalizing level with
  | nil => exact ⟨_, rfl⟩
  | cons l ls ih =>
    obtain ⟨hi, hl, ⟨content, hs⟩, hls⟩ := h
    obtain ⟨rest, hr⟩ := ih hls
    simp only [tokensFrom, bind, Except.bind, adjust_widthsAt hi hl, hs, hr, pure, Except.pure]
    exact ⟨_, rfl⟩

/-- **A source lexes exactly if it folds and its lines lex**, and the tokens are those of the
lines. -/
theorem tokenize_eq_ok_iff {source : String} {ts : List Token} :
    (∃ scanned, tokenize source = .ok scanned ∧ scanned.tokens = ts) ↔
      ∃ ls, LogicalLine.ofSource source = .ok ls ∧ Lexes 0 ls ∧
        ts = tokensAt (Text.lines source).length 0 ls := by
  constructor
  · rintro ⟨scanned, h, rfl⟩
    unfold tokenize at h
    cases hl : LogicalLine.ofSource source with
    | error e => rw [hl] at h; cases h
    | ok ls =>
      rw [hl] at h
      have hfrom : tokensFrom _ (widthsAt 0) ls = .ok scanned := h
      obtain ⟨hls, hts⟩ := tokens_of_tokensFrom hfrom
      exact ⟨ls, rfl, hls, hts⟩
  · rintro ⟨ls, hl, hls, rfl⟩
    obtain ⟨scanned, hs⟩ := tokensFrom_of_lexes (Text.lines source).length hls
    refine ⟨scanned, ?_, (tokens_of_tokensFrom hs).2⟩
    unfold tokenize
    rw [hl]
    exact hs

/-- Only lines give rise to warnings. -/
theorem warnings_of_tokensFrom {last : Nat} {widths : List Nat} {ls : List LogicalLine}
    {scanned : Scanned} (h : tokensFrom last widths ls = .ok scanned)
    (hls : ∀ l ∈ ls, ∃ ts, scan l.text.toList l.number l.raw = .ok ⟨ts, []⟩) :
    scanned.warnings = [] := by
  induction ls generalizing widths scanned with
  | nil =>
    simp only [tokensFrom, Except.ok.injEq] at h
    rw [← h]
  | cons l ls ih =>
    obtain ⟨layout, next, content, rest, -, hs, hr, rfl⟩ := tokensFrom_cons_ok h
    obtain ⟨ts, hscan⟩ := hls l List.mem_cons_self
    obtain rfl : content = ⟨ts, []⟩ := Except.ok.inj (hs.symm.trans hscan)
    have hrest : rest.warnings = [] := ih hr fun m hm => hls m (List.mem_cons_of_mem _ hm)
    exact hrest

/-- A source whose lines have no empty references is lexed without warnings. -/
theorem warnings_of_tokenize {source : String} {scanned : Scanned} {ls : List LogicalLine}
    (h : tokenize source = .ok scanned) (hls : LogicalLine.ofSource source = .ok ls)
    (hscan : ∀ l ∈ ls, ∃ ts, scan l.text.toList l.number l.raw = .ok ⟨ts, []⟩) :
    scanned.warnings = [] := by
  unfold tokenize at h
  rw [hls] at h
  have hfrom : tokensFrom (Text.lines source).length [] ls = .ok scanned := h
  exact warnings_of_tokensFrom hfrom hscan

end Lexer

end IntentCode
