import IntentCode.Proofs.Lexer.Levels
import Mathlib.Data.List.Basic

/-!
# Layout from one line to the next

The stack of open blocks is not needed to say what the layout tokens are: the columns of a line and
of the line before it determine them. `Fits` is the condition on the two, `layoutBetween` the tokens
where it holds and `misfit` the error where it does not.

On the stacks that arise all three are what `adjust` computes, since such a stack holds the
multiples of the unit up to the line before (`widthsAt`). The theorem is then an induction over the
lines that carries one number along.
-/

set_option autoImplicit false

namespace IntentCode.Lexer

/-! ## Two lines -/

/-- A line of `indent` columns may follow one of `width` columns. -/
def Fits (width indent : Nat) : Prop := indentUnit ∣ indent ∧ indent ≤ width + indentUnit

/-- The layout tokens before a line of `indent` columns that follows one of `width` columns. -/
def layoutBetween (width indent number : Nat) : List Token :=
  if indent = width + indentUnit then [.bare .indent number]
  else List.replicate ((width - indent) / indentUnit) (.bare .dedent number)

/-- What is wrong with a line that does not fit. -/
def misfit (width indent : Nat) : LexError.Cause :=
  if width < indent then
    if indentUnit ∣ indent then .indentJump (width / indentUnit) (indent / indentUnit)
    else .indentNotMultiple indent indentUnit
  else .inconsistentDedent indent

theorem fits_iff {level : Nat} {l : LogicalLine} :
    Fits (level * indentUnit) l.indent ↔
      l.indent = l.level * indentUnit ∧ l.level ≤ level + 1 := by
  simp only [Fits, LogicalLine.level, indentUnit]
  omega

theorem layoutTo_eq_layoutBetween (level next number : Nat) :
    layoutTo level next number =
      layoutBetween (level * indentUnit) (next * indentUnit) number := by
  have hdeeper : next = level + 1 ↔ next * indentUnit = level * indentUnit + indentUnit := by
    simp only [indentUnit]
    omega
  have hclosed : (level * indentUnit - next * indentUnit) / indentUnit = level - next := by
    simp only [indentUnit]
    omega
  rw [layoutTo, layoutBetween, hclosed]
  simp only [hdeeper]

theorem adjust_of_not_fits {level : Nat} {l : LogicalLine}
    (h : ¬ Fits (level * indentUnit) l.indent) :
    adjust (widthsAt level) l =
      .error ⟨misfit (level * indentUnit) l.indent, l.number, l.raw⟩ := by
  unfold adjust misfit
  simp only [top_widthsAt]
  by_cases hdeeper : level * indentUnit < l.indent
  · rw [if_pos hdeeper, if_pos hdeeper]
    by_cases hmultiple : indentUnit ∣ l.indent
    · have hmod : l.indent % indentUnit = 0 := Nat.mod_eq_zero_of_dvd hmultiple
      have hjump : l.indent - level * indentUnit ≠ indentUnit := by
        intro hunit
        exact h ⟨hmultiple, by omega⟩
      rw [if_neg (by simpa using hmod), if_pos hjump, if_pos hmultiple,
        Nat.mul_div_cancel level (by decide)]
    · rw [if_pos (mt Nat.dvd_of_mod_eq_zero hmultiple), if_neg hmultiple]
  · have hle : l.indent ≤ level * indentUnit := by omega
    -- closing blocks ends at the multiple below the line, which is not the line
    rw [if_neg hdeeper, if_neg hdeeper, dropWhile_widthsAt hle, top_widthsAt, if_pos]
    intro hcovered
    exact h ⟨⟨_, by rw [Nat.mul_comm]; exact hcovered.symm⟩, by omega⟩

/-! ## All lines -/

/-- Each line fits after the one before it, the first after one of `width` columns. -/
def Steps (width : Nat) : List LogicalLine → Prop
  | [] => True
  | l :: ls => Fits width l.indent ∧ Steps l.indent ls

/-- The columns of the last line, or `width` if there is none. -/
def lastIndent (width : Nat) (ls : List LogicalLine) : Nat :=
  (ls.getLast?.map LogicalLine.indent).getD width

theorem lastIndent_cons (width : Nat) (l : LogicalLine) (ls : List LogicalLine) :
    lastIndent width (l :: ls) = lastIndent l.indent ls := by
  cases ls with
  | nil => rfl
  | cons m ls => simp [lastIndent, List.getLast?_cons]

/-- The tokens of lines that follow one of `width` columns, up to the end at line `last`. -/
def laidOut (last width : Nat) : List LogicalLine → List Token
  | [] => List.replicate (width / indentUnit) (.bare .dedent last) ++ [.bare .endOfFile last]
  | l :: ls =>
    layoutBetween width l.indent l.number ++ l.tokens ++ [.bare .newline l.number] ++
      laidOut last l.indent ls

theorem steps_of_lexes {level : Nat} {ls : List LogicalLine} (h : Lexes level ls) :
    Steps (level * indentUnit) ls := by
  induction ls generalizing level with
  | nil => trivial
  | cons l ls ih =>
    obtain ⟨hindent, hlevel, -, hls⟩ := h
    refine ⟨fits_iff.mpr ⟨hindent, hlevel⟩, ?_⟩
    rw [hindent]
    exact ih hls

theorem tokensAt_eq_laidOut (last : Nat) {level : Nat} {ls : List LogicalLine}
    (h : Lexes level ls) : tokensAt last level ls = laidOut last (level * indentUnit) ls := by
  induction ls generalizing level with
  | nil => rw [tokensAt, laidOut, Nat.mul_div_cancel level (by decide)]
  | cons l ls ih =>
    obtain ⟨hindent, -, -, hls⟩ := h
    rw [tokensAt, laidOut, ih hls, layoutTo_eq_layoutBetween, ← hindent]

/-- The first line that does not fit is where lexing ends. -/
theorem tokensFrom_of_not_fits (last : Nat) {level : Nat} {before after : List LogicalLine}
    {l : LogicalLine} (hsteps : Steps (level * indentUnit) before)
    (hscan : ∀ m ∈ before, ∃ content, scan m.text.toList m.number m.raw = .ok content)
    (h : ¬ Fits (lastIndent (level * indentUnit) before) l.indent) :
    tokensFrom last (widthsAt level) (before ++ l :: after) =
      .error ⟨misfit (lastIndent (level * indentUnit) before) l.indent, l.number, l.raw⟩ := by
  induction before generalizing level with
  | nil =>
    rw [List.nil_append, tokensFrom, adjust_of_not_fits h]
    rfl
  | cons m before ih =>
    obtain ⟨hfits, hsteps⟩ := hsteps
    obtain ⟨content, hcontent⟩ := hscan m List.mem_cons_self
    obtain ⟨hindent, hlevel⟩ := fits_iff.mp hfits
    rw [lastIndent_cons, hindent] at h ⊢
    rw [hindent] at hsteps
    have hrest := ih hsteps (fun n hn => hscan n (List.mem_cons_of_mem _ hn)) h
    simp only [List.cons_append, tokensFrom, adjust_widthsAt hindent hlevel, hcontent, hrest, bind,
      Except.bind]

/-- **The layout of a source is arithmetic on consecutive indents**, and the first line that does
not fit is the error, unless a `$` is unpaired before it. -/
theorem tokenize_layout {source : String} {lines : List LogicalLine}
    (h : LogicalLine.ofSource source = .ok lines) :
    (∀ scanned, tokenize source = .ok scanned →
      Steps 0 lines ∧
      (∀ l ∈ lines, ∃ content, scan l.text.toList l.number l.raw = .ok content) ∧
      scanned.tokens = laidOut (Text.lines source).length 0 lines) ∧
    ∀ before l after, lines = before ++ l :: after → Steps 0 before →
      (∀ m ∈ before, ∃ content, scan m.text.toList m.number m.raw = .ok content) →
      ¬ Fits (lastIndent 0 before) l.indent →
      tokenize source = .error ⟨misfit (lastIndent 0 before) l.indent, l.number, l.raw⟩ := by
  have hfrom : tokenize source = tokensFrom (Text.lines source).length (widthsAt 0) lines := by
    rw [tokenize, h]
    rfl
  constructor
  · intro scanned hscanned
    rw [hfrom] at hscanned
    obtain ⟨hlexes, htokens⟩ := tokens_of_tokensFrom hscanned
    have hsteps := steps_of_lexes hlexes
    rw [Nat.zero_mul] at hsteps
    refine ⟨hsteps, fun l hl => (scan_of_lexes hlexes hl).2, ?_⟩
    rw [htokens, tokensAt_eq_laidOut _ hlexes, Nat.zero_mul]
  · intro before l after hlines hsteps hscan hmisfit
    have hzero : 0 = 0 * indentUnit := (Nat.zero_mul _).symm
    rw [hfrom, hlines]
    rw [hzero] at hsteps hmisfit ⊢
    exact tokensFrom_of_not_fits _ hsteps hscan hmisfit

theorem tokenize_layout_classes :
    (∃ lines scanned, LogicalLine.ofSource "class A\n    var b\nclass C" = .ok lines ∧
      lines.map LogicalLine.indent = [0, 4, 0] ∧
      tokenize "class A\n    var b\nclass C" = .ok scanned ∧ scanned.tokens = laidOut 3 0 lines) ∧
    tokenize "class A\n    var b\n  var c" = .error ⟨.inconsistentDedent 2, 3, "  var c"⟩ := by
  have hlines : LogicalLine.ofSource "class A\n    var b\nclass C" =
      .ok [⟨1, 0, "class A", "class A"⟩, ⟨2, 4, "var b", "    var b"⟩,
        ⟨3, 0, "class C", "class C"⟩] := by decide +kernel
  have hdedent : LogicalLine.ofSource "class A\n    var b\n  var c" =
      .ok [⟨1, 0, "class A", "class A"⟩, ⟨2, 4, "var b", "    var b"⟩,
        ⟨3, 2, "var c", "  var c"⟩] := by decide +kernel
  constructor
  · have hsome : (tokenize "class A\n    var b\nclass C").toOption.isSome = true := by decide +kernel
    cases h : tokenize "class A\n    var b\nclass C" with
    | error e => rw [h] at hsome; exact absurd hsome (by simp [Except.toOption])
    | ok scanned => exact ⟨_, scanned, hlines, rfl, rfl, ((tokenize_layout hlines).1 scanned h).2.2⟩
  · refine (tokenize_layout hdedent).2 [_, _] _ [] rfl ?_ ?_ ?_
    · simp [Steps, Fits, indentUnit]
    · simp only [List.forall_mem_cons, List.not_mem_nil, false_implies, implies_true, and_true]
      exact ⟨⟨_, rfl⟩, ⟨_, rfl⟩⟩
    · simp [Fits, indentUnit]

end IntentCode.Lexer
