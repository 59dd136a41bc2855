import IntentCode.Proofs.Lexer.Places
import Mathlib.Data.List.Infix

/-!
# Blank lines and comments are invisible

A source may be padded with blank lines and comments (`Padded`). The padded source lexes to the same
tokens and the same warnings, or stops for the same reason, only at other line numbers
(`tokenize_padded`), as long as no line of the source ends with a backslash, which would take in
whatever comes next.

But for places the two sources are the same lines and the padding. A padded line is a step that
changes nothing: if a line waits, it waits at a comma, and there blank lines and comments are passed
over (`step_of_skipped`).

A line may also gain or lose blanks at its end. A carriage return at the end of an unfinished last
line is one, which becomes part of the line ending when something is written below it. So a line is
quoted without the blanks at its end where two sources are compared.
-/

set_option autoImplicit false

namespace IntentCode

/-! ## Without places -/

def SourceLine.unplaced (l : SourceLine) : SourceLine := ⟨0, Text.trimmedRight l.raw⟩

def EmptyReference.unplaced (w : EmptyReference) : EmptyReference :=
  ⟨0, Text.trimmedRight w.content⟩

def Lexer.Scanned.unplaced (s : Scanned) : Scanned :=
  ⟨s.tokens.map (Token.onLine 0), s.warnings.map .unplaced⟩

namespace LexError

def unplaced (e : LexError) : LexError :=
  { e with line := 0, content := Text.trimmedRight e.content }

/-- A result with its places taken out: by `f` if there is one, else from the error. -/
def unplacing {α β : Type} (f : α → β) : Except LexError α → Except LexError β
  | .ok a => .ok (f a)
  | .error e => .error e.unplaced

variable {α β : Type} {f : α → β}

theorem unplacing_eq (x : Except LexError α) :
    unplacing f x = blurring SourceLine.unplaced f x := by
  cases x <;> rfl

/-- Two results that are the same without places fail together and succeed together. -/
theorem cases_of_unplacing_eq {x y : Except LexError α} (h : unplacing f y = unplacing f x) :
    (∃ e e', x = .error e ∧ y = .error e' ∧ e'.unplaced = e.unplaced) ∨
      ∃ a b, x = .ok a ∧ y = .ok b ∧ f b = f a := by
  rw [unplacing_eq, unplacing_eq] at h
  exact cases_of_blurring_eq h

end LexError

open LexError (unplacing unplacing_eq)

namespace LogicalLine

/-! ## Padding -/

/-- A line that waits, waits at a comma. -/
def AtComma (state : Option Waiting) : Prop := ∀ w, state = some w → w.marker = .comma

theorem step_of_skipped {state : Option Waiting} (h : AtComma state) {l : SourceLine}
    (hl : l.isSkipped = true) : step state l = .ok ([], state) := by
  cases state with
  | none =>
    show begin? l = _
    rw [begin?, if_pos hl]
  | some w =>
    show resume? w l = _
    rw [resume?, h w rfl]
    exact if_pos hl

theorem atComma_of_settle {first : SourceLine} {indent : Nat} {text : List Char}
    (h : text.getLast? ≠ some '\\') : AtComma (settle first indent text).2 := by
  unfold settle ending
  intro w hw
  split at hw
  · next marker hmarker =>
    split at hmarker
    · next hlast => exact absurd hlast h
    · obtain rfl := Option.some.inj hmarker
      obtain rfl := Option.some.inj hw
      rfl
    · cases hmarker
  · cases hw

theorem getLast?_of_suffix {α : Type} {cs ds : List α} (h : cs <:+ ds) {c : α}
    (hc : cs.getLast? = some c) : ds.getLast? = some c := by
  obtain ⟨before, rfl⟩ := h
  rw [List.getLast?_append, hc]
  rfl

theorem getLast?_join (text : List Char) {next : List Char} (h : next ≠ []) :
    (join text next).getLast? = next.getLast? := by
  have hlast : ∀ before : List Char, (before ++ next).getLast? = next.getLast? := by
    intro before
    rw [List.getLast?_append, List.getLast?_eq_some_getLast h, Option.some_or]
  unfold join
  split
  · exact hlast text
  · rw [← List.singleton_append, ← List.append_assoc]
    exact hlast _

/-- Only a line that ends with a backslash makes one wait for it. -/
theorem atComma_of_step {state state' : Option Waiting} {l : SourceLine}
    {done : List LogicalLine} (hs : AtComma state)
    (hl : (Text.trimRight l.chars).getLast? ≠ some '\\')
    (h : step state l = .ok (done, state')) : AtComma state' := by
  cases stepped_of_step h with
  | passed skipped comma => exact hs
  | noted solid note => exact fun w hw => by cases hw
  | begun solid settled =>
    obtain rfl := (Prod.mk.inj settled).2
    -- what is settled is the end of the line, so they end alike
    refine atComma_of_settle fun hlast => hl (getLast?_of_suffix ?_ hlast)
    rw [← Text.dropWhile_trimRight]
    exact List.dropWhile_suffix _
  | spliced marker settled =>
    rw [hs _ rfl] at marker
    cases marker
  | continued marker solid settled =>
    obtain rfl := (Prod.mk.inj settled).2
    have hne := trim_ne_nil_of_not_skipped solid
    refine atComma_of_settle fun hlast => hl (getLast?_of_suffix ?_ (getLast?_join _ hne ▸ hlast))
    rw [Text.trim_eq]
    exact Text.trimLeft_isSuffix _

end LogicalLine

/-- A line that is blank or holds a comment. -/
def IsPadding (raw : String) : Prop :=
  Text.trim raw.toList = [] ∨ ['/', '/'] <+: Text.trim raw.toList

instance (raw : String) : Decidable (IsPadding raw) := inferInstanceAs (Decidable (_ ∨ _))

/-- The first lines, with blank lines and comments put between them; blanks at the end of a line do
not count. -/
inductive Padded : List String → List String → Prop
  | nil : Padded [] []
  | line {raw raw' : String} {lines lines' : List String}
    (same : Text.trimmedRight raw' = Text.trimmedRight raw) (rest : Padded lines lines') :
    Padded (raw :: lines) (raw' :: lines')
  | padding {raw : String} {lines lines' : List String} (padding : IsPadding raw)
    (rest : Padded lines lines') : Padded lines (raw :: lines')

theorem SourceLine.raw_ofSource (source : String) :
    (ofSource source).map raw = Text.lines source := by
  unfold ofSource
  apply List.ext_getElem
  · simp
  · intro i hi hj
    simp

namespace LogicalLine

theorem isSkipped_iff (l : SourceLine) : l.isSkipped = true ↔ IsPadding l.raw := by
  rw [SourceLine.isSkipped, IsPadding, Bool.or_eq_true, List.isEmpty_iff,
    List.isPrefixOf_iff_prefix]
  rfl

theorem alike_of_trimmedRight {l l' : SourceLine}
    (h : Text.trimmedRight l'.raw = Text.trimmedRight l.raw) : l.Alike .unplaced l' :=
  ⟨congrArg (SourceLine.mk 0) h, String.ofList_injective h⟩

theorem atComma_of_blurred {blur : SourceLine → SourceLine} {state state' : Option Waiting}
    (h : state'.map (Waiting.blurred blur) = state.map (Waiting.blurred blur))
    (hs : AtComma state) : AtComma state' := by
  intro w' hw'
  subst hw'
  obtain ⟨w, hw, hsame⟩ := Option.map_eq_some_iff.mp h.symm
  have hmarker : w.marker = w'.marker := (Waiting.mk.inj hsame).2.2.2
  rw [← hmarker]
  exact hs w hw

/-- **Padding does not change how the lines of a source fold.** -/
theorem foldFrom_padded {lines lines' : List String} (h : Padded lines lines')
    {ls ls' : List SourceLine} (hls : ls.map SourceLine.raw = lines)
    (hls' : ls'.map SourceLine.raw = lines')
    (hlines : ∀ l ∈ ls, (Text.trimRight l.chars).getLast? ≠ some '\\')
    {state state' : Option Waiting} (hs : AtComma state)
    (hsame : state'.map (Waiting.blurred .unplaced) = state.map (Waiting.blurred .unplaced)) :
    blurring .unplaced (List.map (blurred .unplaced)) (foldFrom state' ls') =
      blurring .unplaced (List.map (blurred .unplaced)) (foldFrom state ls) := by
  induction h generalizing ls ls' state state' with
  | nil =>
    obtain rfl := List.map_eq_nil_iff.mp hls
    obtain rfl := List.map_eq_nil_iff.mp hls'
    exact blurring_finish hsame
  | line same rest ih =>
    obtain ⟨l, ls, rfl, rfl, htail⟩ := List.map_eq_cons_iff.mp hls
    obtain ⟨l', ls', rfl, rfl, htail'⟩ := List.map_eq_cons_iff.mp hls'
    have hstep := blurring_step hsame (alike_of_trimmedRight same)
    refine blurring_foldFrom_cons hstep fun done next next' hnext hsame => ?_
    have hcomma := atComma_of_step hs (hlines l List.mem_cons_self) hnext
    exact ih htail htail' (fun m hm => hlines m (List.mem_cons_of_mem _ hm)) hcomma hsame
  | padding padding rest ih =>
    obtain ⟨l', ls', rfl, rfl, htail'⟩ := List.map_eq_cons_iff.mp hls'
    have hskip := step_of_skipped (atComma_of_blurred hsame hs) ((isSkipped_iff l').mpr padding)
    rw [foldFrom_cons_of_nil hskip]
    exact ih hls htail' hlines hs hsame

end LogicalLine

/-! ## Sources -/

namespace Lexer

/-- **A padded source lexes as it does without the padding**: to the same tokens and warnings but for
the numbers of their lines, or else to the same error. -/
theorem tokenize_padded {source source' : String}
    (h : Padded (Text.lines source) (Text.lines source'))
    (hlines : ∀ raw ∈ Text.lines source, (Text.trimRight raw.toList).getLast? ≠ some '\\') :
    unplacing Scanned.unplaced (tokenize source') = unplacing Scanned.unplaced (tokenize source) := by
  rw [unplacing_eq, unplacing_eq]
  refine blurring_tokenize (LogicalLine.foldFrom_padded h (SourceLine.raw_ofSource source)
    (SourceLine.raw_ofSource source') (fun l hl => ?_) (fun w hw => by cases hw) rfl)
  apply hlines l.raw
  rw [← SourceLine.raw_ofSource source]
  exact List.mem_map_of_mem hl

end Lexer

end IntentCode
