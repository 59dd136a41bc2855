import IntentCode.Lexer
import IntentCode.Proofs.Lexer.Content
import IntentCode.Proofs.Lexer.Folding
import Mathlib.Data.List.Forall2

/-!
# Places, and lexing without them

A place is a physical line with its number. Logical lines, errors and warnings have one, and the
lexer only hands places on: where they come from makes no difference to what it does.

Two sources are therefore compared through a function that blurs places, which may take their
numbers away, the blanks at the end of the line, or everything. Lines that look alike once they are
blurred fold alike (`blurring_foldFrom`) and lex alike (`blurring_tokensFrom`), error for error.
Blanks at the end of a line are not looked at either, so physical lines are compared without them
(`SourceLine.Alike`).
-/

set_option autoImplicit false

namespace IntentCode

/-! ## Places -/

def LexError.place (e : LexError) : SourceLine := ⟨e.line, e.content⟩

def EmptyReference.place (w : EmptyReference) : SourceLine := ⟨w.line, w.content⟩

def LogicalLine.place (l : LogicalLine) : SourceLine := ⟨l.number, l.raw⟩

section

variable (blur : SourceLine → SourceLine)

def LexError.blurred (e : LexError) : LexError :=
  { e with line := (blur e.place).number, content := (blur e.place).raw }

def EmptyReference.blurred (w : EmptyReference) : EmptyReference :=
  ⟨(blur w.place).number, (blur w.place).raw⟩

def LogicalLine.blurred (l : LogicalLine) : LogicalLine :=
  { l with number := (blur l.place).number, raw := (blur l.place).raw }

def LogicalLine.Waiting.blurred (w : Waiting) : Waiting := { w with first := blur w.first }

/-- Tokens have a number only, and lose it. -/
def Lexer.Scanned.blurred (s : Scanned) : Scanned :=
  ⟨s.tokens.map (Token.onLine 0), s.warnings.map (EmptyReference.blurred blur)⟩

/-- A result with its places blurred: by `f` if there is one, else in the error. -/
def blurring {α β : Type} (f : α → β) : Except LexError α → Except LexError β
  | .ok a => .ok (f a)
  | .error e => .error (e.blurred blur)

end

section

variable {blur : SourceLine → SourceLine}

theorem LexError.blurred_eq (cause : Cause) {p p' : SourceLine} (h : blur p' = blur p) :
    LexError.blurred blur ⟨cause, p'.number, p'.raw⟩ =
      LexError.blurred blur ⟨cause, p.number, p.raw⟩ :=
  congrArg (fun q : SourceLine => (⟨cause, q.number, q.raw⟩ : LexError)) h

/-- What blurred lines that are the same have in common. -/
theorem LogicalLine.of_blurred_eq {l l' : LogicalLine} (h : l'.blurred blur = l.blurred blur) :
    blur l'.place = blur l.place ∧ l'.indent = l.indent ∧ l'.text = l.text := by
  obtain ⟨hnumber, hindent, htext, hraw⟩ := LogicalLine.mk.inj h
  refine ⟨?_, hindent, htext⟩
  cases hp : blur l.place with
  | mk number raw =>
    cases hp' : blur l'.place with
    | mk number' raw' =>
      rw [hp, hp'] at hnumber hraw
      exact congrArg₂ SourceLine.mk hnumber hraw

variable {α β γ δ : Type} {f : α → β} {g : γ → δ} {x x' : Except LexError α}

theorem blurring_bind {k k' : α → Except LexError γ}
    (hx : blurring blur f x' = blurring blur f x)
    (hk : ∀ a a', x = .ok a → f a' = f a → blurring blur g (k' a') = blurring blur g (k a)) :
    blurring blur g (x' >>= k') = blurring blur g (x >>= k) := by
  cases x with
  | error e =>
    cases x' with
    | error e' => exact congrArg Except.error (Except.error.inj hx)
    | ok a' => cases hx
  | ok a =>
    cases x' with
    | error e' => cases hx
    | ok a' => exact hk a a' rfl (Except.ok.inj hx)

theorem blurring_map {k k' : α → γ} (hx : blurring blur f x' = blurring blur f x)
    (hk : ∀ a a', f a' = f a → g (k' a') = g (k a)) :
    blurring blur g (x'.map k') = blurring blur g (x.map k) := by
  have hmap : ∀ (y : Except LexError α) (k : α → γ), y.map k = y >>= fun a => .ok (k a) := by
    intro y k
    cases y <;> rfl
  rw [hmap, hmap]
  exact blurring_bind hx fun a a' _ ha => congrArg Except.ok (hk a a' ha)

/-- Two results that are the same but for places fail together and succeed together. -/
theorem cases_of_blurring_eq (h : blurring blur f x' = blurring blur f x) :
    (∃ e e', x = .error e ∧ x' = .error e' ∧ e'.blurred blur = e.blurred blur) ∨
      ∃ a a', x = .ok a ∧ x' = .ok a' ∧ f a' = f a := by
  cases x with
  | error e =>
    cases x' with
    | error e' => exact .inl ⟨e, e', rfl, rfl, Except.error.inj h⟩
    | ok a' => cases h
  | ok a =>
    cases x' with
    | error e' => cases h
    | ok a' => exact .inr ⟨a, a', rfl, rfl, Except.ok.inj h⟩

end

/-! ## Folding -/

/-- Lines at places that look alike, with the same text but for blanks at the end. -/
structure SourceLine.Alike (blur : SourceLine → SourceLine) (l l' : SourceLine) : Prop where
  place : blur l' = blur l
  text : Text.trimRight l'.chars = Text.trimRight l.chars

theorem SourceLine.alike_of_raw_eq {blur : SourceLine → SourceLine}
    (hblur : ∀ l l' : SourceLine, l'.raw = l.raw → blur l' = blur l) {ls ls' : List SourceLine}
    (h : ls'.map raw = ls.map raw) : List.Forall₂ (Alike blur) ls ls' := by
  have hraw : List.Forall₂ (· = ·) (ls.map raw) (ls'.map raw) := by
    rw [h]
    exact List.forall₂_refl _
  rw [List.forall₂_map_left_iff, List.forall₂_map_right_iff] at hraw
  refine hraw.imp fun l l' hl => ⟨hblur l l' hl.symm, ?_⟩
  exact congrArg (fun raw => Text.trimRight raw.toList) hl.symm

namespace LogicalLine

theorem trim_ne_nil_of_not_skipped {l : SourceLine} (h : ¬ l.isSkipped = true) :
    Text.trim l.chars ≠ [] := by
  intro hnil
  rw [SourceLine.isSkipped, hnil] at h
  exact h rfl

/-- How a line begins that is not left out. The blanks at its end do not matter to that. -/
theorem begin?_eq {l : SourceLine} (h : ¬ l.isSkipped = true) :
    begin? l =
      if ((Text.trimRight l.chars).dropWhile (· = ' ')).head? = some '\t' then
        .error ⟨.tabIndentation, l.number, l.raw⟩
      else if ((Text.trimRight l.chars).dropWhile (· = ' ')).head? = some '@' then
        .ok (emit l ((Text.trimRight l.chars).takeWhile (· = ' ')).length
          ((Text.trimRight l.chars).dropWhile (· = ' ')), none)
      else .ok (settle l ((Text.trimRight l.chars).takeWhile (· = ' ')).length
        ((Text.trimRight l.chars).dropWhile (· = ' '))) := by
  have htrim := trim_ne_nil_of_not_skipped h
  have hne : Text.trimRight l.chars ≠ [] := by
    intro hnil
    rw [Text.trim_eq, hnil] at htrim
    exact htrim rfl
  -- the columns are counted in spaces only, but what is not blank is left either way
  have hbody : Text.trimRight (l.chars.dropWhile (· = ' ')) ≠ [] := by
    intro hnil
    rw [← Text.trim_dropWhile Text.isBlank_of_space, Text.trim_eq, hnil] at htrim
    exact htrim rfl
  unfold begin?
  rw [if_neg h]
  simp only [Text.dropWhile_trimRight, Text.takeWhile_trimRight Text.isBlank_of_space hne,
    Text.head?_trimRight hbody]

variable {blur : SourceLine → SourceLine}

theorem trim_of_alike {l l' : SourceLine} (h : l.Alike blur l') :
    Text.trim l'.chars = Text.trim l.chars := by
  rw [Text.trim_eq, h.text, ← Text.trim_eq]

theorem isSkipped_of_alike {l l' : SourceLine} (h : l.Alike blur l') :
    l'.isSkipped = l.isSkipped := by
  rw [SourceLine.isSkipped, SourceLine.isSkipped, trim_of_alike h]

/-- The two parts of what a step returns, with their places blurred. -/
def blurredResult (blur : SourceLine → SourceLine) (r : List LogicalLine × Option Waiting) :
    List LogicalLine × Option Waiting :=
  (r.1.map (blurred blur), r.2.map (Waiting.blurred blur))

section

variable {first first' : SourceLine} (h : blur first' = blur first)

include h

theorem emit_blurred (indent : Nat) (text : List Char) :
    (emit first' indent text).map (blurred blur) = (emit first indent text).map (blurred blur) := by
  unfold emit
  split
  · rfl
  · exact congrArg
      (fun p : SourceLine => [(⟨p.number, indent, .ofList text, p.raw⟩ : LogicalLine)]) h

theorem settle_blurred (indent : Nat) (text : List Char) :
    blurredResult blur (settle first' indent text) =
      blurredResult blur (settle first indent text) := by
  unfold settle
  split
  · next marker _ =>
    exact congrArg (fun p => ([], some (⟨p, indent, text, marker⟩ : Waiting))) h
  · exact Prod.ext (emit_blurred h indent text) rfl

end

theorem blurring_begin? {l l' : SourceLine} (h : l.Alike blur l') :
    blurring blur (blurredResult blur) (begin? l') =
      blurring blur (blurredResult blur) (begin? l) := by
  by_cases hskip : l.isSkipped = true
  · have hskip' : l'.isSkipped = true := by rw [isSkipped_of_alike h, hskip]
    rw [begin?, begin?, if_pos hskip, if_pos hskip']
  · have hskip' : ¬ l'.isSkipped = true := by rwa [isSkipped_of_alike h]
    rw [begin?_eq hskip, begin?_eq hskip', h.text]
    split
    · exact congrArg Except.error (LexError.blurred_eq _ h.place)
    · split
      · exact congrArg Except.ok (Prod.ext (emit_blurred h.place _ _) rfl)
      · exact congrArg Except.ok (settle_blurred h.place _ _)

theorem blurring_resume? {w w' : Waiting} {l l' : SourceLine}
    (hw : w'.blurred blur = w.blurred blur) (h : l.Alike blur l') :
    blurring blur (blurredResult blur) (resume? w' l') =
      blurring blur (blurredResult blur) (resume? w l) := by
  obtain ⟨first, indent, text, marker⟩ := w
  obtain ⟨first', indent', text', marker'⟩ := w'
  obtain ⟨hfirst, rfl, rfl, rfl⟩ := Waiting.mk.inj hw
  unfold resume?
  simp only [isSkipped_of_alike h, trim_of_alike h]
  cases marker' with
  | backslash =>
    simp only
    split
    · exact congrArg Except.error (LexError.blurred_eq _ h.place)
    · exact congrArg Except.ok (settle_blurred hfirst _ _)
  | comma =>
    simp only
    split
    · exact congrArg (fun v => Except.ok ([], some v)) hw
    · exact congrArg Except.ok (settle_blurred hfirst _ _)

section

variable {state state' : Option Waiting}
  (hs : state'.map (Waiting.blurred blur) = state.map (Waiting.blurred blur))

include hs

theorem blurring_step {l l' : SourceLine} (h : l.Alike blur l') :
    blurring blur (blurredResult blur) (step state' l') =
      blurring blur (blurredResult blur) (step state l) := by
  cases state with
  | none =>
    obtain rfl : state' = none := by simpa using hs
    exact blurring_begin? h
  | some w =>
    obtain ⟨w', rfl, hw⟩ := Option.map_eq_some_iff.mp hs
    exact blurring_resume? hw h

theorem blurring_finish :
    blurring blur (List.map (blurred blur)) (finish state') =
      blurring blur (List.map (blurred blur)) (finish state) := by
  cases state with
  | none =>
    obtain rfl : state' = none := by simpa using hs
    rfl
  | some w =>
    obtain ⟨w', rfl, hw⟩ := Option.map_eq_some_iff.mp hs
    obtain ⟨first, indent, text, marker⟩ := w
    obtain ⟨first', indent', text', marker'⟩ := w'
    obtain ⟨hfirst, rfl, rfl, rfl⟩ := Waiting.mk.inj hw
    cases marker' with
    | backslash => exact congrArg Except.error (LexError.blurred_eq _ hfirst)
    | comma => exact congrArg Except.ok (emit_blurred hfirst _ _)

end

/-- Where two folds take steps that look alike, they go on alike if they do from there. -/
theorem blurring_foldFrom_cons {state state' : Option Waiting} {l l' : SourceLine}
    {ls ls' : List SourceLine}
    (hstep : blurring blur (blurredResult blur) (step state' l') =
      blurring blur (blurredResult blur) (step state l))
    (hrest : ∀ done next next', step state l = .ok (done, next) →
      next'.map (Waiting.blurred blur) = next.map (Waiting.blurred blur) →
      blurring blur (List.map (blurred blur)) (foldFrom next' ls') =
        blurring blur (List.map (blurred blur)) (foldFrom next ls)) :
    blurring blur (List.map (blurred blur)) (foldFrom state' (l' :: ls')) =
      blurring blur (List.map (blurred blur)) (foldFrom state (l :: ls)) := by
  refine blurring_bind hstep fun r r' hr hsame => ?_
  obtain ⟨hdone, hnext⟩ := Prod.mk.inj hsame
  refine blurring_bind (hrest r.1 r.2 r'.2 hr hnext) fun rest rest' _ hrest => ?_
  simp only [pure, Except.pure, blurring, List.map_append, hdone, hrest]

/-- **Lines that look alike fold alike.** -/
theorem blurring_foldFrom {state state' : Option Waiting} {ls ls' : List SourceLine}
    (hs : state'.map (Waiting.blurred blur) = state.map (Waiting.blurred blur))
    (hls : List.Forall₂ (SourceLine.Alike blur) ls ls') :
    blurring blur (List.map (blurred blur)) (foldFrom state' ls') =
      blurring blur (List.map (blurred blur)) (foldFrom state ls) := by
  induction hls generalizing state state' with
  | nil => exact blurring_finish hs
  | cons hl _ ih => exact blurring_foldFrom_cons (blurring_step hs hl) fun _ _ _ _ hnext => ih hnext

/-- Behind the same lines, lines fold alike if they do from the state that these lead to. -/
theorem blurring_foldFrom_append {state : Option Waiting} {before ls ls' : List SourceLine}
    (h : ∀ done next, advance state before = .ok (done, next) →
      blurring blur (List.map (blurred blur)) (foldFrom next ls') =
        blurring blur (List.map (blurred blur)) (foldFrom next ls)) :
    blurring blur (List.map (blurred blur)) (foldFrom state (before ++ ls')) =
      blurring blur (List.map (blurred blur)) (foldFrom state (before ++ ls)) := by
  rw [foldFrom_append, foldFrom_append]
  cases ha : advance state before with
  | error e => rfl
  | ok r =>
    refine blurring_map (h r.1 r.2 ha) fun rest rest' hrest => ?_
    rw [List.map_append, List.map_append, hrest]

end LogicalLine

/-! ## Without numbers -/

def SourceLine.unnumbered (l : SourceLine) : SourceLine := { l with number := 0 }

namespace LogicalLine

def unnumbered (l : LogicalLine) : LogicalLine := { l with number := 0 }

/-- **The same lines under other numbers fold to the same lines under other numbers.** -/
theorem foldFrom_of_unnumbered {ls ms : List SourceLine} {out : List LogicalLine}
    (hms : ms.map SourceLine.unnumbered = ls.map SourceLine.unnumbered)
    (h : foldFrom none ls = .ok out) :
    ∃ out', foldFrom none ms = .ok out' ∧ out'.map unnumbered = out.map unnumbered := by
  have hraw : ms.map SourceLine.raw = ls.map SourceLine.raw := by
    have hmaps := congrArg (List.map SourceLine.raw) hms
    rw [List.map_map, List.map_map] at hmaps
    exact hmaps
  have halike : List.Forall₂ (SourceLine.Alike .unnumbered) ls ms :=
    SourceLine.alike_of_raw_eq (fun l m hlm => congrArg (SourceLine.mk 0) hlm) hraw
  rcases cases_of_blurring_eq (blurring_foldFrom rfl halike) with ⟨e, e', he, -⟩ | hok
  · rw [h] at he
    cases he
  · obtain ⟨a, a', ha, ha', hsame⟩ := hok
    obtain rfl := Except.ok.inj (h.symm.trans ha)
    exact ⟨a', ha', hsame⟩

end LogicalLine

/-! ## Tokens -/

namespace Lexer

open LogicalLine

variable {blur : SourceLine → SourceLine}

theorem Scanned.blurred_append (s t : Scanned) :
    (s.append t).blurred blur = (s.blurred blur).append (t.blurred blur) := by
  simp [blurred, append]

section

variable {p p' : SourceLine} (h : blur p' = blur p)

include h

theorem referenceTokens_blurred (text : List Char) :
    (referenceTokens p'.number p'.raw text).blurred blur =
      (referenceTokens p.number p.raw text).blurred blur := by
  unfold referenceTokens
  simp only
  split
  · exact congrArg (fun q : SourceLine => (⟨[], [⟨q.number, q.raw⟩]⟩ : Scanned)) h
  · rfl

theorem spanTokens_blurred (inside : Bool) (spans : List (List Char)) :
    (spanTokens p'.number p'.raw inside spans).blurred blur =
      (spanTokens p.number p.raw inside spans).blurred blur := by
  induction spans generalizing inside with
  | nil => rfl
  | cons span spans ih =>
    rw [spanTokens, spanTokens, Scanned.blurred_append, Scanned.blurred_append, ih]
    cases inside with
    | true => simp only [if_true, referenceTokens_blurred h]
    | false =>
      have hplain : ∀ n, (plainTokens n span).map (Token.onLine 0) = plainTokens 0 span :=
        fun n => (plainTokens_onLine n 0 span).symm
      simp only [Bool.false_eq_true, if_false, Scanned.blurred, hplain]

theorem blurring_scan (text : List Char) :
    blurring blur (Scanned.blurred blur) (scan text p'.number p'.raw) =
      blurring blur (Scanned.blurred blur) (scan text p.number p.raw) := by
  have hcut : ∀ (first first' : List Token) (rest : List Char),
      first'.map (Token.onLine 0) = first.map (Token.onLine 0) →
      blurring blur (Scanned.blurred blur)
        (if rest.count '$' % 2 = 1 then
          .error ⟨.unpairedDollar (rest.count '$'), p'.number, p'.raw⟩
        else .ok ((⟨first', []⟩ : Scanned).append (plainOf p'.number p'.raw rest))) =
      blurring blur (Scanned.blurred blur)
        (if rest.count '$' % 2 = 1 then
          .error ⟨.unpairedDollar (rest.count '$'), p.number, p.raw⟩
        else .ok ((⟨first, []⟩ : Scanned).append (plainOf p.number p.raw rest))) := by
    intro first first' rest hfirst
    split
    · exact congrArg Except.error (LexError.blurred_eq _ h)
    · have hkept : Scanned.blurred blur ⟨first', []⟩ = Scanned.blurred blur ⟨first, []⟩ :=
        congrArg (fun ts => (⟨ts, []⟩ : Scanned)) hfirst
      simp only [blurring, Scanned.blurred_append, hkept, plainOf, spanTokens_blurred h]
  unfold scan
  split
  · rfl
  · cases splitKeyword? text with
    | none => exact hcut [] [] text rfl
    | some split =>
      exact hcut [⟨.keyword, split.1, p.number⟩] [⟨.keyword, split.1, p'.number⟩] split.2 rfl

end

theorem blurring_adjust (widths : List Nat) {l l' : LogicalLine}
    (h : l'.blurred blur = l.blurred blur) :
    blurring blur (fun r => (r.1.map (Token.onLine 0), r.2)) (adjust widths l') =
      blurring blur (fun r => (r.1.map (Token.onLine 0), r.2)) (adjust widths l) := by
  obtain ⟨hplace, hindent, -⟩ := of_blurred_eq h
  have herror : ∀ cause, LexError.blurred blur ⟨cause, l'.number, l'.raw⟩ =
      LexError.blurred blur ⟨cause, l.number, l.raw⟩ := fun cause => LexError.blurred_eq cause hplace
  unfold adjust
  rw [hindent]
  split
  · split
    · exact congrArg Except.error (herror _)
    · split
      · exact congrArg Except.error (herror _)
      · rfl
  · dsimp only
    split
    · exact congrArg Except.error (herror _)
    · simp [blurring, Token.onLine, Token.bare]

/-- **Lines that look alike lex alike.** -/
theorem blurring_tokensFrom (last last' : Nat) (widths : List Nat) {ls ls' : List LogicalLine}
    (h : ls'.map (LogicalLine.blurred blur) = ls.map (LogicalLine.blurred blur)) :
    blurring blur (Scanned.blurred blur) (tokensFrom last' widths ls') =
      blurring blur (Scanned.blurred blur) (tokensFrom last widths ls) := by
  induction ls generalizing widths ls' with
  | nil =>
    obtain rfl : ls' = [] := by simpa using h
    simp [tokensFrom, blurring, Scanned.blurred, Token.onLine, Token.bare]
  | cons l ls ih =>
    obtain ⟨l', ls', rfl⟩ : ∃ l' rest, ls' = l' :: rest := by
      apply List.exists_cons_of_ne_nil
      intro hnil
      rw [hnil] at h
      cases h
    rw [List.map_cons, List.map_cons, List.cons.injEq] at h
    obtain ⟨hplace, -, htext⟩ := of_blurred_eq h.1
    rw [tokensFrom, tokensFrom, htext]
    refine blurring_bind (blurring_adjust widths h.1) fun r r' _ hr => ?_
    obtain ⟨hlayout, hwidths⟩ := Prod.mk.inj hr
    refine blurring_bind (blurring_scan hplace _) fun content content' _ hcontent => ?_
    simp only [hwidths]
    refine blurring_bind (ih _ h.2) fun rest rest' _ hrest => ?_
    obtain ⟨htokens, hwarnings⟩ := Scanned.mk.inj hcontent
    simp only [pure, Except.pure, blurring, Scanned.blurred_append, hrest]
    simp only [Scanned.blurred, List.map_append, hlayout, htokens, hwarnings]
    rfl

/-- Sources whose lines fold alike lex alike. -/
theorem blurring_tokenize {source source' : String}
    (h : blurring blur (List.map (LogicalLine.blurred blur)) (ofSource source') =
      blurring blur (List.map (LogicalLine.blurred blur)) (ofSource source)) :
    blurring blur (Scanned.blurred blur) (tokenize source') =
      blurring blur (Scanned.blurred blur) (tokenize source) := by
  refine blurring_bind h fun ls ls' _ hls => ?_
  exact blurring_tokensFrom _ _ [] hls

end Lexer

end IntentCode
