import IntentCode.Proofs.Lexer.Indentation
import IntentCode.Proofs.Lexer.Places

/-!
# Where things stand

Whatever the lexer says has a place: a token carries the number of a line, and errors and warnings
quote a physical line under its number. The places are right (`tokenize_placed`).

A place is made once, where a physical line begins a logical one or is found to be wrong, and from
there on it is only copied. So there is one lemma for each phase, and it says which line the phase
quotes: folding the line at hand or the one that waits (`place_of_foldFrom`), the phases after it
the logical line that they look at (`place_of_adjust`, `place_of_scan`). The order of the tokens
follows from the order of the lines, since each line has its tokens in one block.
-/

set_option autoImplicit false

namespace IntentCode

/-- Line number `line` of the source is `content`. -/
def Quotes (source : String) (line : Nat) (content : String) : Prop :=
  1 ≤ line ∧ line ≤ (Text.lines source).length ∧ (Text.lines source)[line - 1]? = some content

theorem quotes_of_mem {source : String} {p : SourceLine} (h : p ∈ SourceLine.ofSource source) :
    Quotes source p.number p.raw := by
  obtain ⟨i, hi, rfl⟩ := List.mem_mapIdx.mp h
  refine ⟨Nat.le_add_left 1 i, hi, ?_⟩
  show (Text.lines source)[i]? = _
  exact List.getElem?_eq_getElem hi

/-! ## Folding -/

namespace LogicalLine

theorem place_of_startsAt {p : SourceLine} {l : LogicalLine} (h : StartsAt p l) : l.place = p := by
  rw [place, h.1, h.2]

/-- A step that fails quotes the line that it takes, not the one that waits for it. -/
theorem place_of_step {state : Option Waiting} {l : SourceLine} {e : LexError}
    (h : step state l = .error e) : e.place = l := by
  cases state with
  | none =>
    simp only [step, begin?] at h
    split at h
    · cases h
    · split at h
      · cases h
        rfl
      · split at h <;> cases h
  | some w =>
    simp only [step, resume?] at h
    split at h
    · split at h
      · cases h
        rfl
      · cases h
    · split at h <;> cases h

/-- At the end only the line that waits is left to quote. -/
theorem place_of_finish {state : Option Waiting} {e : LexError} (h : finish state = .error e) :
    state.map Waiting.first = some e.place := by
  cases state with
  | none => cases h
  | some w =>
    simp only [finish] at h
    split at h
    · cases h
      rfl
    · cases h

theorem place_of_foldFrom {state : Option Waiting} {ls : List SourceLine} {e : LexError}
    (h : foldFrom state ls = .error e) : e.place ∈ (state.map Waiting.first).toList ++ ls := by
  induction ls generalizing state with
  | nil =>
    rw [place_of_finish h]
    exact List.mem_singleton_self _
  | cons l ls ih =>
    rw [foldFrom_cons] at h
    cases hs : step state l with
    | error e' =>
      rw [hs] at h
      obtain rfl := Except.error.inj h
      rw [place_of_step hs]
      exact List.mem_append_right _ List.mem_cons_self
    | ok r =>
      obtain ⟨out, next⟩ := r
      have hrest : foldFrom next ls = .error e := by
        rw [hs] at h
        cases hf : foldFrom next ls with
        | error e' =>
          simp only [hf] at h
          exact h
        | ok rest =>
          simp only [hf] at h
          cases h
      rcases List.mem_append.mp (ih hrest) with hwaits | hmem
      · rcases step_ok hs with ⟨w, rfl, hfirst, -⟩ | ⟨rfl, -⟩
        · obtain heq : e.place = w.first := List.mem_singleton.mp hwaits
          rw [heq, hfirst]
          cases state with
          | none => exact List.mem_cons_self
          | some w => exact List.mem_cons_self
        · cases hwaits
      · exact List.mem_append_right _ (List.mem_cons_of_mem _ hmem)

theorem place_of_ofSource {source : String} {e : LexError} (h : ofSource source = .error e) :
    e.place ∈ SourceLine.ofSource source := place_of_foldFrom h

/-- A logical line stands where its group starts. -/
theorem place_mem_of_groups {source : String} {gs : List Group} (h : groups source = .ok gs)
    {l : LogicalLine} (hl : l ∈ gs.flatMap Group.logical) :
    l.place ∈ SourceLine.ofSource source := by
  obtain ⟨g, hg, hl⟩ := List.mem_flatMap.mp hl
  obtain ⟨p, hp, hstart⟩ := (logical_of_groupsFrom rfl h g hg).2 l hl
  rw [place_of_startsAt hstart, ← List.nil_append (SourceLine.ofSource source),
    ← physical_of_groupsFrom h]
  exact List.mem_flatMap.mpr ⟨g, hg, List.mem_of_mem_head? hp⟩

end LogicalLine

/-! ## One line -/

namespace Lexer

open LogicalLine

theorem place_of_adjust {widths : List Nat} {l : LogicalLine} {e : LexError}
    (h : adjust widths l = .error e) : e.place = l.place := by
  unfold adjust at h
  split at h
  · split at h
    · cases h
      rfl
    · split at h
      · cases h
        rfl
      · cases h
  · simp only at h
    split at h
    · cases h
      rfl
    · cases h

theorem place_of_scan {text : List Char} {line : Nat} {raw : String} {e : LexError}
    (h : scan text line raw = .error e) : e.place = ⟨line, raw⟩ := by
  unfold scan at h
  split at h
  · cases h
  · split at h
    simp only at h
    split at h
    · obtain rfl := Except.error.inj h
      rfl
    · cases h

theorem place_of_mem_spanTokens {line : Nat} {raw : String} {inside : Bool}
    {spans : List (List Char)} {w : EmptyReference}
    (h : w ∈ (spanTokens line raw inside spans).warnings) : w.place = ⟨line, raw⟩ := by
  induction spans generalizing inside with
  | nil => cases h
  | cons span spans ih =>
    rcases List.mem_append.mp h with hspan | hspans
    · cases inside with
      | false => cases hspan
      | true =>
        simp only [if_true, referenceTokens] at hspan
        split at hspan
        · obtain rfl := List.mem_singleton.mp hspan
          rfl
        · cases hspan
    · exact ih hspans

theorem place_of_mem_scan {text : List Char} {line : Nat} {raw : String} {s : Scanned}
    (h : scan text line raw = .ok s) {w : EmptyReference} (hw : w ∈ s.warnings) :
    w.place = ⟨line, raw⟩ := by
  rcases scan_cases h with ⟨comment, -, rfl⟩ | ⟨-, word, rest, -, -, rfl⟩ | ⟨-, -, -, rfl⟩
  · cases hw
  · exact place_of_mem_spanTokens hw
  · exact place_of_mem_spanTokens hw

/-! ## All lines -/

/-- An error behind the folding quotes one of the lines. -/
theorem place_of_tokensFrom {last : Nat} {widths : List Nat} {ls : List LogicalLine} {e : LexError}
    (h : tokensFrom last widths ls = .error e) : ∃ l ∈ ls, e.place = l.place := by
  induction ls generalizing widths with
  | nil => cases h
  | cons l ls ih =>
    rcases tokensFrom_cons_error h with ha | hs | ⟨next, hr⟩
    · exact ⟨l, List.mem_cons_self, place_of_adjust ha⟩
    · exact ⟨l, List.mem_cons_self, place_of_scan hs⟩
    · obtain ⟨m, hm, hplace⟩ := ih hr
      exact ⟨m, List.mem_cons_of_mem _ hm, hplace⟩

theorem place_of_mem_tokensFrom {last : Nat} {widths : List Nat} {ls : List LogicalLine}
    {s : Scanned} (h : tokensFrom last widths ls = .ok s) {w : EmptyReference}
    (hw : w ∈ s.warnings) : ∃ l ∈ ls, w.place = l.place := by
  induction ls generalizing widths s with
  | nil =>
    obtain rfl := Except.ok.inj h
    cases hw
  | cons l ls ih =>
    obtain ⟨layout, next, content, rest, -, hs, hr, rfl⟩ := tokensFrom_cons_ok h
    rcases List.mem_append.mp hw with hw | hw
    · exact ⟨l, List.mem_cons_self, place_of_mem_scan hs hw⟩
    · obtain ⟨m, hm, hplace⟩ := ih hr hw
      exact ⟨m, List.mem_cons_of_mem _ hm, hplace⟩

/-- The tokens of one logical line: the layout in front of it, its content and its end. All of them
stand at its number. -/
structure Block (l : LogicalLine) (ts : List Token) : Prop where
  parts : ∃ layout : List Token, ts = layout ++ l.tokens ++ [.bare .newline l.number] ∧
    ∀ t ∈ layout, t.kind = .indent ∨ t.kind = .dedent
  line : ∀ t ∈ ts, t.line = l.number

theorem block_layoutBetween (width : Nat) (l : LogicalLine) :
    Block l (layoutBetween width l.indent l.number ++ l.tokens ++ [.bare .newline l.number]) := by
  have hlayout : ∀ t ∈ layoutBetween width l.indent l.number,
      (t.kind = .indent ∨ t.kind = .dedent) ∧ t.line = l.number := by
    intro t ht
    unfold layoutBetween at ht
    split at ht
    · obtain rfl := List.mem_singleton.mp ht
      exact ⟨.inl rfl, rfl⟩
    · obtain rfl := List.eq_of_mem_replicate ht
      exact ⟨.inr rfl, rfl⟩
  refine ⟨⟨_, rfl, fun t ht => (hlayout t ht).1⟩, fun t ht => ?_⟩
  rcases List.mem_append.mp ht with ht | ht
  · rcases List.mem_append.mp ht with ht | ht
    · exact (hlayout t ht).2
    · exact line_of_mem_tokens ht
  · obtain rfl := List.mem_singleton.mp ht
    rfl

/-- What closes the blocks that are open at the end of a source, and ends it. -/
def ending (last level : Nat) : List Token :=
  List.replicate level (.bare .dedent last) ++ [.bare .endOfFile last]

theorem line_of_mem_ending {last level : Nat} {t : Token} (h : t ∈ ending last level) :
    t.line = last := by
  rcases List.mem_append.mp h with h | h
  · obtain rfl := List.eq_of_mem_replicate h
    rfl
  · obtain rfl := List.mem_singleton.mp h
    rfl

/-- The tokens of a source are one block for each line, and the ending. -/
theorem exists_blocks (last width : Nat) (ls : List LogicalLine) :
    ∃ blocks, List.Forall₂ Block ls blocks ∧
      laidOut last width ls =
        blocks.flatten ++ ending last (lastIndent width ls / indentUnit) := by
  induction ls generalizing width with
  | nil => exact ⟨[], .nil, rfl⟩
  | cons l ls ih =>
    obtain ⟨blocks, hblocks, heq⟩ := ih l.indent
    refine ⟨_ :: blocks, .cons (block_layoutBetween width l) hblocks, ?_⟩
    rw [laidOut, heq, lastIndent_cons, List.flatten_cons]
    exact (List.append_assoc _ _ _).symm

section

variable {ls : List LogicalLine} {blocks : List (List Token)}

theorem exists_line_of_mem_blocks (h : List.Forall₂ Block ls blocks) {t : Token}
    (ht : t ∈ blocks.flatten) : ∃ l ∈ ls, t.line = l.number := by
  induction h with
  | nil => cases ht
  | cons hblock hblocks ih =>
    rw [List.flatten_cons] at ht
    rcases List.mem_append.mp ht with ht | ht
    · exact ⟨_, List.mem_cons_self, hblock.line t ht⟩
    · obtain ⟨m, hm, hline⟩ := ih ht
      exact ⟨m, List.mem_cons_of_mem _ hm, hline⟩

theorem pairwise_line_of_eq {n : Nat} {ts : List Token} (h : ∀ t ∈ ts, t.line = n) :
    ts.Pairwise fun t u => t.line ≤ u.line := by
  apply List.pairwise_of_forall_mem_list
  intro t ht u hu
  exact Nat.le_of_eq ((h t ht).trans (h u hu).symm)

/-- **Where lines are in order, so are their tokens**, and what stands behind the last one. -/
theorem pairwise_line_blocks (h : List.Forall₂ Block ls blocks)
    (hls : (ls.map number).Pairwise (· < ·)) {last : Nat} (hlast : ∀ l ∈ ls, l.number ≤ last)
    {behind : List Token} (hbehind : ∀ t ∈ behind, t.line = last) :
    (blocks.flatten ++ behind).Pairwise fun t u => t.line ≤ u.line := by
  induction h with
  | nil => exact pairwise_line_of_eq hbehind
  | cons hblock hblocks ih =>
    rw [List.map_cons, List.pairwise_cons] at hls
    obtain ⟨hfirst, hls⟩ := hls
    have hrest := ih hls fun m hm => hlast m (List.mem_cons_of_mem _ hm)
    rw [List.flatten_cons, List.append_assoc, List.pairwise_append]
    refine ⟨pairwise_line_of_eq hblock.line, hrest, fun t ht u hu => ?_⟩
    rw [hblock.line t ht]
    rcases List.mem_append.mp hu with hu | hu
    · obtain ⟨m, hm, hline⟩ := exists_line_of_mem_blocks hblocks hu
      rw [hline]
      exact Nat.le_of_lt (hfirst _ (List.mem_map_of_mem hm))
    · rw [hbehind u hu]
      exact hlast _ List.mem_cons_self

end

/-! ## A source -/

/-- The places in what a source lexes to, where `gs` are the groups of its physical lines. -/
structure Placed (source : String) (gs : List Group) (scanned : Scanned) : Prop where
  groups : LogicalLine.groups source = .ok gs
  divided : gs.flatMap Group.physical = SourceLine.ofSource source
  starts : ∀ g ∈ gs, g.logical.length ≤ 1 ∧
    ∀ l ∈ g.logical, ∃ p, g.physical.head? = some p ∧ StartsAt p l
  increasing : ((gs.flatMap Group.logical).map number).Pairwise (· < ·)
  blocks : ∃ blocks, List.Forall₂ Block (gs.flatMap Group.logical) blocks ∧
    scanned.tokens = blocks.flatten ++ ending (Text.lines source).length
      (lastIndent 0 (gs.flatMap Group.logical) / indentUnit)
  ordered : scanned.tokens.Pairwise fun t u => t.line ≤ u.line
  warnings : ∀ w ∈ scanned.warnings, Quotes source w.line w.content

/-- **Places are faithful.** An error quotes a line of the source under its number. Without an error
the tokens of each logical line stand at its first physical line, in order, and a warning quotes a
line of the source too. -/
theorem tokenize_placed (source : String) :
    (∀ e, tokenize source = .error e → Quotes source e.line e.content) ∧
      ∀ scanned, tokenize source = .ok scanned → ∃ gs, Placed source gs scanned := by
  cases hlines : ofSource source with
  | error e =>
    have hfails : tokenize source = .error e := by
      rw [tokenize, hlines]
      rfl
    constructor
    · intro e' he
      obtain rfl := Except.error.inj (hfails.symm.trans he)
      exact quotes_of_mem (place_of_ofSource hlines)
    · intro scanned hs
      cases hfails.symm.trans hs
  | ok lines =>
    have hfrom : tokenize source = tokensFrom (Text.lines source).length [] lines := by
      rw [tokenize, hlines]
      rfl
    obtain ⟨gs, hgs, rfl⟩ := groups_of_ofSource hlines
    have hquotes : ∀ l ∈ gs.flatMap Group.logical, Quotes source l.number l.raw :=
      fun l hl => quotes_of_mem (place_mem_of_groups hgs hl)
    constructor
    · intro e he
      rw [hfrom] at he
      obtain ⟨l, hl, hplace⟩ := place_of_tokensFrom he
      obtain ⟨hline, hcontent⟩ := SourceLine.mk.inj hplace
      rw [hline, hcontent]
      exact hquotes l hl
    · intro scanned hs
      obtain ⟨-, -, htokens⟩ := (tokenize_layout hlines).1 scanned hs
      obtain ⟨blocks, hblocks, hlaid⟩ :=
        exists_blocks (Text.lines source).length 0 (gs.flatMap Group.logical)
      rw [hlaid] at htokens
      have hincreasing := (List.pairwise_cons.mp (numbers_of_ofSource hlines)).2
      refine ⟨gs, hgs, ?_, logical_of_groupsFrom rfl hgs, hincreasing, ⟨blocks, hblocks, htokens⟩,
        ?_, ?_⟩
      · rw [physical_of_groupsFrom hgs]
        rfl
      · rw [htokens]
        exact pairwise_line_blocks hblocks hincreasing (fun l hl => (hquotes l hl).2.1)
          fun t => line_of_mem_ending
      · intro w hw
        rw [hfrom] at hs
        obtain ⟨l, hl, hplace⟩ := place_of_mem_tokensFrom hs hw
        obtain ⟨hline, hcontent⟩ := SourceLine.mk.inj hplace
        rw [hline, hcontent]
        exact hquotes l hl

theorem tokenize_placed_continued :
    (tokenize "a \\\n\nb \\\nc:" = .error ⟨.continuationColon, 4, "c:"⟩ ∧
      Quotes "a \\\n\nb \\\nc:" 4 "c:") ∧
    ∃ scanned gs, tokenize "class A\n    var b,\n    // c\n    $ $" = .ok scanned ∧
      scanned.warnings = [⟨2, "    var b,"⟩] ∧
      Placed "class A\n    var b,\n    // c\n    $ $" gs scanned := by
  have hcolon : tokenize "a \\\n\nb \\\nc:" = .error ⟨.continuationColon, 4, "c:"⟩ := by
    decide +kernel
  have hwarned : (tokenize "class A\n    var b,\n    // c\n    $ $").toOption.map
      Scanned.warnings = some [⟨2, "    var b,"⟩] := by decide +kernel
  refine ⟨⟨hcolon, (tokenize_placed _).1 _ hcolon⟩, ?_⟩
  cases h : tokenize "class A\n    var b,\n    // c\n    $ $" with
  | error e =>
    rw [h] at hwarned
    cases hwarned
  | ok scanned =>
    obtain ⟨gs, hplaced⟩ := (tokenize_placed _).2 scanned h
    rw [h] at hwarned
    exact ⟨scanned, gs, rfl, Option.some.inj hwarned, hplaced⟩

end Lexer

end IntentCode
