import IntentCode.Proofs.Format.Source
import IntentCode.Proofs.Lexer.Weight

/-!
# Written lines as logical lines

A written line is read as the same line again if it stands `Alone`: it is not a comment, and it does
not end with a continuation marker, which matters unless it is an `@` line. If every line stands
alone the source folds to its lines (`ofSource_source`), and if one does not the source loses weight
(`alone_of_weight`).
-/

set_option autoImplicit false

namespace IntentCode

namespace LogicalLine

open Text

/-- Folding leaves the text as it is. -/
def Alone (text : List Char) : Prop :=
  ['/', '/'].isPrefixOf text = false ∧ (text.head? = some '@' ∨ ending text = none)

variable {l : SourceLine} {width : Nat} {text : List Char}

theorem replicate_blank (width : Nat) (text : List Char) :
    trimLeft (List.replicate width ' ' ++ text) = trimLeft text := by
  induction width with
  | zero => rfl
  | succ width ih => rw [List.replicate_succ, List.cons_append, trimLeft_blank (by decide), ih]

/-- How a line is begun that has been written with a text and an indentation. -/
theorem begin_solid (h : l.chars = List.replicate width ' ' ++ text) (hs : Solid text) :
    begin? l =
      if ['/', '/'].isPrefixOf text then .ok ([], none)
      else if text.head? = some '@' then .ok (emit l width text, none)
      else .ok (settle l width text) := by
  obtain ⟨c, cs, rfl⟩ := List.exists_cons_of_ne_nil hs.ne_nil
  have hc : isBlank c = false := hs.trimmed.head c rfl
  have hspace : ¬ c = ' ' := by
    rintro rfl
    exact absurd hc (by decide)
  have htab : ¬ c = '\t' := by
    rintro rfl
    exact absurd hc (by decide)
  have htrim : trim l.chars = c :: cs := by
    rw [h, trim, replicate_blank]
    exact trim_of_trimmed hs.trimmed
  have hbody : l.chars.dropWhile (· = ' ') = c :: cs := by
    rw [h, List.dropWhile_append_of_pos (by simp)]
    simp [hspace]
  have hindent : (l.chars.takeWhile (· = ' ')).length = width := by
    rw [h, List.takeWhile_append_of_pos (by simp)]
    simp [hspace]
  have hright : trimRight (c :: cs) = c :: cs := trimRight_of_last hs.trimmed.last
  have hskip : l.isSkipped = ['/', '/'].isPrefixOf (c :: cs) := by
    simp [SourceLine.isSkipped, htrim]
  unfold begin?
  rw [hskip, hbody, hindent]
  simp only [List.head?_cons, Option.some.injEq, htab, if_false, hright]

theorem begin_of_alone (h : l.chars = List.replicate width ' ' ++ text) (hs : Solid text)
    (ha : Alone text) :
    begin? l = .ok ([⟨l.number, width, .ofList text, l.raw⟩], none) := by
  obtain ⟨hcomment, hends⟩ := ha
  have hne : text.isEmpty = false := by simpa using hs.ne_nil
  have hemit : emit l width text = [⟨l.number, width, .ofList text, l.raw⟩] := by simp [emit, hne]
  rw [begin_solid h hs, hcomment, if_neg (by simp)]
  split
  · rw [hemit]
  · next hat =>
    have hending := hends.resolve_left hat
    simp [settle, hending, hemit]

theorem alone_of_taken (h : l.chars = List.replicate width ' ' ++ text) (hs : Solid text)
    (ht : Taken l) : Alone text := by
  obtain ⟨done, hbegin, hweight⟩ := ht
  rw [begin_solid h hs] at hbegin
  have hblank : isBlankText l.chars = false := by
    rw [← Bool.not_eq_true, ← trimLeft_eq_nil_iff, h, replicate_blank,
      trimLeft_of_head hs.trimmed.head]
    exact hs.ne_nil
  have hpos : 0 < l.weight := by
    rw [SourceLine.weight, hblank]
    exact Nat.succ_pos _
  split at hbegin
  · cases hbegin
    simp at hweight
    omega
  · next hcomment =>
    refine ⟨eq_false_of_ne_true hcomment, ?_⟩
    split at hbegin
    · next hat => exact .inl hat
    · right
      unfold settle at hbegin
      split at hbegin
      · cases hbegin
      · next hending => exact hending

theorem begin_of_blank (h : isBlankText l.chars = true) : begin? l = .ok ([], none) := by
  have hskip : l.isSkipped = true := by
    simp [SourceLine.isSkipped, trim_eq_nil_iff.mpr h]
  rw [begin?, if_pos hskip]

theorem foldFrom_of_begin {done rest : List LogicalLine} {ls : List SourceLine}
    (h : begin? l = .ok (done, none)) (hrest : foldFrom none ls = .ok rest) :
    foldFrom none (l :: ls) = .ok (done ++ rest) := by
  have hstep : step none l = .ok (done, none) := h
  rw [foldFrom_cons, hstep]
  simp only [hrest]
  rfl

end LogicalLine

namespace Format

open LogicalLine Ast

variable {config : Config} {t : Table}

/-- The lines of a source, as they were written. -/
theorem raw_ofSource (h : ∀ l ∈ lines 0 t.forest, Text.Solid l.text.toList) :
    (SourceLine.ofSource (source config t)).map SourceLine.raw =
      (topLines config none t.forest).map fun l => .ofList (l.chars config.indentSize) := by
  rw [← lines_source h, SourceLine.ofSource]
  apply List.ext_getElem
  · simp
  · intro i hi hj
    simp

/-- Physical lines on which lines have been written, with blank ones between. -/
inductive Laid (size : Nat) : List SourceLine → List Line → Prop
  | nil : Laid size [] []
  | blank {p : SourceLine} {ps : List SourceLine} {ls : List Line} (chars : p.chars = [])
    (laid : Laid size ps ls) : Laid size (p :: ps) ls
  | line {p : SourceLine} {ps : List SourceLine} {l : Line} {ls : List Line}
    (chars : p.chars = l.chars size) (solid : Text.Solid l.text.toList)
    (laid : Laid size ps ls) : Laid size (p :: ps) (l :: ls)

theorem laid_source (h : ∀ l ∈ lines 0 t.forest, Text.Solid l.text.toList) :
    Laid config.indentSize (SourceLine.ofSource (source config t)) (lines 0 t.forest) := by
  have hraw : (SourceLine.ofSource (source config t)).map SourceLine.raw = _ := raw_ofSource h
  have hempty : ∀ l ∈ lines 0 t.forest, l.text.isEmpty = false := by
    intro l hl
    rw [← Bool.not_eq_true, String.isEmpty_iff, ← String.toList_eq_nil_iff]
    exact (h l hl).ne_nil
  have hmem : ∀ l ∈ topLines config none t.forest, l = ⟨0, ""⟩ ∨ l ∈ lines 0 t.forest :=
    fun l hl => mem_topLines hl
  have hfilter : (topLines config none t.forest).filter _ = _ := filter_topLines none hempty
  rw [← hfilter]
  -- the physical lines and the written ones, side by side
  generalize SourceLine.ofSource (source config t) = physical at hraw ⊢
  generalize topLines config none t.forest = written at hraw hmem
  clear hfilter
  induction physical generalizing written with
  | nil =>
    obtain rfl : written = [] := by simpa using hraw.symm
    exact .nil
  | cons p physical ih =>
    cases written with
    | nil => simp at hraw
    | cons l written =>
      rw [List.map_cons, List.map_cons, List.cons.injEq] at hraw
      obtain ⟨hp, hraw⟩ := hraw
      have hrest := ih written hraw fun m hm => hmem m (List.mem_cons_of_mem _ hm)
      have hchars : p.chars = l.chars config.indentSize := by rw [SourceLine.chars, hp]; simp
      rcases hmem l List.mem_cons_self with rfl | hl
      · rw [Line.chars_blank] at hchars
        exact .blank hchars hrest
      · rw [List.filter_cons_of_pos (by rw [hempty l hl]; rfl)]
        exact .line hchars (h l hl) hrest

/-- The weight of written lines. -/
def weight (ls : List Line) : Nat := (ls.map fun l => Text.marks l.text.toList + 1).sum

namespace Laid

variable {size : Nat} {ps : List SourceLine} {ls : List Line}

/-- Lines that stand alone are folded to themselves. -/
theorem folded (h : Laid size ps ls) (ha : ∀ l ∈ ls, Alone l.text.toList) :
    ∃ folded, foldFrom none ps = .ok folded ∧
      folded.map (fun l => (l.indent, l.text)) = ls.map fun l => (l.level * size, l.text) := by
  induction h with
  | nil => exact ⟨[], rfl, rfl⟩
  | @blank p ps ls chars laid ih =>
    obtain ⟨folded, hfold, hls⟩ := ih ha
    have hblank : Text.isBlankText p.chars = true := by
      rw [chars]
      rfl
    exact ⟨folded, foldFrom_of_begin (begin_of_blank hblank) hfold, hls⟩
  | @line p ps l ls chars solid laid ih =>
    obtain ⟨folded, hfold, hls⟩ := ih fun m hm => ha m (List.mem_cons_of_mem _ hm)
    have hbegin := begin_of_alone chars solid (ha l List.mem_cons_self)
    exact ⟨_, foldFrom_of_begin hbegin hfold, by simp [hls]⟩

/-- The physical lines weigh what is written on them. -/
theorem weight_eq (h : Laid size ps ls) : (ps.map SourceLine.weight).sum = weight ls := by
  induction h with
  | nil => rfl
  | @blank p ps ls chars laid ih =>
    have hnone : p.weight = 0 := by
      unfold SourceLine.weight
      rw [chars]
      rfl
    rw [List.map_cons, List.sum_cons, ih, hnone, Nat.zero_add]
  | @line p ps l ls chars solid laid ih =>
    have hblank : Text.isBlankText p.chars = false := by
      rw [chars, Line.chars, ← Bool.not_eq_true, ← Text.trimLeft_eq_nil_iff, replicate_blank,
        Text.trimLeft_of_head solid.trimmed.head]
      exact solid.ne_nil
    have hspaces : Text.marks (List.replicate (l.level * size) ' ') = 0 := by
      simp [Text.marks, List.countP_replicate]
    have hmarks : Text.marks p.chars = Text.marks l.text.toList := by
      rw [chars, Line.chars, Text.marks_append, hspaces, Nat.zero_add]
    have hown : p.weight = Text.marks l.text.toList + 1 := by
      rw [SourceLine.weight, hblank, hmarks]
      rfl
    rw [List.map_cons, List.sum_cons, ih, hown]
    rfl

/-- What is on a physical line that is taken as it stands was a line that stands alone. -/
theorem alone (h : Laid size ps ls) (ht : ∀ p ∈ ps, Taken p) :
    ∀ l ∈ ls, Alone l.text.toList := by
  induction h with
  | nil => exact fun l hl => by cases hl
  | blank chars laid ih => exact ih fun p hp => ht p (List.mem_cons_of_mem _ hp)
  | line chars solid laid ih =>
    intro m hm
    rcases List.mem_cons.mp hm with rfl | hm
    · exact alone_of_taken chars solid (ht _ List.mem_cons_self)
    · exact ih (fun p hp => ht p (List.mem_cons_of_mem _ hp)) m hm

end Laid

/-- **A source in which every line stands alone folds to its lines.** -/
theorem ofSource_source (config : Config) {t : Table}
    (h : ∀ l ∈ lines 0 t.forest, Text.Solid l.text.toList)
    (ha : ∀ l ∈ lines 0 t.forest, Alone l.text.toList) :
    ∃ ls, LogicalLine.ofSource (source config t) = .ok ls ∧
      ls.map (fun l => (l.indent, l.text)) =
        (lines 0 t.forest).map fun l => (l.level * config.indentSize, l.text) :=
  (laid_source h).folded ha

/-- **A source that keeps its weight has only lines that stand alone.** -/
theorem alone_of_weight (h : ∀ l ∈ lines 0 t.forest, Text.Solid l.text.toList)
    {ls : List LogicalLine} (hls : LogicalLine.ofSource (source config t) = .ok ls)
    (hw : weight (lines 0 t.forest) ≤ (ls.map LogicalLine.weight).sum) :
    ∀ l ∈ lines 0 t.forest, Alone l.text.toList := by
  have hlaid : Laid config.indentSize (SourceLine.ofSource (source config t)) _ := laid_source h
  exact hlaid.alone (taken_of_weight hls (by rw [hlaid.weight_eq]; exact hw))

end Format

end IntentCode
