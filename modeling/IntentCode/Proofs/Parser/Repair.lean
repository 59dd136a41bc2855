import IntentCode.Proofs.Parser.Built
import IntentCode.Proofs.Parser.Recovery
import IntentCode.Proofs.Text.Segments
import Mathlib.Data.List.Flatten

/-!
# The source without what was dropped

`Recovery` compares two runs over logical lines. The second run is that of a source: take the
physical lines of every dropped line out of the file, endings included, and what is left folds to
the lines that were kept (`ofSource_repaired`), lexes, and parses to the same tree. In that second
parse nothing is dropped any more, because nothing is there to be dropped.
-/

set_option autoImplicit false

namespace IntentCode

/-- A physical line with its ending, as it stands in the source. -/
def SourceLine.segment (source : String) (l : SourceLine) : List Char :=
  (Text.segments source.toList).getD (l.number - 1) []

namespace Parser

open LogicalLine (Group)

/-- The groups of physical lines whose logical lines are kept. -/
def keptGroups (s : State) : List Group → List Group
  | [] => []
  | g :: gs =>
    if g.logical.any s.drops then keptGroups (readAll s g.logical) gs
    else g :: keptGroups (readAll s g.logical) gs

/-- The source without the physical lines of the logical lines that the parser drops. -/
def repaired (source : String) : String :=
  match LogicalLine.groups source with
  | .error _ => source
  | .ok gs =>
    .ofList (((keptGroups .initial gs).flatMap Group.physical).flatMap (SourceLine.segment source))

/-! ## What is left of the text -/

theorem map_segment (source : String) :
    (SourceLine.ofSource source).map (SourceLine.segment source) =
      Text.segments source.toList := by
  have hlen : (SourceLine.ofSource source).length = (Text.segments source.toList).length := by
    simp [SourceLine.ofSource, Text.lines, Text.breakLines_eq]
  apply List.ext_getElem
  · rw [List.length_map, hlen]
  · intro i hi hj
    simp [SourceLine.ofSource, SourceLine.segment, hj]

theorem raw_eq {source : String} {l : SourceLine} (h : l ∈ SourceLine.ofSource source) :
    l.raw = .ofList (Text.content (l.segment source)) := by
  obtain ⟨i, hi, rfl⟩ := List.mem_iff_getElem.mp h
  have hj : i < (Text.segments source.toList).length := by
    simpa [SourceLine.ofSource, Text.lines, Text.breakLines_eq] using hi
  simp [SourceLine.ofSource, Text.lines, Text.breakLines_eq, SourceLine.segment, hj]

theorem map_unnumbered_ofSource (source : String) :
    (SourceLine.ofSource source).map SourceLine.unnumbered =
      (Text.lines source).map fun raw => ⟨0, raw⟩ := by
  unfold SourceLine.ofSource
  apply List.ext_getElem
  · simp
  · intro i hi hj
    simp [SourceLine.unnumbered]

/-- Some of the lines of a source, with their endings, are the lines of what they make up. -/
theorem ofSource_of_sublist {source : String} {ls : List SourceLine}
    (h : ls.Sublist (SourceLine.ofSource source)) :
    (SourceLine.ofSource (.ofList (ls.flatMap (SourceLine.segment source)))).map
        SourceLine.unnumbered = ls.map SourceLine.unnumbered := by
  have hsegments := h.map (SourceLine.segment source)
  rw [map_segment] at hsegments
  have hcut := (Text.cut_segments source.toList).sublist hsegments
  rw [map_unnumbered_ofSource, Text.lines, String.toList_ofList, List.flatMap_def,
    Text.breakLines_flatten hcut, List.map_map, List.map_map, List.map_map]
  apply List.map_congr_left
  intro l hl
  simp [SourceLine.unnumbered, raw_eq (h.subset hl)]

/-! ## What is left of the lines -/

theorem keptGroups_sublist (s : State) (gs : List Group) : (keptGroups s gs).Sublist gs := by
  induction gs generalizing s with
  | nil => exact List.Sublist.refl _
  | cons g gs ih =>
    rw [keptGroups]
    split
    · exact (ih _).cons g
    · exact (ih _).cons_cons g

theorem keptFrom_append (s : State) (ls ms : List LogicalLine) :
    keptFrom s (ls ++ ms) = keptFrom s ls ++ keptFrom (readAll s ls) ms := by
  induction ls generalizing s with
  | nil => rfl
  | cons l ls ih =>
    have hread : readAll s (l :: ls) = readAll (s.read l) ls := rfl
    rw [List.cons_append, keptFrom, keptFrom, ih, hread]
    split <;> rfl

theorem logical_keptGroups {gs : List Group} (h : ∀ g ∈ gs, g.logical.length ≤ 1) (s : State) :
    (keptGroups s gs).flatMap Group.logical = keptFrom s (gs.flatMap Group.logical) := by
  induction gs generalizing s with
  | nil => rfl
  | cons g gs ih =>
    have hg := h g List.mem_cons_self
    have hgs := ih fun g' hg' => h g' (List.mem_cons_of_mem _ hg')
    rw [List.flatMap_cons, keptFrom_append, keptGroups, ← hgs]
    match hl : g.logical with
    | [] => simp [keptFrom, hl]
    | [l] =>
      simp only [List.any_cons, List.any_nil, Bool.or_false, keptFrom]
      split
      · rfl
      · rw [List.flatMap_cons, hl]
    | l :: m :: rest => simp [hl] at hg

/-- **What is left of a source folds to the lines that were kept**, under new numbers. -/
theorem ofSource_repaired {source : String} {lines : List LogicalLine}
    (h : LogicalLine.ofSource source = .ok lines) :
    ∃ kept, LogicalLine.ofSource (repaired source) = .ok kept ∧
      kept.map LogicalLine.unnumbered =
        (keptFrom .initial lines).map LogicalLine.unnumbered := by
  obtain ⟨gs, hgs, rfl⟩ := LogicalLine.groups_of_ofSource h
  have hkept := keptGroups_sublist .initial gs
  have hphysical := LogicalLine.physical_of_groupsFrom hgs
  have hlogical := LogicalLine.logical_of_groupsFrom rfl hgs
  have hfold := LogicalLine.foldFrom_of_sublist (fun rest => rfl) hgs hkept
  have hsub := hkept.flatMap Group.physical
  rw [hphysical, List.nil_append] at hsub
  have hrepaired : repaired source = .ofList
      (((keptGroups .initial gs).flatMap Group.physical).flatMap (SourceLine.segment source)) := by
    unfold repaired
    rw [hgs]
  obtain ⟨kept, hk, hmap⟩ :=
    LogicalLine.foldFrom_of_unnumbered (ofSource_of_sublist hsub) hfold
  refine ⟨kept, ?_, ?_⟩
  · rw [hrepaired]
    exact hk
  · rw [hmap, logical_keptGroups fun g hg => (hlogical g hg).1]

/-! ## What is left lexes and parses -/

theorem keptFrom_subset (s : State) (ls : List LogicalLine) : ∀ l ∈ keptFrom s ls, l ∈ ls := by
  induction ls generalizing s with
  | nil => exact fun l hl => hl
  | cons l ls ih =>
    intro m hm
    rw [keptFrom] at hm
    split at hm
    · exact List.mem_cons_of_mem _ (ih _ m hm)
    · rcases List.mem_cons.mp hm with rfl | hm
      · exact List.mem_cons_self
      · exact List.mem_cons_of_mem _ (ih _ m hm)

/-- **Recovery is deletion.** Take the physical lines of every line that the parser rejected or
skipped out of a source: what is left lexes and parses, to a tree of the same structure, and none of
its lines is rejected or skipped. -/
theorem parse_repaired {source : String} {scanned : Lexer.Scanned}
    (h : Lexer.tokenize source = .ok scanned) :
    ∃ parsed scanned' parsed', parse scanned.tokens = .ok parsed ∧
      Lexer.tokenize (repaired source) = .ok scanned' ∧ parse scanned'.tokens = .ok parsed' ∧
      parsed'.table.sameStructure parsed.table = true ∧
      parsed'.table.unnumbered = parsed.table.unnumbered ∧
      ∀ d ∈ parsed'.diagnostics, d.code ≠ .notAllowedHere ∧ d.code ≠ .lateModule ∧
        d.code ≠ .malformedDeclaration ∧ d.code ≠ .unexpectedIndentation := by
  obtain ⟨lines, hlines, hlex, hparse⟩ := parse_of_tokenize h
  have hclimbs := climbs_of_lexes hlex
  obtain ⟨kept, hkept, hmap⟩ := ofSource_repaired hlines
  obtain ⟨hclimbs', hcovers⟩ := covers_readAll State.Covers.initial hclimbs hmap
  -- a kept line lexes as it did, under its new number
  have hlex' : Lexer.Lexes 0 kept := by
    apply lexes_of_climbs hclimbs'
    intro m hm
    obtain ⟨l, hl, hlm⟩ : ∃ l ∈ keptFrom .initial lines, l.unnumbered = m.unnumbered := by
      have := List.mem_map_of_mem (f := LogicalLine.unnumbered) hm
      rw [hmap] at this
      exact List.mem_map.mp this
    have hindent := congrArg LogicalLine.indent hlm
    have htext := congrArg LogicalLine.text hlm
    simp only [LogicalLine.unnumbered] at hindent htext
    obtain ⟨hi, content, hs⟩ := Lexer.scan_of_lexes hlex (keptFrom_subset _ _ l hl)
    obtain ⟨content', hs', -⟩ := Lexer.scan_onLine hs m.number m.raw
    unfold LogicalLine.level at hi ⊢
    rw [← hindent, ← htext]
    exact ⟨hi, content', hs'⟩
  obtain ⟨scanned', hscanned', -⟩ := Lexer.tokenize_eq_ok_iff.mpr ⟨kept, hkept, hlex', rfl⟩
  obtain ⟨_, hk, -, hparse'⟩ := parse_of_tokenize hscanned'
  rw [hkept, Except.ok.injEq] at hk
  subst hk
  have htable : (ofStream ⟨linesAt 0 lines, .back (LogicalLine.lastLevel 0 lines)⟩).table =
      (readAll .initial lines).table := table_ofStream hclimbs
  have htable' : (ofStream ⟨linesAt 0 kept, .back (LogicalLine.lastLevel 0 kept)⟩).table =
      (readAll .initial kept).table := table_ofStream hclimbs'
  have hsame := hcovers.table
  refine ⟨_, scanned', _, hparse, hscanned', hparse', ?_, ?_, ?_⟩
  · obtain ⟨rows, -, full, -, hfull⟩ := built_readAll hclimbs
    rw [htable, htable', hfull]
    rw [hfull] at hsame
    exact Ast.Table.sameStructure_of_unnumbered hsame
  · rw [htable, htable', hsame]
  · intro d hd
    obtain ⟨f, hf, rfl⟩ := List.mem_map.mp hd
    simp only [ofStream] at hf
    rw [run_linesAt hclimbs'] at hf
    have hdepth := depth_readAll (s := .initial) hclimbs'
    have hmild := State.mild_finish hcovers.mild (Nat.le_of_eq hdepth.symm) f hf
    obtain ⟨hrejects, hunexpected⟩ := hmild
    cases hc : f.complaint <;> simp_all [Finding.diagnostic, Complaint.code, Complaint.rejects]

/-- A function that loses a class with its block, a step over two lines that stands in the class,
and a block that nothing announces. -/
theorem parse_repaired_function :
    ∃ scanned, Lexer.tokenize
        "func f:\n    class C:\n        1,\n  2\n    go\n        on\n    var x\n" = .ok scanned ∧
      ∃ parsed scanned' parsed', parse scanned.tokens = .ok parsed ∧
        Lexer.tokenize (repaired
          "func f:\n    class C:\n        1,\n  2\n    go\n        on\n    var x\n") = .ok scanned' ∧
        parse scanned'.tokens = .ok parsed' ∧
        parsed'.table.sameStructure parsed.table = true ∧
        parsed'.table.unnumbered = parsed.table.unnumbered ∧
        ∀ d ∈ parsed'.diagnostics, d.code ≠ .notAllowedHere ∧ d.code ≠ .lateModule ∧
          d.code ≠ .malformedDeclaration ∧ d.code ≠ .unexpectedIndentation := by
  have hlex : (Lexer.tokenize
      "func f:\n    class C:\n        1,\n  2\n    go\n        on\n    var x\n").toOption.isSome =
        true := by
    decide +kernel
  cases h : Lexer.tokenize
      "func f:\n    class C:\n        1,\n  2\n    go\n        on\n    var x\n" with
  | error e => rw [h] at hlex; exact absurd hlex (by simp [Except.toOption])
  | ok scanned => exact ⟨scanned, rfl, parse_repaired h⟩

/-- The lines that are dropped there are gone. -/
example : repaired "func f:\n    class C:\n        1,\n  2\n    go\n        on\n    var x\n" =
    "func f:\n    go\n    var x\n" := by decide +kernel

end Parser

end IntentCode
