import IntentCode.Proofs.Parser.Layout
import IntentCode.Proofs.Parser.Printed
import IntentCode.Proofs.Parser.Rebuild

/-!
# Reading back what has been written

The canonical source of a tree that has been read gives the tree back exactly if it is `Legible`: no
line of it is dropped or folded, and no step looks like anything else (`reads_canonical`).

One direction follows the parser over the written lines (`reads_written`). In the other, the parser
is not followed at all. A line that is dropped or folded takes its weight with it, and a step
that is read as something else is missing from the steps, and the tree that comes back has to have
as much of both as the one that was written (`legible_of_sameStructure`).
-/

set_option autoImplicit false

namespace IntentCode.Parser

open Ast Lexer

/-- Every line of the written tree is read as what it was written for. -/
structure Legible (t : Table) : Prop where
  alone : ∀ l ∈ Format.lines 0 t.forest, LogicalLine.Alone l.text.toList
  free : ∀ n ∈ t.forest.nodes, n.type = .step → Free (Format.header n).toList

instance (text : List Char) : Decidable (LogicalLine.Alone text) :=
  inferInstanceAs (Decidable (_ ∧ _))

instance (t : Table) : Decidable (Legible t) :=
  decidable_of_iff
    ((∀ l ∈ Format.lines 0 t.forest, LogicalLine.Alone l.text.toList) ∧
      ∀ n ∈ t.forest.nodes, n.type = .step → Free (Format.header n).toList)
    ⟨fun h => ⟨h.1, h.2⟩, fun h => ⟨h.alone, h.free⟩⟩

/-- The tree of a source that can be read. -/
def read? (source : String) : Option Table :=
  match tokenize source with
  | .error _ => none
  | .ok scanned =>
    match parse scanned.tokens with
    | .error _ => none
    | .ok parsed => some parsed.table

theorem exists_of_read? {source : String} {t : Table} (h : read? source = some t) :
    ∃ scanned parsed, tokenize source = .ok scanned ∧ parse scanned.tokens = .ok parsed ∧
      parsed.table = t := by
  unfold read? at h
  split at h
  · cases h
  · next scanned hscanned =>
    split at h
    · cases h
    · next parsed hparsed => exact ⟨scanned, parsed, hscanned, hparsed, Option.some.inj h⟩

/-! ## Trees that have been read -/

/-- **What the lines of a source leave**: rows that the grammar allows and that can be written,
with no more in them than the lines had. -/
theorem exists_rows {source : String} {ls : List LogicalLine}
    (hls : LogicalLine.ofSource source = .ok ls) (hlex : Lexes 0 ls) :
    ∃ rows, (readAll .initial ls).table = .ofRows rows ∧ Lawful rows ∧
      (∀ r ∈ rows, Writable r.body) ∧
      (rows.map fun r => bodyWeight r.body).sum ≤ (ls.map LogicalLine.weight).sum ∧
      (rows.map fun r => stepCount r.body).sum ≤ (ls.map fun l => freeCount l.text).sum := by
  have hclimbs := climbs_of_lexes hlex
  obtain ⟨rows, hbuilt, full, hfull, htable⟩ := built_readAll hclimbs
  obtain ⟨⟨spent, hspent, hsum⟩, -⟩ :=
    accounts_readAll .initial (LogicalLine.lineFeed_notMem_of_ofSource hls) hclimbs
  rw [htable] at hspent
  have hlawful : Lawful full := by
    rw [← lawful_map_bare, hfull]
    exact hbuilt.lawful
  have hbodies := Table.bodies_ofRows full
  refine ⟨full, htable, hlawful, ?_, ?_, ?_⟩
  · intro r hr
    refine hspent.writable r.body ?_ (hlawful.ne_root r hr)
    rw [hbodies]
    exact List.mem_cons_of_mem _ (List.mem_reverse.mpr (List.mem_map_of_mem hr))
  · have hweight := hspent.weight
    rw [hbodies, List.map_cons, List.sum_cons, List.map_reverse, List.sum_reverse,
      List.map_map] at hweight
    have hroot : bodyWeight .root = 0 := rfl
    simp only [Function.comp_def] at hweight
    omega
  · have hsteps := hbuilt.steps_le
    rw [← hfull, List.map_map, List.map_reverse, List.sum_reverse] at hsteps
    have hsame : ((fun r : Row => stepCount r.body) ∘ Row.bare) = fun r => stepCount r.body := by
      funext r
      simp [stepCount, Row.bare]
    rw [hsame] at hsteps
    exact hsteps

/-- The tree of a source comes from such rows. -/
theorem exists_rows_of_parse {source : String} {scanned : Scanned} {parsed : Parsed}
    (hlex : tokenize source = .ok scanned) (hparse : parse scanned.tokens = .ok parsed) :
    ∃ rows, parsed.table = .ofRows rows ∧ Lawful rows ∧ ∀ r ∈ rows, Writable r.body := by
  obtain ⟨ls, hls, hlexes, hparsed⟩ := parse_of_tokenize hlex
  obtain ⟨rows, htable, hlaw, hw, -⟩ := exists_rows hls hlexes
  rw [hparse, Except.ok.injEq] at hparsed
  refine ⟨rows, ?_, hlaw, hw⟩
  rw [hparsed, table_ofStream (climbs_of_lexes hlexes), htable]

section

variable {rows : List Row} (hlaw : Lawful rows) (hw : ∀ r ∈ rows, Writable r.body)

include hlaw

theorem sum_nodes (w : Body → Nat) :
    ((Table.ofRows rows).forest.nodes.map fun n => w n.body).sum =
      (rows.map fun r => w r.body).sum := by
  have hbodies := congrArg (fun bs => (bs.map w).sum) (Table.bodies_forest hlaw.climbing)
  simpa [List.map_map, Function.comp_def, List.sum_reverse] using hbodies

include hw

theorem writable_nodes : ∀ n ∈ (Table.ofRows rows).forest.nodes, Writable n.body := by
  intro n hn
  have hmem : n.body ∈ (rows.map Row.body).reverse := by
    rw [← Table.bodies_forest hlaw.climbing]
    exact List.mem_map_of_mem hn
  obtain ⟨r, hr, hbody⟩ := List.mem_map.mp (List.mem_reverse.mp hmem)
  rw [← hbody]
  exact hw r hr

/-! ## Reading the source -/

/-- **A legible tree is read back as it was**, with its line numbers for those of its source. There
are no warnings, and the complaints are those about the tree. -/
theorem reads_written (h : Legible (.ofRows rows)) :
    ∃ scanned parsed, tokenize (Format.canonical (.ofRows rows)) = .ok scanned ∧
      scanned.warnings = [] ∧ parse scanned.tokens = .ok parsed ∧
      parsed.table.unnumbered = (Table.ofRows rows).unnumbered ∧
      parsed.findings.map Finding.complaint =
        complaintsIn (.new 0 .root) (Table.ofRows rows).forest := by
  have hnodes := writable_nodes hlaw hw
  obtain ⟨children, -, -, hrows⟩ := Table.numbered_forest hlaw.climbing
  have hown : rowsOf 0 (Table.ofRows rows).forest = rows := by
    rw [rowsOf, hrows, List.reverse_reverse]
  obtain ⟨ls, hls, hlines⟩ := Format.ofSource_source .default (solid_lines 0 hnodes) h.alone
  -- columns become levels again
  have hshape : ls.map shape =
      (Format.lines 0 (Table.ofRows rows).forest).map fun l => (l.level, l.text) := by
    have hlevels := congrArg (List.map fun p : Nat × String => (p.1 / indentUnit, p.2)) hlines
    rw [List.map_map, List.map_map] at hlevels
    have hunit : ∀ l : Format.Line, l.level * Format.Config.default.indentSize / indentUnit =
        l.level := fun l => Nat.mul_div_cancel l.level (by decide)
    simp only [Function.comp_def, hunit] at hlevels
    exact hlevels
  have hlaw' : Lawful (rowsOf 0 (Table.ofRows rows).forest ++ []) := by
    rw [hown, List.append_nil]
    exact hlaw
  obtain ⟨hclimbs, scope, hready⟩ := rereads hnodes h.free 0 Ready.initial hlaw' hshape
  -- so every line is indented by the levels of its node, and none is too deep
  have hwritten : ∀ l ∈ ls, l.indent = l.level * indentUnit ∧
      ∃ ts, scan l.text.toList l.number l.raw = .ok ⟨ts, []⟩ := by
    intro l hl
    have hmem := List.mem_map_of_mem (f := fun l : LogicalLine => (l.indent, l.text)) hl
    rw [hlines] at hmem
    obtain ⟨m, hm, hml⟩ := List.mem_map.mp hmem
    simp only [Prod.mk.injEq] at hml
    obtain ⟨hindent, htext⟩ := hml
    refine ⟨?_, ?_⟩
    · have hunit : Format.Config.default.indentSize = indentUnit := rfl
      rw [LogicalLine.level, ← hindent, hunit, Nat.mul_div_cancel _ (by decide)]
    · rw [← htext]
      exact scan_lines hnodes h.free m hm l.number l.raw
  have hlex : Lexes 0 ls := by
    apply lexes_of_climbs hclimbs
    intro l hl
    obtain ⟨hindent, ts, hscan⟩ := hwritten l hl
    exact ⟨hindent, _, hscan⟩
  obtain ⟨scanned, hscanned, -⟩ := tokenize_eq_ok_iff.mpr ⟨ls, hls, hlex, rfl⟩
  obtain ⟨_, hls', -, hparse⟩ := parse_of_tokenize hscanned
  rw [hls, Except.ok.injEq] at hls'
  subst hls'
  refine ⟨scanned, _, hscanned, ?_, hparse, ?_, ?_⟩
  · exact warnings_of_tokenize hscanned hls fun l hl => (hwritten l hl).2
  · rw [table_ofStream hclimbs, hready.table, hown, List.append_nil]
  · have hdepth : LogicalLine.lastLevel 0 ls ≤ (readAll .initial ls).depth :=
      Nat.le_of_eq (depth_readAll (s := .initial) hclimbs).symm
    have hfinish := hready.complaints_finish hdepth
    rw [List.nil_append] at hfinish
    rw [ofStream, run_linesAt hclimbs]
    exact hfinish

theorem reads_source (h : Legible (.ofRows rows)) :
    ∃ scanned parsed, tokenize (Format.canonical (.ofRows rows)) = .ok scanned ∧
      parse scanned.tokens = .ok parsed ∧
      parsed.table.unnumbered = (Table.ofRows rows).unnumbered := by
  obtain ⟨scanned, parsed, hscanned, -, hparsed, htable, -⟩ := reads_written hlaw hw h
  exact ⟨scanned, parsed, hscanned, hparsed, htable⟩

/-- **What is read back as the same tree was legible.** -/
theorem legible_of_sameStructure {scanned : Scanned} {parsed : Parsed}
    (hlex : tokenize (Format.canonical (.ofRows rows)) = .ok scanned)
    (hparse : parse scanned.tokens = .ok parsed)
    (hsame : parsed.table.sameStructure (.ofRows rows) = true) : Legible (.ofRows rows) := by
  have hnodes := writable_nodes hlaw hw
  have hsolid := solid_lines 0 hnodes
  obtain ⟨ls, hls, hlexes, hparsed⟩ := parse_of_tokenize hlex
  obtain ⟨rows', htable, hlaw', -, hweight, hsteps⟩ := exists_rows hls hlexes
  rw [hparse, Except.ok.injEq] at hparsed
  rw [hparsed, table_ofStream (climbs_of_lexes hlexes), htable] at hsame
  have hsum : ∀ {w : Body → Nat}, (∀ b c, b.same c = true → w b = w c) →
      (rows'.map fun r => w r.body).sum =
        ((Table.ofRows rows).forest.nodes.map fun n => w n.body).sum := by
    intro w h
    rw [Table.sum_of_sameStructure hlaw'.climbing hlaw.climbing hsame h, sum_nodes hlaw]
  -- no line has been dropped or folded
  have halone : ∀ l ∈ Format.lines 0 (Table.ofRows rows).forest,
      LogicalLine.Alone l.text.toList := by
    apply Format.alone_of_weight hsolid hls
    rw [weight_lines 0 hnodes, ← hsum fun b c => bodyWeight_same]
    exact hweight
  -- so the free lines are those of the tree, and no step is missing among them
  obtain ⟨ls', hls', hlines⟩ := Format.ofSource_source .default hsolid halone
  have hread : LogicalLine.ofSource (Format.canonical (.ofRows rows)) = .ok ls' := hls'
  rw [hread, Except.ok.injEq] at hls
  subst hls
  have hfree : (ls'.map fun l => freeCount l.text).sum =
      ((Format.lines 0 (Table.ofRows rows).forest).map fun l => freeCount l.text).sum := by
    have htexts := congrArg (List.map fun p : Nat × String => freeCount p.2) hlines
    rw [List.map_map, List.map_map] at htexts
    exact congrArg List.sum htexts
  refine ⟨halone, free_of_steps_le 0 hnodes ?_⟩
  rw [← hsum fun b c => stepCount_same, ← hfree]
  exact hsteps

end

/-- **Writing a tree and reading it back.** Of every source that has been read, the canonical source
of the tree can be read, and gives the same tree, exactly if the tree is legible. Then the trees
differ in nothing but line numbers. -/
theorem reads_canonical {source : String} {scanned : Scanned} {parsed : Parsed}
    (hlex : tokenize source = .ok scanned) (hparse : parse scanned.tokens = .ok parsed) :
    ((∃ scanned' parsed', tokenize (Format.canonical parsed.table) = .ok scanned' ∧
        parse scanned'.tokens = .ok parsed' ∧
        parsed'.table.sameStructure parsed.table = true) ↔ Legible parsed.table) ∧
      (Legible parsed.table → ∃ scanned' parsed',
        tokenize (Format.canonical parsed.table) = .ok scanned' ∧
        parse scanned'.tokens = .ok parsed' ∧
        parsed'.table.unnumbered = parsed.table.unnumbered) := by
  obtain ⟨ls, hls, hlexes, hparsed⟩ := parse_of_tokenize hlex
  obtain ⟨rows, htable, hlaw, hw, -⟩ := exists_rows hls hlexes
  rw [hparse, Except.ok.injEq] at hparsed
  have hrows : parsed.table = .ofRows rows := by
    rw [hparsed, table_ofStream (climbs_of_lexes hlexes), htable]
  rw [hrows]
  refine ⟨⟨?_, ?_⟩, reads_source hlaw hw⟩
  · rintro ⟨scanned', parsed', hscanned', hparse', hsame⟩
    exact legible_of_sameStructure hlaw hw hscanned' hparse' hsame
  · intro h
    obtain ⟨scanned', parsed', hscanned', hparse', hsame⟩ := reads_source hlaw hw h
    exact ⟨scanned', parsed', hscanned', hparse', Table.sameStructure_of_unnumbered hsame⟩

/-- A class with a base, a method over two lines, a step with a block, and a note of two lines. -/
theorem reads_canonical_class :
    ∃ scanned parsed, tokenize
        "class A( $b$:c ):\n    func d(e,\n  f):\n        $g$ :\n            h\n    @ i\n    @ j\n" =
          .ok scanned ∧
      parse scanned.tokens = .ok parsed ∧ Legible parsed.table ∧
      ∃ scanned' parsed', tokenize (Format.canonical parsed.table) = .ok scanned' ∧
        parse scanned'.tokens = .ok parsed' ∧
        parsed'.table.unnumbered = parsed.table.unnumbered := by
  have hlegible : (read?
      "class A( $b$:c ):\n    func d(e,\n  f):\n        $g$ :\n            h\n    @ i\n    @ j\n").map
        (fun t => decide (Legible t)) = some true := by
    decide +kernel
  obtain ⟨t, ht, hlegible⟩ := Option.map_eq_some_iff.mp hlegible
  obtain ⟨scanned, parsed, hscanned, hparsed, rfl⟩ := exists_of_read? ht
  have hlegible := of_decide_eq_true hlegible
  exact ⟨scanned, parsed, hscanned, hparsed, hlegible,
    (reads_canonical hscanned hparsed).2 hlegible⟩

/-- A step that starts with a keyword as soon as there is a space behind it. -/
theorem step_read_as_variable :
    ∃ scanned parsed scanned' parsed', tokenize "func f:\n    var$x$\n" = .ok scanned ∧
      parse scanned.tokens = .ok parsed ∧
      tokenize (Format.canonical parsed.table) = .ok scanned' ∧
      parse scanned'.tokens = .ok parsed' ∧
      parsed'.table.sameStructure parsed.table = false := by
  have hread : (read? "func f:\n    var$x$\n").map (fun t =>
      (read? (Format.canonical t)).map fun u => u.sameStructure t) = some (some false) := by
    decide +kernel
  obtain ⟨t, ht, hread⟩ := Option.map_eq_some_iff.mp hread
  obtain ⟨u, hu, hsame⟩ := Option.map_eq_some_iff.mp hread
  obtain ⟨scanned, parsed, hscanned, hparsed, rfl⟩ := exists_of_read? ht
  obtain ⟨scanned', parsed', hscanned', hparsed', rfl⟩ := exists_of_read? hu
  exact ⟨scanned, parsed, scanned', parsed', hscanned, hparsed, hscanned', hparsed', hsame⟩

end IntentCode.Parser
