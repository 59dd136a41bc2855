import IntentCode.Proofs.Parser.CanonicalBody

/-!
# Canonical trees are read back

A canonical tree is written on lines that are what they look like: none is a comment or asks for the
next one, and no step starts with a keyword (`legible_of_canonical`). No scope declares a name twice
and every block that is announced is there, so nothing is complained about
(`complaintsIn_of_canonical`). What is left is `reads_accepted`.
-/

set_option autoImplicit false

namespace IntentCode.Parser

open Ast Lexer Token LogicalLine

/-! ## Steps -/

section

variable {text : String} {refs : List String} (h : StepText text refs)

include h

/-- A keyword in front of a step is only the beginning of a word. -/
theorem endsWord_of_stepText {word : String} (hword : word ∈ keywords) {tail : List Char}
    (htext : text.toList = word.toList ++ tail) : endsWord tail = false := by
  have hletters := letters_keyword word hword
  have hlong : tail.takeWhile (fun c => !Text.isBlank c) ≠ [] := by
    intro hend
    have hfirst : firstWord text = word := by
      rw [firstWord, htext, List.takeWhile_append_of_pos, hend, List.append_nil,
        String.ofList_toList]
      intro c hc
      rw [(hletters c hc).1]
      rfl
    exact h.noKeyword (hfirst ▸ hword)
  cases tail with
  | nil => exact absurd rfl hlong
  | cons c tail =>
    have hblank : Text.isBlank c = false := by
      rw [← Bool.not_eq_true]
      intro hc
      exact hlong (by simp [hc])
    have hcolon : c ≠ ':' := by
      rintro rfl
      -- a colon in a free text lies within a reference
      obtain ⟨spans, -, hspans, hspelled, -⟩ := h.free
      have hno := Span.colon_notMem hspans
      rw [← hspelled, htext, List.takeWhile_append_of_pos] at hno
      · exact hno (by simp)
      · intro c hc
        exact decide_eq_true (hletters c hc).2.1
    simp [endsWord, hblank, hcolon]

variable {rest : List Char} (hrest : rest = [] ∨ rest = [':'])

include hrest

/-- A step is not a comment, with or without the colon of its block. -/
theorem not_comment_of_stepText : ['/', '/'].isPrefixOf (text.toList ++ rest) = false := by
  have hno : ['/', '/'].isPrefixOf text.toList = false := h.noComment
  obtain ⟨c, cs, htext⟩ := h.free.exists_cons
  rw [htext] at hno ⊢
  cases cs with
  | nil => rcases hrest with rfl | rfl <;> simp [List.isPrefixOf]
  | cons d ds => simpa [List.isPrefixOf] using hno

/-- **A step is read as a step.** -/
theorem free_of_stepText : Free (text.toList ++ rest) := by
  refine ⟨?_, ?_⟩
  · have hno : ['@'].isPrefixOf text.toList = false := h.noNote
    obtain ⟨c, cs, htext⟩ := h.free.exists_cons
    rw [htext] at hno ⊢
    intro hc
    obtain rfl : c = '@' := Option.some.inj hc
    cases hno
  · have hbounds : Bounds rest := by
      rcases hrest with rfl | rfl
      · intro c hc
        cases hc
      · intro c hc
        obtain rfl := Option.some.inj hc
        exact .inr (.inr (by decide))
    refine splitKeyword?_eq_none fun word hword more happend => ?_
    obtain ⟨tail, htext, rfl⟩ := exists_tail_of_bounds hword hbounds happend
    have hno := endsWord_of_stepText h hword htext
    cases tail with
    | nil => cases hno
    | cons c tail => exact hno

end

/-! ## Trees -/

theorem colon_cases (colon : Bool) :
    (if colon then ":" else "" : String).toList = [] ∨
      (if colon then ":" else "" : String).toList = [':'] := by
  cases colon
  · exact .inl rfl
  · exact .inr rfl

theorem not_comment_header {n : Node} (h : CanonicalBody n.body) :
    ['/', '/'].isPrefixOf (Format.header n).toList = false := by
  generalize hbody : n.body = body at h
  cases h with
  | root =>
    unfold Format.header
    rw [hbody]
    rfl
  | moduleImport path content =>
    rw [header_module hbody]
    exact not_comment_keyword (by decide) _
  | varDecl name notes content =>
    rw [header_var hbody]
    exact not_comment_keyword (by decide) _
  | classDecl name notes bases =>
    rw [header_class hbody]
    exact not_comment_keyword (by decide) _
  | funcDecl name notes params listed =>
    rw [header_func hbody]
    exact not_comment_keyword (by decide) _
  | step content =>
    rw [header_step hbody]
    exact not_comment_of_stepText content (colon_cases _)

/-- **A tree of canonical bodies is legible.** -/
theorem legible_of_canonical {t : Table} (h : ∀ n ∈ t.forest.nodes, CanonicalBody n.body) :
    Legible t where
  alone := by
    intro l hl
    obtain ⟨n, hn, htext | ⟨level, hnote⟩⟩ := mem_lines hl
    · rw [htext]
      exact ⟨not_comment_header (h n hn), .inr (quiet_header (h n hn)).ending⟩
    · exact alone_of_notes (h n hn) hnote
  free := by
    intro n hn hstep
    have hbody := h n hn
    unfold Node.type at hstep
    generalize hb : n.body = body at hbody hstep
    cases hbody with
    | step content =>
      rw [header_step hb]
      exact free_of_stepText content (colon_cases _)
    | root => cases hstep
    | moduleImport path content => cases hstep
    | classDecl name notes bases => cases hstep
    | funcDecl name notes params listed => cases hstep
    | varDecl name notes content => cases hstep

/-- A block that is announced is there. -/
theorem not_announces {t : Table} (h : t.Canonical) {uid : Nat} {n : Node}
    (hn : t.get? uid = some n) (hc : n.children = []) : announces n = false := by
  have hblocks := h.blocks uid n hn
  unfold announces
  unfold Node.type at hblocks
  cases hb : n.body with
  | step s =>
    rw [hb] at hblocks
    have hopens := (hblocks rfl).not.mpr (not_not.mpr hc)
    exact Bool.eq_false_of_not_eq_true hopens
  | root => rfl
  | moduleImport m => rfl
  | varDecl v => rfl
  | classDecl c => simp [hc]
  | funcDecl f => simp [hc]

/-- **There is nothing to complain about in a canonical tree.** -/
theorem complaintsIn_of_canonical {t : Table} (h : t.Canonical) {uids : List Nat} {f : Forest}
    (hf : t.Draws uids f) {scope : Scope}
    (hnames : (scope.declared ++
      (uids.filterMap t.get?).filterMap fun n => n.body.declaredName?).Nodup) :
    complaintsIn scope f = [] := by
  induction hf generalizing scope with
  | nil => rfl
  | @cons uid n uids below beside get number hbelow hbeside ihb ihs =>
    rw [List.filterMap_cons_some get, List.filterMap_cons] at hnames
    have hunder : complaintsIn (.new n.uid n.type) below = [] := by
      apply ihb
      show ((n.children.filterMap t.get?).filterMap fun n => n.body.declaredName?).Nodup
      rw [← Table.children_eq get]
      exact h.distinct uid
    have hblock : ¬ (below = .nil ∧ announces n = true) := by
      rintro ⟨rfl, hannounces⟩
      have hleaf : n.children = [] := by
        generalize n.children = cs at hbelow
        cases hbelow
        rfl
      rw [not_announces h get hleaf] at hannounces
      cases hannounces
    rw [complaintsIn, if_neg hblock, hunder, List.append_nil, List.append_nil]
    cases hname : n.body.declaredName? with
    | none =>
      simp only [hname] at hnames
      have hmore : complaintsIn (scope.extended n.uid n.body) beside = [] := by
        apply ihs
        simp only [Scope.extended, hname]
        exact hnames
      rw [hmore, State.redeclaration, hname]
      rfl
    | some name =>
      simp only [hname] at hnames
      have hnew : name ∉ scope.declared := by
        intro hmem
        exact (List.nodup_append.mp hnames).2.2 name hmem name List.mem_cons_self rfl
      have hno : scope.declared.contains name = false := by
        simpa using hnew
      have hmore : complaintsIn (scope.extended n.uid n.body) beside = [] := by
        apply ihs
        simp only [Scope.extended, hname, hno, Bool.false_eq_true, if_false, List.append_assoc,
          List.singleton_append]
        exact hnames
      rw [hmore, State.redeclaration, hname]
      simp only [hno, Bool.false_eq_true, if_false, List.append_nil]

/-- What is read from the source of a canonical tree. -/
theorem exists_read_of_canonical {t : Table} (h : t.Canonical) :
    ∃ scanned parsed, tokenize (Format.canonical t) = .ok scanned ∧ scanned.warnings = [] ∧
      parse scanned.tokens = .ok parsed ∧ parsed.findings = [] ∧
      parsed.table.sameStructure t = true ∧ parsed.table.forest.Copies t.forest := by
  obtain ⟨root, hroot, -, hdraws, -⟩ := Table.draws_of_validate h.valid h.number
  have hbodies : ∀ n ∈ t.forest.nodes, CanonicalBody n.body := fun n hn =>
    h.bodies n.uid n (hdraws.get?_of_mem hn)
  have hfits : t.forest.Fits .root none := by
    apply hdraws.fits h.grammatical
    rw [← Table.childTypes_eq hroot]
    exact h.grammatical.follows_root
  have hwritable : ∀ n ∈ t.forest.nodes, Writable n.body.settled := fun n hn =>
    writable_settled (hbodies n hn) (hfits.ne_root n hn)
  obtain ⟨scanned, parsed, hscanned, hwarnings, hparsed, hsame, hcopies, hfindings⟩ :=
    reads_accepted h.valid h.number h.grammatical hwritable (fun n hn => (hbodies n hn).settles)
      (legible_of_canonical hbodies)
  have hnone : complaintsIn (.new 0 .root) t.forest = [] := by
    apply complaintsIn_of_canonical h hdraws
    show ((root.children.filterMap t.get?).filterMap fun n => n.body.declaredName?).Nodup
    rw [← Table.children_eq hroot]
    exact h.distinct 0
  rw [hnone, List.map_eq_nil_iff] at hfindings
  exact ⟨scanned, parsed, hscanned, hwarnings, hparsed, hfindings, hsame, hcopies⟩

/-- **Reading undoes writing on canonical trees.** The canonical source of such a tree can be read
without a warning or a diagnostic, and it has the structure of the tree. More than that, it is a copy of
the tree: node by node the content is the same, bases and parameters in their order included. Only the
references of parameters can come in another order, which is that of the parameters. -/
theorem reads_canonical_tree {t : Table} (h : t.Canonical) :
    ∃ scanned parsed, tokenize (Format.canonical t) = .ok scanned ∧ scanned.warnings = [] ∧
      parse scanned.tokens = .ok parsed ∧ parsed.diagnostics = [] ∧
      parsed.table.sameStructure t = true ∧ parsed.table.forest.Copies t.forest := by
  obtain ⟨scanned, parsed, hscanned, hwarnings, hparsed, hfindings, hsame, hcopies⟩ :=
    exists_read_of_canonical h
  refine ⟨scanned, parsed, hscanned, hwarnings, hparsed, ?_, hsame, hcopies⟩
  rw [Parsed.diagnostics, hfindings, List.map_nil]

/-! ### A ball -/

/-- A tree with everything in it, the last row first. Its source is

```text
module math: lengths

class Ball($toys.toy$):
    var place: $math.vector$ in metres
    func move(by: a $math.vector$, to):
        wait for $clock.tick$:
            go on
    @ steady, always
description: round
description: and red
```
-/
def ballRows : List Row :=
  [⟨3, 0, .step ⟨"go on", [], false⟩⟩,
   ⟨2, 0, .step ⟨"wait for $clock.tick$", ["clock.tick"], true⟩⟩,
   ⟨1, 0, .funcDecl ⟨"move", ⟨"", "steady, always"⟩,
     .ofList [("by", "a $math.vector$"), ("to", "")], .ofList [("by", "math.vector")]⟩⟩,
   ⟨1, 0, .varDecl ⟨"place", .none, "$math.vector$ in metres", ["math.vector"]⟩⟩,
   ⟨0, 0, .classDecl ⟨"Ball", ⟨"round\nand red", ""⟩, .ofList [("$toys.toy$", "")]⟩⟩,
   ⟨0, 0, .moduleImport ⟨"math", "lengths"⟩⟩]

theorem canonicalBody_ballRows : ∀ r ∈ ballRows, CanonicalBody r.body := by
  have hnone : OptionalText "" [] := .inl ⟨rfl, rfl⟩
  have hvector : FreeText "a $math.vector$" ["math.vector"] :=
    ⟨[.words "a", .reference "math.vector"], by decide +kernel⟩
  have hplain : ∀ l ∈ ["round", "and red"], IsPlain l := by decide +kernel
  have hwords : ∀ l ∈ ["round", "and red"], FreeText l [] := fun l hl =>
    ⟨[.words l], by simp, by simpa [Span.Canonical] using hplain l hl, by simp [Span.text], rfl⟩
  have hround : CanonicalNotes ⟨"round\nand red", ""⟩ :=
    ⟨⟨["round", "and red"], fun l hl => (hwords l hl).isDescriptionLine, by decide +kernel⟩,
      ⟨[], by simp, rfl⟩⟩
  have hsteady : CanonicalNotes ⟨"", "steady, always"⟩ :=
    ⟨⟨[], by simp, rfl⟩, ⟨["steady, always"], by decide +kernel, rfl⟩⟩
  simp only [ballRows, List.forall_mem_cons]
  refine ⟨?_, ?_, ?_, ?_, ?_, ?_, by simp⟩
  · exact .step ⟨⟨[.words "go on"], by decide +kernel⟩, by decide, by decide, by decide +kernel⟩
  · exact .step ⟨⟨[.words "wait for", .reference "clock.tick"], by decide +kernel⟩, by decide,
      by decide, by decide +kernel⟩
  · refine .funcDecl (by decide +kernel) hsteady ?_ (by decide)
    intro e he
    rcases List.mem_cons.mp he with rfl | he
    · exact ⟨by decide +kernel, _, .inr hvector, rfl⟩
    · obtain rfl := List.mem_singleton.mp he
      exact ⟨by decide +kernel, _, hnone, rfl⟩
  · exact .varDecl (by decide +kernel) ⟨⟨[], by simp, rfl⟩, ⟨[], by simp, rfl⟩⟩
      (.inr ⟨[.reference "math.vector", .words "in metres"], by decide +kernel⟩)
  · refine .classDecl (by decide +kernel) hround ?_
    intro e he
    obtain rfl := List.mem_singleton.mp he
    exact ⟨.inr ⟨"toys.toy", by decide +kernel, by decide +kernel⟩, _, hnone⟩
  · exact .moduleImport (by decide +kernel) ⟨[], .inr ⟨[.words "lengths"], by decide +kernel⟩⟩

/-- The tree of the ball is read back. -/
theorem reads_canonical_tree_ball : (Table.ofRows ballRows).Canonical ∧
    ∃ scanned parsed, tokenize (Format.canonical (.ofRows ballRows)) = .ok scanned ∧
      scanned.warnings = [] ∧ parse scanned.tokens = .ok parsed ∧ parsed.diagnostics = [] ∧
      parsed.table.sameStructure (.ofRows ballRows) = true ∧
      parsed.table.forest.Copies (Table.ofRows ballRows).forest := by
  have hlawful : Lawful ballRows := by decide
  have hcanonical : (Table.ofRows ballRows).Canonical :=
    hlawful.canonical canonicalBody_ballRows (by decide) (by decide)
  exact ⟨hcanonical, reads_canonical_tree hcanonical⟩

end IntentCode.Parser
