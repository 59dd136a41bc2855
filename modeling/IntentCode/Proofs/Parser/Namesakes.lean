import IntentCode.Proofs.Ast.Links
import IntentCode.Proofs.Parser.Fates
import IntentCode.Proofs.Parser.Nesting
import IntentCode.Proofs.Parser.Redeclared

/-!
# Names that a scope has already

The parser keeps a list of names for every open scope and forgets it when the scope closes. The tree
has no such lists, but it has the same knowledge: a node is reported exactly if an earlier child of its
parent declares the name that it declares (`HasNamesake`). Nothing else can cause a report, since a line
that is rejected or lost has no node.

The names of a scope are those of the rows below one node (`namesIn`), so the link is between a row and
the node that it has become: the rows before it are the nodes with smaller numbers, and the scope is the
parent (`hasNamesake_iff`).
-/

set_option autoImplicit false

namespace IntentCode

namespace Ast

/-- An earlier child of the same node declares the same name. -/
def Node.HasNamesake (t : Table) (n : Node) : Prop :=
  n.body.declaredName?.isSome = true ∧
    ∃ m ∈ t.toList, m.uid < n.uid ∧ m.parent = n.parent ∧
      m.body.declaredName? = n.body.declaredName?

instance (t : Table) (n : Node) : Decidable (n.HasNamesake t) := by
  unfold Node.HasNamesake
  infer_instance

namespace Table

variable {rows : List Row}

/-! ## Nodes and rows -/

theorem suffix_of_row {after after' before before' : List Row} {r q : Row}
    (h : rows = after ++ r :: before) (h' : rows = after' ++ q :: before')
    (hlt : before'.length < before.length) : q :: before' <:+ before := by
  refine List.suffix_of_suffix_length_le ⟨after', h'.symm⟩ ⟨after ++ [r], ?_⟩ hlt
  rw [h, List.append_assoc, List.singleton_append]

/-- A node has a namesake if the row of which it is declares a name again. -/
theorem hasNamesake_iff {after before : List Row} {r : Row} {n : Node}
    (hrows : rows = after ++ r :: before)
    (hn : (ofRows rows).get? (before.length + 1) = some n) :
    n.HasNamesake (ofRows rows) ↔ Redeclares r before := by
  obtain ⟨children, hr⟩ := get?_ofRows after r before
  rw [← hrows, hn, Option.some.injEq] at hr
  subst hr
  constructor
  · rintro ⟨hsome, m, hm, hlt, hparent, hname⟩
    obtain ⟨name, hown⟩ := Option.isSome_iff_exists.mp hsome
    have hget := (linked_ofRows rows).get?_of_mem hm
    have hpos := pos_of_ne_root hget (Body.ne_root_of_declaredName? (hname.trans hown))
    obtain ⟨after', q, before', hsplit, huid⟩ := exists_row hget hpos
    obtain ⟨children', hq⟩ := get?_ofRows after' q before'
    rw [← hsplit, ← huid, hget, Option.some.injEq] at hq
    have hshorter : before'.length < before.length := by
      have hlt' : m.uid < before.length + 1 := hlt
      omega
    obtain ⟨mid, rfl⟩ := suffix_of_row hrows hsplit hshorter
    rw [hq] at hparent hname
    exact ⟨name, hown, mem_namesIn.mpr
      ⟨mid, q, before', rfl, (Option.some.inj hparent).symm, hname.trans hown⟩⟩
  · rintro ⟨name, hown, hmem⟩
    obtain ⟨mid, q, before', rfl, hparent, hname⟩ := mem_namesIn.mp hmem
    obtain ⟨children', hq⟩ := get?_ofRows (after ++ r :: mid) q before'
    have hall : (after ++ r :: mid) ++ q :: before' = rows := by simp [hrows]
    rw [hall] at hq
    refine ⟨Option.isSome_iff_exists.mpr ⟨name, hown⟩, _, mem_toList hq, ?_, ?_, hname.trans hown.symm⟩
    · show before'.length + 1 < (mid ++ q :: before').length + 1
      rw [List.length_append, List.length_cons]
      omega
    · exact congrArg some hparent.symm

/-- The nodes with a namesake are those of the rows that declare a name again, in order. -/
theorem filter_hasNamesake (rows : List Row) :
    ((ofRows rows).toList.filter fun n => n.HasNamesake (ofRows rows)).map
        (fun n => (n.line, n.body)) =
      (redeclared rows).map fun r => (r.line, r.body) := by
  have htake : ∀ after before, rows = after ++ before →
      (((ofRows rows).toList.take (before.length + 1)).filter
          fun n => n.HasNamesake (ofRows rows)).map (fun n => (n.line, n.body)) =
        (redeclared before).map fun r => (r.line, r.body) := by
    intro after before hsplit
    induction before generalizing after with
    | nil =>
      obtain ⟨children, hroot⟩ := root_ofRows rows
      have hfirst : (ofRows rows).toList.take 1 = [⟨0, none, children, 0, .root⟩] := by
        rw [List.take_add_one, getElem?_toList, hroot]
        rfl
      rw [List.length_nil, Nat.zero_add, hfirst]
      rfl
    | cons r before ih =>
      obtain ⟨children, hr⟩ := get?_ofRows after r before
      rw [← hsplit] at hr
      have hiff := hasNamesake_iff hsplit hr
      rw [List.length_cons, List.take_add_one, getElem?_toList, hr, List.filter_append,
        List.map_append, ih (after ++ [r]) (by simp [hsplit]), redeclared, List.map_append]
      congr 1
      by_cases hredeclares : Redeclares r before
      · simp [hredeclares, hiff.mpr hredeclares]
      · have hnone := mt hiff.mp hredeclares
        simp [hredeclares, hnone]
  have hall := htake [] rows rfl
  rw [List.take_of_length_le] at hall
  · exact hall
  · show (ofRows rows).nodes.toList.length ≤ rows.length + 1
    have hsize : (ofRows rows).nodes.size = rows.length + 1 := size_ofRows rows
    rw [Array.length_toList, hsize]

end Table

end Ast

/-- The diagnostic says that a name is declared in its scope already. -/
def Diagnostic.saysDeclared (d : Diagnostic) : Bool :=
  d.code = .duplicateName && " is already declared in this scope".toList.isSuffixOf d.message.toList

namespace Parser

open Ast

/-! ## Reports and nodes -/

/-- The two complaints about a name that occurs twice end differently. -/
theorem saysDeclared_diagnostic (f : Finding) :
    f.diagnostic.saysDeclared = f.complaint.isRedeclared := by
  obtain ⟨complaint, line, content⟩ := f
  cases complaint with
  | redeclared type name =>
    have hmessage : (Complaint.redeclared type name).message =
        type.describe ++ " `" ++ name ++ "` is already declared in this scope" := rfl
    have hsuffix : " is already declared in this scope".toList <:+
        (Complaint.redeclared type name).message.toList := by
      rw [hmessage, String.toList_append]
      exact .trans (by decide) (List.suffix_append _ _)
    exact List.isSuffixOf_iff_suffix.mpr hsuffix
  | repeatedEntry what name =>
    have hmessage : (Complaint.repeatedEntry what name).message =
        "duplicate " ++ what ++ " `" ++ name ++ "`; the first one is kept" := rfl
    have hsuffix : ¬ " is already declared in this scope".toList <:+
        (Complaint.repeatedEntry what name).message.toList := by
      rw [hmessage, String.toList_append]
      intro h
      rcases List.suffix_or_suffix_of_suffix h (List.suffix_append _ _) with h | h
      · exact absurd h (by decide)
      · exact absurd h (by decide)
    exact eq_false_of_ne_true fun h => hsuffix (List.isSuffixOf_iff_suffix.mp h)
  | _ => rfl

/-- What is said about a node with a namesake, and at which line. -/
def namesakeReport (n : Node) : String × Nat :=
  ((Complaint.redeclared n.body.type (n.body.declaredName?.getD "")).message, n.line)

/-- The report of a row that declares a name again is that of its node. -/
theorem redeclarationOf_eq {r : Row} {name : String} (h : r.body.declaredName? = some name) :
    redeclarationOf r.bare = some (.redeclared r.body.type (r.body.declaredName?.getD ""), r.line) := by
  rw [redeclarationOf, Row.bare]
  simp only [Body.declaredName?_bare, Body.type_bare, h, Option.map_some, Option.getD_some]

/-- **What is said about names is said about the nodes with namesakes**, in their order. -/
theorem saysDeclared_ofStream {ts : List Token} {stream : Stream}
    (h : Stream.ofTokens ts = .ok stream) :
    ((ofStream stream).diagnostics.filter Diagnostic.saysDeclared).map (fun d => (d.message, d.line)) =
      ((ofStream stream).table.toList.filter fun n => n.HasNamesake (ofStream stream).table).map
        namesakeReport := by
  obtain ⟨⟨full, hfull, htable⟩, -⟩ := tableOf_ofStream h
  have hreports := redeclarations_ofStream h
  rw [← hfull, redeclared_map_bare, List.filterMap_map] at hreports
  have hdiagnostics : (ofStream stream).diagnostics.filter Diagnostic.saysDeclared =
      (redeclarations (ofStream stream).findings).map Finding.diagnostic := by
    rw [Parsed.diagnostics, List.filter_map, redeclarations]
    exact congrArg _ (List.filter_congr fun f _ => saysDeclared_diagnostic f)
  have hrows : (redeclared full).filterMap (redeclarationOf ∘ Row.bare) =
      (redeclared full).map fun r =>
        (Complaint.redeclared r.body.type (r.body.declaredName?.getD ""), r.line) := by
    rw [← List.filterMap_eq_map]
    refine List.filterMap_congr fun r hr => ?_
    obtain ⟨name, hname⟩ := exists_name_of_mem_redeclared hr
    exact redeclarationOf_eq hname
  have hnodes := congrArg (List.map fun p : Nat × Body =>
    ((Complaint.redeclared p.2.type (p.2.declaredName?.getD "")).message, p.1))
    (Table.filter_hasNamesake full)
  rw [hdiagnostics, htable]
  rw [hrows] at hreports
  have hmessages := congrArg (List.map fun p : Complaint × Nat => (p.1.message, p.2)) hreports
  simp only [List.map_map] at hmessages hnodes ⊢
  exact hmessages.trans hnodes.symm

/-! ## Lines without a node -/

theorem number_lineAt {l : LogicalLine} (h : l.tokens ≠ []) (level : Nat) :
    (lineAt level l).number = l.number := by
  obtain ⟨t, ts, ht⟩ := List.exists_cons_of_ne_nil h
  have hline : t.line = l.number := LogicalLine.line_of_mem_tokens (by simp [ht])
  simpa [Line.number, lineAt, ht] using hline

/-- The lines of a source that hold something keep their numbers in the stream. -/
theorem numbers_linesAt (level : Nat) (ls : List LogicalLine) :
    ((linesAt level ls).filter fun l => l.tokens ≠ []).map Line.number =
      (ls.filter fun l => l.tokens ≠ []).map LogicalLine.number := by
  induction ls generalizing level with
  | nil => rfl
  | cons l ls ih =>
    have htokens : (lineAt level l).tokens = l.tokens := rfl
    rw [linesAt, List.filter_cons, List.filter_cons, htokens]
    by_cases h : l.tokens = []
    · simpa [h] using ih l.level
    · simpa [h, number_lineAt h] using ih l.level

theorem tokens_ne_nil_of_number {l : Line} (h : 0 < l.number) : l.tokens ≠ [] := by
  intro hnil
  rw [Line.number, hnil] at h
  exact absurd h (Nat.lt_irrefl 0)

/-- The numbers of lines with something on them are numbers of lines of the source, so they are
positive, and no two outcomes of a source have the same. -/
theorem eq_of_outcomes {lines : List LogicalLine}
    (hnumbers : (0 :: lines.map LogicalLine.number).Pairwise (· < ·)) {o p : Outcome}
    (ho : o ∈ outcomes (linesAt 0 lines)) (hp : p ∈ outcomes (linesAt 0 lines))
    (hne : p.line.tokens ≠ []) (heq : o.line.number = p.line.number) : o = p := by
  have hall : ((outcomes (linesAt 0 lines)).filter fun o => o.line.tokens ≠ []).map
      (fun o => o.line.number) = (lines.filter fun l => l.tokens ≠ []).map LogicalLine.number := by
    have hlines : (outcomes (linesAt 0 lines)).map Outcome.line = linesAt 0 lines :=
      map_line_outcomesFrom _ _
    rw [← numbers_linesAt 0, ← congrArg (List.filter _) hlines, List.filter_map, List.map_map]
    rfl
  have hsublist := (List.filter_sublist (l := lines) (p := fun l => l.tokens ≠ [])).map
    LogicalLine.number
  obtain ⟨hpositive, hsorted⟩ := List.pairwise_cons.mp hnumbers
  have hnodup := (hsorted.sublist hsublist).imp Nat.ne_of_lt
  rw [← hall] at hnodup
  have hpmem : p ∈ (outcomes (linesAt 0 lines)).filter fun o => o.line.tokens ≠ [] :=
    List.mem_filter.mpr ⟨hp, by simpa using hne⟩
  have hpos : 0 < p.line.number := by
    have hmem := List.mem_map_of_mem (f := fun o : Outcome => o.line.number) hpmem
    rw [hall] at hmem
    exact hpositive _ (hsublist.subset hmem)
  refine List.inj_on_of_nodup_map hnodup (List.mem_filter.mpr ⟨ho, ?_⟩) hpmem heq
  simpa using tokens_ne_nil_of_number (heq ▸ hpos)

/-- A node is that of a line. -/
theorem exists_outcome {ts : List Token} {stream : Stream} (h : Stream.ofTokens ts = .ok stream)
    {n : Node} (hn : n ∈ (ofStream stream).table.toList) (hpos : 0 < n.uid) :
    ∃ o ∈ outcomes stream.lines, o.fate.isNode = true ∧ n.line = o.line.number := by
  obtain ⟨htable, -⟩ := tableOf_ofStream h
  have hlinked : (ofStream stream).table.Linked := by
    obtain ⟨full, -, heq⟩ := htable
    exact heq ▸ Table.linked_ofRows full
  obtain ⟨after, r, before, hrows, -, hline, -⟩ := htable.split (hlinked.get?_of_mem hn) hpos
  have hr : r ∈ rows (outcomes stream.lines).reverse := by simp [hrows]
  obtain ⟨o, ho, hrow⟩ := List.mem_filterMap.mp hr
  refine ⟨o, List.mem_reverse.mp ho, ?_, ?_⟩
  all_goals
    unfold Outcome.row? at hrow
    split at hrow
  · next node hfate => rw [hfate]; rfl
  · cases hrow
  · cases hrow
    exact hline
  · cases hrow

/-- No node of a source is on a line that has not become one. -/
theorem line_ne_of_not_node {source : String} {ts : List Token} {lines : List LogicalLine}
    (hlines : LogicalLine.ofSource source = .ok lines) {trailing : Move}
    (h : Stream.ofTokens ts = .ok ⟨linesAt 0 lines, trailing⟩) {o : Outcome}
    (ho : o ∈ outcomes (linesAt 0 lines)) (hfate : o.fate.isNode = false) {n : Node}
    (hn : n ∈ (ofStream ⟨linesAt 0 lines, trailing⟩).table.toList) (hpos : 0 < n.uid) :
    n.line ≠ o.line.number := by
  intro heq
  obtain ⟨p, hp, hnode, hline⟩ := exists_outcome h hn hpos
  have hne : p.line.tokens ≠ [] := by
    have hsound := forall_mem_outcomes State.sound_outcome _ p hp
    obtain ⟨node, hnode⟩ := Fate.isNode_iff.mp hnode
    rw [Outcome.Sound, hnode] at hsound
    exact hsound.1
  obtain rfl := eq_of_outcomes (LogicalLine.numbers_of_ofSource hlines) ho hp hne
    (heq.symm.trans hline)
  rw [hnode] at hfate
  cases hfate

/-- **Names are reported exactly where a scope has them already.** The reports that a name is declared in
its scope are, in order, one for each node with an earlier sibling that declares the same name, at the
line of the node. A line that is rejected, or lost with a block, has no node that could cause a report,
and no report is about it. -/
theorem namesakes_reported {source : String} {scanned : Lexer.Scanned}
    (h : Lexer.tokenize source = .ok scanned) :
    ∃ stream parsed, Stream.ofTokens scanned.tokens = .ok stream ∧
      parse scanned.tokens = .ok parsed ∧
      (parsed.diagnostics.filter Diagnostic.saysDeclared).map (fun d => (d.message, d.line)) =
        (parsed.table.toList.filter fun n => n.HasNamesake parsed.table).map namesakeReport ∧
      ∀ o ∈ outcomes stream.lines, (o.fate.isLost = true ∨ ∃ c, o.fate = .rejected c) →
        (∀ n ∈ parsed.table.toList, 0 < n.uid → n.line ≠ o.line.number) ∧
        ∀ d ∈ parsed.diagnostics, d.saysDeclared = true → d.line ≠ o.line.number := by
  obtain ⟨lines, hlines, -, hstream⟩ := ofTokens_of_tokenize h
  have hreports := saysDeclared_ofStream hstream
  refine ⟨_, _, hstream, parse_eq_ok_iff.mpr ⟨_, hstream, rfl⟩, hreports, ?_⟩
  intro o ho hleft
  have hfate : o.fate.isNode = false := by
    rcases hleft with hlost | ⟨c, hrejected⟩
    · cases hf : o.fate <;> rw [hf] at hlost <;> first | rfl | cases hlost
    · rw [hrejected]
      rfl
  have hnodes := fun n hn hpos =>
    line_ne_of_not_node (n := n) hlines hstream ho hfate hn hpos
  refine ⟨hnodes, fun d hd hsays => ?_⟩
  -- the line of a report is that of a node
  have hreport := List.mem_map_of_mem (f := fun d : Diagnostic => (d.message, d.line))
    (List.mem_filter.mpr ⟨hd, hsays⟩)
  rw [hreports] at hreport
  obtain ⟨n, hn, heq⟩ := List.mem_map.mp hreport
  obtain ⟨hn, hnamesake⟩ := List.mem_filter.mp hn
  obtain ⟨-, m, -, hlt, -⟩ := of_decide_eq_true hnamesake
  have hline : n.line = d.line := congrArg Prod.snd heq
  rw [← hline]
  exact hnodes n hn (Nat.zero_lt_of_lt hlt)

/-- A class with a member that is declared twice, the second time behind a rejected line with the same
name, and a scope of its own for a name that is declared outside. -/
theorem namesakes_reported_rejected :
    ∃ scanned, Lexer.tokenize
        "class A:\n    var x\n    func x(\n    func x\nvar A\nfunc f:\n    var A\n" = .ok scanned ∧
      ∃ stream parsed, Stream.ofTokens scanned.tokens = .ok stream ∧
        parse scanned.tokens = .ok parsed ∧
        (parsed.diagnostics.filter Diagnostic.saysDeclared).map (fun d => (d.message, d.line)) =
          (parsed.table.toList.filter fun n => n.HasNamesake parsed.table).map namesakeReport ∧
        ∀ o ∈ outcomes stream.lines, (o.fate.isLost = true ∨ ∃ c, o.fate = .rejected c) →
          (∀ n ∈ parsed.table.toList, 0 < n.uid → n.line ≠ o.line.number) ∧
          ∀ d ∈ parsed.diagnostics, d.saysDeclared = true → d.line ≠ o.line.number := by
  have hlex : (Lexer.tokenize
      "class A:\n    var x\n    func x(\n    func x\nvar A\nfunc f:\n    var A\n").toOption.isSome =
      true := by
    decide +kernel
  obtain ⟨scanned, hscanned⟩ := Option.isSome_iff_exists.mp hlex
  have h := toOption_eq_some_iff.mp hscanned
  exact ⟨scanned, h, namesakes_reported h⟩

end Parser

end IntentCode
