import IntentCode.Proofs.Lexer.Folding
import IntentCode.Proofs.Parser.Built
import IntentCode.Proofs.Parser.Layout

/-!
# Nesting is indentation

The tree of a source can be read off its lines without the parser. A node is the node of one line;
its depth is how far that line is indented, and its parent is the node of the nearest line above
that is indented one level less. That other lines have been rejected, or skipped with a block, makes
no difference to those that are left.

The history of the tree (`Built`) has all of this one row at a time. What is left to do here is to
go from rows to the nodes of the table, and from levels to columns.
-/

set_option autoImplicit false

namespace IntentCode.Parser

open Ast

/-- The node that a line declares, but for the notes that other lines may have added to it. -/
def IsNodeOf (l : LogicalLine) (n : Node) : Prop :=
  n.line = l.number ∧
    ∃ node, Reading.ofTokens l.tokens = .node node ∧ n.body.bare = node.body.bare

/-- Where a node belongs that comes at a level after some lines: under the root, or under the node
of the nearest line one level up. -/
def HangsBelow (t : Table) (before : List LogicalLine) (n : Node) : Nat → Prop
  | 0 => n.parent = some 0
  | level + 1 =>
    ∃ older p newer uid parent, before = older ++ p :: newer ∧
      p.indent = level * Lexer.indentUnit ∧
      (∀ m ∈ newer, m.indent ≠ level * Lexer.indentUnit) ∧
      n.parent = some uid ∧ 0 < uid ∧ t.get? uid = some parent ∧ IsNodeOf p parent

/-! ## From rows to nodes -/

theorem Built.lines_sublist {past : List LogicalLine} {rows : List Row} (h : Built past rows) :
    (rows.map Row.line).Sublist (past.map LogicalLine.number) := by
  induction h with
  | nil => simp
  | line l built ih => exact ih.cons _
  | row l node built ne meaning climbs allowed hangs ih => exact ih.cons_cons _

/-- A row with its body as it is in the tree, between the rows after and before it. -/
theorem TableOf.split {rows : List Row} {t : Table} (h : TableOf rows t) {uid : Nat} {n : Node}
    (hn : t.get? uid = some n) (h0 : 0 < uid) :
    ∃ after r before, rows = after ++ r :: before ∧ uid = before.length + 1 ∧
      n.line = r.line ∧ n.body.bare = r.body ∧ n.parent = some (parentOf before r.level) := by
  obtain ⟨full, rfl, rfl⟩ := h
  obtain ⟨after, r, before, rfl, rfl⟩ := Table.exists_row hn h0
  obtain ⟨children, hc⟩ := Table.get?_ofRows after r before
  rw [hc, Option.some.injEq] at hn
  subst hn
  exact ⟨after.map .bare, r.bare, before.map .bare, by simp, by simp, rfl, rfl,
    by rw [parentOf_map_bare]; rfl⟩

theorem TableOf.depth_eq {rows after before : List Row} {r : Row} {t : Table} (h : TableOf rows t)
    (hclimbs : Climbing rows) (hrows : rows = after ++ r :: before) :
    t.depth (before.length + 1) = r.level := by
  obtain ⟨full, rfl, rfl⟩ := h
  obtain ⟨after', rest, rfl, rfl, hrest⟩ := List.map_eq_append_iff.mp hrows
  obtain ⟨r', before', rfl, rfl, rfl⟩ := List.map_eq_cons_iff.mp hrest
  rw [List.length_map, Table.depth_ofRows (climbing_map_bare.mp hclimbs)]
  rfl

theorem lines_of_tableOf {rows : List Row} {t : Table} (h : TableOf rows t) :
    t.toList.map Node.line = 0 :: (rows.map Row.line).reverse := by
  obtain ⟨full, rfl, rfl⟩ := h
  rw [Table.lines_ofRows, List.map_map]
  rfl

/-- The node of a row. -/
theorem TableOf.get?_eq {rows after before : List Row} {r : Row} {t : Table} (h : TableOf rows t)
    (hrows : rows = after ++ r :: before) :
    ∃ n, t.get? (before.length + 1) = some n ∧ n.line = r.line ∧ n.body.bare = r.body := by
  obtain ⟨full, rfl, rfl⟩ := h
  obtain ⟨after', rest, rfl, rfl, hrest⟩ := List.map_eq_append_iff.mp hrows
  obtain ⟨r', before', rfl, rfl, rfl⟩ := List.map_eq_cons_iff.mp hrest
  obtain ⟨children, hc⟩ := Table.get?_ofRows after' r' before'
  rw [List.length_map]
  exact ⟨_, hc, rfl, rfl⟩

/-! ## From a history to a source -/

/-- A node with the history of its row. -/
theorem exists_line {ls : List LogicalLine} {rows : List Row} {t : Table}
    (hbuilt : Built ls.reverse rows) (ht : TableOf rows t) {uid : Nat} {n : Node}
    (hn : t.get? uid = some n) (h0 : 0 < uid) :
    ∃ before l after rowsBefore, ls = before ++ l :: after ∧ rowsBefore <:+ rows ∧
      IsNodeOf l n ∧ t.depth uid = l.level ∧ n.parent = some (parentOf rowsBefore l.level) ∧
      ∀ k < l.level, HangsFrom before.reverse rowsBefore k := by
  obtain ⟨after, r, rowsBefore, rfl, rfl, hline, hbody, hparent⟩ := ht.split hn h0
  have hdepth := ht.depth_eq hbuilt.climbing rfl
  obtain ⟨newer, l, older, node, hls, -, -, meaning, rfl, -, hangs⟩ := hbuilt.split
  refine ⟨older.reverse, l, newer.reverse, rowsBefore, ?_, ?_, ⟨hline, node, meaning, hbody⟩, hdepth,
    hparent, ?_⟩
  · rw [← List.reverse_reverse ls, hls]
    simp
  · exact (List.suffix_cons _ _).trans (List.suffix_append _ _)
  · rw [List.reverse_reverse]
    exact hangs

/-- Of lines in the order of their numbers no two have the same. -/
theorem eq_of_number_eq {lines : List LogicalLine}
    (h : (lines.map LogicalLine.number).Pairwise (· < ·)) {l m : LogicalLine} (hl : l ∈ lines)
    (hm : m ∈ lines) (hnumber : l.number = m.number) : l = m := by
  obtain ⟨before, after, rfl⟩ := List.append_of_mem hl
  rw [List.pairwise_map, List.pairwise_append, List.pairwise_cons] at h
  obtain ⟨-, ⟨hafter, -⟩, hbefore⟩ := h
  rcases List.mem_append.mp hm with hm | hm
  · have := hbefore m hm l List.mem_cons_self
    omega
  · rcases List.mem_cons.mp hm with rfl | hm
    · rfl
    · have := hafter m hm
      omega

/-- The latest line one level up has given the node of the scope. -/
theorem hangsBelow_of_hangsFrom {ls before : List LogicalLine} {rows rowsBefore : List Row}
    {t : Table} (hnumbers : (ls.map LogicalLine.number).Pairwise (· < ·))
    (hindent : ∀ l ∈ ls, l.indent = l.level * Lexer.indentUnit)
    (hbuilt : Built ls.reverse rows) (ht : TableOf rows t) (hbefore : before <+: ls)
    (hrows : rowsBefore <:+ rows) {n : Node} {level : Nat}
    (hparent : n.parent = some (parentOf rowsBefore (level + 1)))
    (h : HangsFrom before.reverse rowsBefore level) : HangsBelow t before n (level + 1) := by
  obtain ⟨p, r, hp, hr, hline, -⟩ := h
  -- the line, in the order of the source
  obtain ⟨hlevel, newer, older, hrev, hnewer⟩ := List.find?_eq_some_iff_append.mp hp
  have hsplit : before = older.reverse ++ p :: newer.reverse := by
    rw [← List.reverse_reverse before, hrev]
    simp
  have hmem : ∀ m ∈ before, m ∈ ls := fun m hm => hbefore.subset hm
  have hlevel : p.level = level := by simpa using hlevel
  -- its node
  obtain ⟨after, rest, hrowsBefore, hnumber⟩ := parentOf_of_find? hr
  obtain ⟨newest, hnewest⟩ := hrows
  have hrow : rows = (newest ++ after) ++ r :: rest := by
    rw [← hnewest, hrowsBefore, List.append_assoc]
  obtain ⟨q, hq, hqline, -⟩ := ht.get?_eq hrow
  obtain ⟨_, l, _, _, hl, -, hnode, -⟩ := exists_line hbuilt ht hq (Nat.succ_pos _)
  have hpl : l = p := by
    apply eq_of_number_eq hnumbers (by simp [hl]) (hmem p (by simp [hsplit]))
    rw [← hnode.1, hqline, hline]
  subst hpl
  refine ⟨older.reverse, l, newer.reverse, rest.length + 1, q, hsplit, ?_, ?_, ?_,
    Nat.succ_pos _, hq, hnode⟩
  · rw [hindent l (hmem l (by simp [hsplit])), hlevel]
  · intro m hm he
    have hm' := hnewer m (List.mem_reverse.mp hm)
    rw [hindent m (hmem m (by rw [hsplit]; simp [List.mem_reverse.mp hm]))] at he
    have : m.level = level := Nat.eq_of_mul_eq_mul_right (by decide) he
    simp [this] at hm'
  · rw [hparent, hnumber]

/-- **Nesting is indentation.** Every node but the root comes from exactly one line, lies as deep as
that line is indented, and hangs below the node of the nearest line before it that is indented one
level less. The nodes are listed in the order of their lines. -/
theorem nesting_eq_indentation {source : String} {scanned : Lexer.Scanned}
    (h : Lexer.tokenize source = .ok scanned) :
    ∃ lines parsed, LogicalLine.ofSource source = .ok lines ∧
      parse scanned.tokens = .ok parsed ∧
      (parsed.table.toList.map Node.line).Pairwise (· < ·) ∧
      ∀ uid n, 0 < uid → parsed.table.get? uid = some n →
        ∃ before l after, lines = before ++ l :: after ∧ IsNodeOf l n ∧
          (∀ m ∈ before ++ after, m.number ≠ n.line) ∧
          l.indent = parsed.table.depth uid * Lexer.indentUnit ∧
          HangsBelow parsed.table before n (parsed.table.depth uid) := by
  obtain ⟨lines, hlines, hlex, hparse⟩ := parse_of_tokenize h
  have hclimbs := climbs_of_lexes hlex
  obtain ⟨rows, hbuilt, ht⟩ := built_readAll hclimbs
  have htable : (ofStream ⟨linesAt 0 lines, .back (LogicalLine.lastLevel 0 lines)⟩).table =
      (readAll .initial lines).table := table_ofStream hclimbs
  have hnumbers := LogicalLine.numbers_of_ofSource hlines
  refine ⟨lines, _, hlines, hparse, ?_, ?_⟩
  · rw [htable, lines_of_tableOf ht]
    have hsub := List.reverse_sublist.mpr hbuilt.lines_sublist
    rw [List.map_reverse, List.reverse_reverse] at hsub
    exact hnumbers.sublist (hsub.cons_cons 0)
  · intro uid n h0 hn
    rw [htable] at hn ⊢
    obtain ⟨before, l, after, rowsBefore, hsplit, hsuffix, hnode, hdepth, hparent, hangs⟩ :=
      exists_line hbuilt ht hn h0
    refine ⟨before, l, after, hsplit, hnode, ?_, ?_, ?_⟩
    · -- the numbers of the lines ascend, so no other line has this one
      intro m hm hmn
      rw [hsplit, List.map_append, List.map_cons, List.pairwise_cons, List.pairwise_append,
        List.pairwise_cons] at hnumbers
      obtain ⟨-, -, ⟨hafter, -⟩, hbefore⟩ := hnumbers
      rw [hnode.1] at hmn
      rcases List.mem_append.mp hm with hm | hm
      · have := hbefore _ (List.mem_map_of_mem hm) _ List.mem_cons_self
        omega
      · have := hafter _ (List.mem_map_of_mem hm)
        omega
    · rw [hdepth]
      exact Lexer.indent_of_lexes hlex (by simp [hsplit])
    · rw [hdepth]
      cases hl : l.level with
      | zero =>
        rw [hl] at hparent
        show n.parent = some 0
        simpa [parentOf] using hparent
      | succ level =>
        rw [hl] at hparent hangs
        exact hangsBelow_of_hangsFrom (List.pairwise_cons.mp hnumbers).2
          (fun l hl => Lexer.indent_of_lexes hlex hl) hbuilt ht ⟨_, hsplit.symm⟩ hsuffix hparent
          (hangs level (Nat.lt_succ_self _))

/-- A function whose body has lost its first block, with the step under it, to a class that may not
stand there. -/
theorem nesting_of_broken_source :
    ∃ scanned, Lexer.tokenize "func f:\n    class C:\n        var x\n    go:\n        on\n" =
        .ok scanned ∧
      ∃ lines parsed,
        LogicalLine.ofSource "func f:\n    class C:\n        var x\n    go:\n        on\n" =
          .ok lines ∧
        parse scanned.tokens = .ok parsed ∧
        (parsed.table.toList.map Node.line).Pairwise (· < ·) ∧
        ∀ uid n, 0 < uid → parsed.table.get? uid = some n →
          ∃ before l after, lines = before ++ l :: after ∧ IsNodeOf l n ∧
            (∀ m ∈ before ++ after, m.number ≠ n.line) ∧
            l.indent = parsed.table.depth uid * Lexer.indentUnit ∧
            HangsBelow parsed.table before n (parsed.table.depth uid) := by
  have hlex : (Lexer.tokenize
      "func f:\n    class C:\n        var x\n    go:\n        on\n").toOption.isSome = true := by
    decide +kernel
  cases h : Lexer.tokenize "func f:\n    class C:\n        var x\n    go:\n        on\n" with
  | error e => rw [h] at hlex; exact absurd hlex (by simp [Except.toOption])
  | ok scanned => exact ⟨scanned, rfl, nesting_eq_indentation h⟩

end IntentCode.Parser
