import IntentCode.Proofs.Ast.Drawing
import IntentCode.Proofs.Ast.Same
import IntentCode.Proofs.Parser.Built
import IntentCode.Proofs.Parser.Notes
import IntentCode.Proofs.Parser.Outcome
import IntentCode.Proofs.Parser.Recovery

/-!
# Reading a tree that has been written

The lines of a written tree are read in the order in which they were written, and the induction is
on the forest they were written from. Before the lines of some siblings the parser is `Ready` at
their level: it has read the rows so far, and the scope of the level can be reached. The line of a
node leaves it ready one level deeper, below the new row, and after the nodes there it is ready
again at the level, with the node as the last declaration of the scope. That is where the notes of
the node go.

What is complained about on the way is known too. No line is rejected and no note is left over, so
all that can be wrong with a written tree is a name that its scope has declared before, or a step that
announces a block and has none (`complaintsIn`).
-/

set_option autoImplicit false

namespace IntentCode.Parser

open Ast Lexer

/-! ## States between lines -/

/-- The parser has read some rows, and a line at a level goes to the given scope. When it arrives
there, the given complaints have been made. -/
structure Ready (level : Nat) (rows : List Row) (scope : Scope) (rest : List Scope)
    (complaints : List Complaint) (s : State) : Prop where
  reading : s.skipped = 0
  table : s.table.unnumbered = (Table.ofRows rows).unnumbered
  reach : ∃ inner, s.reach = inner ++ scope :: rest
  length : rest.length = level
  place : scope.At rows level
  pending : ∀ q ∈ s.reach, q.pending = []
  /-- A block that has been announced is missing only if the line is not deeper. -/
  reports : (s.findings ++ if level ≤ s.depth then State.missingBlock s.opener else []).map
    Finding.complaint = complaints

theorem Ready.initial : Ready 0 [] (.new 0 .root) [] [] .initial := by
  refine ⟨rfl, rfl, ⟨[], rfl⟩, rfl, ⟨rfl, rfl, rfl⟩, ?_, rfl⟩
  intro q hq
  obtain rfl := List.mem_singleton.mp hq
  rfl

/-- The row with some note lines added. -/
def Row.noted (r : Row) (notes : List (NoteKind × String)) : Row :=
  { r with body := r.body.mapNotes (notes.foldl fun n p => State.addNote p.1 p.2 n) }

theorem Row.noted_nil (r : Row) : Row.noted r [] = r := by
  obtain ⟨level, line, body⟩ := r
  cases body <;> rfl

theorem Row.noted_cons (r : Row) (p : NoteKind × String) (notes : List (NoteKind × String)) :
    Row.noted r (p :: notes) =
      Row.noted { r with body := r.body.mapNotes (State.addNote p.1 p.2) } notes := by
  obtain ⟨level, line, body⟩ := r
  cases body <;> rfl

/-- What scopes know is a matter of the bare rows. -/
theorem Scope.At.congr {rows rows' : List Row} {level : Nat} {scope : Scope}
    (h : scope.At rows level) (hrows : rows'.map Row.bare = rows.map Row.bare) :
    scope.At rows' level := by
  refine ⟨?_, ?_, ?_⟩
  · rw [h.uid, ← parentOf_map_bare rows, ← hrows, parentOf_map_bare]
  · rw [h.type, ← scopeType_map_bare rows, ← hrows, scopeType_map_bare]
  · rw [h.last, ← lastAt_map_bare rows, ← hrows, lastAt_map_bare]

theorem Scope.At.push_all {rows : List Row} {level : Nat} {scope : Scope} (h : scope.At rows level)
    {more : List Row} (hmore : ∀ r ∈ more, level < r.level) : scope.At (more ++ rows) level := by
  induction more with
  | nil => exact h
  | cons r more ih =>
    exact (ih fun q hq => hmore q (List.mem_cons_of_mem _ hq)).push (hmore r List.mem_cons_self)

/-- Scopes without notes report nothing. -/
theorem State.flatMap_pendingFindings {scopes : List Scope} (h : ∀ q ∈ scopes, q.pending = []) :
    scopes.flatMap pendingFindings = [] := by
  rw [List.flatMap_eq_nil_iff]
  intro q hq
  rw [pendingFindings, h q hq]
  rfl

/-- The parser has read some rows and stands in a scope. No notes wait there or further out. -/
structure Standing (rows : List Row) (scope : Scope) (rest : List Scope)
    (complaints : List Complaint) (s : State) : Prop where
  reading : s.skipped = 0
  table : s.table.unnumbered = (Table.ofRows rows).unnumbered
  scopes : s.scopes = scope :: rest
  pending : ∀ q ∈ scope :: rest, q.pending = []
  reports : s.findings.map Finding.complaint = complaints

namespace Standing

variable {level : Nat} {rows : List Row} {scope : Scope} {rest : List Scope}
  {complaints : List Complaint} {s : State}

theorem scope_eq (h : Standing rows scope rest complaints s) : s.scope = scope :=
  (List.cons.inj h.scopes).1

theorem outer_eq (h : Standing rows scope rest complaints s) : s.outer = rest :=
  (List.cons.inj h.scopes).2

theorem size_eq (h : Standing rows scope rest complaints s) : s.table.size = rows.length + 1 := by
  rw [← Table.size_unnumbered, h.table, Table.size_unnumbered, Table.size_ofRows]

theorem depth_eq (h : Standing rows scope rest complaints s) : s.depth = rest.length := by
  rw [State.depth, h.outer_eq, h.reading, Nat.add_zero]

theorem report (h : Standing rows scope rest complaints s) (more : List Complaint) (line : Nat)
    (content : String) :
    Standing rows scope rest (complaints ++ more) (s.reportAll more line content) where
  reading := h.reading
  table := h.table
  scopes := h.scopes
  pending := h.pending
  reports := by simp [State.reportAll, h.reports, Function.comp_def]

/-- A node is a new row, and the scope has it as its last child. -/
theorem add (h : Standing rows scope rest complaints s) (hplace : scope.At rows level) {r : Row}
    (hr : r.level = level) {node : LineNode} (hbody : r.body = node.body) (line : Nat)
    (tokens : List Token) :
    Standing (r :: rows) (scope.extended (rows.length + 1) node.body) rest
      (complaints ++ State.redeclaration scope node.body) (s.add node line tokens) where
  reading := by
    rw [State.add_eq]
    exact h.reading
  table := by
    have hnotes : (if node.body.isDeclaration then s.scope.pending else []) = [] := by
      rw [h.scope_eq, h.pending scope List.mem_cons_self, ite_self]
    rw [State.add_eq, hnotes]
    simp only [State.withNotes, List.foldl_nil]
    rw [State.unnumbered_push, h.table, h.scope_eq, hplace.uid, Table.ofRows,
      State.unnumbered_push, hr, hbody]
  scopes := by
    rw [State.add_eq]
    simp only [State.scopes, h.scope_eq, h.outer_eq, h.size_eq]
  pending := by
    intro q hq
    rcases List.mem_cons.mp hq with rfl | hq
    · simp only [Scope.extended, h.pending scope List.mem_cons_self, ite_self]
    · exact h.pending q (List.mem_cons_of_mem _ hq)
  reports := by
    rw [State.add_eq]
    simp [h.reports, h.scope_eq, Function.comp_def]

theorem attach (h : Standing rows scope rest complaints s) (uid : Nat) (kind : NoteKind)
    (text : String) :
    Standing (noteAt uid (State.addNote kind text) rows) scope rest complaints
      (s.attach uid kind text) where
  reading := h.reading
  table := by
    rw [State.attach_eq]
    simp only
    rw [State.unnumbered_modify _ _ fun n => rfl, h.table, ← State.unnumbered_modify _ _ fun n => rfl]
    exact congrArg Table.unnumbered (Table.modify_ofRows uid (State.addNote kind text) rows)
  scopes := h.scopes
  pending := h.pending
  reports := h.reports

/-- The next line may go to the scope, and what has been announced is missing then. -/
theorem ready (h : Standing rows scope rest complaints s) (hlength : rest.length = level)
    (hplace : scope.At rows level) :
    Ready level rows scope rest
      (complaints ++ (State.missingBlock s.opener).map Finding.complaint) s where
  reading := h.reading
  table := h.table
  reach := by
    rw [← h.scopes]
    exact (State.scopes_suffix_reach s).imp fun inner hinner => hinner.symm
  length := hlength
  place := hplace
  pending := by
    intro q hq
    unfold State.reach at hq
    rw [h.scopes] at hq
    split at hq
    · rcases List.mem_cons.mp hq with rfl | hq
      · rfl
      · exact h.pending q hq
    · exact h.pending q hq
  reports := by
    rw [h.depth_eq, if_pos (Nat.le_of_eq hlength.symm), List.map_append, h.reports]

/-- The next line may go to the scope that has been announced. -/
theorem ready_below (h : Standing rows scope rest complaints s) (hlength : rest.length = level)
    {uid : Nat} {type : NodeType} {explicit : Bool} {line : Nat} {content : String}
    (hopener : s.opener = .block uid type explicit line content)
    (hplace : (Scope.new uid type).At rows (level + 1)) :
    Ready (level + 1) rows (.new uid type) (scope :: rest) complaints s where
  reading := h.reading
  table := h.table
  reach := ⟨[], by simp [State.reach, hopener, h.scopes]⟩
  length := by rw [List.length_cons, hlength]
  place := hplace
  pending := by
    intro q hq
    simp only [State.reach, hopener, h.scopes] at hq
    rcases List.mem_cons.mp hq with rfl | hq
    · rfl
    · exact h.pending q hq
  reports := by
    rw [h.depth_eq, if_neg (by omega), List.append_nil, h.reports]

end Standing

namespace Ready

variable {level : Nat} {rows : List Row} {scope : Scope} {rest : List Scope}
  {complaints : List Complaint} {s : State}

theorem pending_scopes (h : Ready level rows scope rest complaints s) :
    ∀ q ∈ scope :: rest, q.pending = [] := by
  obtain ⟨inner, hreach⟩ := h.reach
  intro q hq
  refine h.pending q ?_
  rw [hreach]
  exact List.mem_append_right _ hq

/-- The layout before a line at the level reports what has been announced and is missing. -/
theorem complaints_arrive (h : Ready level rows scope rest complaints s) {l : LogicalLine}
    (hl : l.level = level) {s' : State} (ha : State.Arrives s l s') (hs' : s'.skipped = 0) :
    s'.findings.map Finding.complaint = complaints := by
  have hreports := h.reports
  rw [← hl] at hreports
  cases ha with
  | further level' skipping => exact absurd hs' (Nat.succ_ne_zero _)
  | opened uid type explicit line content level' reading opener =>
    rw [if_neg (by omega), List.append_nil] at hreports
    exact hreports
  | dropped level' reading opener => exact absurd hs' (Nat.succ_ne_zero _)
  | unexpected level' reading opener => exact absurd hs' (Nat.succ_ne_zero _)
  | back level' =>
    rw [if_pos level'] at hreports
    have hnone : (s.scopes.take (s.outer.length - l.level)).flatMap State.pendingFindings = [] := by
      apply State.flatMap_pendingFindings
      intro q hq
      exact h.pending q (s.scopes_suffix_reach.subset (List.mem_of_mem_take hq))
    show (s.findings ++ State.missingBlock s.opener ++
      (s.scopes.take (s.outer.length - l.level)).flatMap State.pendingFindings).map _ = complaints
    rw [hnone, List.append_nil]
    exact hreports

/-- A line at the level arrives in the scope. -/
theorem arrive (h : Ready level rows scope rest complaints s) {l : LogicalLine}
    (hl : l.level = level) :
    l.level ≤ s.depth + 1 ∧ Standing rows scope rest complaints (s.arrive l) ∧
      (s.arrive l).opener = .none := by
  obtain ⟨inner, hreach⟩ := h.reach
  have hlength := h.length
  have hlt : l.level < s.reach.length := by
    rw [hreach, List.length_append, List.length_cons]
    omega
  have hle := State.level_le_of_reach hlt
  obtain ⟨ha, -⟩ := State.read_cases hle
  have hskipped := ha.reading_of_reach h.reading hlt
  obtain ⟨-, hlen, hopener⟩ := ha.reading hskipped
  have hsuffix := ha.reach_suffix
  rw [State.reach_of_opener (by simp [hopener]), hreach] at hsuffix
  have hown : scope :: rest <:+ inner ++ scope :: rest := List.suffix_append _ _
  have hlength' : (s.arrive l).scopes.length = (scope :: rest).length := by
    rw [List.length_cons]
    omega
  have hscopes : (s.arrive l).scopes = scope :: rest :=
    (List.suffix_of_suffix_length_le hsuffix hown (Nat.le_of_eq hlength')).eq_of_length hlength'
  have htable : (s.arrive l).table = s.table := State.table_move _ _ _
  exact ⟨hle, ⟨hskipped, by rw [htable, h.table], hscopes, h.pending_scopes,
    h.complaints_arrive hl ha hskipped⟩, hopener⟩

/-- **The line of a node adds its row**, and leaves the parser ready below it, if a block may stand
there. If no block follows, that is one more complaint where it was announced. -/
theorem node (h : Ready level rows scope rest complaints s) {l : LogicalLine} (hl : l.level = level)
    {node : LineNode} (ne : l.tokens ≠ []) (meaning : Reading.ofTokens l.tokens = .node node)
    {r : Row} (hr : r.level = level) (hbody : r.body = node.body)
    (allowed : (allowedAt rows level).allows node.body.type = true) :
    Ready level (r :: rows) (scope.extended (rows.length + 1) node.body) rest
        (complaints ++ (node.repeated ++ State.redeclaration scope node.body) ++
          if node.explicit then [.expectedBlock] else []) (s.read l) ∧
      (node.body.opensBlock = true →
        Ready (level + 1) (r :: rows) (.new (rows.length + 1) node.body.type)
          (scope.extended (rows.length + 1) node.body :: rest)
          (complaints ++ (node.repeated ++ State.redeclaration scope node.body)) (s.read l)) := by
  obtain ⟨hle, hstanding, hnone⟩ := h.arrive hl
  obtain ⟨-, ht⟩ := State.read_cases hle
  have hallows : (s.arrive l).scope.allowed.allows node.body.type = true := by
    rw [hstanding.scope_eq, h.place.allowed_eq]
    exact allowed
  rw [ht.unique (.added node ne hstanding.reading meaning hallows)]
  have hreported := hstanding.report node.repeated l.number (Token.render l.tokens)
  have hopener := State.opener_add (s := (s.arrive l).reportAll node.repeated l.number
    (Token.render l.tokens)) hnone node l.number l.tokens
  rw [hreported.size_eq] at hopener
  have hadded := hreported.add h.place hr hbody l.number l.tokens
  rw [List.append_assoc] at hadded
  constructor
  · have hmissing : (State.missingBlock (State.add ((s.arrive l).reportAll node.repeated l.number
        (Token.render l.tokens)) node l.number l.tokens).opener).map Finding.complaint =
          if node.explicit then [.expectedBlock] else [] := by
      rw [hopener, LineNode.acceptsBlock]
      cases node.explicit with
      | true => rfl
      | false => simp only [Bool.false_or, Bool.false_eq_true, if_false]; split <;> rfl
    rw [← hmissing]
    exact hadded.ready h.length (h.place.extended hr _ (by rw [hbody]))
  · -- the scope that is announced is that of the new row
    intro hopens
    rw [acceptsBlock_eq (declares_of_ofTokens meaning), hopens, if_pos rfl] at hopener
    refine hadded.ready_below h.length hopener ⟨?_, ?_, ?_⟩
    · rw [parentOf, if_pos hr]
      rfl
    · rw [scopeType, if_pos hr, hbody]
      rfl
    · rw [lastAt, if_pos (by omega)]
      rfl

/-- **A note line goes to the last declaration of the scope.** -/
theorem note (h : Ready level rows scope rest complaints s) {l : LogicalLine} (hl : l.level = level)
    (ne : l.tokens ≠ []) {kind : NoteKind} {text : String}
    (meaning : Reading.ofTokens l.tokens = .note kind text) {uid : Nat}
    (hd : scope.lastDecl = some uid) :
    Ready level (noteAt uid (State.addNote kind text) rows) scope rest complaints (s.read l) := by
  obtain ⟨hle, hstanding, hnone⟩ := h.arrive hl
  obtain ⟨-, ht⟩ := State.read_cases hle
  have hnote : (s.arrive l).note kind text l.number (Token.render l.tokens) =
      (s.arrive l).attach uid kind text := by
    unfold State.note
    rw [hstanding.scope_eq, hd]
  rw [ht.unique (.noted kind text ne hstanding.reading meaning), hnote]
  have hready := (hstanding.attach uid kind text).ready h.length
    (h.place.congr (map_bare_noteAt _ _ _))
  have hsilent : State.missingBlock ((s.arrive l).attach uid kind text).opener = [] :=
    congrArg State.missingBlock hnone
  rw [hsilent, List.map_nil, List.append_nil] at hready
  exact hready

/-- Back from the nodes below. -/
theorem back {below : Scope} {more : List Row}
    (h : Ready (level + 1) (more ++ rows) below (scope :: rest) complaints s)
    (hdepth : level < s.depth) (hplace : scope.At rows level)
    (hmore : ∀ r ∈ more, level < r.level) :
    Ready level (more ++ rows) scope rest complaints s := by
  obtain ⟨inner, hreach⟩ := h.reach
  have hlength := h.length
  rw [List.length_cons] at hlength
  have hreports := h.reports
  rw [if_pos (by omega)] at hreports
  refine ⟨h.reading, h.table, ⟨inner ++ [below], by simp [hreach]⟩, by omega,
    hplace.push_all hmore, h.pending, ?_⟩
  rw [if_pos (by omega)]
  exact hreports

/-- The notes of a node, one after the other. -/
theorem notes {after before : List Row} {r : Row} {notes : List (NoteKind × String)}
    (h : Ready level (after ++ r :: before) scope rest complaints s)
    (hd : notes ≠ [] → scope.lastDecl = some (before.length + 1))
    (hnotes : ∀ p ∈ notes, IsNote p.1 p.2 ∧ Text.isBlankString p.2 = false)
    {ls : List LogicalLine}
    (hls : ls.map (fun l => (l.level, l.text)) =
      notes.map fun p => (level, marker p.1 ++ p.2)) :
    Climbs s.depth ls ∧
      Ready level (after ++ Row.noted r notes :: before) scope rest complaints (readAll s ls) := by
  induction notes generalizing r s ls with
  | nil =>
    obtain rfl : ls = [] := by simpa using hls
    rw [Row.noted_nil]
    exact ⟨trivial, h⟩
  | cons p notes ih =>
    obtain ⟨l, ls, rfl, hl, hls⟩ := List.map_eq_cons_iff.mp hls
    simp only [Prod.mk.injEq] at hl
    obtain ⟨hlevel, htext⟩ := hl
    obtain ⟨hnote, hblank⟩ := hnotes p List.mem_cons_self
    obtain ⟨ts, hscan, hne, hmeaning⟩ := reads_note hnote hblank l.number l.raw
    have htokens : l.tokens = ts := by
      unfold LogicalLine.tokens
      rw [htext, hscan]
    have hread := h.note hlevel (htokens ▸ hne) (htokens ▸ hmeaning) (hd (by simp))
    rw [noteAt_append] at hread
    obtain ⟨hclimbs, hrest⟩ := ih hread (fun _ => hd (by simp))
      (fun q hq => hnotes q (List.mem_cons_of_mem _ hq)) hls
    have hle := (h.arrive hlevel).1
    rw [State.depth_read hle] at hclimbs
    rw [Row.noted_cons]
    exact ⟨⟨hle, hclimbs⟩, hrest⟩

/-- The end of the stream reports what has been announced and is missing, and nothing else. -/
theorem complaints_finish (h : Ready 0 rows scope rest complaints s) {levels : Nat}
    (hl : levels ≤ s.depth) :
    (s.finish (.back levels)).findings.map Finding.complaint = complaints := by
  have hscopes : ∀ q ∈ s.scopes, q.pending = [] := fun q hq =>
    h.pending q (s.scopes_suffix_reach.subset hq)
  have hreports := h.reports
  rw [if_pos (Nat.zero_le _)] at hreports
  rw [State.findings_finish_back hl, State.flatMap_pendingFindings hscopes, List.append_nil]
  exact hreports

end Ready

theorem climbs_readAll {s : State} {ls ms : List LogicalLine} (h : Climbs s.depth ls)
    (h' : Climbs (readAll s ls).depth ms) : Climbs s.depth (ls ++ ms) := by
  rw [depth_readAll h] at h'
  exact climbs_append.mpr ⟨h, h'⟩

/-! ## Forests -/

/-- The level and the text of a line. -/
def shape (l : LogicalLine) : Nat × String := (l.level, l.text)

/-- The rows of a forest, the latest first. -/
def rowsOf (level : Nat) (f : Forest) : List Row := ((f.numbered level).map Prod.snd).reverse

theorem rowsOf_cons (level : Nat) (n : Node) (below beside : Forest) :
    rowsOf level (.cons n below beside) =
      rowsOf level beside ++ (rowsOf (level + 1) below ++ [⟨level, n.line, n.body⟩]) := by
  simp [rowsOf, Forest.numbered]

/-- No line of a forest stands above its level. -/
theorem le_level_lines {f : Forest} {level : Nat} : ∀ l ∈ Format.lines level f, level ≤ l.level := by
  induction f generalizing level with
  | nil => exact fun l hl => by cases hl
  | cons n below beside ihb ihs =>
    have hnotes : ∀ l ∈ Format.notesOf level n.body, level ≤ l.level := by
      intro l hl
      unfold Format.notesOf Format.noteLines at hl
      split at hl
      · rcases List.mem_append.mp hl with hl | hl
        · obtain ⟨text, -, rfl⟩ := List.mem_map.mp hl
          exact Nat.le_refl _
        · obtain ⟨text, -, rfl⟩ := List.mem_map.mp hl
          exact Nat.le_refl _
      · cases hl
    intro l hl
    rw [Format.lines] at hl
    rcases List.mem_append.mp hl with hl | hl
    · rcases List.mem_append.mp hl with hl | hl
      · rcases List.mem_cons.mp hl with rfl | hl
        · exact Nat.le_refl _
        · exact Nat.le_of_succ_le (ihb l hl)
      · exact hnotes l hl
    · exact ihs l hl

/-- After lines that stand at a level or deeper, the parser is at least as deep. -/
theorem le_depth_readAll {s : State} {ls : List LogicalLine} {level : Nat}
    (hclimbs : Climbs s.depth ls) (hne : ls ≠ []) (h : ∀ l ∈ ls, level ≤ l.level) :
    level ≤ (readAll s ls).depth := by
  rw [depth_readAll hclimbs, LogicalLine.lastLevel, List.getLast?_eq_some_getLast hne]
  exact h _ (List.getLast_mem hne)

/-! ## Complaints about a forest -/

theorem State.redeclaration_bare (scope : Scope) (b : Body) :
    redeclaration scope b.bare = redeclaration scope b := by
  simp only [redeclaration, Body.declaredName?_bare, Body.type_bare]

/-- What is complained about when the lines of some siblings are read: names that are declared again,
and blocks that are announced and missing. -/
def complaintsIn (scope : Scope) : Forest → List Complaint
  | .nil => []
  | .cons n below beside =>
    State.redeclaration scope n.body ++
      (if below = .nil ∧ announces n = true then [.expectedBlock] else []) ++
      complaintsIn (.new n.uid n.type) below ++ complaintsIn (scope.extended n.uid n.body) beside

/-- Only the names that the scope has declared matter. -/
theorem complaintsIn_congr {scope scope' : Scope} (h : scope.declared = scope'.declared)
    (f : Forest) : complaintsIn scope f = complaintsIn scope' f := by
  induction f generalizing scope scope' with
  | nil => rfl
  | cons n below beside ihb ihs =>
    have hextended : (scope.extended n.uid n.body).declared =
        (scope'.extended n.uid n.body).declared := by
      simp only [Scope.extended, h]
    rw [complaintsIn, complaintsIn, ihs hextended, State.redeclaration, State.redeclaration, h]

/-- A node without nodes below it. -/
theorem complaintsIn_leaf (scope : Scope) (n : Node) :
    complaintsIn scope (.cons n .nil .nil) =
      State.redeclaration scope n.body ++ if announces n then [.expectedBlock] else [] := by
  simp only [complaintsIn, true_and, List.append_nil]

/-- A node with nodes below it. Under which number the scope below stands does not matter. -/
theorem complaintsIn_below (scope : Scope) (n : Node) {below : Forest} (h : below ≠ .nil)
    (uid : Nat) :
    complaintsIn scope (.cons n below .nil) =
      State.redeclaration scope n.body ++ complaintsIn (.new uid n.body.bare.type) below := by
  have hscopes : complaintsIn (.new n.uid n.type) below =
      complaintsIn (.new uid n.body.bare.type) below := complaintsIn_congr (by rfl) below
  rw [complaintsIn, if_neg fun hleaf => h hleaf.1, List.append_nil, complaintsIn, List.append_nil,
    hscopes]

/-! ## Nodes and forests -/

/-- Wherever the parser is ready for siblings of a level, the lines of a forest give the rows of the
forest, and its complaints. -/
def Rereads (level : Nat) (f : Forest) : Prop :=
  ∀ {rows : List Row} {scope : Scope} {rest : List Scope} {complaints : List Complaint} {s : State}
    {ls : List LogicalLine}, Ready level rows scope rest complaints s →
    Lawful (rowsOf level f ++ rows) →
    ls.map shape = (Format.lines level f).map (fun l => (l.level, l.text)) →
    Climbs s.depth ls ∧ ∃ scope',
      Ready level (rowsOf level f ++ rows) scope' rest (complaints ++ complaintsIn scope f)
        (readAll s ls)

/-- After the lines of some siblings the parser is at least as deep as they are. -/
theorem le_depth_of_lines {f : Forest} {level : Nat} {s : State} {ls : List LogicalLine}
    (hf : f ≠ .nil) (hclimbs : Climbs s.depth ls)
    (hls : ls.map shape = (Format.lines level f).map fun l => (l.level, l.text)) :
    level ≤ (readAll s ls).depth := by
  apply le_depth_readAll hclimbs
  · rintro rfl
    cases f with
    | nil => exact hf rfl
    | cons => cases hls
  · intro m hm
    have hshape := List.mem_map_of_mem (f := shape) hm
    rw [hls] at hshape
    obtain ⟨k, hk, hkm⟩ := List.mem_map.mp hshape
    have hlevels := congrArg Prod.fst hkm
    exact (le_level_lines k hk).trans (Nat.le_of_eq hlevels)

/-- A row with rows below it may have a block. -/
theorem opensBlock_of_below {below : Forest} (hne : below ≠ .nil) {level : Nat} {r : Row}
    {rows : List Row} (hr : r.level = level)
    (hlaw : Lawful (rowsOf (level + 1) below ++ r :: rows)) : r.body.opensBlock = true := by
  cases below with
  | nil => exact absurd rfl hne
  | cons c under beside =>
    rw [rowsOf_cons, List.append_assoc, List.append_assoc, List.singleton_append] at hlaw
    obtain ⟨p, hp, hopens⟩ := hlaw.of_append.of_append.2.2.1 level (Nat.lt_succ_self level)
    rw [List.find?_cons_of_pos (by simp [hr]), Option.some.injEq] at hp
    rwa [hp]

namespace Ready

variable {n : Node} {below : Forest} {level : Nat} {rows : List Row} {scope : Scope}
  {rest : List Scope} {complaints : List Complaint} {s : State}

/-- The own line of a node, without its notes. -/
theorem header (h : Ready level rows scope rest complaints s) {l : LogicalLine}
    (hl : shape l = (level, Format.header n)) (hlegal : Legal n.body)
    (hfree : n.type = .step → Free (Format.header n).toList)
    (allowed : (allowedAt rows level).allows n.body.type = true) :
    Ready level (⟨level, n.line, n.body.bare⟩ :: rows)
        (scope.extended (rows.length + 1) n.body.bare) rest
        (complaints ++ complaintsIn scope (.cons n .nil .nil)) (s.read l) ∧
      (n.body.opensBlock = true →
        Ready (level + 1) (⟨level, n.line, n.body.bare⟩ :: rows)
          (.new (rows.length + 1) n.body.bare.type)
          (scope.extended (rows.length + 1) n.body.bare :: rest)
          (complaints ++ State.redeclaration scope n.body) (s.read l)) := by
  obtain ⟨hlevel, htext⟩ := Prod.mk.inj hl
  obtain ⟨ts, hscan, hne, hmeaning⟩ := reads_header hlegal
    (fun t ht => hfree (by rw [Node.type, ht]; rfl)) l.number l.raw
  have htokens : l.tokens = ts := by
    unfold LogicalLine.tokens
    rw [htext, hscan]
  have hallowed : (allowedAt rows level).allows (lineOf n).body.type = true := by
    rw [lineOf, Body.type_bare]
    exact allowed
  have hbare : State.redeclaration scope (lineOf n).body = State.redeclaration scope n.body :=
    State.redeclaration_bare scope n.body
  obtain ⟨hready, hblock⟩ := h.node (r := ⟨level, n.line, n.body.bare⟩) hlevel
    (htokens ▸ hne) (htokens ▸ hmeaning) rfl rfl hallowed
  rw [hbare] at hready hblock
  rw [complaintsIn_leaf, ← List.append_assoc]
  exact ⟨hready, fun hopens => hblock ((Body.opensBlock_bare n.body).trans hopens)⟩

/-- The nodes below a node come between its own line and its notes. -/
theorem tree_below (h : Ready level rows scope rest complaints s) {l : LogicalLine}
    (hl : shape l = (level, Format.header n)) (hlegal : Legal n.body)
    (hfree : n.type = .step → Free (Format.header n).toList)
    (hlaw : Lawful (rowsOf (level + 1) below ++ ⟨level, n.line, n.body⟩ :: rows))
    (hbelow : Rereads (level + 1) below) {ls : List LogicalLine}
    (hls : ls.map shape = (Format.lines (level + 1) below).map fun l => (l.level, l.text)) :
    Climbs (s.read l).depth ls ∧
      Ready level (rowsOf (level + 1) below ++ ⟨level, n.line, n.body.bare⟩ :: rows)
        (scope.extended (rows.length + 1) n.body.bare) rest
        (complaints ++ complaintsIn scope (.cons n below .nil)) (readAll (s.read l) ls) := by
  obtain ⟨hready, hblock⟩ := h.header hl hlegal hfree hlaw.of_append.2.1
  by_cases hne : below = .nil
  · subst hne
    obtain rfl : ls = [] := by simpa [Format.lines] using hls
    exact ⟨trivial, hready⟩
  · have hbare : Lawful (rowsOf (level + 1) below ++ ⟨level, n.line, n.body.bare⟩ :: rows) := by
      rw [← lawful_map_bare] at hlaw ⊢
      simpa [Row.bare] using hlaw
    have hopens : n.body.opensBlock = true :=
      opensBlock_of_below (r := ⟨level, n.line, n.body⟩) hne rfl hlaw
    obtain ⟨hclimbs, scope', hunder⟩ := hbelow (hblock hopens) hbare hls
    have hdeeper : ∀ r ∈ rowsOf (level + 1) below, level < r.level := by
      intro r hr
      obtain ⟨e, he, rfl⟩ := List.mem_map.mp (List.mem_reverse.mp hr)
      exact Forest.level_numbered e he
    rw [complaintsIn_below scope n hne (rows.length + 1), ← List.append_assoc]
    exact ⟨hclimbs, hunder.back (le_depth_of_lines hne hclimbs hls) hready.place hdeeper⟩

/-- **The lines of a node**: its own line, those of the nodes below, and its notes. -/
theorem tree (h : Ready level rows scope rest complaints s)
    (hlaw : Lawful (rowsOf (level + 1) below ++ ⟨level, n.line, n.body⟩ :: rows))
    (hw : Writable n.body) (hfree : n.type = .step → Free (Format.header n).toList)
    (hbelow : Rereads (level + 1) below) {ls : List LogicalLine}
    (hls : ls.map shape =
      (Format.lines level (.cons n below .nil)).map fun l => (l.level, l.text)) :
    Climbs s.depth ls ∧
      Ready level (rowsOf (level + 1) below ++ ⟨level, n.line, n.body⟩ :: rows)
        (scope.extended (rows.length + 1) n.body.bare) rest
        (complaints ++ complaintsIn scope (.cons n below .nil)) (readAll s ls) := by
  simp only [Format.lines, List.append_nil, List.map_append, List.map_cons,
    List.cons_append] at hls
  obtain ⟨l, more, rfl, hl, hmore⟩ := List.map_eq_cons_iff.mp hls
  obtain ⟨inside, after, rfl, hinside, hafter⟩ := List.map_eq_append_iff.mp hmore
  obtain ⟨hclimbs, hready⟩ := h.tree_below hl hw.legal hfree hlaw hbelow hinside
  obtain ⟨remarks, heach, hfold, hlines, hisDecl⟩ := hw.remarks
  have hdecl : remarks ≠ [] →
      (scope.extended (rows.length + 1) n.body.bare).lastDecl = some (rows.length + 1) := by
    intro hr
    have hd : n.body.bare.isDeclaration = true := by
      rw [Body.isDeclaration, Body.type_bare]
      exact hisDecl hr
    simp [Scope.extended, hd]
  rw [hlines, List.map_map] at hafter
  obtain ⟨hclimbs', hnoted⟩ := hready.notes hdecl heach hafter
  have hrow : Row.noted ⟨level, n.line, n.body.bare⟩ remarks = ⟨level, n.line, n.body⟩ := by
    simp only [Row.noted, hfold]
  rw [hrow] at hnoted
  have hall : readAll s (l :: (inside ++ after)) = readAll (readAll (s.read l) inside) after :=
    readAll_append (s.read l) inside after
  have hle := (h.arrive (congrArg Prod.fst hl)).1
  refine ⟨⟨hle, ?_⟩, by rw [hall]; exact hnoted⟩
  have hlevel : l.level = level := congrArg Prod.fst hl
  rw [← State.depth_read hle]
  exact climbs_readAll hclimbs hclimbs'

end Ready

/-- **Written siblings are read again**, with everything below them. -/
theorem rereads {f : Forest} (hw : ∀ n ∈ f.nodes, Writable n.body)
    (hfree : ∀ n ∈ f.nodes, n.type = .step → Free (Format.header n).toList) (level : Nat) :
    Rereads level f := by
  intro rows scope rest complaints s ls h hlaw hls
  induction f generalizing level rows scope rest complaints s ls with
  | nil =>
    obtain rfl : ls = [] := by simpa [Format.lines] using hls
    refine ⟨trivial, scope, ?_⟩
    rw [complaintsIn, List.append_nil]
    exact h
  | cons n below beside ihb ihs =>
    have hmem : ∀ m, m = n ∨ m ∈ below.nodes ∨ m ∈ beside.nodes →
        m ∈ (Forest.cons n below beside).nodes := by
      intro m hm
      simpa [Forest.nodes, or_assoc] using hm
    rw [Format.lines_cons, List.map_append] at hls
    obtain ⟨tree, after, rfl, htree, hafter⟩ := List.map_eq_append_iff.mp hls
    rw [rowsOf_cons, List.append_assoc, List.append_assoc, List.singleton_append] at hlaw ⊢
    have hwb : ∀ m ∈ below.nodes, Writable m.body := fun m hm => hw m (hmem m (.inr (.inl hm)))
    have hfreeb : ∀ m ∈ below.nodes, m.type = .step → Free (Format.header m).toList :=
      fun m hm => hfree m (hmem m (.inr (.inl hm)))
    have hwn : Writable n.body := hw n (hmem n (.inl rfl))
    have hfreen : n.type = .step → Free (Format.header n).toList := hfree n (hmem n (.inl rfl))
    have hbelow : Rereads (level + 1) below := fun hr hl hm => ihb hwb hfreeb _ hr hl hm
    obtain ⟨hclimbs, hready⟩ := h.tree hlaw.of_append hwn hfreen hbelow htree
    obtain ⟨hclimbs', scope₂, hready'⟩ := ihs (fun m hm => hw m (hmem m (.inr (.inr hm))))
      (fun m hm => hfree m (hmem m (.inr (.inr hm)))) level hready hlaw hafter
    have hcomplaints : complaintsIn scope (.cons n below beside) =
        complaintsIn scope (.cons n below .nil) ++
          complaintsIn (scope.extended (rows.length + 1) n.body.bare) beside := by
      have hdeclared : (scope.extended n.uid n.body).declared =
          (scope.extended (rows.length + 1) n.body.bare).declared := by
        simp only [Scope.extended, Body.declaredName?_bare]
      rw [complaintsIn, complaintsIn, complaintsIn_congr hdeclared beside, complaintsIn,
        List.append_nil]
    rw [readAll_append, hcomplaints, ← List.append_assoc complaints]
    exact ⟨climbs_readAll hclimbs hclimbs', scope₂, hready'⟩

end IntentCode.Parser
