import IntentCode.Proofs.Ast.Rows
import IntentCode.Proofs.Parser.Header

/-!
# How lines become rows

Reading lines adds rows to the tree, at most one for each line, and a row stands at the level of
its line. `Built` is the history of that: which line gave which row, what the row hangs from, and
that the grammar allowed it there. Every fact about the tree of a source is an induction over that
history, without the parser.

The invariant behind it (`Reflects`) says that an open scope knows its place: the scope at a level is
that of the row from which the next row of that level would hang, and the line of that row is
the latest line one level up, whether other lines have been rejected or skipped since or not. For
that the announcement of a block must be fresh. It is: only the line before can have made it
(`Announced`), and moving to any line but the first of the block withdraws it.
-/

set_option autoImplicit false

namespace IntentCode.Parser

open Ast

/-! ## The history of a tree -/

/-- The latest line at a level gave the latest row there, and a block may stand below it. -/
def HangsFrom (past : List LogicalLine) (rows : List Row) (level : Nat) : Prop :=
  ∃ l r, past.find? (fun l => l.level = level) = some l ∧
    rows.find? (fun r => r.level = level) = some r ∧ r.line = l.number ∧
    r.body.opensBlock = true

/-- The rows that lines have given, without notes. Of both the latest comes first. -/
inductive Built : List LogicalLine → List Row → Prop
  | nil : Built [] []
  /-- A line that gave no row. -/
  | line {past : List LogicalLine} {rows : List Row} (l : LogicalLine) (built : Built past rows) :
    Built (l :: past) rows
  | row {past : List LogicalLine} {rows : List Row} (l : LogicalLine) (node : LineNode)
    (built : Built past rows) (ne : l.tokens ≠ [])
    (meaning : Reading.ofTokens l.tokens = .node node)
    (climbs : l.level ≤ topLevel rows)
    (allowed : (allowedAt rows l.level).allows node.body.type = true)
    (hangs : ∀ k < l.level, HangsFrom past rows k) :
    Built (l :: past) (⟨l.level, l.number, node.body.bare⟩ :: rows)

theorem Built.lawful {past : List LogicalLine} {rows : List Row} (h : Built past rows) :
    Lawful rows := by
  induction h with
  | nil => trivial
  | line l built ih => exact ih
  | row l node built ne meaning climbs allowed hangs ih =>
    refine ⟨climbs, by simpa using allowed, ?_, ih⟩
    intro level hlt
    obtain ⟨p, r, -, hr, -, hopens⟩ := hangs level hlt
    exact ⟨r, hr, hopens⟩

theorem Built.climbing {past : List LogicalLine} {rows : List Row} (h : Built past rows) :
    Climbing rows := h.lawful.climbing

/-- Each row goes back to a line, and the rows before it to the lines before. -/
theorem Built.split {past : List LogicalLine} {after before : List Row} {r : Row}
    (h : Built past (after ++ r :: before)) :
    ∃ newer l older node, past = newer ++ l :: older ∧ Built older before ∧ l.tokens ≠ [] ∧
      Reading.ofTokens l.tokens = .node node ∧ r = ⟨l.level, l.number, node.body.bare⟩ ∧
      (allowedAt before l.level).allows node.body.type = true ∧
      ∀ k < l.level, HangsFrom older before k := by
  generalize hrows : after ++ r :: before = rows at h
  induction h generalizing after with
  | nil => simp at hrows
  | line l built ih =>
    obtain ⟨newer, l', older, node, rfl, hrest⟩ := ih hrows
    exact ⟨l :: newer, l', older, node, rfl, hrest⟩
  | row l node built ne meaning climbs allowed hangs ih =>
    cases after with
    | nil =>
      simp only [List.nil_append, List.cons.injEq] at hrows
      obtain ⟨rfl, rfl⟩ := hrows
      exact ⟨[], l, _, node, rfl, built, ne, meaning, rfl, allowed, hangs⟩
    | cons a after =>
      simp only [List.cons_append, List.cons.injEq] at hrows
      obtain ⟨newer, l', older, node', rfl, hrest⟩ := ih hrows.2
      exact ⟨l :: newer, l', older, node', rfl, hrest⟩

/-- A line deeper than a level is not one that rows of the next level hang from. -/
theorem HangsFrom.pass {past : List LogicalLine} {rows : List Row} {level : Nat}
    (h : HangsFrom past rows level) {l : LogicalLine} (hl : level < l.level) :
    HangsFrom (l :: past) rows level := by
  obtain ⟨p, r, hp, hr, hline, hopens⟩ := h
  exact ⟨p, r, by rw [List.find?_cons_of_neg (by simp; omega), hp], hr, hline, hopens⟩

theorem HangsFrom.push {past : List LogicalLine} {rows : List Row} {level : Nat}
    (h : HangsFrom past rows level) {r : Row} (hr : level < r.level) :
    HangsFrom past (r :: rows) level := by
  obtain ⟨p, q, hp, hq, hline, hopens⟩ := h
  exact ⟨p, q, hp, by rw [List.find?_cons_of_neg (by simp; omega), hq], hline, hopens⟩

/-! ## Tables -/

/-- The tree of some rows, with whatever notes. -/
def TableOf (rows : List Row) (t : Table) : Prop :=
  ∃ full : List Row, full.map Row.bare = rows ∧ t = .ofRows full

namespace TableOf

variable {rows : List Row} {t : Table}

theorem size_eq (h : TableOf rows t) : t.size = rows.length + 1 := by
  obtain ⟨full, rfl, rfl⟩ := h
  simp

theorem modify (h : TableOf rows t) (uid : Nat) (kind : NoteKind) (text : String) :
    TableOf rows (t.modify uid (State.noted kind text)) := by
  obtain ⟨full, rfl, rfl⟩ := h
  exact ⟨_, map_bare_noteAt uid (State.addNote kind text) full, Table.modify_ofRows _ _ _⟩

theorem withNotes (h : TableOf rows t) (uid : Nat) (notes : List PendingNote) :
    TableOf rows (State.withNotes t uid notes) := by
  unfold State.withNotes
  induction notes generalizing t with
  | nil => exact h
  | cons p ps ih => exact ih (h.modify uid p.kind p.text)

theorem push (h : TableOf rows t) (level line : Nat) (body : Body) :
    TableOf (⟨level, line, body.bare⟩ :: rows) (t.push (parentOf rows level) line body) := by
  obtain ⟨full, rfl, rfl⟩ := h
  refine ⟨⟨level, line, body⟩ :: full, rfl, ?_⟩
  rw [Table.ofRows, parentOf_map_bare]

end TableOf

/-! ## Scopes -/

/-- What an open scope knows about the rows. -/
structure Scope.At (rows : List Row) (level : Nat) (scope : Scope) : Prop where
  uid : scope.uid = parentOf rows level
  type : scope.type = scopeType rows level
  last : scope.last = lastAt rows level

theorem Scope.At.allowed_eq {rows : List Row} {level : Nat} {scope : Scope}
    (h : scope.At rows level) : scope.allowed = allowedAt rows level := by
  have hlast := h.last
  have htype := h.type
  unfold Scope.allowed allowedAt
  cases hl : lastAt rows level with
  | none => simp only [hlast, htype, hl]
  | some previous => simp only [hlast, htype, hl]

/-- The scopes are open at the levels from the top level on; the innermost comes first. -/
def ScopesAt (rows : List Row) : List Scope → Prop
  | [] => True
  | scope :: rest => scope.At rows rest.length ∧ ScopesAt rows rest

theorem ScopesAt.drop {rows : List Row} {scopes : List Scope} (h : ScopesAt rows scopes)
    (count : Nat) : ScopesAt rows (scopes.drop count) := by
  induction count generalizing scopes with
  | zero => exact h
  | succ count ih =>
    cases scopes with
    | nil => exact h
    | cons scope rest => exact ih h.2

/-- A row changes nothing for the scopes further out. -/
theorem Scope.At.push {rows : List Row} {level : Nat} {scope : Scope} (h : scope.At rows level)
    {r : Row} (hr : level < r.level) : scope.At (r :: rows) level := by
  refine ⟨?_, ?_, ?_⟩
  · rw [h.uid, parentOf_cons_of_le (by omega)]
  · rw [h.type, scopeType_cons_of_le (by omega)]
  · rw [h.last, lastAt, if_neg (by omega), if_neg (by omega)]

/-- In its own scope a row is the last child. -/
theorem Scope.At.extended {rows : List Row} {level : Nat} {scope : Scope} (h : scope.At rows level)
    {r : Row} (hr : r.level = level) (uid : Nat) {body : Body} (ht : r.body.type = body.type) :
    (scope.extended uid body).At (r :: rows) level := by
  refine ⟨?_, ?_, ?_⟩
  · rw [parentOf_cons_of_le (by omega)]
    exact h.uid
  · rw [scopeType_cons_of_le (by omega)]
    exact h.type
  · rw [lastAt, if_neg (by omega), if_pos hr, ht]
    rfl

theorem ScopesAt.push {rows : List Row} {scopes : List Scope} (h : ScopesAt rows scopes)
    {r : Row} (hr : scopes.length ≤ r.level) : ScopesAt (r :: rows) scopes := by
  induction scopes with
  | nil => trivial
  | cons scope rest ih =>
    rw [List.length_cons] at hr
    exact ⟨h.1.push (by omega), ih h.2 (by omega)⟩

/-! ## The invariant -/

/-- What the state shows is what the lines have given. -/
structure Reflects (past : List LogicalLine) (rows : List Row) (s : State) : Prop where
  table : TableOf rows s.table
  built : Built past rows
  scopes : ScopesAt rows s.scopes
  climbs : s.outer.length ≤ topLevel rows
  hangs : ∀ k < s.outer.length, HangsFrom past rows k

/-- The last line and the last row, when the last line gave it at a level and may have a block. -/
structure Announces (past : List LogicalLine) (rows : List Row) (level uid : Nat)
    (type : NodeType) : Prop where
  head : ∃ l older r before, past = l :: older ∧ rows = r :: before ∧ l.level = level ∧
    r.level = level ∧ r.line = l.number ∧ r.body.type = type ∧ r.body.opensBlock = true
  uid : uid = rows.length

/-- A block is announced only for the last row. -/
def Announced (past : List LogicalLine) (rows : List Row) (s : State) : Prop :=
  ∀ uid type explicit line content, s.opener = .block uid type explicit line content →
    s.skipped = 0 ∧ Announces past rows s.outer.length uid type

namespace Reflects

variable {past : List LogicalLine} {rows : List Row} {s : State}

/-- What the invariant says of a state is said of the table, the scopes and nothing else. -/
theorem congr {s' : State} (h : Reflects past rows s) (ht : s'.table = s.table)
    (hs : s'.scopes = s.scopes) : Reflects past rows s' := by
  have ho : s'.outer = s.outer := (List.cons.inj hs).2
  exact ⟨ht ▸ h.table, h.built, hs ▸ h.scopes, ho ▸ h.climbs, ho ▸ h.hangs⟩

theorem initial : Reflects [] [] .initial where
  table := ⟨[], rfl, rfl⟩
  built := .nil
  scopes := ⟨⟨rfl, rfl, rfl⟩, trivial⟩
  climbs := Nat.le_refl 0
  hangs := fun k hk => absurd hk (by simp [State.initial])

/-- A line that gives no row. -/
theorem pass (h : Reflects past rows s) {l : LogicalLine} (hl : s.outer.length ≤ l.level) :
    Reflects (l :: past) rows s where
  table := h.table
  built := h.built.line l
  scopes := h.scopes
  climbs := h.climbs
  hangs := fun k hk => (h.hangs k hk).pass (by omega)

theorem closing (h : Reflects past rows s) {count : Nat} (hc : count ≤ s.outer.length) :
    Reflects past rows (s.closing count) where
  table := h.table
  built := h.built
  scopes := by
    rw [State.scopes_closing hc]
    exact h.scopes.drop count
  climbs := by
    have := h.climbs
    simp only [State.closing, List.length_drop]
    omega
  hangs := by
    intro k hk
    simp only [State.closing, List.length_drop] at hk
    exact h.hangs k (by omega)

/-- Entering the block that the last line announced. -/
theorem opening (h : Reflects past rows s) {uid : Nat} {type : NodeType}
    (ha : Announces past rows s.outer.length uid type) :
    Reflects past rows { s with scope := .new uid type, outer := s.scopes, opener := .none } := by
  obtain ⟨⟨l, older, r, before, hpast, hrows, hl, hr, hline, htype, hopens⟩, hu⟩ := ha
  have hlen : s.scopes.length = s.outer.length + 1 := rfl
  refine ⟨h.table, h.built, ⟨⟨?_, ?_, ?_⟩, h.scopes⟩, ?_, ?_⟩
  · rw [hlen, hrows, parentOf, if_pos hr]
    simp [Scope.new, hu, hrows]
  · rw [hlen, hrows, scopeType, if_pos hr]
    exact htype.symm
  · rw [hlen, hrows, lastAt, if_pos (by omega)]
    rfl
  · simp only [hlen, hrows, topLevel]
    omega
  · intro k hk
    simp only [hlen] at hk
    by_cases hk' : k = s.outer.length
    · refine ⟨l, r, ?_, ?_, hline, hopens⟩
      · rw [hpast, List.find?_cons_of_pos (by simp [hl, hk'])]
      · rw [hrows, List.find?_cons_of_pos (by simp [hr, hk'])]
    · exact h.hangs k (by omega)

/-- A note changes the table and a scope, but nothing that the invariant is about. -/
theorem note (h : Reflects past rows s) (kind : NoteKind) (text : String) (line : Nat)
    (content : String) : Reflects past rows (s.note kind text line content) := by
  unfold State.note
  cases hd : s.scope.lastDecl with
  | some uid =>
    exact ⟨h.table.modify uid kind text, h.built, h.scopes, h.climbs, h.hangs⟩
  | none =>
    have hscope := h.scopes.1
    exact ⟨h.table, h.built, ⟨⟨hscope.uid, hscope.type, hscope.last⟩, h.scopes.2⟩, h.climbs,
      h.hangs⟩

/-- A row in the innermost scope, from a line at its level. -/
theorem add (h : Reflects past rows s) {l : LogicalLine} {node : LineNode}
    (hl : l.level = s.outer.length) (ne : l.tokens ≠ [])
    (meaning : Reading.ofTokens l.tokens = .node node)
    (allowed : s.scope.allowed.allows node.body.type = true) :
    Reflects (l :: past) (⟨l.level, l.number, node.body.bare⟩ :: rows)
      (s.add node l.number l.tokens) := by
  have hscope := h.scopes.1
  rw [State.add_eq]
  refine ⟨?_, ?_, ⟨?_, ?_⟩, ?_, ?_⟩
  · simp only [hscope.uid, ← hl]
    exact (h.table.push l.level l.number node.body).withNotes _ _
  · refine .row l node h.built ne meaning (hl ▸ h.climbs) ?_ (hl ▸ h.hangs)
    rw [hl, ← hscope.allowed_eq]
    exact allowed
  · exact hscope.extended hl _ (by simp)
  · exact h.scopes.2.push (by simp [hl])
  · simp [topLevel, hl]
  · intro k hk
    have hlt : k < l.level := hl ▸ hk
    exact ((h.hangs k hk).pass hlt).push hlt

/-! ## One line -/

/-- The layout before a line leaves no announcement behind. -/
theorem arrive (h : Reflects past rows s) (ha : Announced past rows s) {l : LogicalLine}
    {s' : State} (harr : State.Arrives s l s') :
    Reflects past rows s' ∧
      ∀ uid type explicit line content, s'.opener ≠ .block uid type explicit line content := by
  cases harr with
  | further level skipping =>
    refine ⟨h.congr rfl rfl, fun uid type explicit line content ho => ?_⟩
    have := (ha uid type explicit line content ho).1
    omega
  | opened uid type explicit line content level reading opener =>
    exact ⟨h.opening (ha uid type explicit line content opener).2, by simp⟩
  | dropped level reading opener => exact ⟨h.congr rfl rfl, by simp⟩
  | unexpected level reading opener => exact ⟨h.congr rfl rfl, by simp⟩
  | back level =>
    refine ⟨Reflects.closing ?_ (Nat.sub_le _ _), by simp [State.closing]⟩
    exact h.congr rfl rfl

/-- The content of a line gives one row or none. -/
theorem take (h : Reflects past rows s) {l : LogicalLine} {s' : State}
    (hl : s.depth = l.level)
    (hno : ∀ uid type explicit line content, s.opener ≠ .block uid type explicit line content)
    (ht : State.Takes s l s') :
    ∃ rows', Reflects (l :: past) rows' s' ∧ Announced (l :: past) rows' s' := by
  have hle : s.outer.length ≤ l.level := by
    unfold State.depth at hl
    omega
  cases ht with
  | passed hp =>
    exact ⟨rows, h.pass hle, fun uid type explicit line content ho => absurd ho (hno _ _ _ _ _)⟩
  | noted kind text ne reading meaning =>
    refine ⟨rows, (h.pass hle).note kind text _ _, ?_⟩
    intro uid type explicit line content ho
    have hopener : (s.note kind text l.number (Token.render l.tokens)).opener = s.opener := by
      unfold State.note
      split <;> rfl
    rw [hopener] at ho
    exact absurd ho (hno _ _ _ _ _)
  | faulty fault ne reading meaning =>
    refine ⟨rows, (h.pass hle).congr rfl rfl, ?_⟩
    intro uid type explicit line content ho
    exact absurd ho (State.opener_reject _ _ _ _ _ _ _ _ _ _)
  | refused node ne reading meaning refuses =>
    refine ⟨rows, (h.pass hle).congr rfl rfl, ?_⟩
    intro uid type explicit line content ho
    exact absurd ho (State.opener_reject _ _ _ _ _ _ _ _ _ _)
  | added node ne reading meaning allows =>
    have hlevel : l.level = s.outer.length := by
      unfold State.depth at hl
      omega
    have hreported : Reflects past rows
        (s.reportAll node.repeated l.number (Token.render l.tokens)) := h.congr rfl rfl
    refine ⟨_, hreported.add hlevel ne meaning allows, ?_⟩
    intro uid type explicit line content ho
    rw [State.add_eq] at ho ⊢
    simp only at ho
    split at ho
    · next hb =>
      -- the line announces the scope of the node that it has just given
      simp only [Opener.block.injEq] at ho
      obtain ⟨rfl, rfl, -⟩ := ho
      rw [acceptsBlock_eq (declares_of_ofTokens meaning)] at hb
      refine ⟨reading, ⟨l, past, _, rows, rfl, rfl, hlevel, hlevel, rfl, ?_, ?_⟩, ?_⟩
      · simp
      · simpa using hb
      · exact h.table.size_eq
    · exact absurd ho (hno _ _ _ _ _)

/-- **Reading a line keeps the invariant.** -/
theorem read (h : Reflects past rows s) (ha : Announced past rows s) {l : LogicalLine}
    (hl : l.level ≤ s.depth + 1) :
    ∃ rows', Reflects (l :: past) rows' (s.read l) ∧ Announced (l :: past) rows' (s.read l) := by
  obtain ⟨harr, ht⟩ := State.read_cases hl
  obtain ⟨harrived, hno⟩ := h.arrive ha harr
  exact harrived.take harr.depth_eq hno ht

/-! ## Runs -/

theorem readAll (h : Reflects past rows s) (ha : Announced past rows s) {ls : List LogicalLine}
    (hls : Climbs s.depth ls) :
    ∃ rows', Reflects (ls.reverse ++ past) rows' (readAll s ls) ∧
      Announced (ls.reverse ++ past) rows' (Parser.readAll s ls) := by
  induction ls generalizing s past rows with
  | nil => exact ⟨rows, h, ha⟩
  | cons l ls ih =>
    obtain ⟨rows', h', ha'⟩ := h.read ha hls.1
    have hrest : Climbs (s.read l).depth ls := by
      rw [State.depth_read hls.1]
      exact hls.2
    rw [List.reverse_cons, List.append_assoc]
    exact ih h' ha' hrest

end Reflects

/-- **The tree of some lines has a history.** -/
theorem built_readAll {ls : List LogicalLine} (h : Climbs 0 ls) :
    ∃ rows, Built ls.reverse rows ∧ TableOf rows (readAll .initial ls).table := by
  obtain ⟨rows, hr, -⟩ := Reflects.initial.readAll (by simp [Announced, State.initial]) h
  rw [List.append_nil] at hr
  exact ⟨rows, hr.built, hr.table⟩

end IntentCode.Parser
