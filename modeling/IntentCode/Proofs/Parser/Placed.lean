import IntentCode.Proofs.Ast.Grammar
import IntentCode.Proofs.Ast.Validation
import IntentCode.Proofs.Parser.Built
import IntentCode.Proofs.Parser.Rounds

/-!
# Where the nodes of a stream stand

The outcomes of a run determine its tree up to notes. Each line that gives a node gives a row at its
level (`rows`), and what the state has open is what the rows leave open: the scope at a level is that
of the row under which the next one of that level goes. `Placed` is that invariant, for any stream.

It holds because a block is announced only by the last row (`Announcing`) and entered only by the
next line, whatever has been rejected, skipped or closed before. The rows are then lawful, and a tree
from lawful rows is grammatical.
-/

set_option autoImplicit false

namespace IntentCode.Parser

open Ast

/-! ## Rows -/

/-- The row that a line gives, without notes. -/
def Outcome.row? (o : Outcome) : Option Row :=
  match o.fate with
  | .node n => some ⟨o.level, o.line.number, n.body.bare⟩
  | _ => none

theorem Outcome.row?_of_isLost {o : Outcome} (h : o.fate.isLost = true) : o.row? = none := by
  unfold row?
  split
  · next hfate =>
    rw [hfate] at h
    cases h
  · rfl

/-- The rows that some lines give; of both the latest comes first. -/
def rows (past : List Outcome) : List Row := past.filterMap Outcome.row?

theorem rows_cons (o : Outcome) (past : List Outcome) :
    rows (o :: past) = o.row?.toList ++ rows past := by
  unfold rows
  rw [List.filterMap_cons]
  cases o.row? <;> rfl

/-! ## The invariant -/

/-- The latest row at a level may have a block. -/
def Hangs (rs : List Row) (level : Nat) : Prop :=
  ∃ r, rs.find? (fun r => r.level = level) = some r ∧ r.body.opensBlock = true

theorem Hangs.push {rs : List Row} {level : Nat} (h : Hangs rs level) {r : Row}
    (hr : level < r.level) : Hangs (r :: rs) level := by
  obtain ⟨q, hq, hopens⟩ := h
  exact ⟨q, by rw [List.find?_cons_of_neg (by simp; omega), hq], hopens⟩

/-- The tree and the open scopes are those of the rows. -/
structure Placed (rs : List Row) (s : State) : Prop where
  table : TableOf rs s.table
  lawful : Lawful rs
  scopes : ScopesAt rs s.scopes
  climbs : s.outer.length ≤ topLevel rs
  hangs : ∀ k < s.outer.length, Hangs rs k

/-- The announcement of a block of the node `uid`: it is the last row, and it may have one. -/
structure Placed.Announces (rs : List Row) (level uid : Nat) (type : NodeType) : Prop where
  last : ∃ r before, rs = r :: before ∧ r.level = level ∧ r.body.type = type ∧
    r.body.opensBlock = true
  uid : uid = rs.length

/-- What the state announces is in the scope that is open, and nothing is skipped. -/
def Announcing (rs : List Row) (s : State) : Prop :=
  ∀ uid type explicit line content, s.opener = .block uid type explicit line content →
    s.skipped = 0 ∧ Placed.Announces rs s.outer.length uid type

/-- Open scopes are different nodes. -/
theorem Placed.nodup_uids {rs : List Row} {s : State} (h : Placed rs s) :
    (s.scopes.map Scope.uid).Nodup := by
  have hall : ∀ scopes : List Scope, ScopesAt rs scopes → scopes.length ≤ topLevel rs + 1 →
      (scopes.map Scope.uid).Nodup ∧
        ∀ scope ∈ scopes, ∃ k < scopes.length, scope.uid = parentOf rs k := by
    intro scopes
    induction scopes with
    | nil => simp
    | cons scope rest ih =>
      intro hat hlen
      rw [List.length_cons] at hlen
      obtain ⟨hnodup, hrest⟩ := ih hat.2 (by omega)
      refine ⟨List.nodup_cons.mpr ⟨?_, hnodup⟩, ?_⟩
      · intro hmem
        obtain ⟨other, hother, huid⟩ := List.mem_map.mp hmem
        obtain ⟨k, hk, hp⟩ := hrest other hother
        have := parentOf_inj h.lawful.climbing (i := k) (j := rest.length) (by omega) (by omega)
          (by rw [← hp, huid, hat.1.uid])
        omega
      · intro other hother
        rw [List.length_cons]
        rcases List.mem_cons.mp hother with rfl | hother
        · exact ⟨rest.length, Nat.lt_succ_self _, hat.1.uid⟩
        · obtain ⟨k, hk, hp⟩ := hrest other hother
          exact ⟨k, Nat.lt_succ_of_lt hk, hp⟩
  have hlen : s.scopes.length ≤ topLevel rs + 1 := Nat.succ_le_succ h.climbs
  exact (hall s.scopes h.scopes hlen).1

theorem Placed.uid_ne {rs : List Row} {s : State} (h : Placed rs s) :
    ∀ scope ∈ s.outer, scope.uid ≠ s.scope.uid := by
  intro scope hscope hu
  have hnodup := h.nodup_uids
  rw [State.scopes, List.map_cons, List.nodup_cons] at hnodup
  exact hnodup.1 (hu ▸ List.mem_map_of_mem hscope)

namespace Placed

variable {rs : List Row} {s : State}

/-- The invariant is about the table and the scopes and nothing else. -/
theorem congr {s' : State} (h : Placed rs s) (ht : s'.table = s.table)
    (hs : s'.scopes = s.scopes) : Placed rs s' := by
  have ho : s'.outer = s.outer := (List.cons.inj hs).2
  exact ⟨ht ▸ h.table, h.lawful, hs ▸ h.scopes, ho ▸ h.climbs, ho ▸ h.hangs⟩

theorem initial : Placed [] .initial where
  table := ⟨[], rfl, rfl⟩
  lawful := trivial
  scopes := ⟨⟨rfl, rfl, rfl⟩, trivial⟩
  climbs := Nat.le_refl 0
  hangs := fun k hk => absurd hk (Nat.not_lt_zero k)

theorem closing (h : Placed rs s) {count : Nat} (hc : count ≤ s.outer.length) :
    Placed rs (s.closing count) where
  table := h.table
  lawful := h.lawful
  scopes := by
    rw [State.scopes_closing hc]
    exact h.scopes.drop count
  climbs := by
    have := h.climbs
    simp only [State.closing, List.length_drop]
    omega
  hangs := by
    intro k hk
    simp only [State.closing, List.length_drop] at hk
    exact h.hangs k (by omega)

/-- Entering the block that the last row announced. -/
theorem opening (h : Placed rs s) {uid : Nat} {type : NodeType}
    (ha : Announces rs s.outer.length uid type) :
    Placed rs { s with scope := .new uid type, outer := s.scopes, opener := .none } := by
  obtain ⟨⟨r, before, hrs, hr, htype, hopens⟩, hu⟩ := ha
  have hlen : s.scopes.length = s.outer.length + 1 := rfl
  refine ⟨h.table, h.lawful, ⟨⟨?_, ?_, ?_⟩, h.scopes⟩, ?_, ?_⟩
  · rw [hlen, hrs, parentOf, if_pos hr]
    simp [Scope.new, hu, hrs]
  · rw [hlen, hrs, scopeType, if_pos hr]
    exact htype.symm
  · rw [hlen, hrs, lastAt, if_pos (by omega)]
    rfl
  · simp only [hlen, hrs, topLevel]
    omega
  · intro k hk
    simp only [hlen] at hk
    by_cases hk' : k = s.outer.length
    · exact ⟨r, by rw [hrs, List.find?_cons_of_pos (by simp [hr, hk'])], hopens⟩
    · exact h.hangs k (by omega)

/-- A note changes the table and a scope, but nothing that the invariant is about. -/
theorem note (h : Placed rs s) (kind : NoteKind) (text : String) (line : Nat) (content : String) :
    Placed rs (s.note kind text line content) := by
  unfold State.note
  cases hd : s.scope.lastDecl with
  | some uid =>
    exact ⟨h.table.modify uid kind text, h.lawful, h.scopes, h.climbs, h.hangs⟩
  | none =>
    have hscope := h.scopes.1
    exact ⟨h.table, h.lawful, ⟨⟨hscope.uid, hscope.type, hscope.last⟩, h.scopes.2⟩, h.climbs,
      h.hangs⟩

/-- A row in the innermost scope. -/
theorem add (h : Placed rs s) {node : LineNode} (line : Nat) (tokens : List Token)
    (allows : s.scope.allowed.allows node.body.type = true) :
    Placed (⟨s.outer.length, line, node.body.bare⟩ :: rs) (s.add node line tokens) := by
  have hscope := h.scopes.1
  rw [State.add_eq]
  refine ⟨?_, ?_, ⟨?_, ?_⟩, ?_, ?_⟩
  · rw [hscope.uid]
    exact (h.table.push s.outer.length line node.body).withNotes _ _
  · refine ⟨h.climbs, ?_, h.hangs, h.lawful⟩
    rw [Body.type_bare, ← hscope.allowed_eq]
    exact allows
  · exact hscope.extended rfl _ (by simp)
  · exact h.scopes.2.push (Nat.le_refl _)
  · exact Nat.le_succ _
  · exact fun k hk => (h.hangs k hk).push hk

/-! ## One line -/

/-- The layout before a line leaves no announcement behind. -/
theorem move (h : Placed rs s) (ha : Announcing rs s) {l : Line} {s' : State}
    (hm : State.Moves s l s') :
    Placed rs s' ∧
      ∀ uid type explicit line content, s'.opener ≠ .block uid type explicit line content := by
  cases hm with
  | further line move skipping =>
    refine ⟨h.congr rfl rfl, fun uid type explicit line content ho => ?_⟩
    have := (ha uid type explicit line content ho).1
    omega
  | opened line uid type explicit number content move reading opener =>
    exact ⟨h.opening (ha uid type explicit number content opener).2, by simp⟩
  | dropped line move reading opener => exact ⟨h.congr rfl rfl, by simp⟩
  | unexpected line move reading opener => exact ⟨h.congr rfl rfl, by simp⟩
  | back levels move fits =>
    refine ⟨Placed.closing ?_ ?_, by simp [State.closing]⟩
    · exact h.congr rfl rfl
    · simp only [State.depth] at fits ⊢
      omega

/-- The content of a line gives the row that its fate says. -/
theorem handle (h : Placed rs s) {l : Line} {loss fate : Fate} {s' : State}
    (hno : ∀ uid type explicit line content, s.opener ≠ .block uid type explicit line content)
    (hloss : loss.isLost = true) (hh : State.Handles s l loss fate s') :
    Placed ((Outcome.row? ⟨s.depth, l, fate⟩).toList ++ rs) s' ∧
      Announcing ((Outcome.row? ⟨s.depth, l, fate⟩).toList ++ rs) s' := by
  have hsilent : ∀ {s' : State}, s'.opener = s.opener → Announcing rs s' := by
    intro s' hs uid type explicit line content ho
    exact absurd (hs ▸ ho) (hno _ _ _ _ _)
  cases hh with
  | lost skipping =>
    rw [Outcome.row?_of_isLost hloss]
    exact ⟨h, hsilent rfl⟩
  | empty reading none => exact ⟨h, hsilent rfl⟩
  | note kind text reading ne meaning =>
    refine ⟨h.note kind text _ _, hsilent ?_⟩
    unfold State.note
    split <;> rfl
  | faulty fault reading ne meaning =>
    refine ⟨h.congr rfl rfl, ?_⟩
    intro uid type explicit line content ho
    exact absurd ho (State.opener_reject _ _ _ _ _ _ _ _ _ _)
  | refused node reading ne meaning refuses =>
    refine ⟨h.congr rfl rfl, ?_⟩
    intro uid type explicit line content ho
    exact absurd ho (State.opener_reject _ _ _ _ _ _ _ _ _ _)
  | node node reading ne meaning allows =>
    have hreported : Placed rs (s.reportAll node.repeated l.number (Token.render l.tokens)) :=
      h.congr rfl rfl
    show Placed (⟨s.depth, l.number, node.body.bare⟩ :: rs) _ ∧ Announcing (_ :: rs) _
    rw [State.depth_of_reading reading]
    refine ⟨hreported.add l.number l.tokens allows, ?_⟩
    intro uid type explicit line content ho
    rw [State.add_eq] at ho ⊢
    simp only at ho
    split at ho
    · next hb =>
      -- the line announces the scope of the node that it has just given
      simp only [Opener.block.injEq] at ho
      obtain ⟨rfl, rfl, -⟩ := ho
      rw [acceptsBlock_eq (declares_of_ofTokens meaning)] at hb
      refine ⟨reading, ⟨_, rs, rfl, rfl, Body.type_bare _, ?_⟩, h.table.size_eq⟩
      rw [Body.opensBlock_bare]
      exact hb
    · exact absurd ho (hno _ _ _ _ _)

/-- **Reading a line keeps the invariant.** -/
theorem step {past : List Outcome} (h : Placed (rows past) s) (ha : Announcing (rows past) s)
    {l : Line} (hfits : l.move.Fits s.depth) :
    Placed (rows (s.outcome l :: past)) (s.step l) ∧
      Announcing (rows (s.outcome l :: past)) (s.step l) := by
  obtain ⟨hmoves, hhandles⟩ := State.step_cases hfits
  obtain ⟨hmoved, hno⟩ := h.move ha hmoves
  have hstep := hmoved.handle hno (State.isLost_loss s l) hhandles
  rw [hmoves.depth_eq] at hstep
  rw [rows_cons]
  exact hstep

end Placed

/-! ## Runs -/

/-- **What the state shows after some lines is what their rows say.** -/
theorem placed_run {ls : List Line} (h : Fits 0 ls) :
    Placed (rows (outcomes ls).reverse) (run ls) ∧
      Announcing (rows (outcomes ls).reverse) (run ls) := by
  have hrun := run_induction (motive := fun past s => Placed (rows past) s ∧ Announcing (rows past) s)
    [] .initial h ⟨Placed.initial, fun _ _ _ _ _ ho => by cases ho⟩
    fun past s l hs hfits => hs.1.step hs.2 hfits
  rw [List.append_nil] at hrun
  exact hrun

/-- **The tree of a token list** is one of lawful rows: those of the lines that give nodes. -/
theorem tableOf_ofStream {ts : List Token} {stream : Stream} (h : Stream.ofTokens ts = .ok stream) :
    TableOf (rows (outcomes stream.lines).reverse) (ofStream stream).table ∧
      Lawful (rows (outcomes stream.lines).reverse) := by
  obtain ⟨hplaced, -⟩ := placed_run (Stream.spells_of_ofTokens h).2.1
  refine ⟨?_, hplaced.lawful⟩
  show TableOf _ ((run stream.lines).finish stream.trailing).table
  rw [State.table_finish]
  exact hplaced.table

/-- Notes are not a matter of the grammar. -/
theorem TableOf.exists_lawful {rs : List Row} {t : Table} (h : TableOf rs t) (hl : Lawful rs) :
    ∃ full, Lawful full ∧ t = .ofRows full := by
  obtain ⟨full, rfl, rfl⟩ := h
  exact ⟨full, lawful_map_bare.mp hl, rfl⟩

/-- **Every tree that a token list gives is a tree, its numbers grow, and it is grammatical.** -/
theorem grammatical_parse {ts : List Token} {parsed : Parsed} (h : parse ts = .ok parsed) :
    parsed.table.validate = .ok () ∧ parsed.table.Numbered ∧ parsed.table.Grammatical := by
  obtain ⟨stream, hstream, rfl⟩ := parse_eq_ok_iff.mp h
  obtain ⟨htable, hlawful⟩ := tableOf_ofStream hstream
  obtain ⟨full, hfull, ht⟩ := htable.exists_lawful hlawful
  rw [ht]
  exact ⟨(Table.linked_ofRows full).validate_eq, (Table.linked_ofRows full).numbered,
    hfull.grammatical⟩

/-- A function with a class in its body, where no class may stand, and a step after it. -/
def misplacedClass : List Token :=
  [⟨.keyword, "func", 1⟩, ⟨.identifier, "f", 1⟩, .bare .colon 1, .bare .newline 1, .bare .indent 2,
   ⟨.keyword, "class", 2⟩, ⟨.identifier, "C", 2⟩, .bare .newline 2, ⟨.identifier, "go", 3⟩,
   .bare .newline 3, .bare .dedent 4, .bare .endOfFile 4]

theorem grammatical_misplacedClass :
    ∃ parsed, parse misplacedClass = .ok parsed ∧ parsed.table.size = 3 ∧
      parsed.table.validate = .ok () ∧ parsed.table.Numbered ∧ parsed.table.Grammatical := by
  have hparse : parse misplacedClass = .ok _ := (parse_eq misplacedClass).trans rfl
  exact ⟨_, hparse, rfl, grammatical_parse hparse⟩

end IntentCode.Parser
