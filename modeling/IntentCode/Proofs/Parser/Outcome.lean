import IntentCode.Proofs.Parser.Stream

/-!
# What becomes of a line

Every line of a stream meets one of seven fates (`Fate`): it is empty, it gives a node, it is a note,
it is rejected, or it is lost with a block, as the first line of that block or as a further one. Which
of them is a function of the state before the line (`State.fate`), so a line never has two.

`Moves` lists what the layout before a line can do, and `Handles` what is then done with its content,
fate by fate. This is the case analysis of `State`, for any stream and not only for one that comes
from a source. A run leaves a list of outcomes, and what is said about the tree and the findings of a
token list is said in terms of that list.
-/

set_option autoImplicit false

namespace IntentCode.Parser

open Ast

/-- The number of a line is that of its first token. -/
def Line.number (l : Line) : Nat := (l.tokens.head?.map Token.line).getD 0

inductive Fate where
  /-- There is nothing on the line. -/
  | empty
  | node (node : LineNode)
  | note (kind : NoteKind) (text : String)
  | rejected (complaint : Complaint)
  /-- The first line of a block under a rejected line. -/
  | orphaned
  /-- The first line of a block that no line has announced, with the number it is reported under. -/
  | unexpected (line : Nat)
  /-- A further line of a block that is left out. -/
  | skipped
deriving DecidableEq, Inhabited

/-- The line goes with a block that is left out. -/
def Fate.isLost : Fate → Bool
  | orphaned | unexpected _ | skipped => true
  | _ => false

/-- A line that is read in a scope. -/
def Fate.ofReading (scope : Scope) : Reading → Fate
  | .note kind text => .note kind text
  | .fault fault => .rejected (.malformed fault)
  | .node n =>
    if scope.allowed.allows n.body.type then .node n else .rejected (State.refusal scope n)

namespace State

/-- How a line is lost, if it is. -/
def loss (s : State) (l : Line) : Fate :=
  if 0 < s.skipped then .skipped
  else match s.opener, l.move with
    | .rejected, _ => .orphaned
    | _, .deeper line => .unexpected line
    | _, .back _ => .skipped

theorem isLost_loss (s : State) (l : Line) : (s.loss l).isLost = true := by
  unfold loss
  split
  · rfl
  · split <;> rfl

def fate (s : State) (l : Line) : Fate :=
  let s' := s.move l.move l.tokens
  if 0 < s'.skipped then s.loss l
  else if l.tokens = [] then .empty
  else .ofReading s'.scope (.ofTokens l.tokens)

/-! ## The layout before a line -/

/-- Where a move leads. -/
inductive Moves (s : State) (l : Line) : State → Prop
  /-- Deeper into a block that is left out. -/
  | further (line : Nat) (move : l.move = .deeper line) (skipping : 0 < s.skipped) :
    Moves s l { s with skipped := s.skipped + 1 }
  /-- Into the block that the line before announced. -/
  | opened (line uid : Nat) (type : NodeType) (explicit : Bool) (number : Nat) (content : String)
    (move : l.move = .deeper line) (reading : s.skipped = 0)
    (opener : s.opener = .block uid type explicit number content) :
    Moves s l { s with scope := .new uid type, outer := s.scopes, opener := .none }
  /-- Into the block of a rejected line. -/
  | dropped (line : Nat) (move : l.move = .deeper line) (reading : s.skipped = 0)
    (opener : s.opener = .rejected) : Moves s l { s with opener := .none, skipped := 1 }
  /-- Into a block that nothing announced. -/
  | unexpected (line : Nat) (move : l.move = .deeper line) (reading : s.skipped = 0)
    (opener : s.opener = .none) :
    Moves s l
      { s with
        opener := .none
        skipped := 1
        findings := s.findings ++ [⟨.unexpectedIndentation, line, Token.render l.tokens⟩] }
  /-- To the level of an open scope, or to one that is left out. -/
  | back (levels : Nat) (move : l.move = .back levels) (fits : levels ≤ s.depth) :
    Moves s l
      ({ s with
        opener := .none
        skipped := s.skipped - levels
        findings := s.findings ++ missingBlock s.opener }.closing (levels - s.skipped))

theorem move_back {s : State} {levels : Nat} (h : levels ≤ s.depth) (tokens : List Token) :
    s.move (.back levels) tokens =
      { s with
        opener := .none
        skipped := s.skipped - levels
        findings := s.findings ++ missingBlock s.opener }.closing (levels - s.skipped) := by
  have hrepeat : levels.repeat leave s.closeOpener = _ :=
    repeat_leave (by simpa [closeOpener_eq, depth] using h)
  simp only [move]
  rw [hrepeat, closeOpener_eq]

theorem moves {s : State} {l : Line} (h : l.move.Fits s.depth) :
    Moves s l (s.move l.move l.tokens) := by
  cases hm : l.move with
  | deeper line =>
    simp only [move, enter]
    split
    · next hs => exact .further line hm hs
    · next hs =>
      have h0 : s.skipped = 0 := by omega
      cases ho : s.opener with
      | none => exact .unexpected line hm h0 ho
      | block uid type explicit number content =>
        exact .opened line uid type explicit number content hm h0 ho
      | rejected => exact .dropped line hm h0 ho
  | back levels =>
    rw [hm] at h
    rw [move_back h]
    exact .back levels hm h

namespace Moves

variable {s s' : State} {l : Line}

/-- A move leads to its target. -/
theorem depth_eq (h : Moves s l s') : s'.depth = l.move.target s.depth := by
  cases h with
  | further line move skipping =>
    simp only [depth, move, Move.target]
    omega
  | opened line uid type explicit number content move reading opener =>
    simp only [depth, scopes, List.length_cons, move, Move.target]
    omega
  | dropped line move reading opener =>
    simp only [depth, move, Move.target, reading]
  | unexpected line move reading opener =>
    simp only [depth, move, Move.target, reading]
  | back levels move fits =>
    simp only [depth, closing, List.length_drop, move, Move.target] at fits ⊢
    omega

/-- The line before has announced what it has, and that is settled now, unless a block is left
out. -/
theorem opener_eq (h : Moves s l s') : s'.opener = .none ∨ 0 < s.skipped ∧ s'.opener = s.opener := by
  cases h with
  | further line move skipping => exact .inr ⟨skipping, rfl⟩
  | opened => exact .inl rfl
  | dropped => exact .inl rfl
  | unexpected => exact .inl rfl
  | back => exact .inl rfl

end Moves

/-! ## The content of a line -/

/-- What is done with the content of a line that has the given fate; `loss` is the one it has if it
is lost. -/
inductive Handles (s : State) (l : Line) (loss : Fate) : Fate → State → Prop
  | lost (skipping : 0 < s.skipped) : Handles s l loss loss s
  | empty (reading : s.skipped = 0) (none : l.tokens = []) : Handles s l loss .empty s
  | note (kind : NoteKind) (text : String) (reading : s.skipped = 0) (ne : l.tokens ≠ [])
    (meaning : Reading.ofTokens l.tokens = .note kind text) :
    Handles s l loss (.note kind text) (s.note kind text l.number (Token.render l.tokens))
  | faulty (fault : HeaderFault) (reading : s.skipped = 0) (ne : l.tokens ≠ [])
    (meaning : Reading.ofTokens l.tokens = .fault fault) :
    Handles s l loss (.rejected (.malformed fault))
      (s.reject (.malformed fault) l.number l.tokens (opensSkipped l.tokens))
  | refused (node : LineNode) (reading : s.skipped = 0) (ne : l.tokens ≠ [])
    (meaning : Reading.ofTokens l.tokens = .node node)
    (refuses : s.scope.allowed.allows node.body.type = false) :
    Handles s l loss (.rejected (refusal s.scope node))
      ((s.reportAll node.repeated l.number (Token.render l.tokens)).reject (refusal s.scope node)
        l.number l.tokens (opensSkipped l.tokens || node.acceptsBlock))
  | node (node : LineNode) (reading : s.skipped = 0) (ne : l.tokens ≠ [])
    (meaning : Reading.ofTokens l.tokens = .node node)
    (allows : s.scope.allowed.allows node.body.type = true) :
    Handles s l loss (.node node)
      ((s.reportAll node.repeated l.number (Token.render l.tokens)).add node l.number l.tokens)

theorem handles_line (s : State) (l : Line) (loss : Fate) :
    Handles s l loss
      (if 0 < s.skipped then loss
        else if l.tokens = [] then .empty
        else .ofReading s.scope (.ofTokens l.tokens))
      (s.line l.tokens) := by
  unfold line
  cases ht : l.tokens with
  | nil =>
    simp only [if_true]
    split
    · next hs => exact .lost hs
    · next hs => exact .empty (by omega) ht
  | cons first rest =>
    have hne : l.tokens ≠ [] := by simp [ht]
    have hnumber : first.line = l.number := by simp [Line.number, ht]
    simp only [gt_iff_lt, reduceCtorEq, if_false]
    split
    · next hs => exact .lost hs
    · next hs =>
      have h0 : s.skipped = 0 := by omega
      rw [content_eq, hnumber, ← ht]
      cases hr : Reading.ofTokens l.tokens with
      | note kind text => exact .note kind text h0 hne hr
      | fault fault => exact .faulty fault h0 hne hr
      | node node =>
        have hscope : (s.reportAll node.repeated l.number (Token.render l.tokens)).scope =
            s.scope := rfl
        simp only [accept, Fate.ofReading, hscope]
        cases ha : s.scope.allowed.allows node.body.type with
        | true => exact .node node h0 hne hr ha
        | false => exact .refused node h0 hne hr ha

theorem handles (s : State) (l : Line) :
    Handles (s.move l.move l.tokens) l (s.loss l) (s.fate l) (s.step l) :=
  handles_line (s.move l.move l.tokens) l (s.loss l)

/-- **What reading a line of a stream does**: the move leads somewhere, and there the line meets its
fate. -/
theorem step_cases {s : State} {l : Line} (h : l.move.Fits s.depth) :
    Moves s l (s.move l.move l.tokens) ∧
      Handles (s.move l.move l.tokens) l (s.loss l) (s.fate l) (s.step l) :=
  ⟨moves h, handles s l⟩

/-- Content opens and closes nothing. -/
theorem Handles.outer_eq {s s' : State} {l : Line} {loss fate : Fate}
    (h : Handles s l loss fate s') : s'.outer = s.outer ∧ s'.skipped = s.skipped := by
  cases h with
  | lost => exact ⟨rfl, rfl⟩
  | empty => exact ⟨rfl, rfl⟩
  | note kind text => exact note_outer s kind text _ _
  | faulty => exact ⟨rfl, rfl⟩
  | refused => exact ⟨rfl, rfl⟩
  | node node =>
    rw [add_eq]
    exact ⟨rfl, rfl⟩

theorem depth_line (s : State) (tokens : List Token) : (s.line tokens).depth = s.depth := by
  obtain ⟨houter, hskipped⟩ := (handles_line s ⟨.back 0, tokens⟩ .empty).outer_eq
  exact congrArg₂ (fun outer skipped => outer.length + skipped) houter hskipped

theorem depth_step {s : State} {l : Line} (h : l.move.Fits s.depth) :
    (s.step l).depth = l.move.target s.depth := by
  rw [step, depth_line, (moves h).depth_eq]

end State

/-! ## Runs -/

/-- A line with its level and its fate. -/
structure Outcome where
  level : Nat
  line : Line
  fate : Fate
deriving DecidableEq, Inhabited

/-- What a line comes to when it is read in a state. -/
def State.outcome (s : State) (l : Line) : Outcome := ⟨l.move.target s.depth, l, s.fate l⟩

/-- What becomes of the lines that are read from a state on. -/
def outcomesFrom (s : State) : List Line → List Outcome
  | [] => []
  | l :: ls => s.outcome l :: outcomesFrom (s.step l) ls

/-- What becomes of the lines of a stream. -/
def outcomes (lines : List Line) : List Outcome := outcomesFrom .initial lines

theorem map_line_outcomesFrom (s : State) (ls : List Line) :
    (outcomesFrom s ls).map Outcome.line = ls := by
  induction ls generalizing s with
  | nil => rfl
  | cons l ls ih => rw [outcomesFrom, List.map_cons, ih]; rfl

theorem outcomesFrom_append (s : State) (ls ms : List Line) :
    outcomesFrom s (ls ++ ms) = outcomesFrom s ls ++ outcomesFrom (ls.foldl State.step s) ms := by
  induction ls generalizing s with
  | nil => rfl
  | cons l ls ih => rw [List.cons_append, outcomesFrom, outcomesFrom, ih]; rfl

/-- **What holds at first and is kept by every line holds after a run.** The invariant is one of the
outcomes so far, the latest first, and of the state. -/
theorem run_induction {motive : List Outcome → State → Prop} (past : List Outcome) (s : State)
    {ls : List Line} (hfits : Fits s.depth ls) (h : motive past s)
    (hstep : ∀ past s l, motive past s → l.move.Fits s.depth →
      motive (s.outcome l :: past) (s.step l)) :
    motive ((outcomesFrom s ls).reverse ++ past) (ls.foldl State.step s) := by
  induction ls generalizing s past with
  | nil => exact h
  | cons l ls ih =>
    have hrest : Fits (s.step l).depth ls := by
      rw [State.depth_step hfits.1]
      exact hfits.2
    have := ih (s.outcome l :: past) (s.step l) hrest (hstep past s l h hfits.1)
    rw [outcomesFrom, List.reverse_cons, List.append_assoc]
    exact this

theorem depth_foldl_step {s : State} {ls : List Line} (h : Fits s.depth ls) :
    (ls.foldl State.step s).depth = levelAfter s.depth ls := by
  induction ls generalizing s with
  | nil => rfl
  | cons l ls ih =>
    have hd := State.depth_step h.1
    have := ih (s := s.step l) (by rw [hd]; exact h.2)
    rw [hd] at this
    exact this

/-- **The levels that are open after some lines** are those that their moves have opened. -/
theorem depth_run {ls : List Line} (h : Fits 0 ls) : (run ls).depth = levelAfter 0 ls :=
  depth_foldl_step (s := .initial) h

theorem run_concat (ls : List Line) (l : Line) : run (ls ++ [l]) = (run ls).step l :=
  List.foldl_append

/-- An outcome is that of one line, after the lines before it. -/
theorem outcomes_split {ls : List Line} {earlier later : List Outcome} {o : Outcome}
    (h : outcomes ls = earlier ++ o :: later) :
    ∃ before l after, ls = before ++ l :: after ∧ earlier = outcomes before ∧
      o = (run before).outcome l := by
  have hlines : ls = earlier.map Outcome.line ++ o.line :: later.map Outcome.line := by
    have := congrArg (List.map Outcome.line) h
    rw [outcomes, map_line_outcomesFrom, List.map_append, List.map_cons] at this
    exact this
  have hlength : (outcomes (earlier.map Outcome.line)).length = earlier.length := by
    have := congrArg List.length (map_line_outcomesFrom .initial (earlier.map Outcome.line))
    rwa [List.length_map, List.length_map] at this
  refine ⟨_, _, _, hlines, ?_⟩
  rw [hlines, outcomes, outcomesFrom_append, outcomesFrom] at h
  obtain ⟨hearlier, hrest⟩ := List.append_inj h hlength
  exact ⟨hearlier.symm, (List.cons.inj hrest).1.symm⟩

/-- What is true of every line in every state is true of all outcomes. -/
theorem forall_mem_outcomes {P : Outcome → Prop} (h : ∀ s l, P (State.outcome s l))
    (ls : List Line) : ∀ o ∈ outcomes ls, P o := by
  intro o ho
  obtain ⟨earlier, later, heq⟩ := List.append_of_mem ho
  obtain ⟨before, l, after, -, -, rfl⟩ := outcomes_split heq
  exact h _ l

/-- What the end of the stream adds to what has been found. -/
theorem State.findings_finish (s : State) (trailing : Move) :
    (s.finish trailing).findings =
      (s.move trailing []).findings ++ missingBlock (s.move trailing []).opener ++
        (s.move trailing []).scopes.flatMap pendingFindings := by
  have hfold : ∀ (scopes : List Scope) (s : State),
      (scopes.foldl reportPending s).findings = s.findings ++ scopes.flatMap pendingFindings := by
    intro scopes
    induction scopes with
    | nil => exact fun s => (List.append_nil _).symm
    | cons scope scopes ih =>
      intro s
      rw [List.foldl_cons, ih, reportPending_eq, List.flatMap_cons, List.append_assoc]
  simp only [finish, close]
  rw [hfold, closeOpener_eq]
  rfl

/-- At the end what is missing is reported, and then the notes of all scopes, from the inside out. -/
theorem State.findings_finish_back {s : State} {levels : Nat} (h : levels ≤ s.depth) :
    (s.finish (.back levels)).findings =
      s.findings ++ missingBlock s.opener ++ s.scopes.flatMap pendingFindings := by
  have hcount : levels - s.skipped ≤ s.outer.length := by
    unfold depth at h
    omega
  have hleft := scopes_closing (s := { s with
    opener := .none
    skipped := s.skipped - levels
    findings := s.findings ++ missingBlock s.opener }) hcount
  rw [findings_finish, move_back h, hleft]
  show s.findings ++ missingBlock s.opener ++
    (s.scopes.take (levels - s.skipped)).flatMap pendingFindings ++ [] ++
    (s.scopes.drop (levels - s.skipped)).flatMap pendingFindings = _
  rw [List.append_nil, List.append_assoc, ← List.flatMap_append, List.take_append_drop]

end IntentCode.Parser
