import IntentCode.Proofs.Parser.Lost
import IntentCode.Proofs.Parser.Placed
import IntentCode.Proofs.Parser.Recovery
import Mathlib.Data.List.Forall2

/-!
# No line is lost silently

The outcomes of a run account for everything in it (`LineAccount`). The nodes of the tree are those of
the lines that give nodes, in their order; the lines that are rejected and the blocks that nothing
announced are reported, each once and in their order; and a line of which neither is true is a note,
is empty or lies in a block that is left out, which begins at a line that has been reported or under
one that has.

The reports are the one thing that needs the state: what a line adds to the findings that say that
something is left out is what its fate says (`reports_step`). All other findings are `Mild`.
-/

set_option autoImplicit false

namespace IntentCode.Parser

open Ast

/-! ## What is reported -/

/-- The complaint is about a line or a block that is left out. -/
def Complaint.loses (c : Complaint) : Bool := c.rejects || c = .unexpectedIndentation

/-- What is reported about a line that is left out, or about its block. -/
def Outcome.report? (o : Outcome) : Option Finding :=
  match o.fate with
  | .rejected c => some ⟨c, o.line.number, Token.render o.line.tokens⟩
  | .unexpected line => some ⟨.unexpectedIndentation, line, Token.render o.line.tokens⟩
  | _ => none

/-- The findings about what is left out. -/
def losses (fs : List Finding) : List Finding := fs.filter fun f => f.complaint.loses

theorem losses_append (fs gs : List Finding) : losses (fs ++ gs) = losses fs ++ losses gs :=
  List.filter_append ..

theorem losses_of_mild {fs : List Finding} (h : ∀ f ∈ fs, State.Mild f.complaint) :
    losses fs = [] := by
  apply List.filter_eq_nil_iff.mpr
  intro f hf
  obtain ⟨hrejects, hne⟩ := h f hf
  simp [Complaint.loses, hrejects, hne]

theorem losses_singleton {f : Finding} (h : f.complaint.loses = true) : losses [f] = [f] :=
  List.filter_cons_of_pos h

theorem losses_pending (scopes : List Scope) :
    losses (scopes.flatMap State.pendingFindings) = [] := by
  refine losses_of_mild fun f hf => ?_
  obtain ⟨scope, -, hf⟩ := List.mem_flatMap.mp hf
  exact State.mild_pendingFindings scope f hf

namespace State

/-- Of a line that is lost only the layout is reported. -/
theorem report_loss {s : State} {l : Line} {level : Nat} {f : Finding}
    (h : Outcome.report? ⟨level, l, s.loss l⟩ = some f) :
    f.complaint = .unexpectedIndentation ∧ l.move = .deeper f.line := by
  unfold loss at h
  split at h
  · cases h
  · split at h
    · cases h
    · next hmove _ =>
      cases h
      exact ⟨rfl, hmove⟩
    · cases h

/-- What the layout before a line reports about what is left out. -/
theorem Moves.losses_eq {s s' : State} {l : Line} (level : Nat) (h : Moves s l s') :
    losses s'.findings = losses s.findings ++
      if 0 < s'.skipped then (Outcome.report? ⟨level, l, s.loss l⟩).toList else [] := by
  cases h with
  | further line move skipping => simp [loss, skipping, Outcome.report?]
  | opened line uid type explicit number content move reading opener => simp [reading]
  | dropped line move reading opener => simp [loss, reading, opener, Outcome.report?]
  | unexpected line move reading opener =>
    rw [losses_append, losses_singleton rfl]
    simp [loss, reading, opener, move, Outcome.report?]
  | back levels move fits =>
    have hmissing := losses_of_mild (mild_missingBlock s.opener)
    have hfindings : losses ({ s with
        opener := .none
        skipped := s.skipped - levels
        findings := s.findings ++ missingBlock s.opener }.closing
          (levels - s.skipped)).findings = losses s.findings := by
      refine (losses_append _ _).trans ?_
      rw [losses_append, hmissing, List.append_nil, losses_pending, List.append_nil]
    rw [hfindings]
    split
    · next hs =>
      have hskipped : 0 < s.skipped := Nat.lt_of_lt_of_le hs (Nat.sub_le _ _)
      simp [loss, hskipped, Outcome.report?]
    · rw [List.append_nil]

/-- What the content of a line adds to that. -/
theorem Handles.losses_eq {s s' : State} {l : Line} {loss fate : Fate} (level : Nat)
    (h : Handles s l loss fate s') :
    losses s'.findings = losses s.findings ++
      if 0 < s.skipped then [] else (Outcome.report? ⟨level, l, fate⟩).toList := by
  have hrepeated : ∀ {node : LineNode}, Reading.ofTokens l.tokens = .node node →
      losses (node.repeated.map fun c => ⟨c, l.number, Token.render l.tokens⟩) = [] := by
    intro node meaning
    refine losses_of_mild fun f hf => ?_
    obtain ⟨c, hc, rfl⟩ := List.mem_map.mp hf
    exact mild_repeated (declares_of_ofTokens meaning) c hc
  cases h with
  | lost skipping => simp [skipping]
  | empty reading none => simp [reading, Outcome.report?]
  | note kind text reading ne meaning => simp [findings_note, reading, Outcome.report?]
  | faulty fault reading ne meaning =>
    simp only [reject, report]
    rw [losses_append, losses_singleton rfl]
    simp [reading, Outcome.report?]
  | refused node reading ne meaning refuses =>
    have hloses : (refusal s.scope node).loses = true := by
      rw [Complaint.loses, rejects_refusal, Bool.true_or]
    simp only [reject, report, reportAll]
    rw [losses_append, losses_append, hrepeated meaning, losses_singleton hloses]
    simp [reading, Outcome.report?]
  | node node reading ne meaning allows =>
    have hredeclared : losses ((redeclaration s.scope node.body).map fun c =>
        ⟨c, l.number, Token.render l.tokens⟩) = [] := by
      refine losses_of_mild fun f hf => ?_
      obtain ⟨c, hc, rfl⟩ := List.mem_map.mp hf
      exact mild_redeclaration s.scope node.body c hc
    rw [add_eq]
    simp only [reportAll]
    rw [losses_append, losses_append, hrepeated meaning, hredeclared]
    simp [reading, Outcome.report?]

/-- **A line reports what its fate says.** -/
theorem losses_step {s : State} {l : Line} (hfits : l.move.Fits s.depth) :
    losses (s.step l).findings = losses s.findings ++ (s.outcome l).report?.toList := by
  obtain ⟨hmoves, hhandles⟩ := step_cases hfits
  rw [hhandles.losses_eq (s.outcome l).level, hmoves.losses_eq (s.outcome l).level]
  split
  · next hs =>
    rw [List.append_nil, ← (hhandles.eq_of_skipping hs).1]
    rfl
  · rw [List.append_nil]
    rfl

end State

/-- What a run has reported about what is left out. -/
theorem losses_run {ls : List Line} (h : Fits 0 ls) :
    losses (run ls).findings = (outcomes ls).filterMap Outcome.report? := by
  have hrun := run_induction
    (motive := fun past s => losses s.findings = past.reverse.filterMap Outcome.report?)
    [] .initial h rfl fun past s l hs hfits => by
      rw [State.losses_step hfits, hs, List.reverse_cons, List.filterMap_append]
      cases hr : (s.outcome l).report? <;> simp [hr]
  rw [List.append_nil, List.reverse_reverse] at hrun
  exact hrun

/-- A block at the end of the stream, with no line in it, may be reported too. -/
theorem losses_ofStream {stream : Stream} (hlines : Fits 0 stream.lines)
    (htrailing : stream.trailing.Fits (levelAfter 0 stream.lines)) :
    ∃ rest, losses (ofStream stream).findings =
        (outcomes stream.lines).filterMap Outcome.report? ++ rest ∧ rest.length ≤ 1 ∧
      ∀ f ∈ rest, f.complaint = .unexpectedIndentation ∧ stream.trailing = .deeper f.line := by
  have hfits : stream.trailing.Fits (run stream.lines).depth := by
    rw [depth_run hlines]
    exact htrailing
  have hmoves := State.moves (l := ⟨stream.trailing, []⟩) hfits
  have hfinish : losses (ofStream stream).findings =
      losses ((run stream.lines).move stream.trailing []).findings := by
    show losses ((run stream.lines).finish stream.trailing).findings = _
    rw [State.findings_finish, losses_append, losses_append, losses_pending,
      losses_of_mild (State.mild_missingBlock _), List.append_nil, List.append_nil]
  refine ⟨_, hfinish.trans ((hmoves.losses_eq 0).trans (by rw [losses_run hlines])), ?_, ?_⟩
  · split
    · cases (Outcome.report? _) <;> simp
    · simp
  · intro f hf
    split at hf
    · exact State.report_loss (Option.mem_toList.mp hf)
    · cases hf

/-! ## What the lines say -/

/-- The line is a note: `description:` with a text, or `@`. -/
def Line.annotates (l : Line) : Bool :=
  match Reading.ofTokens l.tokens with
  | .note .. => true
  | _ => false

theorem Line.annotates_iff (l : Line) :
    l.annotates = true ↔ ∃ kind text, Remarks l.tokens kind text := by
  constructor
  · unfold Line.annotates
    intro h
    split at h
    · next kind text hr => exact ⟨kind, text, remarks_of_ofTokens hr⟩
    · cases h
  · rintro ⟨kind, text, hr⟩
    have hreading : Reading.ofTokens l.tokens = .note kind text := by
      generalize l.tokens = ts at hr
      cases hr with
      | intent t ts hk => simp [Reading.ofTokens, hk]
      | description k colon text keyword after =>
        have hk : k.kind ≠ .intent := by
          intro hk
          simp [Token.isKeyword, hk] at keyword
        simp [Reading.ofTokens, Reading.ofDescription, hk, keyword, after]
    simp [Line.annotates, hreading]

/-- A line that is read as a node is not a note, and it declares the node. -/
theorem lineNode_of_ofTokens {ts : List Token} {node : LineNode} (hne : ts ≠ [])
    (h : Reading.ofTokens ts = .node node) : lineNode ts = .ok node := by
  cases ts with
  | nil => exact absurd rfl hne
  | cons t rest =>
    unfold Reading.ofTokens at h
    simp only at h
    split at h
    · cases h
    · split at h
      · unfold Reading.ofDescription at h
        split at h
        · cases h
        · split at h <;> cases h
      · split at h
        · next n hn =>
          cases h
          exact hn
        · cases h

/-- A line declares its node without notes. -/
theorem bare_of_declares {ts : List Token} {node : LineNode} (h : Declares ts node) :
    node.body.bare = node.body := by
  cases h <;> rfl

/-- A line is rejected under one of three codes. -/
theorem code_of_rejects {c : Complaint} (h : c.rejects = true) :
    c.code ∈ [.notAllowedHere, .lateModule, .malformedDeclaration] := by
  cases c <;> simp_all [Complaint.code, Complaint.rejects]

/-- The fate agrees with what the tokens of the line say. -/
def Outcome.Sound (o : Outcome) : Prop :=
  match o.fate with
  | .empty => o.line.tokens = []
  | .node node => o.line.tokens ≠ [] ∧ o.line.annotates = false ∧ lineNode o.line.tokens = .ok node
  | .note kind text => o.line.tokens ≠ [] ∧ Remarks o.line.tokens kind text
  | .rejected complaint =>
    o.line.tokens ≠ [] ∧ o.line.annotates = false ∧
      complaint.code ∈ [.notAllowedHere, .lateModule, .malformedDeclaration]
  | .orphaned | .unexpected _ | .skipped => True

theorem State.sound_outcome (s : State) (l : Line) : (s.outcome l).Sound := by
  have hloss := s.isLost_loss l
  have hhandles := State.handles s l
  unfold Outcome.Sound outcome
  simp only
  generalize s.fate l = fate, s.loss l = loss, s.step l = s' at hhandles hloss
  cases hhandles with
  | lost skipping => cases fate <;> trivial
  | empty reading none => exact none
  | note kind text reading ne meaning => exact ⟨ne, remarks_of_ofTokens meaning⟩
  | faulty fault reading ne meaning => exact ⟨ne, by simp [Line.annotates, meaning], code_of_rejects rfl⟩
  | refused node reading ne meaning refuses =>
    exact ⟨ne, by simp [Line.annotates, meaning], code_of_rejects (rejects_refusal _ _)⟩
  | node node reading ne meaning allows =>
    exact ⟨ne, by simp [Line.annotates, meaning], lineNode_of_ofTokens ne meaning⟩

/-! ## Nodes -/

/-- The node is that of the line, but for the notes that other lines may have added to it. -/
def Line.Gives (l : Line) (n : Node) : Prop :=
  n.line = l.number ∧ ∃ node, lineNode l.tokens = .ok node ∧ n.body.bare = node.body

def Fate.isNode : Fate → Bool
  | node _ => true
  | _ => false

theorem Fate.isNode_iff {fate : Fate} : fate.isNode = true ↔ ∃ node, fate = .node node := by
  cases fate <;> simp [isNode]

/-- The lines that give nodes. -/
def nodeLines (outs : List Outcome) : List Line :=
  (outs.filter fun o => o.fate.isNode).map Outcome.line

theorem nodeLines_cons_node {o : Outcome} {node : LineNode} (h : o.fate = .node node)
    (outs : List Outcome) : nodeLines (o :: outs) = o.line :: nodeLines outs := by
  simp [nodeLines, h, Fate.isNode]

theorem nodeLines_cons_of_ne {o : Outcome} (h : ¬ ∃ node, o.fate = .node node)
    (outs : List Outcome) : nodeLines (o :: outs) = nodeLines outs := by
  have hnode : ¬ o.fate.isNode = true := fun hn => h (Fate.isNode_iff.mp hn)
  simp [nodeLines, hnode]

/-- The nodes of a tree from rows, in the order of their numbers. -/
theorem TableOf.headers_eq {rs : List Row} {t : Table} (h : TableOf rs t) :
    (t.toList.drop 1).map (fun n => (n.line, n.body.bare)) =
      rs.reverse.map fun r => (r.line, r.body) := by
  obtain ⟨full, rfl, rfl⟩ := h
  have hall : ∀ rs : List Row, (Table.ofRows rs).toList.map (fun n => (n.line, n.body.bare)) =
      (0, .root) :: (rs.map fun r => (r.line, r.body.bare)).reverse := by
    intro rs
    induction rs with
    | nil => rfl
    | cons r before ih =>
      rw [Table.ofRows, Table.map_push fun _ _ => rfl, ih]
      simp
  rw [List.map_drop, hall, List.drop_succ_cons, List.drop_zero, List.map_reverse, List.map_map]
  rfl

/-- Each line that gives a node gives the next one. -/
theorem forall₂_nodeLines {outs : List Outcome} (hsound : ∀ o ∈ outs, o.Sound) {ns : List Node}
    (h : ns.map (fun n => (n.line, n.body.bare)) =
      (outs.filterMap Outcome.row?).map fun r => (r.line, r.body)) :
    List.Forall₂ Line.Gives (nodeLines outs) ns := by
  induction outs generalizing ns with
  | nil =>
    obtain rfl : ns = [] := List.map_eq_nil_iff.mp h
    exact .nil
  | cons o outs ih =>
    have hrest : ∀ p ∈ outs, p.Sound := fun p hp => hsound p (List.mem_cons_of_mem _ hp)
    by_cases hnode : ∃ node, o.fate = .node node
    · obtain ⟨node, hfate⟩ := hnode
      have hrow : o.row? = some ⟨o.level, o.line.number, node.body.bare⟩ := by
        simp [Outcome.row?, hfate]
      rw [List.filterMap_cons_some hrow, List.map_cons] at h
      obtain ⟨n, ns, rfl, hn, hns⟩ := List.map_eq_cons_iff.mp h
      obtain ⟨hline, hbody⟩ := Prod.mk.inj hn
      have ho : o.Sound := hsound o List.mem_cons_self
      simp only [Outcome.Sound, hfate] at ho
      have hbare := bare_of_declares (declares_of_lineNode ho.2.2)
      rw [nodeLines_cons_node hfate]
      exact .cons ⟨hline, node, ho.2.2, hbody.trans hbare⟩ (ih hrest hns)
    · have hrow : o.row? = none := by
        unfold Outcome.row?
        split
        · next node hfate => exact absurd ⟨node, hfate⟩ hnode
        · rfl
      rw [List.filterMap_cons_none hrow] at h
      rw [nodeLines_cons_of_ne hnode]
      exact ih hrest h

/-! ## The account -/

/-- The codes under which a line or a block is reported as left out. -/
def lossCodes : List Diagnostic.Code :=
  [.notAllowedHere, .lateModule, .malformedDeclaration, .unexpectedIndentation]

theorem mem_lossCodes (c : Complaint) : c.code ∈ lossCodes ↔ c.loses = true := by
  cases c <;> simp [lossCodes, Complaint.code, Complaint.loses, Complaint.rejects]

/-- The diagnostic about a line that is left out, or about its block. -/
def Outcome.diagnostic? (o : Outcome) : Option Diagnostic := o.report?.map Finding.diagnostic

/-- What the lines of a stream come to, and where each of them is found again in the result. -/
structure LineAccount (stream : Stream) (outs : List Outcome) (parsed : Parsed) : Prop where
  /-- Every line has one fate. -/
  lines : outs.map Outcome.line = stream.lines
  levels : ∀ before o after, outs = before ++ o :: after →
    o.level = levelAfter 0 ((before ++ [o]).map Outcome.line)
  sound : ∀ o ∈ outs, o.Sound
  /-- The lines that give nodes are, in their order, the nodes below the root. -/
  nodes : List.Forall₂ Line.Gives (nodeLines outs) (parsed.table.toList.drop 1)
  /-- What is reported as left out is, in their order, the rejected lines and the blocks that nothing
  announced, and perhaps a block after the last line. -/
  reports : ∃ rest, parsed.diagnostics.filter (fun d => d.code ∈ lossCodes) =
      outs.filterMap Outcome.diagnostic? ++ rest ∧ rest.length ≤ 1 ∧
    ∀ d ∈ rest, d.code = .unexpectedIndentation ∧ stream.trailing = .deeper d.line
  /-- The lines that are lost are those of blocks that follow a rejected opener or that nothing
  announced. -/
  lost : ∀ before o after, outs = before ++ o :: after →
    (o.fate.isLost = true ↔ Lost (o :: before.reverse))

theorem losses_eq_filter (fs : List Finding) :
    (fs.map Finding.diagnostic).filter (fun d => d.code ∈ lossCodes) =
      (losses fs).map Finding.diagnostic := by
  rw [List.filter_map, losses]
  congr 1
  refine List.filter_congr fun f _ => ?_
  have hcode : f.diagnostic.code = f.complaint.code := rfl
  simp [hcode, mem_lossCodes]

/-- **The outcomes of a run account for its lines and for its result.** -/
theorem lineAccount_ofStream {ts : List Token} {stream : Stream} (h : Stream.ofTokens ts = .ok stream) :
    LineAccount stream (outcomes stream.lines) (ofStream stream) where
  lines := map_line_outcomesFrom _ _
  levels := by
    intro before o after hsplit
    obtain ⟨ls, l, ms, hls, rfl, rfl⟩ := outcomes_split hsplit
    have hfits := (Stream.spells_of_ofTokens h).2.1
    rw [hls, fits_append] at hfits
    rw [List.map_append, outcomes, map_line_outcomesFrom]
    show l.move.target (run ls).depth = levelAfter 0 (ls ++ [l])
    rw [depth_run hfits.1]
    simp [levelAfter]
  sound := forall_mem_outcomes State.sound_outcome stream.lines
  nodes := by
    obtain ⟨htable, -⟩ := tableOf_ofStream h
    refine forall₂_nodeLines (forall_mem_outcomes State.sound_outcome stream.lines) ?_
    rw [htable.headers_eq]
    simp [rows]
  reports := by
    obtain ⟨-, hlines, htrailing⟩ := Stream.spells_of_ofTokens h
    obtain ⟨rest, hlosses, hlength, hrest⟩ := losses_ofStream hlines htrailing
    refine ⟨rest.map Finding.diagnostic, ?_, by simpa using hlength, ?_⟩
    · show ((ofStream stream).findings.map Finding.diagnostic).filter _ = _
      rw [losses_eq_filter, hlosses, List.map_append, List.map_filterMap]
      rfl
    · intro d hd
      obtain ⟨f, hf, rfl⟩ := List.mem_map.mp hd
      obtain ⟨hcomplaint, htrail⟩ := hrest f hf
      exact ⟨congrArg Complaint.code hcomplaint, htrail⟩
  lost := by
    intro before o after hsplit
    obtain ⟨ls, l, ms, hls, rfl, rfl⟩ := outcomes_split hsplit
    have hfits := (Stream.spells_of_ofTokens h).2.1
    rw [hls, fits_append] at hfits
    exact isLost_iff_lost (losing_run hfits.1) (depth_run hfits.1 ▸ hfits.2.1)

/-- A lost line is lost with a line that is reported. -/
theorem exists_report_of_lost {before : List Outcome} {o : Outcome}
    (h : Lost (o :: before.reverse)) : ∃ p ∈ before ++ [o], p.report?.isSome = true := by
  obtain ⟨inside, first, older, hpast, ⟨-, hcause⟩, -⟩ := h
  have hmem : ∀ p ∈ first :: older, p ∈ before ++ [o] := by
    intro p hp
    have : p ∈ o :: before.reverse := hpast ▸ List.mem_append_right _ hp
    simpa [or_comm] using this
  rcases hcause with ⟨p, hp, ⟨c, hc⟩, -⟩ | ⟨line, hfate⟩
  · exact ⟨p, hmem p (List.mem_cons_of_mem _ (List.mem_of_mem_head? hp)), by
      simp [Outcome.report?, hc]⟩
  · exact ⟨first, hmem first List.mem_cons_self, by simp [Outcome.report?, hfate]⟩

namespace LineAccount

variable {stream : Stream} {outs : List Outcome} {parsed : Parsed}

/-- Where nothing has been found wrong no line is reported, so none is lost. -/
theorem kept_of_clean (h : LineAccount stream outs parsed) (hclean : parsed.diagnostics = []) :
    ∀ o ∈ outs, o.report? = none ∧ o.fate.isLost = false := by
  obtain ⟨rest, hreports, -⟩ := h.reports
  have hnil : outs.filterMap Outcome.diagnostic? = [] := by
    rw [hclean] at hreports
    exact (List.append_eq_nil_iff.mp hreports.symm).1
  have hnone : ∀ o ∈ outs, o.report? = none := by
    intro o ho
    simpa [Outcome.diagnostic?] using List.filterMap_eq_nil_iff.mp hnil o ho
  intro o ho
  refine ⟨hnone o ho, Bool.eq_false_iff.mpr fun hlost => ?_⟩
  obtain ⟨before, after, hsplit⟩ := List.append_of_mem ho
  obtain ⟨p, hp, hreport⟩ := exists_report_of_lost ((h.lost before o after hsplit).mp hlost)
  have hmem : p ∈ outs := by
    rw [hsplit]
    simp only [List.mem_append, List.mem_cons, List.not_mem_nil, or_false] at hp ⊢
    exact hp.imp id .inl
  rw [hnone p hmem] at hreport
  cases hreport

/-- Where nothing has been found wrong, every line that has something on it and is not a note gives a
node. -/
theorem nodeLines_of_clean (h : LineAccount stream outs parsed) (hclean : parsed.diagnostics = []) :
    nodeLines outs = stream.lines.filter fun l => l.tokens ≠ [] && !l.annotates := by
  rw [← h.lines, List.filter_map, nodeLines]
  congr 1
  refine List.filter_congr fun o ho => ?_
  obtain ⟨hreport, hlost⟩ := h.kept_of_clean hclean o ho
  have hsound := h.sound o ho
  unfold Outcome.Sound at hsound
  cases hfate : o.fate with
  | empty =>
    rw [hfate] at hsound
    simp [Fate.isNode, hsound]
  | node node =>
    rw [hfate] at hsound
    simp [Fate.isNode, hsound]
  | note kind text =>
    rw [hfate] at hsound
    have hnote := o.line.annotates_iff.mpr ⟨kind, text, hsound.2⟩
    simp [Fate.isNode, hnote]
  | rejected c => simp [Outcome.report?, hfate] at hreport
  | orphaned => simp [Fate.isLost, hfate] at hlost
  | unexpected line => simp [Fate.isLost, hfate] at hlost
  | skipped => simp [Fate.isLost, hfate] at hlost

end LineAccount

/-- **No line of a token list is lost silently.** Its lines are accounted for one by one, and where
nothing has been found wrong the nodes of the tree are, in their order, the lines that are not notes
and not empty. -/
theorem lineAccount_parse {ts : List Token} {parsed : Parsed} (h : parse ts = .ok parsed) :
    ∃ stream outs, Stream.ofTokens ts = .ok stream ∧ stream.Spells ts ∧
      LineAccount stream outs parsed ∧
      (parsed.diagnostics = [] → List.Forall₂ Line.Gives
        (stream.lines.filter fun l => l.tokens ≠ [] && !l.annotates)
        (parsed.table.toList.drop 1)) := by
  obtain ⟨stream, hstream, rfl⟩ := parse_eq_ok_iff.mp h
  have haccount := lineAccount_ofStream hstream
  refine ⟨stream, outcomes stream.lines, hstream, (Stream.spells_of_ofTokens hstream).1, haccount,
    fun hclean => ?_⟩
  rw [← haccount.nodeLines_of_clean hclean]
  exact haccount.nodes

/-- A step under a class that may not stand where it does, and a step that no line has announced. -/
def strayBlocks : List Token :=
  [⟨.keyword, "func", 1⟩, ⟨.identifier, "f", 1⟩, .bare .newline 1, .bare .indent 2,
   ⟨.keyword, "class", 2⟩, ⟨.identifier, "C", 2⟩, .bare .newline 2, .bare .indent 3,
   ⟨.identifier, "go", 3⟩, .bare .newline 3, .bare .dedent 4, ⟨.identifier, "on", 4⟩,
   .bare .newline 4, .bare .indent 5, ⟨.identifier, "up", 5⟩, .bare .newline 5, .bare .dedent 6,
   .bare .dedent 6, .bare .endOfFile 6]

theorem lineAccount_strayBlocks :
    ∃ parsed, parse strayBlocks = .ok parsed ∧
      parsed.diagnostics.map Diagnostic.code = [.notAllowedHere, .unexpectedIndentation] ∧
      ∃ stream outs, Stream.ofTokens strayBlocks = .ok stream ∧ stream.Spells strayBlocks ∧
        LineAccount stream outs parsed ∧
        (parsed.diagnostics = [] → List.Forall₂ Line.Gives
          (stream.lines.filter fun l => l.tokens ≠ [] && !l.annotates)
          (parsed.table.toList.drop 1)) := by
  have hparse : parse strayBlocks = .ok _ := (parse_eq strayBlocks).trans rfl
  exact ⟨_, hparse, rfl, lineAccount_parse hparse⟩

end IntentCode.Parser
