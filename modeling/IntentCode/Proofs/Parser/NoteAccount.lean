import IntentCode.Proofs.Parser.Held
import Mathlib.Data.List.Induction

/-!
# The account of the notes

What `Held` says of the state after the last line is what a reader of the tree can check
(`noteAccount_parse`). Every note line is read as a note unless it is lost with a block. Whose it is
depends on the tree and on the place of the note alone: the last declaration before it in its
scope, or else the first one after it. A declaration has exactly the texts of its notes, and a
note that no declaration of its scope can own is reported once, when the scope closes.
-/

set_option autoImplicit false

namespace IntentCode.Parser

open Ast

/-! ## Texts -/

/-- A note that has grown from lines is those that are not blank, one to a line. -/
theorem foldl_addLine_empty (texts : List String) :
    texts.foldl State.addLine "" =
      String.intercalate "\n" (texts.filter fun t => !Text.isBlankString t) := by
  have hne : ∀ {us : List String}, us ≠ [] → (∀ u ∈ us, u ≠ "") →
      String.intercalate "\n" us ≠ "" := by
    intro us hus hall
    cases us with
    | nil => exact absurd rfl hus
    | cons u us =>
      have hu : u ≠ "" := hall u List.mem_cons_self
      cases us with
      | nil => simpa using hu
      | cons v us =>
        rw [String.intercalate_cons_cons]
        simp [hu]
  induction texts using List.reverseRecOn with
  | nil => rfl
  | append_singleton texts t ih =>
    rw [List.foldl_append, ih, List.foldl_cons, List.foldl_nil, List.filter_append, State.addLine]
    cases hblank : Text.isBlankString t with
    | true => simp [hblank]
    | false =>
      by_cases hnil : texts.filter (fun t => !Text.isBlankString t) = []
      · simp [hblank, hnil]
      · have hkept : ∀ u ∈ texts.filter (fun t => !Text.isBlankString t), u ≠ "" := by
          rintro u hu rfl
          have := (List.mem_filter.mp hu).2
          cases this
        simp [hblank, hne hnil hkept, Text.intercalate_concat hnil]

/-- The texts of the notes of one kind that are not blank, one to a line. -/
def joined (kind : NoteKind) (rems : List Remark) : String :=
  String.intercalate "\n"
    (((rems.filter fun r => r.note.kind = kind).map fun r => r.note.text).filter
      fun t => !Text.isBlankString t)

/-- Descriptions and intent comments grow side by side. -/
theorem collected_eq (rems : List Remark) :
    collected (rems.map Remark.note) = ⟨joined .description rems, joined .intent rems⟩ := by
  have hgrow : ∀ ns : Notes, withRemarks (rems.map Remark.note) ns =
      ⟨((rems.filter fun r => r.note.kind = .description).map fun r => r.note.text).foldl
          State.addLine ns.description,
        ((rems.filter fun r => r.note.kind = .intent).map fun r => r.note.text).foldl
          State.addLine ns.intent⟩ := by
    induction rems with
    | nil => exact fun ns => rfl
    | cons r rems ih =>
      intro ns
      have hstep : withRemarks ((r :: rems).map Remark.note) ns =
          withRemarks (rems.map Remark.note) (State.addNote r.note.kind r.note.text ns) := rfl
      rw [hstep, ih]
      cases hkind : r.note.kind <;> simp [hkind, State.addNote]
  rw [collected, hgrow]
  simp only [Notes.none, foldl_addLine_empty]
  rfl

/-! ## The account -/

/-- The warning about a note without an owner. -/
def Remark.warning (r : Remark) : Diagnostic :=
  { code := .detachedNote
    severity := .warning
    message := s!"{r.note.kind.describe} is not attached to any declaration"
    line := r.note.line
    content := r.note.content
    suggestions := []
    notes := [] }

/-- The notes among the lines of a stream, and where each of them ends up. -/
structure NoteAccount (stream : Stream) (outs : List Outcome) (parsed : Parsed) : Prop where
  /-- A note is read as one unless it is lost with a block. -/
  read : ∀ o ∈ outs, (∃ kind text, o.fate = .note kind text) ↔
    o.line.annotates = true ∧ o.fate.isLost = false
  /-- Its place is the scope that is open where it is read, after the nodes that there are. -/
  place : ∀ before o after kind text, outs = before ++ o :: after → o.fate = .note kind text →
    let s := run ((before ++ [o]).map Outcome.line)
    o.remark? (rows before.reverse) = some ⟨s.scope.uid, s.table.size - 1,
      ⟨kind, text, o.line.number, Token.render o.line.tokens⟩⟩
  /-- A declaration has the texts of the notes that it owns, in the order of the source. -/
  notes : ∀ uid n, parsed.table.get? uid = some n → n.body.isDeclaration = true →
    let mine := (remarks outs.reverse).filter fun r => r.owner? parsed.table = some uid
    n.body.notes? = some ⟨joined .description mine, joined .intent mine⟩
  /-- A note that no one owns is reported once, and no other is. -/
  warnings : (parsed.diagnostics.filter fun d => d.code = .detachedNote).Perm
    (((remarks outs.reverse).filter fun r => r.owner? parsed.table = none).map Remark.warning)
  /-- It is reported when its scope closes: after some of the lines, the notes that have been reported
  are those that no one owns and whose scope is not open any more. -/
  closing : ∀ ls, ls <+: stream.lines →
    ((run ls).findings.filter fun f => f.complaint.code = .detachedNote).Perm
      (((remarks (outcomes ls).reverse).filter fun r =>
        r.owner? (run ls).table = none ∧ r.scope ∉ (run ls).scopes.map Scope.uid).map
          fun r => r.note.finding)

/-- A note is read in the scope that is open after its line. -/
theorem remark?_run {ls : List Line} {l : Line} (h : Fits 0 (ls ++ [l])) {kind : NoteKind}
    {text : String} (hfate : (run ls).fate l = .note kind text) :
    ((run ls).outcome l).remark? (rows (outcomes ls).reverse) =
      some ⟨(run (ls ++ [l])).scope.uid, (run (ls ++ [l])).table.size - 1,
        ⟨kind, text, l.number, Token.render l.tokens⟩⟩ := by
  obtain ⟨hplaced, -⟩ := placed_run h
  have hfits := fits_append.mp h
  have hline : l.move.Fits (run ls).depth := by
    rw [depth_run hfits.1]
    exact hfits.2.1
  obtain ⟨-, hhandles⟩ := State.step_cases hline
  have hskipped : (run (ls ++ [l])).skipped = 0 := by
    rw [run_concat, hhandles.outer_eq.2]
    refine Nat.eq_zero_of_not_pos fun hs => ?_
    have hlost := (hhandles.isLost_iff (State.isLost_loss _ _)).mpr (hhandles.outer_eq.2 ▸ hs)
    rw [hfate] at hlost
    cases hlost
  have hlevel : ((run ls).outcome l).level = (run (ls ++ [l])).outer.length := by
    have hdepth := State.depth_step hline
    rw [← run_concat, State.depth, hskipped] at hdepth
    exact hdepth.symm
  have hrows : rows (outcomes (ls ++ [l])).reverse = rows (outcomes ls).reverse := by
    have hsplit : outcomes (ls ++ [l]) = outcomes ls ++ [(run ls).outcome l] :=
      outcomesFrom_append ..
    have hnone : ((run ls).outcome l).row? = none := by simp [Outcome.row?, State.outcome, hfate]
    rw [hsplit, List.reverse_concat, rows_cons, hnone]
    rfl
  rw [hrows] at hplaced
  have huid := hplaced.scopes.1.uid
  have hsize := hplaced.table.size_eq
  rw [huid, hsize, Nat.add_sub_cancel, ← hlevel]
  simp only [Outcome.remark?, State.outcome, hfate]

/-- The tree knows the owner of a note. -/
theorem TableOf.owner?_eq {rs : List Row} {t : Table} (h : TableOf rs t) (r : Remark) :
    r.owner? t = r.ownerIn rs := by
  obtain ⟨full, rfl, rfl⟩ := h
  rw [Remark.owner?, Table.declaredChildren_ofRows, Remark.ownerIn, declaredIn_map_bare]

theorem Outcome.Sound.note_iff {o : Outcome} (h : o.Sound) :
    (∃ kind text, o.fate = .note kind text) ↔ o.line.annotates = true ∧ o.fate.isLost = false := by
  unfold Outcome.Sound at h
  cases hfate : o.fate with
  | empty =>
    rw [hfate] at h
    simp [Line.annotates, h, Reading.ofTokens]
  | note kind text =>
    rw [hfate] at h
    have hnote := o.line.annotates_iff.mpr ⟨kind, text, h.2⟩
    simp [Fate.isLost, hnote]
  | node node =>
    rw [hfate] at h
    simp [h.2.1]
  | rejected c =>
    rw [hfate] at h
    simp [h.2.1]
  | orphaned => simp [Fate.isLost]
  | unexpected line => simp [Fate.isLost]
  | skipped => simp [Fate.isLost]

theorem warnings_eq (fs : List Finding) :
    (fs.map Finding.diagnostic).filter (fun d => d.code = .detachedNote) =
      (detachments fs).map Finding.diagnostic := by
  rw [List.filter_map]
  rfl

/-- What has been reported when everything is closed. -/
theorem detachments_ofStream {stream : Stream} (hlines : Fits 0 stream.lines)
    (htrailing : stream.trailing.Fits (levelAfter 0 stream.lines)) :
    (detachments (ofStream stream).findings).Perm
      ((loose (rows (outcomes stream.lines).reverse) (remarks (outcomes stream.lines).reverse) []).map
        fun r => r.note.finding) := by
  have hfits : stream.trailing.Fits (run stream.lines).depth := by
    rw [depth_run hlines]
    exact htrailing
  have hmoves := State.moves (l := ⟨stream.trailing, []⟩) hfits
  obtain ⟨hplaced, hannouncing⟩ := placed_run hlines
  have hmoved := (hplaced.move hannouncing hmoves).1
  have hheld := (held_run hlines).move hplaced hmoves
  have hnodup := hmoved.nodup_uids
  rw [← List.append_nil (List.map Scope.uid _)] at hnodup
  have hperm := loose_perm_append (rows (outcomes stream.lines).reverse)
    (remarks (outcomes stream.lines).reverse) hnodup
  show (detachments ((run stream.lines).finish stream.trailing).findings).Perm _
  rw [State.findings_finish, detachments_append, detachments_append, detachments_missingBlock,
    List.append_nil, hheld.detachments_pending (List.Subset.refl _)]
  refine .trans ?_ (hperm.map _).symm
  rw [List.map_append, List.append_nil]
  exact hheld.reported.append_right _

/-- **Every note of a token list ends up in one place.** It belongs to the declaration of its scope
that comes last before it, else to the first one; or it is reported once, when the scope closes. And a
declaration has the texts of exactly the notes that belong to it. The states in which the notes are read
and reported are those that the run comes to, a line in each round. -/
theorem noteAccount_parse {ts : List Token} {parsed : Parsed} (h : parse ts = .ok parsed) :
    ∃ stream outs, Stream.ofTokens ts = .ok stream ∧ stream.Spells ts ∧
      LineAccount stream outs parsed ∧ NoteAccount stream outs parsed ∧
      ∀ count, count ≤ stream.lines.length →
        ∃ ahead, State.Reaches ts count (run (stream.lines.take count)) ahead := by
  obtain ⟨stream, hstream, rfl⟩ := parse_eq_ok_iff.mp h
  obtain ⟨hspells, hlines, htrailing⟩ := Stream.spells_of_ofTokens hstream
  obtain ⟨htable, -⟩ := tableOf_ofStream hstream
  have hheld := held_run hlines
  refine ⟨stream, outcomes stream.lines, hstream, hspells, lineAccount_ofStream hstream,
    ⟨?_, ?_, ?_, ?_, ?_⟩, fun count hcount => ?_⟩
  · intro o ho
    exact (forall_mem_outcomes State.sound_outcome stream.lines o ho).note_iff
  · intro before o after kind text hsplit hfate
    obtain ⟨ls, l, ms, hls, rfl, rfl⟩ := outcomes_split hsplit
    have hprefix : Fits 0 (ls ++ [l]) := by
      have hsplit : stream.lines = (ls ++ [l]) ++ ms := by simp [hls]
      exact (fits_append.mp (hsplit ▸ hlines)).1
    rw [List.map_append, outcomes, map_line_outcomesFrom]
    exact remark?_run hprefix hfate
  · intro uid n hn hd mine
    have hmine : mine = owned (rows (outcomes stream.lines).reverse)
        (remarks (outcomes stream.lines).reverse) uid := by
      refine List.filter_congr fun r _ => ?_
      rw [htable.owner?_eq]
    have hrun : (ofStream stream).table = (run stream.lines).table := State.table_finish _ _
    rw [hrun] at hn
    rw [hheld.notes uid n hn hd, collected_eq, hmine]
  · have hnone : (remarks (outcomes stream.lines).reverse).filter
        (fun r => r.owner? (ofStream stream).table = none) =
          loose (rows (outcomes stream.lines).reverse) (remarks (outcomes stream.lines).reverse) [] := by
      refine List.filter_congr fun r _ => ?_
      rw [htable.owner?_eq]
      simp
    rw [hnone]
    show (((ofStream stream).findings.map Finding.diagnostic).filter _).Perm _
    rw [warnings_eq]
    refine ((detachments_ofStream hlines htrailing).map Finding.diagnostic).trans ?_
    rw [List.map_map]
    exact .refl _
  · rintro ls ⟨rest, hrest⟩
    have hprefix : Fits 0 ls := (fits_append.mp (hrest ▸ hlines)).1
    obtain ⟨hplaced, -⟩ := placed_run hprefix
    have hloose : (remarks (outcomes ls).reverse).filter (fun r =>
        r.owner? (run ls).table = none ∧ r.scope ∉ (run ls).scopes.map Scope.uid) =
          loose (rows (outcomes ls).reverse) (remarks (outcomes ls).reverse)
            ((run ls).scopes.map Scope.uid) := by
      refine List.filter_congr fun r _ => ?_
      rw [hplaced.table.owner?_eq]
    rw [hloose]
    exact (held_run hprefix).reported
  · obtain ⟨ahead, hreached, -⟩ := State.reaches_run hstream hcount
    exact ⟨ahead, hreached⟩

/-- A function with a note before it and one after its body, which itself has a note and nothing to
which it could belong. -/
def notesAround : List Token :=
  [⟨.intent, "first", 1⟩, .bare .newline 1, ⟨.keyword, "func", 2⟩, ⟨.identifier, "f", 2⟩,
   .bare .newline 2, .bare .indent 3, ⟨.keyword, "description", 3⟩, .bare .colon 3,
   ⟨.identifier, "alone", 3⟩, .bare .newline 3, ⟨.identifier, "go", 4⟩, .bare .newline 4,
   .bare .dedent 5, ⟨.intent, "last", 5⟩, .bare .newline 5, .bare .endOfFile 6]

theorem noteAccount_notesAround :
    ∃ parsed, parse notesAround = .ok parsed ∧
      parsed.diagnostics.map Diagnostic.code = [.detachedNote] ∧
      (parsed.table.get? 1).bind (fun n => n.body.notes?) = some ⟨"", "first\nlast"⟩ ∧
      ∃ stream outs, Stream.ofTokens notesAround = .ok stream ∧ stream.Spells notesAround ∧
        LineAccount stream outs parsed ∧ NoteAccount stream outs parsed ∧
        ∀ count, count ≤ stream.lines.length →
          ∃ ahead, State.Reaches notesAround count (run (stream.lines.take count)) ahead := by
  have hparse : parse notesAround = .ok _ := (parse_eq notesAround).trans rfl
  refine ⟨_, hparse, rfl, ?_, noteAccount_parse hparse⟩
  decide +kernel

end IntentCode.Parser
