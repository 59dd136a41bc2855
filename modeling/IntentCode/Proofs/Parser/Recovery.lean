import IntentCode.Proofs.Ast.Same
import IntentCode.Proofs.Lexer.Places
import IntentCode.Proofs.Parser.Layout
import IntentCode.Proofs.Parser.Header
import IntentCode.Proofs.Parser.OnLine

/-!
# Recovery is deletion

A line that the parser drops must leave no trace, and the way to say so is to run the parser a
second time without it. The two runs do not go through the same states. Where a block has lost all
its lines the second run never enters it; where a dropped line has closed scopes the second run
still has them open. What the two have in common is what the next line can reach: the open scopes,
and before them the one that has been announced (`State.reach`). The first run can never reach a
scope that the second cannot (`Covers`), and a line that is kept takes both to the same scope, where
they read it side by side (`Abreast`).

The two runs number their lines differently, so states are compared without numbers.
-/

set_option autoImplicit false

namespace IntentCode

namespace Parser

open Ast

/-! ## What the next line can reach -/

namespace State

/-- The scopes that the next line can reach, the innermost first. -/
def reach (s : State) : List Scope :=
  match s.opener with
  | .block uid type .. => .new uid type :: s.scopes
  | _ => s.scopes

theorem reach_of_opener {s : State}
    (h : ∀ uid type explicit line content, s.opener ≠ .block uid type explicit line content) :
    s.reach = s.scopes := by
  unfold reach
  cases ho : s.opener with
  | none => rfl
  | rejected => rfl
  | block uid type explicit line content => exact absurd ho (h _ _ _ _ _)

theorem scopes_suffix_reach (s : State) : s.scopes <:+ s.reach := by
  unfold reach
  split
  · exact List.suffix_cons _ _
  · exact List.suffix_refl _

/-- Whatever the layout does, it leads to scopes that could be reached. -/
theorem Arrives.reach_suffix {s s' : State} {l : LogicalLine} (h : Arrives s l s') :
    s'.reach <:+ s.reach := by
  cases h with
  | further level skipping => exact List.suffix_refl _
  | opened uid type explicit line content level reading opener =>
    unfold reach
    rw [opener]
    exact List.suffix_refl _
  | dropped level reading opener => exact s.scopes_suffix_reach
  | unexpected level reading opener => exact s.scopes_suffix_reach
  | back level =>
    rw [reach_of_opener (by simp [closing]), scopes_closing (Nat.sub_le _ _)]
    exact (List.drop_suffix _ _).trans s.scopes_suffix_reach

/-- If a line is not skipped, its level decides which scope it reaches. -/
theorem Arrives.reading {s s' : State} {l : LogicalLine} (h : Arrives s l s')
    (hs : s'.skipped = 0) :
    l.level < s.reach.length ∧ s'.scopes.length = l.level + 1 ∧ s'.opener = .none := by
  cases h with
  | further level skipping => simp at hs
  | opened uid type explicit line content level reading opener =>
    unfold depth at level
    unfold reach
    rw [opener]
    simp only [scopes, List.length_cons]
    exact ⟨by omega, by omega, trivial⟩
  | dropped level reading opener => simp at hs
  | unexpected level reading opener => simp at hs
  | back level =>
    simp only [closing] at hs
    have hlen := s.scopes_suffix_reach.length_le
    rw [scopes_closing (Nat.sub_le _ _)]
    simp only [scopes, List.length_drop, List.length_cons] at hlen ⊢
    exact ⟨by omega, by omega, rfl⟩

/-- A line that stands at a level that can be reached is not skipped. -/
theorem Arrives.reading_of_reach {s s' : State} {l : LogicalLine} (h : Arrives s l s')
    (hs : s.skipped = 0) (hl : l.level < s.reach.length) : s'.skipped = 0 := by
  have hscopes : s.scopes.length = s.outer.length + 1 := rfl
  cases h with
  | further level skipping => omega
  | opened uid type explicit line content level reading opener => exact reading
  | dropped level reading opener =>
    rw [reach_of_opener (by simp [opener])] at hl
    unfold depth at level
    omega
  | unexpected level reading opener =>
    rw [reach_of_opener (by simp [opener])] at hl
    unfold depth at level
    omega
  | back level =>
    simp only [closing]
    unfold depth at level
    omega

theorem level_le_of_reach {s : State} {level : Nat} (h : level < s.reach.length) :
    level ≤ s.depth + 1 := by
  unfold reach at h
  unfold depth
  split at h <;> simp only [scopes, List.length_cons] at h <;> omega

/-! ## What is dropped -/

/-- The complaints that reading a line adds. -/
def complaintsAt (s : State) (l : LogicalLine) : List Complaint :=
  ((s.read l).findings.drop s.findings.length).map Finding.complaint

/-- The line is rejected, or it lies in a block that is skipped. -/
def drops (s : State) (l : LogicalLine) : Bool :=
  0 < (s.read l).skipped || (s.complaintsAt l).any Complaint.rejects

/-- A complaint that no dropped line gives rise to. -/
def Mild (c : Complaint) : Prop := c.rejects = false ∧ c ≠ .unexpectedIndentation

theorem mild_pendingFindings (scope : Scope) : ∀ f ∈ pendingFindings scope, Mild f.complaint := by
  intro f hf
  obtain ⟨p, -, rfl⟩ := List.mem_map.mp hf
  exact ⟨rfl, by simp⟩

theorem mild_missingBlock (opener : Opener) : ∀ f ∈ missingBlock opener, Mild f.complaint := by
  intro f hf
  rw [(mem_missingBlock hf).1]
  exact ⟨rfl, by simp⟩

/-- The layout before a line rejects nothing, and where the line is read it is not unexpected. -/
theorem Arrives.findings {s s' : State} {l : LogicalLine} (h : Arrives s l s') :
    ∃ added, s'.findings = s.findings ++ added ∧
      (∀ f ∈ added, f.complaint.rejects = false) ∧
      (s'.skipped = 0 → ∀ f ∈ added, Mild f.complaint) := by
  cases h with
  | further level skipping => exact ⟨[], by simp⟩
  | opened uid type explicit line content level reading opener => exact ⟨[], by simp⟩
  | dropped level reading opener => exact ⟨[], by simp⟩
  | unexpected level reading opener => exact ⟨_, rfl, by simp [Complaint.rejects], by simp⟩
  | back level =>
    refine ⟨_, List.append_assoc _ _ _, ?_, fun _ => ?_⟩
    · intro f hf
      rcases List.mem_append.mp hf with hf | hf
      · exact (mild_missingBlock _ f hf).1
      · obtain ⟨scope, -, hf⟩ := List.mem_flatMap.mp hf
        exact (mild_pendingFindings scope f hf).1
    · intro f hf
      rcases List.mem_append.mp hf with hf | hf
      · exact mild_missingBlock _ f hf
      · obtain ⟨scope, -, hf⟩ := List.mem_flatMap.mp hf
        exact mild_pendingFindings scope f hf

theorem mild_redeclaration (scope : Scope) (body : Body) :
    ∀ c ∈ redeclaration scope body, Mild c := by
  intro c hc
  obtain ⟨name, rfl⟩ := mem_redeclaration hc
  exact ⟨rfl, by simp⟩

theorem mild_repeated {ts : List Token} {node : LineNode} (h : Declares ts node) :
    ∀ c ∈ node.repeated, Mild c := by
  intro c hc
  obtain ⟨what, name, rfl⟩ := h.mem_repeated hc
  exact ⟨rfl, by simp⟩

theorem rejects_refusal (scope : Scope) (node : LineNode) :
    (refusal scope node).rejects = true := by
  unfold refusal
  split <;> rfl

theorem findings_note (s : State) (kind : NoteKind) (text : String) (line : Nat)
    (content : String) : (s.note kind text line content).findings = s.findings := by
  unfold note
  split <;> rfl

theorem opener_note (s : State) (kind : NoteKind) (text : String) (line : Nat)
    (content : String) : (s.note kind text line content).opener = s.opener := by
  unfold note
  split <;> rfl

/-- A line is dropped if it lands in a skipped block, or if what it says is rejected there. -/
theorem drops_iff {s s' : State} {l : LogicalLine} {added : List Finding} (ha : Arrives s l s')
    (hs : (s.read l).skipped = s'.skipped) (hf : (s.read l).findings = s'.findings ++ added) :
    s.drops l = true ↔ 0 < s'.skipped ∨ ∃ f ∈ added, f.complaint.rejects = true := by
  obtain ⟨before, hbefore, hmild, -⟩ := ha.findings
  have hcomplaints : s.complaintsAt l = (before ++ added).map Finding.complaint := by
    unfold complaintsAt
    rw [hf, hbefore, List.append_assoc, List.drop_left']
    rfl
  unfold drops
  rw [hs, hcomplaints, Bool.or_eq_true, decide_eq_true_eq, List.any_map, List.any_eq_true]
  apply or_congr_right
  constructor
  · rintro ⟨f, hmem, hr⟩
    rcases List.mem_append.mp hmem with hmem | hmem
    · have hno := hmild f hmem
      simp only [Function.comp_apply] at hr
      rw [hno] at hr
      cases hr
    · exact ⟨f, hmem, hr⟩
  · rintro ⟨f, hmem, hr⟩
    exact ⟨f, List.mem_append_right _ hmem, hr⟩

/-- **A line that is dropped leaves nothing**: not in the tree, and nothing that could be reached
that could not be reached before. -/
theorem read_of_drops {s : State} {l : LogicalLine} (hl : l.level ≤ s.depth + 1)
    (h : s.drops l = true) :
    (s.read l).table = s.table ∧ (s.read l).reach <:+ s.reach := by
  obtain ⟨ha, ht⟩ := read_cases hl
  have htable : (s.arrive l).table = s.table := table_move _ _ _
  have hskipped := ht.outer_eq.2
  generalize harr : s.arrive l = s₁ at ha ht htable hskipped
  generalize hread : s.read l = s₂ at ht hskipped ⊢
  cases ht with
  | passed hp => exact ⟨htable, ha.reach_suffix⟩
  | noted kind text ne reading meaning =>
    have hadded : (s.read l).findings = s₁.findings ++ [] := by
      rw [hread, findings_note, List.append_nil]
    rw [drops_iff ha (hread ▸ hskipped) hadded] at h
    simp [reading] at h
  | faulty fault ne reading meaning =>
    refine ⟨htable, ?_⟩
    rw [reach_of_opener (opener_reject _ _ _ _ _)]
    exact s₁.scopes_suffix_reach.trans ha.reach_suffix
  | refused node ne reading meaning refuses =>
    refine ⟨htable, ?_⟩
    rw [reach_of_opener (opener_reject _ _ _ _ _)]
    exact s₁.scopes_suffix_reach.trans ha.reach_suffix
  | added node ne reading meaning allows =>
    rw [drops_iff ha (hread ▸ hskipped) (by rw [hread, add_eq, reportAll, List.append_assoc])] at h
    -- a line that gives a node has left no complaint that rejects it
    rcases h with h | ⟨f, hf, hr⟩
    · omega
    · exfalso
      rcases List.mem_append.mp hf with hf | hf
      · obtain ⟨c, hc, rfl⟩ := List.mem_map.mp hf
        rw [(mild_repeated (declares_of_ofTokens meaning) c hc).1] at hr
        cases hr
      · obtain ⟨c, hc, rfl⟩ := List.mem_map.mp hf
        rw [(mild_redeclaration _ _ c hc).1] at hr
        cases hr

/-- Where a line that is kept arrives, it is read. -/
theorem reading_of_keeps {s : State} {l : LogicalLine} (hl : l.level ≤ s.depth + 1)
    (h : s.drops l = false) : (s.arrive l).skipped = 0 := by
  obtain ⟨-, ht⟩ := read_cases hl
  have hskipped := ht.outer_eq.2
  unfold drops at h
  simp only [Bool.or_eq_false_iff, decide_eq_false_iff_not] at h
  omega

/-- What a kept line says is taken in. -/
inductive Keeps (s : State) (l : LogicalLine) : State → Prop
  | empty (h : l.tokens = []) : Keeps s l s
  | note (kind : NoteKind) (text : String) (ne : l.tokens ≠ [])
    (meaning : Reading.ofTokens l.tokens = .note kind text) :
    Keeps s l (s.note kind text l.number (Token.render l.tokens))
  | node (node : LineNode) (ne : l.tokens ≠ [])
    (meaning : Reading.ofTokens l.tokens = .node node)
    (allows : s.scope.allowed.allows node.body.type = true) :
    Keeps s l
      ((s.reportAll node.repeated l.number (Token.render l.tokens)).add node l.number l.tokens)

theorem keeps_of_drops {s : State} {l : LogicalLine} (hl : l.level ≤ s.depth + 1)
    (h : s.drops l = false) : Keeps (s.arrive l) l (s.read l) := by
  have hreading := reading_of_keeps hl h
  obtain ⟨ha, ht⟩ := read_cases hl
  have hskipped := ht.outer_eq.2
  generalize harr : s.arrive l = s₁ at ha ht hskipped hreading ⊢
  generalize hread : s.read l = s₂ at ht hskipped ⊢
  cases ht with
  | passed hp =>
    rcases hp with hp | hp
    · exact .empty hp
    · omega
  | noted kind text ne reading meaning => exact .note kind text ne meaning
  | faulty fault ne reading meaning =>
    exfalso
    have hd := (drops_iff ha (hread ▸ hskipped) (by rw [hread]; rfl)).mpr
      (.inr ⟨_, List.mem_singleton_self _, rfl⟩)
    rw [h] at hd
    cases hd
  | refused node ne reading meaning refuses =>
    exfalso
    have hd := (drops_iff ha (hread ▸ hskipped)
      (by rw [hread]; exact List.append_assoc _ _ _)).mpr
      (.inr ⟨_, List.mem_append_right _ (List.mem_singleton_self _), rejects_refusal _ _⟩)
    rw [h] at hd
    cases hd
  | added node ne reading meaning allows => exact .node node ne meaning allows

/-! ## Two runs -/

end State

/-- The note with no line to report it on. -/
def PendingNote.unnumbered (p : PendingNote) : PendingNote := { p with line := 0 }

def Scope.unnumbered (scope : Scope) : Scope :=
  { scope with pending := scope.pending.map .unnumbered }

namespace State

/-- Two states in which a line is about to be read, alike but for numbers and findings. -/
structure Alike (s t : State) : Prop where
  table : t.table.unnumbered = s.table.unnumbered
  scope : t.scope.unnumbered = s.scope.unnumbered
  outer : t.outer.map Scope.unnumbered = s.outer.map Scope.unnumbered

/-- Whatever the first run can reach, the second can reach as well. -/
structure Covers (s t : State) : Prop where
  reading : t.skipped = 0
  table : t.table.unnumbered = s.table.unnumbered
  reach : s.reach.map Scope.unnumbered <:+ t.reach.map Scope.unnumbered
  mild : ∀ f ∈ t.findings, Mild f.complaint

theorem Covers.initial : Covers .initial .initial :=
  ⟨rfl, rfl, List.suffix_refl _, by simp [State.initial]⟩

/-- The first run drops a line, and the second does not have it. -/
theorem Covers.drop {s t : State} (h : Covers s t) {l : LogicalLine} (hl : l.level ≤ s.depth + 1)
    (hd : s.drops l = true) : Covers (s.read l) t := by
  obtain ⟨htable, hreach⟩ := read_of_drops hl hd
  refine ⟨h.reading, ?_, ?_, h.mild⟩
  · rw [htable]
    exact h.table
  · exact (hreach.map _).trans h.reach

/-- Both runs stand at the same scope, where they are about to read a line. -/
structure Abreast (s t : State) : Prop where
  alike : Alike s t
  reading : t.skipped = 0
  /-- No block is announced. -/
  idle : s.opener = .none ∧ t.opener = .none
  mild : ∀ f ∈ t.findings, Mild f.complaint

/-- The layout before a line that is kept takes both runs to the same scopes. -/
theorem Covers.arrive {s t : State} (h : Covers s t) {l m : LogicalLine}
    (hl : l.level ≤ s.depth + 1) (hd : s.drops l = false) (hm : m.level = l.level) :
    m.level ≤ t.depth + 1 ∧ Abreast (s.arrive l) (t.arrive m) := by
  obtain ⟨has, -⟩ := read_cases hl
  obtain ⟨hlevel, hlen, hopener⟩ := has.reading (reading_of_keeps hl hd)
  have hreach : m.level < t.reach.length := by
    have := h.reach.length_le
    rw [List.length_map, List.length_map] at this
    omega
  have hle := level_le_of_reach hreach
  obtain ⟨hat, -⟩ := read_cases hle
  have hskipped := hat.reading_of_reach h.reading hreach
  obtain ⟨-, hlen', hopener'⟩ := hat.reading hskipped
  have hscopes : (t.arrive m).scopes.map Scope.unnumbered =
      (s.arrive l).scopes.map Scope.unnumbered := by
    -- both are the end of the same list
    have hs := (has.reach_suffix.map Scope.unnumbered).trans h.reach
    have ht := hat.reach_suffix.map Scope.unnumbered
    rw [reach_of_opener (by simp [hopener])] at hs
    rw [reach_of_opener (by simp [hopener'])] at ht
    exact List.IsSuffix.eq_of_length (List.suffix_of_suffix_length_le ht hs (by simp; omega))
      (by simp; omega)
  refine ⟨hle, ⟨?_, (List.cons.inj hscopes).1, (List.cons.inj hscopes).2⟩, hskipped,
    ⟨hopener, hopener'⟩, ?_⟩
  · have hts : (s.arrive l).table = s.table := table_move _ _ _
    have htt : (t.arrive m).table = t.table := table_move _ _ _
    rw [hts, htt]
    exact h.table
  · obtain ⟨added, hadded, -, hmild⟩ := hat.findings
    intro f hf
    rw [hadded] at hf
    rcases List.mem_append.mp hf with hf | hf
    · exact h.mild f hf
    · exact hmild hskipped f hf

/-! ## Content without numbers -/

theorem unnumbered_modify (t : Table) (uid : Nat) {f : Node → Node}
    (hf : ∀ n, { f n with line := 0 } = f { n with line := 0 }) :
    (t.modify uid f).unnumbered = t.unnumbered.modify uid f := by
  apply Table.ext_get?
  intro i
  rw [Table.get?_unnumbered, Table.get?_modify, Table.get?_modify, Table.get?_unnumbered]
  split
  · cases t.get? i <;> simp [hf]
  · rfl

theorem unnumbered_push (t : Table) (parent line : Nat) (body : Body) :
    (t.push parent line body).unnumbered = t.unnumbered.push parent 0 body := by
  unfold Table.push
  rw [unnumbered_modify _ _ fun n => rfl]
  simp [Table.unnumbered, Table.size]

theorem unnumbered_withNotes (t : Table) (uid : Nat) (notes : List PendingNote) :
    (withNotes t uid notes).unnumbered =
      withNotes t.unnumbered uid (notes.map .unnumbered) := by
  unfold withNotes
  induction notes generalizing t with
  | nil => rfl
  | cons p ps ih =>
    rw [List.map_cons, List.foldl_cons, List.foldl_cons, ih, unnumbered_modify _ _ fun n => rfl]
    rfl

theorem unnumbered_extended (scope : Scope) (uid : Nat) (body : Body) :
    (scope.extended uid body).unnumbered = scope.unnumbered.extended uid body := by
  unfold Scope.extended Scope.unnumbered
  split <;> rfl

theorem Alike.reach {s t : State} (h : Alike s t) (hs : s.reach = s.scopes)
    (ht : t.reach = t.scopes) :
    s.reach.map Scope.unnumbered <:+ t.reach.map Scope.unnumbered := by
  rw [hs, ht]
  simp only [scopes, List.map_cons, h.scope, h.outer]
  exact List.suffix_refl _

theorem Alike.size_eq {s t : State} (h : Alike s t) : t.table.size = s.table.size := by
  rw [← Table.size_unnumbered, h.table, Table.size_unnumbered]

/-- A note goes the same way in both. -/
theorem Alike.note {s t : State} (h : Alike s t) (kind : NoteKind) (text content : String)
    (m n : Nat) : Alike (s.note kind text m content) (t.note kind text n content) := by
  obtain ⟨htable, hscope, houter⟩ := h
  have hlast : t.scope.lastDecl = s.scope.lastDecl := by
    have := congrArg Scope.lastDecl hscope
    exact this
  unfold State.note
  rw [hlast]
  cases s.scope.lastDecl with
  | some uid =>
    refine ⟨?_, hscope, houter⟩
    simp only [attach_eq]
    rw [unnumbered_modify _ _ fun n => rfl, unnumbered_modify _ _ fun n => rfl, htable]
  | none =>
    refine ⟨htable, ?_, houter⟩
    simp only [Scope.unnumbered, Scope.mk.injEq, List.map_append, List.map_singleton] at hscope ⊢
    obtain ⟨huid, htype, hlast, hdecl, hdeclared, hpending⟩ := hscope
    refine ⟨huid, htype, hlast, hdecl, hdeclared, ?_⟩
    rw [hpending]
    rfl

/-- So does a node. -/
theorem Alike.add {s t : State} (h : Alike s t) (node : LineNode) (l m : LogicalLine) :
    Alike (s.add node l.number l.tokens) (t.add node m.number m.tokens) := by
  have hsize := h.size_eq
  obtain ⟨htable, hscope, houter⟩ := h
  have huid : t.scope.uid = s.scope.uid := by
    have := congrArg Scope.uid hscope
    exact this
  have hpending : t.scope.pending.map PendingNote.unnumbered =
      s.scope.pending.map PendingNote.unnumbered := by
    have := congrArg Scope.pending hscope
    exact this
  rw [add_eq, add_eq]
  refine ⟨?_, ?_, houter⟩
  · simp only
    rw [unnumbered_withNotes, unnumbered_withNotes, unnumbered_push, unnumbered_push, htable, hsize,
      huid]
    split
    · rw [hpending]
    · rfl
  · simp only
    rw [unnumbered_extended, unnumbered_extended, hscope, hsize]

/-- A node announces a block if it may have one. -/
theorem opener_add {s : State} (hs : s.opener = .none) (node : LineNode) (line : Nat)
    (tokens : List Token) :
    (s.add node line tokens).opener =
      if node.acceptsBlock then
        .block s.table.size node.body.type node.explicit line (Token.render tokens)
      else .none := by
  rw [add_eq, ← hs]

/-- What a node announces can be reached, besides the open scopes. -/
theorem reach_add {s : State} (hs : s.opener = .none) (node : LineNode) (line : Nat)
    (tokens : List Token) :
    (s.add node line tokens).reach =
      (if node.acceptsBlock then [Scope.new s.table.size node.body.type] else []) ++
        (s.add node line tokens).scopes := by
  unfold reach
  rw [opener_add hs]
  cases node.acceptsBlock <;> rfl

theorem Alike.reach_add {s t : State} (h : Alike s t) (node : LineNode) (l m : LogicalLine)
    (hs : s.opener = .none) (ht : t.opener = .none) :
    (s.add node l.number l.tokens).reach.map Scope.unnumbered <:+
      (t.add node m.number m.tokens).reach.map Scope.unnumbered := by
  have hadd := h.add node l m
  have hscopes : (t.add node m.number m.tokens).scopes.map Scope.unnumbered =
      (s.add node l.number l.tokens).scopes.map Scope.unnumbered := by
    simp only [scopes, List.map_cons, hadd.scope, hadd.outer]
  have hreach : (s.add node l.number l.tokens).reach.map Scope.unnumbered =
      (t.add node m.number m.tokens).reach.map Scope.unnumbered := by
    rw [State.reach_add hs, State.reach_add ht, List.map_append, List.map_append, hscopes,
      h.size_eq]
  exact hreach ▸ List.suffix_refl _

namespace Abreast

variable {s t : State}

theorem allowed_eq (h : Abreast s t) : t.scope.allowed = s.scope.allowed := by
  have htype := congrArg Scope.type h.alike.scope
  have hlast := congrArg Scope.last h.alike.scope
  simp only [Scope.unnumbered] at htype hlast
  unfold Scope.allowed
  rw [htype, hlast]

theorem covers (h : Abreast s t) : Covers s t where
  reading := h.reading
  table := h.alike.table
  reach := h.alike.reach (reach_of_opener (by simp [h.idle.1])) (reach_of_opener (by simp [h.idle.2]))
  mild := h.mild

theorem note (h : Abreast s t) (kind : NoteKind) (text content : String) (m n : Nat) :
    Abreast (s.note kind text m content) (t.note kind text n content) where
  alike := h.alike.note kind text content m n
  reading := (note_outer _ _ _ _ _).2.trans h.reading
  idle := by
    rw [opener_note, opener_note]
    exact h.idle
  mild := by
    rw [findings_note]
    exact h.mild

theorem reportAll (h : Abreast s t) {cs : List Complaint} (hcs : ∀ c ∈ cs, Mild c)
    (content : String) (m n : Nat) : Abreast (s.reportAll cs m content) (t.reportAll cs n content) where
  alike := ⟨h.alike.table, h.alike.scope, h.alike.outer⟩
  reading := h.reading
  idle := h.idle
  mild := by
    intro f hf
    rcases List.mem_append.mp hf with hf | hf
    · exact h.mild f hf
    · obtain ⟨c, hc, rfl⟩ := List.mem_map.mp hf
      exact hcs c hc

/-- What is reported about a node that is added does not reject it. -/
theorem add (h : Abreast s t) (node : LineNode) (l m : LogicalLine) :
    Covers (s.add node l.number l.tokens) (t.add node m.number m.tokens) where
  reading := by
    rw [add_eq]
    exact h.reading
  table := (h.alike.add node l m).table
  reach := h.alike.reach_add node l m h.idle.1 h.idle.2
  mild := by
    rw [add_eq]
    intro f hf
    rcases List.mem_append.mp hf with hf | hf
    · exact h.mild f hf
    · obtain ⟨c, hc, rfl⟩ := List.mem_map.mp hf
      exact mild_redeclaration _ _ c hc

/-- What a line says does to both runs the same. -/
theorem keep (h : Abreast s t) {s' t' : State} {l m : LogicalLine} (hs : Keeps s l s')
    (ht : Takes t m t') (htokens : m.tokens = l.tokens.map (Token.onLine m.number)) :
    Covers s' t' := by
  have hrender : Token.render m.tokens = Token.render l.tokens := by
    rw [htokens, Token.render_onLine]
  have hmeaning : Reading.ofTokens m.tokens = Reading.ofTokens l.tokens := by
    rw [htokens, ofTokens_onLine]
  have hne : l.tokens ≠ [] → m.tokens ≠ [] := by
    rw [htokens]
    simp
  cases hs with
  | empty he =>
    have hpassed : Takes t m t := .passed (.inl (by rw [htokens, he]; rfl))
    rw [ht.unique hpassed]
    exact h.covers
  | note kind text ne meaning =>
    have hnoted := Takes.noted kind text (hne ne) h.reading (hmeaning.trans meaning)
    rw [ht.unique hnoted, hrender]
    exact (h.note kind text (Token.render l.tokens) l.number m.number).covers
  | node node ne meaning allows =>
    have hadded := Takes.added node (hne ne) h.reading (hmeaning.trans meaning)
      (by rw [h.allowed_eq]; exact allows)
    rw [ht.unique hadded, hrender]
    have hrepeated := mild_repeated (declares_of_ofTokens meaning)
    exact (h.reportAll hrepeated (Token.render l.tokens) l.number m.number).add node l m

end Abreast

/-- **A line that is kept keeps the second run ahead.** -/
theorem Covers.keep {s t : State} (h : Covers s t) {l m : LogicalLine}
    (hl : l.level ≤ s.depth + 1) (hd : s.drops l = false) (hm : m.unnumbered = l.unnumbered) :
    m.level ≤ t.depth + 1 ∧ Covers (s.read l) (t.read m) := by
  have hindent := congrArg LogicalLine.indent hm
  have htext := congrArg LogicalLine.text hm
  simp only [LogicalLine.unnumbered] at hindent htext
  have hlevel : m.level = l.level := congrArg (· / Lexer.indentUnit) hindent
  obtain ⟨hle, habreast⟩ := h.arrive hl hd hlevel
  obtain ⟨-, htakes⟩ := read_cases hle
  exact ⟨hle, habreast.keep (keeps_of_drops hl hd) htakes (LogicalLine.tokens_of_unnumbered htext)⟩

/-- The end of the stream only reports notes that nothing took and blocks that did not follow. -/
theorem mild_finish {s : State} (h : ∀ f ∈ s.findings, Mild f.complaint) {levels : Nat}
    (hl : levels ≤ s.depth) : ∀ f ∈ (s.finish (.back levels)).findings, Mild f.complaint := by
  have hscopes : ∀ (scopes : List Scope) (s : State), (∀ f ∈ s.findings, Mild f.complaint) →
      ∀ f ∈ (scopes.foldl reportPending s).findings, Mild f.complaint := by
    intro scopes
    induction scopes with
    | nil => exact fun s hs => hs
    | cons scope scopes ih =>
      intro s hs
      rw [List.foldl_cons]
      apply ih
      rw [reportPending_eq]
      intro f hf
      rcases List.mem_append.mp hf with hf | hf
      · exact hs f hf
      · exact mild_pendingFindings scope f hf
  have hclose : ∀ s : State, (∀ f ∈ s.findings, Mild f.complaint) →
      ∀ f ∈ s.closeOpener.findings, Mild f.complaint := by
    intro s hs f hf
    rw [closeOpener_eq] at hf
    rcases List.mem_append.mp hf with hf | hf
    · exact hs f hf
    · exact mild_missingBlock _ f hf
  apply hscopes
  apply hclose
  intro f hf
  simp only [move] at hf
  rw [repeat_leave (by simpa [closeOpener_eq, depth] using hl)] at hf
  rcases List.mem_append.mp hf with hf | hf
  · exact hclose s h f hf
  · obtain ⟨scope, -, hf⟩ := List.mem_flatMap.mp hf
    exact mild_pendingFindings scope f hf

end State

/-! ## Runs -/

/-- The lines that are kept. -/
def keptFrom (s : State) : List LogicalLine → List LogicalLine
  | [] => []
  | l :: ls => if s.drops l then keptFrom (s.read l) ls else l :: keptFrom (s.read l) ls

/-- **The run over the kept lines reaches whatever the run over all lines reaches.** -/
theorem covers_readAll {s t : State} (h : State.Covers s t) {ls ms : List LogicalLine}
    (hls : Climbs s.depth ls)
    (hms : ms.map LogicalLine.unnumbered = (keptFrom s ls).map LogicalLine.unnumbered) :
    Climbs t.depth ms ∧ State.Covers (readAll s ls) (readAll t ms) := by
  induction ls generalizing s t ms with
  | nil =>
    obtain rfl : ms = [] := by simpa [keptFrom] using hms
    exact ⟨trivial, h⟩
  | cons l ls ih =>
    have hrest : Climbs (s.read l).depth ls := by
      rw [State.depth_read hls.1]
      exact hls.2
    rw [keptFrom] at hms
    cases hd : s.drops l with
    | true =>
      rw [hd, if_pos rfl] at hms
      exact ih (h.drop hls.1 hd) hrest hms
    | false =>
      rw [hd, if_neg (by simp)] at hms
      obtain ⟨m, ms, rfl, hm, hms⟩ := List.map_eq_cons_iff.mp hms
      obtain ⟨hle, hcovers⟩ := h.keep hls.1 hd hm
      obtain ⟨hclimbs, hrun⟩ := ih hcovers hrest hms
      rw [State.depth_read hle] at hclimbs
      exact ⟨⟨hle, hclimbs⟩, hrun⟩

end Parser

end IntentCode
