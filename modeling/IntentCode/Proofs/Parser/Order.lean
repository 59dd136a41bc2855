import IntentCode.Proofs.Parser.Header
import IntentCode.Proofs.Parser.Nesting
import IntentCode.Proofs.Parser.Outcome

/-!
# The order of the findings

A line is read when what has been found about the lines before it is already in the list, so findings
come in the order of their lines, and a missing block makes no difference: it is reported when the next
line is reached. Only a note without a declaration is reported late. It waits until its scope closes,
and what has been found about the lines of its block meanwhile is in the list before it.

So the list is not always in source order, and it is known when it is not. A note is overtaken by what
is about a later line of its block (`Overtakes`), and this is the only way in which two findings come in
the wrong order (`InOrder`). Notes of one scope do not overtake each other, since they are reported
together.

The invariant is about the lines up to a number. What has been found is about one of them, and if it
is a note, its block has ended (`Settled`). A note that waits is about a line at the level of its scope,
and its block has not ended (`Waits`). When a scope closes, its notes go from one to the other.
-/

set_option autoImplicit false

namespace IntentCode.Parser

/-! ## Blocks of lines -/

/-- The line `m` comes after `l` and belongs to the block in which `l` stands: nothing from `l` on up to
`m` is further out than `l`. -/
structure InBlock (lines : List LogicalLine) (l m : LogicalLine) : Prop where
  after : l.number < m.number
  inside : ∀ x ∈ lines, l.number < x.number → x.number ≤ m.number → l.level ≤ x.level

/-- A diagnostic that is issued before a note although it is about a later line: the line is in the
block of the note, and the diagnostic is not about a note of the same scope. -/
structure Overtakes (lines : List LogicalLine) (d note : Diagnostic) : Prop where
  detached : note.code = .detachedNote
  inBlock : ∃ l ∈ lines, ∃ m ∈ lines, l.number = note.line ∧ m.number = d.line ∧ InBlock lines l m ∧
    ¬ (d.code = .detachedNote ∧ m.level = l.level)

theorem Overtakes.lt {lines : List LogicalLine} {d note : Diagnostic}
    (h : Overtakes lines d note) : note.line < d.line := by
  obtain ⟨-, l, -, m, -, hline, hmline, hblock, -⟩ := h
  rw [← hline, ← hmline]
  exact hblock.after

/-- What holds of a finding and a later one. -/
structure InOrder (lines : List LogicalLine) (f g : Finding) : Prop where
  overtakes : g.line < f.line → Overtakes lines f.diagnostic g.diagnostic
  not_overtaken : ¬ Overtakes lines g.diagnostic f.diagnostic

/-! ## Findings about the lines read so far -/

/-- The finding is about a line up to the number `n`, and if it is about a note, the block of the note
has ended. -/
def Settled (lines : List LogicalLine) (n : Nat) (f : Finding) : Prop :=
  ∃ l ∈ lines, l.number = f.line ∧ l.number ≤ n ∧
    (f.complaint.code = .detachedNote →
      ∃ x ∈ lines, l.number < x.number ∧ x.number ≤ n ∧ x.level < l.level)

/-- The finding is about a note on a line at the given level, up to the number `n`, and the block of the
note has not ended. -/
def Waits (lines : List LogicalLine) (n level : Nat) (f : Finding) : Prop :=
  f.complaint.code = .detachedNote ∧
    ∃ l ∈ lines, l.number = f.line ∧ l.number ≤ n ∧ l.level = level ∧
      ∀ x ∈ lines, l.number < x.number → x.number ≤ n → level ≤ x.level

section

variable {lines : List LogicalLine} {n : Nat} {f g : Finding}

/-- What is found about the latest line comes last. -/
theorem inOrder_of_settled (hnumbers : (lines.map LogicalLine.number).Pairwise (· < ·))
    (hf : Settled lines n f) (hg : n ≤ g.line) : InOrder lines f g := by
  obtain ⟨l, hl, hline, hle, hended⟩ := hf
  refine ⟨fun hlt => by omega, ?_⟩
  rintro ⟨hnote, l', hl', m, hm, hl'line, hmline, hblock, -⟩
  obtain rfl : l = l' := eq_of_number_eq hnumbers hl hl' (hline.trans hl'line.symm)
  obtain ⟨x, hx, hlx, hxn, hlevel⟩ := hended hnote
  have hmg : m.number = g.line := hmline
  have hinside := hblock.inside x hx hlx (by omega)
  omega

/-- A note that waits is overtaken by what is found about later lines, and overtakes nothing. -/
theorem inOrder_of_waits (hnumbers : (lines.map LogicalLine.number).Pairwise (· < ·)) {level : Nat}
    (hf : Settled lines n f) (hg : Waits lines n level g) : InOrder lines f g := by
  obtain ⟨l, hl, hline, hle, hended⟩ := hf
  obtain ⟨hnote, m, hm, hmline, hmn, rfl, hopen⟩ := hg
  constructor
  · intro hlt
    refine ⟨hnote, m, hm, l, hl, hmline, hline, ⟨by omega, ?_⟩, ?_⟩
    · intro x hx hmx hxl
      exact hopen x hx hmx (Nat.le_trans hxl hle)
    · -- a note of the same level whose block has ended before the other's
      rintro ⟨hf, hlevel⟩
      obtain ⟨x, hx, hlx, hxn, hout⟩ := hended hf
      have hinside := hopen x hx (by omega) hxn
      omega
  · rintro ⟨hf, l', hl', m', hm', hl'line, hm'line, hblock, -⟩
    obtain rfl : l = l' := eq_of_number_eq hnumbers hl hl' (hline.trans hl'line.symm)
    obtain rfl : m = m' := eq_of_number_eq hnumbers hm hm' (hmline.trans hm'line.symm)
    obtain ⟨x, hx, hlx, hxn, hout⟩ := hended hf
    have hlm := hblock.inside m hm hblock.after (Nat.le_refl _)
    rcases Nat.lt_or_ge m.number x.number with hmx | hxm
    · have hinside := hopen x hx hmx hxn
      omega
    · have hinside := hblock.inside x hx hlx hxm
      omega

/-- The notes of an inner scope are reported before those of an outer one. -/
theorem inOrder_of_inner (hnumbers : (lines.map LogicalLine.number).Pairwise (· < ·))
    {inner outer : Nat} (hf : Waits lines n inner f) (hg : Waits lines n outer g)
    (hlt : outer < inner) : InOrder lines f g := by
  obtain ⟨-, l, hl, hline, hle, rfl, -⟩ := hf
  obtain ⟨hnote, m, hm, hmline, -, rfl, hopen⟩ := hg
  constructor
  · intro hbefore
    refine ⟨hnote, m, hm, l, hl, hmline, hline, ⟨by omega, ?_⟩, fun h => ?_⟩
    · intro x hx hmx hxl
      exact hopen x hx hmx (Nat.le_trans hxl hle)
    · have hlevel := h.2
      omega
  · rintro ⟨-, l', hl', m', hm', hl'line, hm'line, hblock, -⟩
    obtain rfl : l = l' := eq_of_number_eq hnumbers hl hl' (hline.trans hl'line.symm)
    obtain rfl : m = m' := eq_of_number_eq hnumbers hm hm' (hmline.trans hm'line.symm)
    have hinside := hblock.inside m hm hblock.after (Nat.le_refl _)
    omega

/-- The notes of one scope are reported in the order of their lines. -/
theorem inOrder_of_same (hnumbers : (lines.map LogicalLine.number).Pairwise (· < ·)) {level : Nat}
    (hf : Waits lines n level f) (hg : Waits lines n level g) (hle : f.line ≤ g.line) :
    InOrder lines f g := by
  obtain ⟨-, l, hl, hline, -, rfl, -⟩ := hf
  obtain ⟨hnote, m, hm, hmline, -, hlevel, -⟩ := hg
  refine ⟨fun hlt => by omega, ?_⟩
  rintro ⟨-, l', hl', m', hm', hl'line, hm'line, -, hother⟩
  obtain rfl : l = l' := eq_of_number_eq hnumbers hl hl' (hline.trans hl'line.symm)
  obtain rfl : m = m' := eq_of_number_eq hnumbers hm hm' (hmline.trans hm'line.symm)
  exact hother ⟨hnote, hlevel⟩

/-! ## The next line -/

/-- The line that comes next after those up to the number `n`. -/
structure Follows (lines : List LogicalLine) (n : Nat) (m : LogicalLine) : Prop where
  mem : m ∈ lines
  lt : n < m.number
  next : ∀ x ∈ lines, x.number ≤ m.number → x.number ≤ n ∨ x = m

theorem Settled.mono {k : Nat} (h : Settled lines n f) (hle : n ≤ k) : Settled lines k f := by
  obtain ⟨l, hl, hline, hln, hended⟩ := h
  refine ⟨l, hl, hline, Nat.le_trans hln hle, fun hnote => ?_⟩
  obtain ⟨x, hx, hlx, hxn, hlevel⟩ := hended hnote
  exact ⟨x, hx, hlx, Nat.le_trans hxn hle, hlevel⟩

variable {m : LogicalLine} {level : Nat}

/-- A line of the block keeps a note waiting. -/
theorem Waits.follow (h : Waits lines n level f) (hm : Follows lines n m) (hlevel : level ≤ m.level) :
    Waits lines m.number level f := by
  obtain ⟨hnote, l, hl, hline, hln, hat, hopen⟩ := h
  refine ⟨hnote, l, hl, hline, Nat.le_trans hln (Nat.le_of_lt hm.lt), hat, ?_⟩
  intro x hx hlx hxm
  rcases hm.next x hx hxm with hxn | rfl
  · exact hopen x hx hlx hxn
  · exact hlevel

/-- A line further out ends the block of a note. -/
theorem Waits.settle (h : Waits lines n level f) (hm : Follows lines n m) (hlevel : m.level < level) :
    Settled lines m.number f := by
  obtain ⟨-, l, hl, hline, hln, rfl, -⟩ := h
  have hlm : l.number < m.number := Nat.lt_of_le_of_lt hln hm.lt
  exact ⟨l, hl, hline, Nat.le_of_lt hlm, fun _ => ⟨m, hm.mem, hlm, Nat.le_refl _, hlevel⟩⟩

/-! ## Open scopes -/

/-- The notes of the open scopes wait, in the order of their lines, each at the level of its scope. -/
def ScopesWait (lines : List LogicalLine) (n : Nat) : List Scope → Prop
  | [] => True
  | scope :: outer =>
    (((State.pendingFindings scope).Pairwise fun f g => f.line ≤ g.line) ∧
      ∀ f ∈ State.pendingFindings scope, Waits lines n outer.length f) ∧
    ScopesWait lines n outer

namespace ScopesWait

variable {scopes : List Scope}

/-- No note waits in a scope that has just been opened. -/
theorem opened (h : ScopesWait lines n scopes) (uid : Nat) (type : Ast.NodeType) :
    ScopesWait lines n (.new uid type :: scopes) :=
  ⟨⟨.nil, List.forall_mem_nil _⟩, h⟩

theorem drop (h : ScopesWait lines n scopes) (count : Nat) : ScopesWait lines n (scopes.drop count) := by
  induction scopes generalizing count with
  | nil =>
    rw [List.drop_nil]
    exact h
  | cons scope outer ih =>
    cases count with
    | zero => exact h
    | succ count => exact ih h.2 count

/-- A line that closes none of the scopes keeps their notes waiting. -/
theorem follow (h : ScopesWait lines n scopes) (hm : Follows lines n m)
    (hlevel : scopes.length ≤ m.level + 1) : ScopesWait lines m.number scopes := by
  induction scopes with
  | nil => trivial
  | cons scope outer ih =>
    rw [List.length_cons] at hlevel
    refine ⟨⟨h.1.1, fun f hf => (h.1.2 f hf).follow hm ?_⟩, ih h.2 ?_⟩
    · exact Nat.le_of_succ_le_succ hlevel
    · exact Nat.le_of_succ_le hlevel

/-- What the innermost scopes report when they close. -/
theorem exists_waits {count : Nat} (h : ScopesWait lines n scopes)
    (hf : f ∈ (scopes.take count).flatMap State.pendingFindings) :
    ∃ level, scopes.length ≤ level + count ∧ level < scopes.length ∧ Waits lines n level f := by
  induction scopes generalizing count with
  | nil =>
    rw [List.take_nil] at hf
    cases hf
  | cons scope outer ih =>
    cases count with
    | zero => cases hf
    | succ count =>
      rw [List.take_succ_cons, List.flatMap_cons] at hf
      rw [List.length_cons]
      rcases List.mem_append.mp hf with hf | hf
      · exact ⟨outer.length, by omega, Nat.lt_succ_self _, h.1.2 f hf⟩
      · obtain ⟨level, hle, hlt, hwaits⟩ := ih h.2 hf
        exact ⟨level, by omega, by omega, hwaits⟩

theorem inOrder (hnumbers : (lines.map LogicalLine.number).Pairwise (· < ·))
    (h : ScopesWait lines n scopes) :
    (scopes.flatMap State.pendingFindings).Pairwise (InOrder lines) := by
  induction scopes with
  | nil => exact .nil
  | cons scope outer ih =>
    obtain ⟨⟨hsorted, hwaits⟩, houter⟩ := h
    rw [List.flatMap_cons, List.pairwise_append]
    refine ⟨?_, ih houter, ?_⟩
    · refine hsorted.imp_of_mem fun hf hg hle => ?_
      exact inOrder_of_same hnumbers (hwaits _ hf) (hwaits _ hg) hle
    · intro f hf g hg
      rw [← List.take_length (l := outer)] at hg
      obtain ⟨level, -, hlt, hg⟩ := houter.exists_waits hg
      exact inOrder_of_inner hnumbers (hwaits f hf) hg hlt

end ScopesWait

/-! ## What has been found -/

/-- Findings about the lines up to a number, in order as far as they can be. -/
structure Reported (lines : List LogicalLine) (n : Nat) (fs : List Finding) : Prop where
  inOrder : fs.Pairwise (InOrder lines)
  settled : ∀ f ∈ fs, Settled lines n f

namespace Reported

variable {fs new : List Finding}

theorem mono (h : Reported lines n fs) {k : Nat} (hle : n ≤ k) : Reported lines k fs :=
  ⟨h.inOrder, fun f hf => (h.settled f hf).mono hle⟩

/-- What is found about the latest line. -/
theorem append (hnumbers : (lines.map LogicalLine.number).Pairwise (· < ·))
    (h : Reported lines n fs) (hl : new ≠ [] → ∃ l ∈ lines, l.number = n)
    (hnew : ∀ g ∈ new, g.line = n ∧ g.complaint.code ≠ .detachedNote) :
    Reported lines n (fs ++ new) := by
  have hsettled : ∀ f ∈ fs ++ new, Settled lines n f := by
    intro f hf
    rcases List.mem_append.mp hf with hf | hf
    · exact h.settled f hf
    · obtain ⟨l, hl, hnumber⟩ := hl (List.ne_nil_of_mem hf)
      obtain ⟨hline, hcode⟩ := hnew f hf
      exact ⟨l, hl, hnumber.trans hline.symm, Nat.le_of_eq hnumber, fun hnote => absurd hnote hcode⟩
  refine ⟨List.pairwise_append.mpr ⟨h.inOrder, ?_, ?_⟩, hsettled⟩
  · refine List.pairwise_of_forall_mem_list fun f hf g hg => ?_
    exact inOrder_of_settled hnumbers (hsettled f (List.mem_append_right _ hf))
      (Nat.le_of_eq (hnew g hg).1.symm)
  · intro f hf g hg
    exact inOrder_of_settled hnumbers (h.settled f hf) (Nat.le_of_eq (hnew g hg).1.symm)

/-- The notes of the scopes that close. -/
theorem append_pending (hnumbers : (lines.map LogicalLine.number).Pairwise (· < ·))
    (h : Reported lines n fs) {scopes : List Scope} (hscopes : ScopesWait lines n scopes)
    (count : Nat) :
    (fs ++ (scopes.take count).flatMap State.pendingFindings).Pairwise (InOrder lines) := by
  refine List.pairwise_append.mpr ⟨h.inOrder, ?_, ?_⟩
  · have hprefix : (scopes.take count).flatMap State.pendingFindings <+:
        scopes.flatMap State.pendingFindings := by
      refine ⟨(scopes.drop count).flatMap State.pendingFindings, ?_⟩
      rw [← List.flatMap_append, List.take_append_drop]
    exact (hscopes.inOrder hnumbers).sublist hprefix.sublist
  · intro f hf g hg
    obtain ⟨level, -, -, hwaits⟩ := hscopes.exists_waits hg
    exact inOrder_of_waits hnumbers (h.settled f hf) hwaits

end Reported

/-! ## Complaints about a line -/

/-- A node is found with complaints about its line, none of which is that a note is detached. -/
theorem line_complaints {complaints : List Complaint} {line : Nat} {content : String}
    (h : ∀ c ∈ complaints, c.code ≠ .detachedNote) :
    ∀ g ∈ complaints.map fun c => (⟨c, line, content⟩ : Finding),
      g.line = line ∧ g.complaint.code ≠ .detachedNote := by
  intro g hg
  obtain ⟨c, hc, rfl⟩ := List.mem_map.mp hg
  exact ⟨rfl, h c hc⟩

/-! ## The invariant -/

/-- The state after the lines up to the number `n`. -/
structure Ordered (lines : List LogicalLine) (n : Nat) (s : State) : Prop where
  reported : Reported lines n s.findings
  waiting : ScopesWait lines n s.scopes
  /-- What is missing is missing after the latest line. -/
  opener : ∀ f ∈ State.missingBlock s.opener,
    s.skipped = 0 ∧ f.line = n ∧ ∃ l ∈ lines, l.number = n

namespace Ordered

variable {s : State}

theorem initial : Ordered lines 0 .initial where
  reported := ⟨.nil, List.forall_mem_nil _⟩
  waiting := ⟨⟨.nil, List.forall_mem_nil _⟩, trivial⟩
  opener := List.forall_mem_nil _

/-- What the line before has announced and is missing. -/
theorem missing (hnumbers : (lines.map LogicalLine.number).Pairwise (· < ·))
    (h : Ordered lines n s) : Reported lines n (s.findings ++ State.missingBlock s.opener) := by
  refine h.reported.append hnumbers (fun hne => ?_) fun g hg => ?_
  · obtain ⟨f, hf⟩ := List.exists_mem_of_ne_nil _ hne
    exact (h.opener f hf).2.2
  · rw [(State.mem_missingBlock hg).1]
    exact ⟨(h.opener g hg).2.1, by simp [Complaint.code]⟩

/-! ### One line -/

/-- The layout before a line leaves nothing announced. -/
theorem arrive (hnumbers : (lines.map LogicalLine.number).Pairwise (· < ·))
    (h : Ordered lines n s) (hm : Follows lines n m) {s' : State} (ha : State.Arrives s m s') :
    Ordered lines m.number s' ∧ State.missingBlock s'.opener = [] := by
  have hlater := h.reported.mono (Nat.le_of_lt hm.lt)
  have hclosed : ∀ {s' : State}, State.missingBlock s'.opener = [] →
      ∀ f ∈ State.missingBlock s'.opener, s'.skipped = 0 ∧ f.line = m.number ∧
        ∃ l ∈ lines, l.number = m.number := by
    intro s' hnone f hf
    rw [hnone] at hf
    cases hf
  cases ha with
  | further level skipping =>
    have hnone : State.missingBlock s.opener = [] := by
      refine List.eq_nil_iff_forall_not_mem.mpr fun f hf => ?_
      have hskipped := (h.opener f hf).1
      omega
    refine ⟨⟨hlater, h.waiting.follow hm ?_, hclosed hnone⟩, hnone⟩
    simp only [State.scopes, List.length_cons, State.depth] at level ⊢
    omega
  | opened uid type explicit line content level reading opener =>
    refine ⟨⟨hlater, .opened (h.waiting.follow hm ?_) uid type, hclosed rfl⟩, rfl⟩
    simp only [State.scopes, List.length_cons, State.depth] at level ⊢
    omega
  | dropped level reading opener =>
    refine ⟨⟨hlater, h.waiting.follow hm ?_, hclosed rfl⟩, rfl⟩
    simp only [State.scopes, List.length_cons, State.depth] at level ⊢
    omega
  | unexpected level reading opener =>
    refine ⟨⟨hlater.append hnumbers (fun _ => ⟨m, hm.mem, rfl⟩) fun g hg => ?_,
      h.waiting.follow hm ?_, hclosed rfl⟩, rfl⟩
    · obtain rfl := List.mem_singleton.mp hg
      exact ⟨rfl, by simp [Complaint.code]⟩
    · simp only [State.scopes, List.length_cons, State.depth] at level ⊢
      omega
  | back level =>
    have hmissing := h.missing hnumbers
    have hlength : s.scopes.length = s.outer.length + 1 := rfl
    refine ⟨⟨⟨hmissing.append_pending hnumbers h.waiting _, fun f hf => ?_⟩, ?_, hclosed rfl⟩, rfl⟩
    · rcases List.mem_append.mp hf with hf | hf
      · exact (hmissing.settled f hf).mono (Nat.le_of_lt hm.lt)
      · -- only scopes further in than the line have closed
        obtain ⟨height, hle, hlt, hwaits⟩ := h.waiting.exists_waits hf
        exact hwaits.settle hm (by omega)
    · rw [State.scopes_closing (Nat.sub_le _ _)]
      refine (h.waiting.drop _).follow hm ?_
      rw [List.length_drop]
      show s.scopes.length - (s.outer.length - m.level) ≤ m.level + 1
      omega

/-- What is found about a line that is read. -/
theorem report (hnumbers : (lines.map LogicalLine.number).Pairwise (· < ·))
    (h : Ordered lines m.number s) (hm : m ∈ lines) {s' : State} {new : List Finding}
    (hfindings : s'.findings = s.findings ++ new)
    (hnew : ∀ g ∈ new, g.line = m.number ∧ g.complaint.code ≠ .detachedNote)
    (hscopes : ScopesWait lines m.number s'.scopes)
    (hopener : ∀ f ∈ State.missingBlock s'.opener, s'.skipped = 0 ∧ f.line = m.number) :
    Ordered lines m.number s' where
  reported := hfindings ▸ h.reported.append hnumbers (fun _ => ⟨m, hm, rfl⟩) hnew
  waiting := hscopes
  opener := fun f hf => ⟨(hopener f hf).1, (hopener f hf).2, m, hm, rfl⟩

/-- A note goes to a declaration, or waits at the level of its line. -/
theorem note (h : Ordered lines m.number s) (hm : m ∈ lines) (hlevel : s.outer.length = m.level)
    (kind : NoteKind) (text content : String) :
    Ordered lines m.number (s.note kind text m.number content) := by
  unfold State.note
  cases s.scope.lastDecl with
  | some uid => exact ⟨h.reported, h.waiting, h.opener⟩
  | none =>
    refine ⟨h.reported, ?_, h.opener⟩
    obtain ⟨⟨hsorted, hwaits⟩, houter⟩ := h.waiting
    have hpending : State.pendingFindings
        { s.scope with pending := s.scope.pending ++ [⟨kind, text, m.number, content⟩] } =
        State.pendingFindings s.scope ++ [⟨.detachedNote kind, m.number, content⟩] := by
      simp [State.pendingFindings]
    refine ⟨?_, houter⟩
    rw [hpending]
    refine ⟨List.pairwise_append.mpr ⟨hsorted, List.pairwise_singleton _ _, ?_⟩, ?_⟩
    · intro f hf g hg
      obtain rfl := List.mem_singleton.mp hg
      obtain ⟨-, l, -, hline, hle, -⟩ := hwaits f hf
      exact hline ▸ hle
    · intro f hf
      rcases List.mem_append.mp hf with hf | hf
      · exact hwaits f hf
      · obtain rfl := List.mem_singleton.mp hf
        refine ⟨rfl, m, hm, rfl, Nat.le_refl _, hlevel.symm, fun x _ hlt hle => ?_⟩
        omega

/-- A declaration takes the notes of its scope with it. -/
theorem waiting_extended (h : ScopesWait lines n s.scopes) (uid : Nat) (body : Ast.Body) :
    ScopesWait lines n (s.scope.extended uid body :: s.outer) := by
  obtain ⟨hscope, houter⟩ := h
  refine ⟨?_, houter⟩
  unfold Scope.extended State.pendingFindings
  cases body.isDeclaration with
  | true => exact ⟨.nil, List.forall_mem_nil _⟩
  | false => exact hscope

theorem take (hnumbers : (lines.map LogicalLine.number).Pairwise (· < ·))
    (h : Ordered lines m.number s) (hm : m ∈ lines) (hnone : State.missingBlock s.opener = [])
    (hdepth : s.depth = m.level) {s' : State} (ht : State.Takes s m s') :
    Ordered lines m.number s' := by
  cases ht with
  | passed => exact h
  | noted kind text ne reading meaning =>
    refine h.note hm ?_ kind text _
    simp only [State.depth] at hdepth
    omega
  | faulty fault ne reading meaning =>
    refine h.report hnumbers hm rfl ?_ h.waiting fun f hf => ?_
    · intro g hg
      obtain rfl := List.mem_singleton.mp hg
      exact ⟨rfl, by simp [Complaint.code]⟩
    · obtain ⟨-, uid, type, content, hopener⟩ := State.mem_missingBlock hf
      exact absurd hopener (State.opener_reject _ _ _ _ _ _ _ _ _ _)
  | refused node ne reading meaning refuses =>
    refine h.report hnumbers hm (List.append_assoc _ _ _) ?_ h.waiting fun f hf => ?_
    · intro g hg
      rcases List.mem_append.mp hg with hg | hg
      · exact line_complaints (declares_of_ofTokens meaning).code_repeated g hg
      · obtain rfl := List.mem_singleton.mp hg
        exact ⟨rfl, State.code_refusal _ _⟩
    · obtain ⟨-, uid, type, content, hopener⟩ := State.mem_missingBlock hf
      exact absurd hopener (State.opener_reject _ _ _ _ _ _ _ _ _ _)
  | added node ne reading meaning allows =>
    rw [State.add_eq]
    refine h.report hnumbers hm (List.append_assoc _ _ _) ?_ (waiting_extended h.waiting _ _)
      fun f hf => ?_
    · intro g hg
      rcases List.mem_append.mp hg with hg | hg
      · exact line_complaints (declares_of_ofTokens meaning).code_repeated g hg
      · exact line_complaints State.code_redeclaration g hg
    · obtain ⟨-, uid, type, content, hopener⟩ := State.mem_missingBlock hf
      dsimp only at hopener
      split at hopener
      · injection hopener with _ _ _ hline _
        exact ⟨reading, hline.symm⟩
      · rw [show s.opener = _ from hopener] at hnone
        cases hnone

theorem read (hnumbers : (lines.map LogicalLine.number).Pairwise (· < ·))
    (h : Ordered lines n s) (hm : Follows lines n m) (hlevel : m.level ≤ s.depth + 1) :
    Ordered lines m.number (s.read m) := by
  obtain ⟨harrives, htakes⟩ := State.read_cases hlevel
  obtain ⟨harrived, hnone⟩ := h.arrive hnumbers hm harrives
  exact harrived.take hnumbers hm.mem hnone harrives.depth_eq htakes

/-- The end of the stream closes what is open, and then nothing waits any more. -/
theorem finish (hnumbers : (lines.map LogicalLine.number).Pairwise (· < ·))
    (h : Ordered lines n s) {levels : Nat} (hl : levels ≤ s.depth) :
    (s.finish (.back levels)).findings.Pairwise (InOrder lines) := by
  rw [State.findings_finish_back hl, ← List.take_length (l := s.scopes)]
  exact (h.missing hnumbers).append_pending hnumbers h.waiting _

end Ordered

/-! ## Runs -/

/-- A run reads the lines in the order of their numbers. -/
theorem ordered_readAll (hnumbers : (lines.map LogicalLine.number).Pairwise (· < ·))
    {before after : List LogicalLine} {s : State} (hsplit : lines = before ++ after)
    (hbefore : ∀ l ∈ before, l.number ≤ n) (hafter : ∀ l ∈ after, n < l.number)
    (hclimbs : Climbs s.depth after) (h : Ordered lines n s) :
    ∃ last, Ordered lines last (readAll s after) := by
  induction after generalizing before n s with
  | nil => exact ⟨n, h⟩
  | cons m after ih =>
    have hlater : ∀ l ∈ after, m.number < l.number := by
      intro l hl
      rw [hsplit, List.map_append, List.pairwise_append] at hnumbers
      exact List.rel_of_pairwise_cons hnumbers.2.1 (List.mem_map_of_mem hl)
    have hfollows : Follows lines n m := by
      refine ⟨hsplit ▸ List.mem_append_right _ List.mem_cons_self, hafter m List.mem_cons_self, ?_⟩
      intro x hx hle
      rw [hsplit, List.mem_append, List.mem_cons] at hx
      rcases hx with hx | rfl | hx
      · exact .inl (hbefore x hx)
      · exact .inr rfl
      · have hlt := hlater x hx
        omega
    have hsplit' : lines = (before ++ [m]) ++ after := by simp [hsplit]
    refine ih hsplit' ?_ hlater ?_ (h.read hnumbers hfollows hclimbs.1)
    · intro l hl
      rcases List.mem_append.mp hl with hl | hl
      · exact Nat.le_of_lt (Nat.lt_of_le_of_lt (hbefore l hl) hfollows.lt)
      · exact Nat.le_of_eq (congrArg LogicalLine.number (List.mem_singleton.mp hl))
    · rw [State.depth_read hclimbs.1]
      exact hclimbs.2

end

/-- What is in order comes out sorted where nothing is overtaken, and only there. -/
theorem sorted_iff {lines : List LogicalLine} {fs : List Finding} (h : fs.Pairwise (InOrder lines)) :
    ((fs.map Finding.diagnostic).Pairwise fun d e => d.line ≤ e.line) ↔
      ∀ d ∈ fs.map Finding.diagnostic, ∀ e ∈ fs.map Finding.diagnostic, ¬ Overtakes lines d e := by
  rw [List.pairwise_map]
  simp only [List.forall_mem_map]
  constructor
  · intro hsorted
    have hlater : fs.Pairwise fun f g => ¬ Overtakes lines f.diagnostic g.diagnostic :=
      hsorted.imp fun hle hovertakes => Nat.not_lt_of_le hle (Overtakes.lt hovertakes)
    have hearlier : fs.Pairwise (flip fun f g => ¬ Overtakes lines f.diagnostic g.diagnostic) :=
      h.imp InOrder.not_overtaken
    have hself : ∀ f ∈ fs, ¬ Overtakes lines f.diagnostic f.diagnostic :=
      fun f _ hovertakes => Nat.lt_irrefl _ hovertakes.lt
    exact List.Pairwise.forall_of_forall_of_flip hself hlater hearlier
  · intro hnone
    refine h.imp_of_mem fun {f g} hf hg hfg => ?_
    exact Nat.le_of_not_lt fun hlt => hnone f hf g hg (hfg.overtakes hlt)

theorem sorted_of_notNote {lines : List LogicalLine} {fs : List Finding}
    (h : fs.Pairwise (InOrder lines)) :
    ((fs.map Finding.diagnostic).filter fun d => d.code ≠ .detachedNote).Pairwise
      fun d e => d.line ≤ e.line := by
  rw [List.filter_map, List.pairwise_map]
  refine (h.filter _).imp_of_mem fun {f g} _ hg hfg => ?_
  have hcode : g.diagnostic.code ≠ .detachedNote := by simpa using (List.mem_filter.mp hg).2
  exact Nat.le_of_not_lt fun hlt => hcode (hfg.overtakes hlt).detached

/-- **When diagnostics come in source order.** Those that are not about a note without a declaration
always do. All of them do exactly if no such note is overtaken, that is, if every diagnostic about a
later line of its block is about a note of the same scope. -/
theorem diagnostics_sorted_iff {source : String} {scanned : Lexer.Scanned}
    (h : Lexer.tokenize source = .ok scanned) :
    ∃ lines parsed, LogicalLine.ofSource source = .ok lines ∧
      parse scanned.tokens = .ok parsed ∧
      ((parsed.diagnostics.filter fun d => d.code ≠ .detachedNote).Pairwise
        fun d e => d.line ≤ e.line) ∧
      ((parsed.diagnostics.Pairwise fun d e => d.line ≤ e.line) ↔
        ∀ d ∈ parsed.diagnostics, ∀ e ∈ parsed.diagnostics, ¬ Overtakes lines d e) := by
  obtain ⟨lines, hlines, hlex, hparse⟩ := parse_of_tokenize h
  have hclimbs := climbs_of_lexes hlex
  have hzero := List.pairwise_cons.mp (LogicalLine.numbers_of_ofSource hlines)
  have hsplit : lines = [] ++ lines := rfl
  obtain ⟨last, hordered⟩ := ordered_readAll hzero.2 hsplit (List.forall_mem_nil _)
    (fun l hl => hzero.1 _ (List.mem_map_of_mem hl)) (s := .initial) hclimbs Ordered.initial
  have hlevels : LogicalLine.lastLevel 0 lines ≤ (readAll .initial lines).depth :=
    Nat.le_of_eq (depth_readAll (s := .initial) hclimbs).symm
  have hfindings := hordered.finish hzero.2 hlevels
  rw [← run_linesAt hclimbs] at hfindings
  exact ⟨lines, _, hlines, hparse, sorted_of_notNote hfindings, sorted_iff hfindings⟩

/-- A note in a function and one in a step of it, with nothing to own them: the inner one overtakes. -/
theorem diagnostics_sorted_iff_nestedNotes :
    ∃ scanned, Lexer.tokenize "func f:\n    @ b\n    go:\n        @ c\n" = .ok scanned ∧
      ∃ lines parsed, LogicalLine.ofSource "func f:\n    @ b\n    go:\n        @ c\n" = .ok lines ∧
        parse scanned.tokens = .ok parsed ∧
        ((parsed.diagnostics.filter fun d => d.code ≠ .detachedNote).Pairwise
          fun d e => d.line ≤ e.line) ∧
        ((parsed.diagnostics.Pairwise fun d e => d.line ≤ e.line) ↔
          ∀ d ∈ parsed.diagnostics, ∀ e ∈ parsed.diagnostics, ¬ Overtakes lines d e) := by
  have hlex : (Lexer.tokenize "func f:\n    @ b\n    go:\n        @ c\n").toOption.isSome = true := by
    decide +kernel
  obtain ⟨scanned, hscanned⟩ := Option.isSome_iff_exists.mp hlex
  have h := toOption_eq_some_iff.mp hscanned
  exact ⟨scanned, h, diagnostics_sorted_iff h⟩

/-- A note with nothing to own it is reported at the end of the source, behind a line that comes after
it and declares nothing. -/
theorem note_reported_late :
    ∃ scanned parsed, Lexer.tokenize "@ a\nvar\n" = .ok scanned ∧
      parse scanned.tokens = .ok parsed ∧
      parsed.diagnostics.map (fun d => d.line) = [2, 1] ∧
      ¬ parsed.diagnostics.Pairwise fun d e => d.line ≤ e.line := by
  have hread : ((Lexer.tokenize "@ a\nvar\n").toOption.bind fun scanned =>
      (parse scanned.tokens).toOption.map fun parsed =>
        (parsed.diagnostics.map (fun d => d.line),
          decide (parsed.diagnostics.Pairwise fun d e => d.line ≤ e.line))) =
      some ([2, 1], false) := by
    decide +kernel
  obtain ⟨scanned, hscanned, hread⟩ := Option.bind_eq_some_iff.mp hread
  obtain ⟨parsed, hparsed, hread⟩ := Option.map_eq_some_iff.mp hread
  obtain ⟨hlines, hsorted⟩ := Prod.mk.inj hread
  exact ⟨scanned, parsed, toOption_eq_some_iff.mp hscanned, toOption_eq_some_iff.mp hparsed, hlines,
    of_decide_eq_false hsorted⟩

end IntentCode.Parser
