import IntentCode.Proofs.Parser.Header
import IntentCode.Proofs.Parser.Outcome

/-!
# Blocks that are left out

A block is left out as a whole, and where it begins can be told from the lines: its first line is
one level deeper than the line before, and either that line was rejected and would have had a block
(`Outcome.IsRejectedOpener`), or the first line itself is reported as unexpected. The block goes on
as long as no line comes back below the level of its first line. `Lost` says this of the latest of
some lines, without the state.

The state says it with a count. That the two agree (`Losing`) takes both directions at once: while
lines are skipped there is such a block around them, and the levels skipped are those from its first
line on.
-/

set_option autoImplicit false

namespace IntentCode.Parser

/-! ## Rejected openers -/

/-- A line that declares a node with a block either ends with a colon or starts with the keyword of
a class or a function. -/
theorem opensSkipped_of_acceptsBlock {ts : List Token} {node : LineNode} (h : Declares ts node)
    (hb : node.acceptsBlock = true) : State.opensSkipped ts = true := by
  unfold State.opensSkipped
  cases h with
  | step ts free =>
    have hstrip : (stripColon ts).2 = endsWithColon ts := by
      unfold stripColon
      split <;> simp [*]
    have hexplicit : (stripColon ts).2 = true := by
      simpa [stepLine, LineNode.acceptsBlock, Ast.Body.type] using hb
    rw [← hstrip, hexplicit, Bool.true_or]
  | moduleImport => cases hb
  | varDecl => cases hb
  | classDecl k t ts list entries keyword word name front listed =>
    simp [Token.isKeyword, keyword, word]
  | funcDecl k t ts list entries keyword word name front listed =>
    simp [Token.isKeyword, keyword, word]

/-- The line is rejected, and a block under it goes with it. -/
def Outcome.IsRejectedOpener (o : Outcome) : Prop :=
  (∃ c, o.fate = .rejected c) ∧ State.opensSkipped o.line.tokens = true

namespace State

/-- Only a rejected opener is remembered as one. -/
theorem Handles.opener_rejected_iff {s s' : State} {l : Line} {loss fate : Fate} (level : Nat)
    (h : Handles s l loss fate s') (hno : s.opener = .none) (hloss : loss.isLost = true) :
    s'.opener = .rejected ↔ Outcome.IsRejectedOpener ⟨level, l, fate⟩ := by
  have hopens : ∀ opens : Bool,
      (if opens then Opener.rejected else .none) = .rejected ↔ opens = true := by
    intro opens
    cases opens <;> simp
  unfold Outcome.IsRejectedOpener
  cases h with
  | lost skipping =>
    have hne : ∀ c, loss ≠ .rejected c := by
      rintro c rfl
      cases hloss
    simp [hno, hne]
  | empty => simp [hno]
  | note kind text =>
    have hopener : (s.note kind text l.number (Token.render l.tokens)).opener = s.opener := by
      unfold State.note
      split <;> rfl
    simp [hopener, hno]
  | faulty fault => exact (hopens _).trans (by simp)
  | refused node reading ne meaning =>
    refine (hopens _).trans ?_
    have := opensSkipped_of_acceptsBlock (declares_of_ofTokens meaning)
    simpa using this
  | node node =>
    rw [add_eq]
    have hopener : (s.reportAll node.repeated l.number (Token.render l.tokens)).opener = .none := hno
    simp only [hopener]
    split <;> simp

/-- Where lines are skipped, a line is lost and changes nothing. -/
theorem Handles.eq_of_skipping {s s' : State} {l : Line} {loss fate : Fate}
    (h : Handles s l loss fate s') (hs : 0 < s.skipped) : fate = loss ∧ s' = s := by
  cases h with
  | lost skipping => exact ⟨rfl, rfl⟩
  | _ => omega

/-- A line is lost exactly if lines are skipped after it. -/
theorem Handles.isLost_iff {s s' : State} {l : Line} {loss fate : Fate}
    (h : Handles s l loss fate s') (hloss : loss.isLost = true) :
    fate.isLost = true ↔ 0 < s'.skipped := by
  have hskipped := h.outer_eq.2
  cases h with
  | lost skipping => exact ⟨fun _ => skipping, fun _ => hloss⟩
  | _ => simp_all [Fate.isLost]

end State

/-! ## Lost lines -/

/-- After some lines, the latest first, a line begins a block that is left out. -/
def BeginsLoss (before : List Outcome) (first : Outcome) : Prop :=
  (∃ line, first.line.move = .deeper line) ∧
    ((∃ o ∈ before.head?, o.IsRejectedOpener) ∨ ∃ line, first.fate = .unexpected line)

/-- The latest of some lines lies in a block that is left out. -/
def Lost (past : List Outcome) : Prop :=
  ∃ inside first before, past = inside ++ first :: before ∧ BeginsLoss before first ∧
    ∀ o ∈ inside, first.level ≤ o.level

/-- What the state remembers of the lines that are lost. -/
structure Losing (past : List Outcome) (s : State) : Prop where
  opener : s.opener = .rejected ↔ ∃ o ∈ past.head?, o.IsRejectedOpener
  silent : 0 < s.skipped → s.opener = .none
  /-- There is a block around the lines that are skipped. -/
  lost : 0 < s.skipped → Lost past
  /-- Around a line in such a block lines are skipped, from the level of its first line on. -/
  skips : ∀ inside first before, past = inside ++ first :: before → BeginsLoss before first →
    (∀ o ∈ inside, first.level ≤ o.level) → 0 < s.skipped ∧ first.level = s.outer.length + 1

namespace Losing

variable {past : List Outcome} {s : State} {l : Line}

theorem initial : Losing [] .initial where
  opener := by simp [State.initial]
  silent := fun h => absurd h (Nat.lt_irrefl 0)
  lost := fun h => absurd h (Nat.lt_irrefl 0)
  skips := by
    intro inside first before hpast
    exact absurd hpast (by simp)

/-- A line deeper than the scopes that are open goes on with the block that is left out. -/
theorem lost_cons (h : Losing past s) (hs : 0 < s.skipped) {o : Outcome}
    (ho : s.outer.length + 1 ≤ o.level) : Lost (o :: past) := by
  obtain ⟨inside, first, before, hpast, hbegins, hinside⟩ := h.lost hs
  obtain ⟨-, hlevel⟩ := h.skips inside first before hpast hbegins hinside
  refine ⟨o :: inside, first, before, by rw [hpast, List.cons_append], hbegins, ?_⟩
  intro p hp
  rcases List.mem_cons.mp hp with rfl | hp
  · rw [hlevel]
    exact ho
  · exact hinside p hp

/-- After the move to a line there is a block around it if lines are skipped. -/
theorem lost_move (h : Losing past s) {s' s'' : State} (hm : State.Moves s l s')
    (hh : State.Handles s' l (s.loss l) (s.fate l) s'') (hs : 0 < s'.skipped) :
    Lost (s.outcome l :: past) := by
  have hlevel : (s.outcome l).level = s'.depth := hm.depth_eq.symm
  cases hm with
  | further line move skipping =>
    refine h.lost_cons skipping ?_
    rw [hlevel]
    simp only [State.depth]
    omega
  | opened line uid type explicit number content move reading opener =>
    simp only at hs
    omega
  | dropped line move reading opener =>
    exact ⟨[], s.outcome l, past, rfl, ⟨⟨line, move⟩, .inl (h.opener.mp opener)⟩, by simp⟩
  | unexpected line move reading opener =>
    have hloss : s.loss l = .unexpected line := by simp [State.loss, reading, opener, move]
    exact ⟨[], s.outcome l, past, rfl, ⟨⟨line, move⟩, .inr ⟨line, (hh.eq_of_skipping hs).1.trans hloss⟩⟩,
      by simp⟩
  | back levels move fits =>
    have hlt : levels < s.skipped := by
      simp only [State.closing] at hs
      omega
    refine h.lost_cons (by omega) ?_
    rw [hlevel]
    simp only [State.depth, State.closing, List.length_drop]
    omega

/-- A line that begins such a block is skipped. -/
theorem skips_first (h : Losing past s) {s' s'' : State} (hm : State.Moves s l s')
    (hh : State.Handles s' l (s.loss l) (s.fate l) s'') (hb : BeginsLoss past (s.outcome l)) :
    0 < s'.skipped ∧ (s.outcome l).level = s'.outer.length + 1 := by
  obtain ⟨⟨line, hmove⟩, hcause⟩ := hb
  have hmove : l.move = .deeper line := hmove
  have hlevel : (s.outcome l).level = s'.depth := hm.depth_eq.symm
  rw [hlevel]
  unfold State.depth
  rcases hcause with hrejected | ⟨number, hfate⟩
  · have hopener := h.opener.mpr hrejected
    have hreading : s.skipped = 0 := by
      refine Nat.eq_zero_of_not_pos fun hs => ?_
      have := h.silent hs
      rw [hopener] at this
      cases this
    cases hm with
    | further line move skipping => omega
    | opened line uid type explicit number content move reading opener =>
      rw [opener] at hopener
      cases hopener
    | dropped line move reading opener => exact ⟨Nat.one_pos, rfl⟩
    | unexpected line move reading opener =>
      rw [opener] at hopener
      cases hopener
    | back levels move fits =>
      rw [hmove] at move
      cases move
  · have hfate : s.fate l = .unexpected number := hfate
    have hskipped : 0 < s'.skipped := by
      have hlost := hh.isLost_iff (State.isLost_loss s l)
      rw [← hh.outer_eq.2]
      exact hlost.mp (by rw [hfate]; rfl)
    have hloss := hfate.symm.trans (hh.eq_of_skipping hskipped).1
    cases hm with
    | further line move skipping =>
      -- a line in a block that is left out already is not reported
      rw [State.loss, if_pos skipping] at hloss
      cases hloss
    | opened line uid type explicit number content move reading opener =>
      simp only at hskipped
      omega
    | dropped line move reading opener => exact ⟨hskipped, rfl⟩
    | unexpected line move reading opener => exact ⟨hskipped, rfl⟩
    | back levels move fits =>
      rw [hmove] at move
      cases move

/-- So is a further line, if it is as deep as the first. -/
theorem skips_further {s' : State} (hm : State.Moves s l s')
    (hs : 0 < s.skipped) (hle : s.outer.length + 1 ≤ (s.outcome l).level) :
    0 < s'.skipped ∧ s'.outer.length = s.outer.length := by
  have hlevel : (s.outcome l).level = s'.depth := hm.depth_eq.symm
  rw [hlevel] at hle
  cases hm with
  | further line move skipping => exact ⟨Nat.succ_pos _, rfl⟩
  | opened line uid type explicit number content move reading opener => omega
  | dropped line move reading opener => omega
  | unexpected line move reading opener => omega
  | back levels move fits =>
    simp only [State.depth, State.closing, List.length_drop] at hle ⊢
    omega

/-- **Reading a line keeps the invariant.** -/
theorem step (h : Losing past s) (hfits : l.move.Fits s.depth) :
    Losing (s.outcome l :: past) (s.step l) := by
  obtain ⟨hmoves, hhandles⟩ := State.step_cases hfits
  have hloss := State.isLost_loss s l
  obtain ⟨houter, hskipped⟩ := hhandles.outer_eq
  have hnone : (s.move l.move l.tokens).opener = .none := by
    rcases hmoves.opener_eq with hopener | ⟨hs, hopener⟩
    · exact hopener
    · exact hopener.trans (h.silent hs)
  have hopener := hhandles.opener_rejected_iff (s.outcome l).level hnone hloss
  refine ⟨?_, ?_, ?_, ?_⟩
  · rw [hopener]
    simp [State.outcome]
  · rw [hskipped]
    intro hs
    rw [(hhandles.eq_of_skipping hs).2]
    exact hnone
  · rw [hskipped]
    exact h.lost_move hmoves hhandles
  · intro inside first before hpast hbegins hinside
    rw [hskipped, houter]
    cases inside with
    | nil =>
      obtain ⟨rfl, rfl⟩ := List.cons.inj hpast
      exact h.skips_first hmoves hhandles hbegins
    | cons o inside =>
      obtain ⟨rfl, hrest⟩ := List.cons.inj hpast
      obtain ⟨hs, hlevel⟩ := h.skips inside first before hrest hbegins fun o ho =>
        hinside o (List.mem_cons_of_mem _ ho)
      have hle := hinside _ List.mem_cons_self
      rw [hlevel] at hle
      obtain ⟨hs', hlen⟩ := skips_further hmoves hs hle
      exact ⟨hs', by rw [hlevel, hlen]⟩

end Losing

/-- **A line is lost exactly if it lies in a block that is left out.** -/
theorem isLost_iff_lost {past : List Outcome} {s : State} {l : Line} (h : Losing past s)
    (hfits : l.move.Fits s.depth) :
    (s.outcome l).fate.isLost = true ↔ Lost (s.outcome l :: past) := by
  have hstep := h.step hfits
  obtain ⟨-, hhandles⟩ := State.step_cases hfits
  have hlost : (s.outcome l).fate.isLost = true ↔ 0 < (s.step l).skipped := by
    rw [hhandles.outer_eq.2]
    exact (hhandles.isLost_iff (State.isLost_loss s l)).trans (by rw [hhandles.outer_eq.2])
  rw [hlost]
  constructor
  · exact hstep.lost
  · rintro ⟨inside, first, before, hpast, hbegins, hinside⟩
    exact (hstep.skips inside first before hpast hbegins hinside).1

theorem losing_run {ls : List Line} (h : Fits 0 ls) : Losing (outcomes ls).reverse (run ls) := by
  have hrun := run_induction (motive := Losing) [] .initial h Losing.initial
    fun past s l hs hfits => hs.step hfits
  rw [List.append_nil] at hrun
  exact hrun

end IntentCode.Parser
