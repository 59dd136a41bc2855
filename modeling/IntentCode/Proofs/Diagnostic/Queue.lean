import IntentCode.Diagnostic.Queue

/-!
# What a queue holds

Whether a queue refuses a diagnostic depends on its settings and on all that arrived before. Two things
do not depend on that. A queue holds a part of what arrived, in the order of arrival, and sorting by
line keeps the part a part (`sublist_sortByLine`). And a queue that was given an error holds one
(`any_isError_recordAll`): the limit refuses an error only when others are held, and a repetition is
refused because of one with the same code, which decides whether it is an error.
-/

set_option autoImplicit false

namespace IntentCode.Diagnostic

/-! ## Severity and code -/

/-- How serious the diagnostics with a code are. -/
def Code.severity : Code → Severity
  | .emptyReference | .detachedNote => .warning
  | _ => .error

/-- The severity of a diagnostic goes with its code. -/
def Graded (d : Diagnostic) : Prop := d.severity = d.code.severity

theorem Graded.isError_eq {d e : Diagnostic} (hd : d.Graded) (he : e.Graded)
    (hcode : d.code = e.code) : d.isError = e.isError := by
  unfold Graded at hd he
  unfold isError
  rw [hd, he, hcode]

/-! ## Sorting by line -/

/-- The diagnostics in the order of their lines, those of one line as they came. -/
def sortByLine (ds : List Diagnostic) : List Diagnostic :=
  ds.mergeSort fun a b => decide (a.line ≤ b.line)

/-- A list sorted by line: what stands on one line stands there in the order in which it came. -/
structure ByLine (found sorted : List Diagnostic) : Prop where
  ordered : sorted.Pairwise fun a b => a.line ≤ b.line
  stable : ∀ line,
    (sorted.filter fun d => d.line = line) = found.filter fun d => d.line = line

theorem line_le_trans (a b c : Diagnostic) (hab : decide (a.line ≤ b.line) = true)
    (hbc : decide (b.line ≤ c.line) = true) : decide (a.line ≤ c.line) = true := by
  rw [decide_eq_true_iff] at hab hbc ⊢
  exact Nat.le_trans hab hbc

theorem line_le_total (a b : Diagnostic) :
    (decide (a.line ≤ b.line) || decide (b.line ≤ a.line)) = true := by
  rw [Bool.or_eq_true, decide_eq_true_iff, decide_eq_true_iff]
  exact Nat.le_total _ _

theorem sortByLine_perm (ds : List Diagnostic) : (sortByLine ds).Perm ds := List.mergeSort_perm _ _

theorem ordered_sortByLine (ds : List Diagnostic) :
    (sortByLine ds).Pairwise fun a b => a.line ≤ b.line := by
  have h := List.pairwise_mergeSort line_le_trans line_le_total ds
  exact h.imp fun hab => of_decide_eq_true hab

theorem byLine_sortByLine (ds : List Diagnostic) : ByLine ds (sortByLine ds) where
  ordered := ordered_sortByLine ds
  stable := by
    intro line
    have hone : (ds.filter fun d => d.line = line).Pairwise
        fun a b => decide (a.line ≤ b.line) = true := by
      apply List.pairwise_of_forall_mem_list
      intro a ha b hb
      have hline : a.line = line := by simpa using (List.mem_filter.mp ha).2
      have hline' : b.line = line := by simpa using (List.mem_filter.mp hb).2
      simp [hline, hline']
    -- what is on one line is sorted already, so it is found in the sorted list as it is
    have hsub := (List.sublist_mergeSort line_le_trans line_le_total hone
      List.filter_sublist).filter fun d => decide (d.line = line)
    rw [List.filter_filter] at hsub
    simp only [Bool.and_self] at hsub
    exact (hsub.eq_of_length ((sortByLine_perm ds).filter _).length_eq.symm).symm

/-- A diagnostic is put behind those of earlier lines and in front of those that came after it. -/
theorem sortByLine_cons (d : Diagnostic) (ds : List Diagnostic) :
    sortByLine (d :: ds) =
        ((sortByLine ds).filter fun e => e.line < d.line) ++
          d :: ((sortByLine ds).filter fun e => d.line ≤ e.line) ∧
      sortByLine ds =
        ((sortByLine ds).filter fun e => e.line < d.line) ++
          ((sortByLine ds).filter fun e => d.line ≤ e.line) := by
  obtain ⟨before, after, hall, hrest, hbefore⟩ :=
    List.mergeSort_cons line_le_trans line_le_total d ds
  have hordered := ordered_sortByLine (d :: ds)
  rw [sortByLine, hall, List.pairwise_append, List.pairwise_cons] at hordered
  have hlt : ∀ e ∈ before, e.line < d.line := by
    intro e he
    have hnot := hbefore e he
    simpa using hnot
  have hge : ∀ e ∈ after, d.line ≤ e.line := fun e he => hordered.2.1.1 e he
  have hfront : ((before ++ after).filter fun e => e.line < d.line) = before := by
    rw [List.filter_append, List.filter_eq_self.mpr (by simpa using hlt),
      List.filter_eq_nil_iff.mpr (by simpa using hge), List.append_nil]
  have hback : ((before ++ after).filter fun e => d.line ≤ e.line) = after := by
    rw [List.filter_append, List.filter_eq_nil_iff.mpr (by simpa using hlt),
      List.filter_eq_self.mpr (by simpa using hge), List.nil_append]
  have hsorted : sortByLine ds = before ++ after := hrest
  rw [hsorted, hfront, hback]
  exact ⟨hall, rfl⟩

/-- **A part of a list is still a part when both are sorted.** -/
theorem sublist_sortByLine {part ds : List Diagnostic} (h : part.Sublist ds) :
    (sortByLine part).Sublist (sortByLine ds) := by
  induction h with
  | slnil => exact List.Sublist.refl _
  | @cons part ds d _ ih =>
    obtain ⟨hall, hrest⟩ := sortByLine_cons d ds
    rw [hrest] at ih
    rw [hall]
    exact ih.trans ((List.Sublist.refl _).append (List.sublist_cons_self d _))
  | @cons_cons part ds d _ ih =>
    rw [(sortByLine_cons d part).1, (sortByLine_cons d ds).1]
    exact (ih.filter _).append ((ih.filter _).cons_cons d)

/-! ## What is held -/

namespace Queue

theorem flush_eq (q : Queue) : q.flush.1 = sortByLine q.held := rfl

/-- The queue after it has taken a diagnostic. -/
def hold (q : Queue) (d : Diagnostic) : Queue :=
  { q with
    held := q.held ++ [d]
    seen := if q.config.deduplicate then q.seen ++ [d.key] else q.seen
    errors := if d.isError then q.errors + 1 else q.errors }

/-- A diagnostic that is added is refused for the limit or as a repetition, or else it is held. The
limit comes first: what it refuses is counted even if it is a repetition. -/
theorem add_cases (q : Queue) (d : Diagnostic) :
    (d.isError = true ∧ q.limitReached = true ∧
        q.add d = (false, { q with dropped := q.dropped + 1 })) ∨
      (¬ (d.isError = true ∧ q.limitReached = true) ∧
        (q.config.deduplicate = true ∧ d.key ∈ q.seen) ∧ q.add d = (false, q)) ∨
      (¬ (d.isError = true ∧ q.limitReached = true) ∧
        ¬ (q.config.deduplicate = true ∧ d.key ∈ q.seen) ∧ q.add d = (true, q.hold d)) := by
  unfold add
  split
  · next h =>
    rw [Bool.and_eq_true] at h
    exact .inl ⟨h.1, h.2, rfl⟩
  · next hroom =>
    rw [Bool.and_eq_true] at hroom
    split
    · next h =>
      rw [Bool.and_eq_true, List.contains_iff_mem] at h
      exact .inr (.inl ⟨hroom, h, rfl⟩)
    · next hnew =>
      rw [Bool.and_eq_true, List.contains_iff_mem] at hnew
      exact .inr (.inr ⟨hroom, hnew, rfl⟩)

theorem record_cases (q : Queue) (d : Diagnostic) :
    (d.isError = true ∧ q.limitReached = true ∧ q.record d = { q with dropped := q.dropped + 1 }) ∨
      (q.config.deduplicate = true ∧ d.key ∈ q.seen ∧ q.record d = q) ∨
      q.record d = q.hold d := by
  unfold record
  obtain ⟨herror, hlimit, heq⟩ | ⟨-, ⟨hdedup, hseen⟩, heq⟩ | ⟨-, -, heq⟩ := add_cases q d
  · exact .inl ⟨herror, hlimit, by rw [heq]⟩
  · exact .inr (.inl ⟨hdedup, hseen, by rw [heq]⟩)
  · exact .inr (.inr (by rw [heq]))

/-- What is held of the diagnostics that have arrived, and what the counts of the queue say of it. -/
structure Collected (arrived : List Diagnostic) (q : Queue) : Prop where
  held : q.held.Sublist arrived
  errors : q.errors = q.held.countP isError
  seen : q.config.deduplicate = true → q.seen = q.held.map key

theorem collected_new (config : QueueConfig) : Collected [] (new config) where
  held := List.Sublist.refl _
  errors := rfl
  seen := fun _ => rfl

theorem Collected.record {arrived : List Diagnostic} {q : Queue} (h : Collected arrived q)
    (d : Diagnostic) : Collected (arrived ++ [d]) (q.record d) := by
  have hmore : q.held.Sublist (arrived ++ [d]) := h.held.trans (List.sublist_append_left _ _)
  obtain ⟨-, -, heq⟩ | ⟨-, -, heq⟩ | heq := record_cases q d
  · rw [heq]
    exact ⟨hmore, h.errors, h.seen⟩
  · rw [heq]
    exact ⟨hmore, h.errors, h.seen⟩
  · rw [heq]
    refine ⟨h.held.append (List.Sublist.refl _), ?_, ?_⟩
    · simp only [hold, List.countP_append, List.countP_singleton, h.errors]
      split <;> rfl
    · intro hdedup
      simp only [hold] at hdedup ⊢
      rw [if_pos hdedup, h.seen hdedup, List.map_append, List.map_singleton]

/-- An error that is refused leaves a queue that holds another. -/
theorem Collected.any_isError_record {arrived : List Diagnostic} {q : Queue}
    (h : Collected arrived q) (hgraded : ∀ e ∈ q.held, e.Graded) {d : Diagnostic}
    (hd : d.Graded) :
    (q.record d).held.any isError = (q.held.any isError || d.isError) := by
  obtain ⟨herror, hlimit, heq⟩ | ⟨hdedup, hseen, heq⟩ | heq := record_cases q d
  · -- the limit is positive, and it is reached by errors that are held
    have hpos : 0 < q.held.countP isError := by
      unfold limitReached at hlimit
      rw [Bool.and_eq_true, decide_eq_true_iff, decide_eq_true_iff, h.errors] at hlimit
      exact Nat.lt_of_lt_of_le hlimit.1 hlimit.2
    obtain ⟨e, he, hiserror⟩ := List.countP_pos_iff.mp hpos
    have hany : q.held.any isError = true := List.any_eq_true.mpr ⟨e, he, hiserror⟩
    rw [heq, herror, Bool.or_true]
    exact hany
  · -- what is repeated has the same code, and so the same severity
    rw [h.seen hdedup] at hseen
    obtain ⟨e, he, hkey⟩ := List.mem_map.mp hseen
    have hcode : e.code = d.code := congrArg Key.code hkey
    have hsame := (hgraded e he).isError_eq hd hcode
    rw [heq, ← hsame]
    cases herror : e.isError with
    | false => rw [Bool.or_false]
    | true =>
      rw [Bool.or_true]
      exact List.any_eq_true.mpr ⟨e, he, herror⟩
  · rw [heq, hold, List.any_append, List.any_cons, List.any_nil, Bool.or_false]

theorem recordAll_cons (q : Queue) (d : Diagnostic) (ds : List Diagnostic) :
    q.recordAll (d :: ds) = (q.record d).recordAll ds := rfl

theorem Collected.recordAll {arrived : List Diagnostic} {q : Queue} (h : Collected arrived q)
    (ds : List Diagnostic) : Collected (arrived ++ ds) (q.recordAll ds) := by
  induction ds generalizing arrived q with
  | nil =>
    rw [List.append_nil]
    exact h
  | cons d ds ih =>
    rw [recordAll_cons, List.append_cons]
    exact ih (h.record d)

/-- **A queue holds an error if one has arrived**, whatever its settings are. -/
theorem Collected.any_isError_recordAll {arrived : List Diagnostic} {q : Queue}
    (h : Collected arrived q) {ds : List Diagnostic} (hgraded : ∀ d ∈ arrived ++ ds, d.Graded) :
    (q.recordAll ds).held.any isError = (q.held.any isError || ds.any isError) := by
  induction ds generalizing arrived q with
  | nil => exact (Bool.or_false _).symm
  | cons d ds ih =>
    rw [List.append_cons] at hgraded
    have hd : d.Graded := hgraded d (by simp)
    have hheld : ∀ e ∈ q.held, e.Graded := by
      intro e he
      apply hgraded e
      simp [h.held.subset he]
    rw [recordAll_cons, ih (h.record d) hgraded, h.any_isError_record hheld hd, List.any_cons,
      Bool.or_assoc]

end Queue

end IntentCode.Diagnostic
