import IntentCode.Proofs.Diagnostic.Queue
import Mathlib.Data.List.DropRight

/-!
# A queue over a whole run

A queue answers calls, and what it answers can be told from the calls before and their answers alone:
from what has been accepted since the last flush. `Answered` is that rule for one call, and `Account`
says what a queue looks like after a list of answered calls. One call keeps the account
(`Account.answer`), so every run of a new queue does (`account_run`), however additions and flushes
follow on each other.
-/

set_option autoImplicit false

namespace IntentCode.Diagnostic.Queue

/-! ## Runs -/

inductive Call where
  | add (d : Diagnostic)
  | flush

/-- What becomes of a diagnostic that is added. -/
inductive Fate where
  | held
  | dropped
  | repeated
deriving DecidableEq

/-- The fate of a diagnostic, as the answer and the count of what was dropped tell it. -/
def fate (q : Queue) (d : Diagnostic) : Fate :=
  if (q.add d).1 then .held
  else if q.dropped < (q.add d).2.dropped then .dropped
  else .repeated

/-- A call with its answer. -/
inductive Event where
  | added (d : Diagnostic) (fate : Fate)
  | flushed (given : List Diagnostic)

namespace Event

def isFlush : Event → Bool
  | added .. => false
  | flushed _ => true

/-- The diagnostic that the queue accepted. -/
def accepted? : Event → Option Diagnostic
  | added d .held => some d
  | added _ .dropped | added _ .repeated | flushed _ => none

def isDropped : Event → Bool
  | added _ fate => fate = .dropped
  | flushed _ => false

end Event

/-- The answer to a call, and the queue after it. -/
def answer (q : Queue) : Call → Event × Queue
  | .add d => (.added d (q.fate d), (q.add d).2)
  | .flush => (.flushed q.flush.1, q.flush.2)

/-- The calls with their answers, and the queue that they leave. -/
def run (q : Queue) : List Call → List Event × Queue
  | [] => ([], q)
  | c :: calls =>
    let (e, next) := q.answer c
    let (es, last) := next.run calls
    (e :: es, last)

/-! ## What the events tell -/

/-- The events since the last flush. -/
def recent (es : List Event) : List Event := es.rtakeWhile fun e => !e.isFlush

/-- What has been accepted since the last flush, in the order of arrival. -/
def accepted (es : List Event) : List Diagnostic := (recent es).filterMap Event.accepted?

/-- There is a limit, and the errors accepted since the last flush have reached it. -/
def Full (config : QueueConfig) (es : List Event) : Prop :=
  0 < config.errorLimit ∧ config.errorLimit ≤ (accepted es).countP isError

/-- Repetitions are refused, and one of the diagnostics accepted since the last flush has the code, the
line and the message of `d`. -/
def Repeats (config : QueueConfig) (es : List Event) (d : Diagnostic) : Prop :=
  config.deduplicate = true ∧ ∃ e ∈ accepted es, e.key = d.key

/-- What the answer to a call has to be after the events `before`. -/
inductive Answered (config : QueueConfig) (before : List Event) : Event → Prop
  | held {d : Diagnostic} (room : ¬ (d.isError = true ∧ Full config before))
    (new : ¬ Repeats config before d) : Answered config before (.added d .held)
  | dropped {d : Diagnostic} (error : d.isError = true) (full : Full config before) :
    Answered config before (.added d .dropped)
  | repeated {d : Diagnostic} (room : ¬ (d.isError = true ∧ Full config before))
    (repeats : Repeats config before d) : Answered config before (.added d .repeated)
  | flushed {given : List Diagnostic} (perm : given.Perm (accepted before))
    (sorted : ByLine (accepted before) given) : Answered config before (.flushed given)

theorem recent_concat (es : List Event) (e : Event) :
    recent (es ++ [e]) = if e.isFlush then [] else recent es ++ [e] := by
  unfold recent
  cases he : e.isFlush with
  | true => simp [List.rtakeWhile_concat_neg, he]
  | false => simp [List.rtakeWhile_concat_pos, he]

theorem accepted_added (es : List Event) (d : Diagnostic) (fate : Fate) :
    accepted (es ++ [.added d fate]) = accepted es ++ (Event.added d fate).accepted?.toList := by
  have hrecent : recent (es ++ [.added d fate]) = recent es ++ [.added d fate] := recent_concat es _
  rw [accepted, hrecent, List.filterMap_append, accepted]
  cases fate <;> rfl

theorem countP_isDropped_added (es : List Event) (d : Diagnostic) (fate : Fate) :
    (recent (es ++ [.added d fate])).countP Event.isDropped =
      (recent es).countP Event.isDropped + if fate = .dropped then 1 else 0 := by
  have hrecent : recent (es ++ [.added d fate]) = recent es ++ [.added d fate] := recent_concat es _
  rw [hrecent, List.countP_append, List.countP_singleton]
  cases fate <;> rfl

/-! ## The account of a queue -/

/-- What a queue is after the events `es`. -/
structure Account (config : QueueConfig) (es : List Event) (q : Queue) : Prop where
  config_eq : q.config = config
  held : q.held = accepted es
  errors : q.errors = q.held.countP isError
  within : 0 < config.errorLimit → q.errors ≤ config.errorLimit
  distinct : config.deduplicate = true → q.held.Pairwise fun d e => d.key ≠ e.key
  seen : config.deduplicate = true → q.seen = q.held.map key
  dropped : q.dropped = (recent es).countP Event.isDropped
  /-- Every event is the right answer after those before it. -/
  answered : ∀ before e after, es = before ++ e :: after → Answered config before e

theorem account_new (config : QueueConfig) : Account config [] (new config) where
  config_eq := rfl
  held := rfl
  errors := rfl
  within := fun _ => Nat.zero_le _
  distinct := fun _ => List.Pairwise.nil
  seen := fun _ => rfl
  dropped := rfl
  answered := by simp

/-- One more event that is the right answer. -/
theorem answered_concat {config : QueueConfig} {es : List Event} {e : Event}
    (h : ∀ before e after, es = before ++ e :: after → Answered config before e)
    (he : Answered config es e) {before : List Event} {other : Event} {after : List Event}
    (hsplit : es ++ [e] = before ++ other :: after) : Answered config before other := by
  rcases List.eq_nil_or_concat after with rfl | ⟨after, last, rfl⟩
  · obtain ⟨rfl, heq⟩ := List.append_inj' hsplit rfl
    obtain rfl := (List.cons.inj heq).1
    exact he
  · rw [List.concat_eq_append, ← List.cons_append, ← List.append_assoc] at hsplit
    exact h before other after (List.append_inj' hsplit rfl).1

namespace Account

variable {config : QueueConfig} {es : List Event} {q : Queue}

theorem limitReached_iff (h : Account config es q) : q.limitReached = true ↔ Full config es := by
  rw [limitReached, Bool.and_eq_true, decide_eq_true_iff, decide_eq_true_iff, h.config_eq, h.errors,
    h.held]
  rfl

theorem seen_iff (h : Account config es q) (d : Diagnostic) :
    q.config.deduplicate = true ∧ d.key ∈ q.seen ↔ Repeats config es d := by
  rw [h.config_eq, Repeats]
  refine and_congr_right fun hdedup => ?_
  rw [h.seen hdedup, h.held, List.mem_map]

/-- A diagnostic that is refused. -/
theorem refuse (h : Account config es q) {d : Diagnostic} {fate : Fate} (hfate : fate ≠ .held)
    (hanswer : Answered config es (.added d fate)) :
    Account config (es ++ [.added d fate])
      { q with dropped := q.dropped + if fate = .dropped then 1 else 0 } where
  config_eq := h.config_eq
  held := by
    have hnone : (Event.added d fate).accepted? = none := by
      cases fate <;> first | rfl | exact absurd rfl hfate
    rw [accepted_added, hnone, ← h.held]
    exact (List.append_nil _).symm
  errors := h.errors
  within := h.within
  distinct := h.distinct
  seen := h.seen
  dropped := by rw [countP_isDropped_added, ← h.dropped]
  answered := fun _ _ _ => answered_concat h.answered hanswer

/-- A diagnostic that is held. -/
theorem hold (h : Account config es q) {d : Diagnostic}
    (hroom : ¬ (d.isError = true ∧ Full config es)) (hnew : ¬ Repeats config es d) :
    Account config (es ++ [.added d .held]) (q.hold d) where
  config_eq := h.config_eq
  held := by
    rw [accepted_added, ← h.held]
    rfl
  errors := by
    simp only [Queue.hold, List.countP_append, List.countP_singleton, h.errors]
    split <;> rfl
  within := by
    intro hpos
    have hbefore := h.within hpos
    simp only [Queue.hold]
    split
    · next herror =>
      -- an error is held only while there is room for one more
      have hlt : ¬ config.errorLimit ≤ (accepted es).countP isError :=
        fun hle => hroom ⟨herror, hpos, hle⟩
      rw [h.errors, h.held]
      omega
    · exact hbefore
  distinct := by
    intro hdedup
    refine List.pairwise_append.mpr ⟨h.distinct hdedup, List.pairwise_singleton _ _, ?_⟩
    intro e he other hother hkey
    obtain rfl := List.mem_singleton.mp hother
    exact hnew ⟨hdedup, e, h.held ▸ he, hkey⟩
  seen := by
    intro hdedup
    simp only [Queue.hold, h.config_eq, hdedup, if_true, h.seen hdedup, List.map_append,
      List.map_singleton]
  dropped := by
    rw [countP_isDropped_added, ← h.dropped]
    rfl
  answered := fun _ _ _ => answered_concat h.answered (.held hroom hnew)

/-- **Flushing gives out what is held and leaves a new queue.** -/
theorem flush (h : Account config es q) :
    q.flush.1.Perm q.held ∧ ByLine q.held q.flush.1 ∧ q.flush.2 = new config := by
  rw [flush_eq]
  exact ⟨sortByLine_perm q.held, byLine_sortByLine q.held, congrArg new h.config_eq⟩

/-- **One call keeps the account.** -/
theorem answer (h : Account config es q) (c : Call) :
    Account config (es ++ [(q.answer c).1]) (q.answer c).2 := by
  cases c with
  | flush =>
    obtain ⟨hperm, hsorted, hnew⟩ := h.flush
    rw [h.held] at hperm hsorted
    have hrecent : recent (es ++ [.flushed q.flush.1]) = [] := recent_concat es _
    have hfresh := account_new config
    simp only [Queue.answer, hnew]
    exact {
      config_eq := rfl
      held := by rw [accepted, hrecent]; rfl
      errors := rfl
      within := hfresh.within
      distinct := hfresh.distinct
      seen := hfresh.seen
      dropped := by rw [hrecent]; rfl
      answered := fun _ _ _ => answered_concat h.answered (.flushed hperm hsorted) }
  | add d =>
    simp only [Queue.answer, fate]
    obtain ⟨herror, hlimit, heq⟩ | ⟨hroom, hseen, heq⟩ | ⟨hroom, hnew, heq⟩ := add_cases q d
    · have hdropped : q.dropped < q.dropped + 1 := Nat.lt_succ_self _
      simp only [heq, Bool.false_eq_true, if_false, hdropped, if_true]
      exact h.refuse Fate.noConfusion (.dropped herror (h.limitReached_iff.mp hlimit))
    · simp only [heq, Bool.false_eq_true, if_false, Nat.lt_irrefl]
      rw [h.limitReached_iff] at hroom
      exact h.refuse Fate.noConfusion (.repeated hroom ((h.seen_iff d).mp hseen))
    · simp only [heq, if_true]
      rw [h.limitReached_iff] at hroom
      exact h.hold hroom fun hrepeats => hnew ((h.seen_iff d).mpr hrepeats)

theorem run (h : Account config es q) (calls : List Call) :
    Account config (es ++ (q.run calls).1) (q.run calls).2 := by
  induction calls generalizing es q with
  | nil =>
    rw [Queue.run, List.append_nil]
    exact h
  | cons c calls ih =>
    have hrest := ih (h.answer c)
    rw [List.append_assoc, List.singleton_append] at hrest
    exact hrest

end Account

end IntentCode.Diagnostic.Queue
