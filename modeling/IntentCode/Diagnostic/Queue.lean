import IntentCode.Diagnostic

/-!
# Collecting diagnostics

A queue collects what the phases report about a file, in the order of arrival, and gives it out in
the order of the lines. Two settings keep a report short: at most so many errors are held (zero is
no limit; warnings are never refused), and of diagnostics that agree in code, line and message only
the first is held. The limit is looked at first, so an error that arrives after it is counted as
dropped even if it is a repetition.
-/

set_option autoImplicit false

namespace IntentCode.Diagnostic

structure QueueConfig where
  errorLimit : Nat
  deduplicate : Bool
deriving DecidableEq, Inhabited

namespace QueueConfig

/-- Everything is held. -/
def unlimited : QueueConfig := ⟨0, false⟩

/-- Ten errors, and no repetitions. -/
def compact : QueueConfig := ⟨10, true⟩

end QueueConfig

/-- What two diagnostics have to share to count as repetitions. -/
structure Key where
  code : Code
  line : Nat
  message : String
deriving DecidableEq, Inhabited

def key (d : Diagnostic) : Key := ⟨d.code, d.line, d.message⟩

structure Queue where
  config : QueueConfig
  /-- In the order of arrival. -/
  held : List Diagnostic
  /-- The keys of what is held, kept only if repetitions are refused. -/
  seen : List Key
  /-- How many errors are held. -/
  errors : Nat
  /-- How many errors the limit has refused. -/
  dropped : Nat
deriving DecidableEq, Inhabited

namespace Queue

def new (config : QueueConfig) : Queue := ⟨config, [], [], 0, 0⟩

def size (q : Queue) : Nat := q.held.length

def isEmpty (q : Queue) : Bool := q.held.isEmpty

def hasErrors (q : Queue) : Bool := q.errors > 0

def limitReached (q : Queue) : Bool := q.config.errorLimit > 0 && q.errors ≥ q.config.errorLimit

/-- Adds a diagnostic, and says whether it is held. -/
def add (q : Queue) (d : Diagnostic) : Bool × Queue :=
  if d.isError && q.limitReached then (false, { q with dropped := q.dropped + 1 })
  else if q.config.deduplicate && q.seen.contains d.key then (false, q)
  else
    (true,
      { q with
        held := q.held ++ [d]
        seen := if q.config.deduplicate then q.seen ++ [d.key] else q.seen
        errors := if d.isError then q.errors + 1 else q.errors })

def record (q : Queue) (d : Diagnostic) : Queue := (q.add d).2

def recordAll (q : Queue) (ds : List Diagnostic) : Queue := ds.foldl record q

/-- Gives out what is held, ordered by line; diagnostics of one line keep their order. The queue
starts over. -/
def flush (q : Queue) : List Diagnostic × Queue :=
  (q.held.mergeSort fun a b => decide (a.line ≤ b.line), new q.config)

end Queue

end IntentCode.Diagnostic
