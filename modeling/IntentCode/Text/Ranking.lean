import IntentCode.Text.Distance

/-!
# Ranking names by similarity

The names most like a given one, the best first. Names with equal scores come in alphabetical order,
a name that occurs several times comes once, and names below a floor do not come at all. Sorting
puts equal names next to each other, so one pass over neighbours is enough to leave repeats out.

The order on scored names is total, so the ranking depends on which candidates there are and not on
their order.
-/

set_option autoImplicit false

namespace IntentCode.Text

/-- A name with its score. -/
structure Scored where
  score : Int
  name : String
deriving DecidableEq, Inhabited

namespace Scored

/-- Higher scores come first, and equal scores in the order of the names. -/
def le (a b : Scored) : Bool :=
  b.score < a.score || (a.score == b.score && decide (a.name ≤ b.name))

theorem le_total (a b : Scored) : (a.le b || b.le a) = true := by
  simp only [le, Bool.or_eq_true, Bool.and_eq_true, decide_eq_true_eq, beq_iff_eq]
  rcases Int.lt_trichotomy a.score b.score with h | h | h
  · exact .inr (.inl h)
  · rcases String.le_total a.name b.name with k | k
    · exact .inl (.inr ⟨h, k⟩)
    · exact .inr (.inr ⟨h.symm, k⟩)
  · exact .inl (.inl h)

theorem le_trans (a b c : Scored) (hab : a.le b = true) (hbc : b.le c = true) :
    a.le c = true := by
  simp only [le, Bool.or_eq_true, Bool.and_eq_true, decide_eq_true_eq, beq_iff_eq] at *
  rcases hab with h | ⟨h, h'⟩ <;> rcases hbc with k | ⟨k, k'⟩
  · omega
  · omega
  · omega
  · exact .inr ⟨by omega, String.le_trans h' k'⟩

end Scored

/-- Keeps the first of neighbours that are equal. -/
def dropRepeats : List String → List String
  | a :: b :: rest => if a = b then dropRepeats (a :: rest) else a :: dropRepeats (b :: rest)
  | short => short

/-- Scores the candidates that are similar enough to `name`. -/
def scored (name : String) (floor : Float) (candidates : List String) : List Scored :=
  (candidates.filter fun c => ordinal floor ≤ score name c).map fun c => ⟨score name c, c⟩

/-- At most `limit` candidates, the most similar first; nothing is similar to an empty name. -/
def rank (name : String) (floor : Float) (limit : Nat) (candidates : List String) : List String :=
  if name.isEmpty then []
  else
    let sorted := (scored name floor candidates).mergeSort Scored.le
    (dropRepeats (sorted.map Scored.name)).take limit

end IntentCode.Text
