/-!
# Edit distance and similarity

Two names are close when few single-character edits turn one into the other. The distance is
computed one row of the usual table at a time: `row₀` holds the distances from the empty text to
every prefix of the target, and one character of the source turns a row into the next.

A row is built from the left, so a cell needs the cell to its left, the one above it and the one
above that. `nextCells` carries the first and the last of those along and takes the second off the
row above.

Similarity is the share of the longer name that needs no edit, as a binary64 number. Numbers of that
kind are compared by their `ordinal`, an integer read off the bits, so a ranking needs no order on
floating-point numbers and its order is total.
-/

set_option autoImplicit false

namespace IntentCode.Text

/-- The rest of a row: `left` is the cell just written, `diagonal` the cell above it. -/
def nextCells (c : Char) (left diagonal : Nat) : List Char → List Nat → List Nat
  | t :: ts, above :: row =>
    let cell := min (min (above + 1) (left + 1)) (diagonal + if c = t then 0 else 1)
    cell :: nextCells c cell above ts row
  | _, _ => []

/-- The row after reading one more character `c` of the source. -/
def nextRow (c : Char) (target : List Char) : List Nat → List Nat
  | [] => []
  | first :: row => (first + 1) :: nextCells c (first + 1) first target row

def editDistance (source target : List Char) : Nat :=
  let row₀ := List.range (target.length + 1)
  ((source.foldl (fun row c => nextRow c target row) row₀).getLast?).getD 0

/-- `1 - distance / longest`, in binary64; two empty names are alike. -/
def similarity (a b : String) : Float :=
  let longest := max a.length b.length
  if longest = 0 then 1.0
  else 1.0 - (editDistance a.toList b.toList).toFloat / longest.toFloat

/-- An integer that orders like the binary64 number: its bits without the sign, and for a negative
number the same below zero. -/
def ordinal (x : Float) : Int :=
  let bits := x.toBits.toNat
  if bits < 0x8000000000000000 then bits else 0x8000000000000000 - bits

/-- A similarity as an integer that orders like it. -/
def score (a b : String) : Int := ordinal (similarity a b)

end IntentCode.Text
