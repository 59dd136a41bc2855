/-!
# Separated text

References, symbol paths and file paths are all texts cut at one character: at `$`, at a dot, at a
slash. Cutting keeps every piece, the empty ones too, so a text with `n` separators has `n + 1`
pieces (`length_cutAt`), and joining the pieces gives the text back (`intercalate_cutAt`).
-/

set_option autoImplicit false

namespace IntentCode.Text

def cutAt (sep : Char) : List Char → List (List Char)
  | [] => [[]]
  | c :: cs =>
    if c = sep then [] :: cutAt sep cs
    else match cutAt sep cs with
      | [] => [[c]]
      | p :: ps => (c :: p) :: ps

theorem cutAt_ne_nil (sep : Char) (cs : List Char) : cutAt sep cs ≠ [] := by
  fun_induction cutAt sep cs <;> simp

theorem length_cutAt (sep : Char) (cs : List Char) :
    (cutAt sep cs).length = cs.count sep + 1 := by
  fun_induction cutAt sep cs with
  | case1 => simp
  | case2 cs ih => simp [ih]
  | case3 c cs hc h => exact absurd h (cutAt_ne_nil sep cs)
  | case4 c cs hc p ps h ih => grind

theorem intercalate_cutAt (sep : Char) (cs : List Char) :
    [sep].intercalate (cutAt sep cs) = cs := by
  fun_induction cutAt sep cs with
  | case1 => rfl
  | case2 cs ih =>
    cases h : cutAt sep cs with
    | nil => exact absurd h (cutAt_ne_nil sep cs)
    | cons p ps => simpa [List.intercalate, h] using ih
  | case3 c cs hc h => exact absurd h (cutAt_ne_nil sep cs)
  | case4 c cs hc p ps h ih =>
    rw [h] at ih
    cases ps <;> simpa [List.intercalate] using ih

/-! ## The same on strings -/

/-- The pieces of `s` between occurrences of `sep`. -/
def pieces (sep : Char) (s : String) : List String := (cutAt sep s.toList).map String.ofList

def startsWith (s start : String) : Bool := start.toList.isPrefixOf s.toList

/-- What follows `start` in `s`, if `s` begins with it. -/
def afterStart? (s start : String) : Option String :=
  (start.toList.isPrefixOf? s.toList).map String.ofList

end IntentCode.Text
