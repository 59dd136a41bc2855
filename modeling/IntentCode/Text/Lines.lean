/-!
# Physical lines

A line ends at a line feed, and a carriage return directly before that line feed belongs to the
line ending. Two consequences are easy to miss and both are visible in error messages: a carriage
return anywhere else, at the end of an unfinished last line in particular, is an ordinary
character of its line; and text that ends with a line feed has no empty line after it.

`breakLines` is a recursion on the characters, so what it does to a text is one equation per first
character. Every line that it yields is free of line feeds (`lineFeed_notMem_of_mem_breakLines`),
which is what lets a line be written back and read again.
-/

set_option autoImplicit false

namespace IntentCode.Text

def breakLines : List Char → List (List Char)
  | [] => []
  | '\n' :: cs => [] :: breakLines cs
  | '\r' :: '\n' :: cs => [] :: breakLines cs
  | c :: cs =>
    match breakLines cs with
    | [] => [[c]]
    | l :: ls => (c :: l) :: ls

theorem lineFeed_notMem_of_mem_breakLines (cs : List Char) :
    ∀ l ∈ breakLines cs, '\n' ∉ l := by
  fun_induction breakLines cs with
  | case1 => simp
  | case2 cs ih => simpa using ih
  | case3 cs ih => simpa using ih
  | case4 c cs hc _ _ _ => simpa using fun h => hc h.symm
  | case5 c cs hc _ l ls hl ih => grind

/-- The physical lines of a text. -/
def lines (s : String) : List String := (breakLines s.toList).map String.ofList

end IntentCode.Text
