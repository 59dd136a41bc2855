import IntentCode.Token

/-!
# A cursor over tokens

For whoever looks at a token stream one line at a time. A cursor holds the tokens that are still
ahead, the last of which is the end of the file, and never moves past an end of the file. It moves
forward only, and past a whole line it does move, which is what ends every run with a cursor.
-/

set_option autoImplicit false

namespace IntentCode.Parser

structure Cursor where
  rest : List Token
deriving DecidableEq, Inhabited

namespace Cursor

def current (c : Cursor) : Token := c.rest.head?.getD (.bare .endOfFile 0)

def isAtEnd (c : Cursor) : Bool := c.current.kind = .endOfFile

/-- The current token and the cursor after it. -/
def advance (c : Cursor) : Token × Cursor :=
  (c.current, if c.isAtEnd then c else ⟨c.rest.tail⟩)

/-- The content tokens of the next line; the layout tokens before them are passed over. -/
def peekLine (c : Cursor) : List Token :=
  (c.rest.dropWhile fun t => t.kind = .indent || t.kind = .dedent).takeWhile fun t =>
    !t.kind.isLayout

/-- The content tokens up to a `newline`, with the cursor after it. Another layout token stops the
cursor, and there is no line. -/
def takeLine (c : Cursor) : Option (List Token) × Cursor :=
  let line := c.rest.takeWhile fun t => !t.kind.isLayout
  match c.rest.dropWhile fun t => !t.kind.isLayout with
  | t :: after => if t.kind = .newline then (some line, ⟨after⟩) else (none, ⟨t :: after⟩)
  | [] => (none, ⟨[]⟩)

/-! ## Moving forward -/

theorem length_advance (c : Cursor) : c.advance.2.rest.length ≤ c.rest.length := by
  unfold advance
  split
  · exact Nat.le_refl _
  · rw [List.length_tail]
    exact Nat.sub_le _ _

theorem length_takeLine {c ahead : Cursor} {line : List Token}
    (h : c.takeLine = (some line, ahead)) : ahead.rest.length < c.rest.length := by
  have hsuffix : (c.rest.dropWhile fun t => !t.kind.isLayout).length ≤ c.rest.length :=
    (List.dropWhile_suffix _).length_le
  unfold takeLine at h
  dsimp only at h
  split at h
  · next t after hrest =>
    rw [hrest, List.length_cons] at hsuffix
    split at h
    · cases h
      exact hsuffix
    · cases h
  · cases h

end Cursor

end IntentCode.Parser
