import IntentCode.Lexer.Content

/-!
# The lexer

Folding comes first and fails first: an error in a continuation anywhere in the file is reported
before any other. Then each logical line in turn is placed against the blocks that are open, and
its content is cut into tokens.

The open blocks are the stack of their indentation widths, innermost first, without the zero of the
top level. A deeper line must be deeper by exactly one level and opens a block; any other line
closes the blocks that are deeper than it, and then has to stand exactly at what is left.
-/

set_option autoImplicit false

namespace IntentCode.Lexer

/-- Columns per level. -/
def indentUnit : Nat := 4

/-- The columns of the innermost open block. -/
def top (widths : List Nat) : Nat := widths.head?.getD 0

/-- The layout tokens before a line and the blocks open after it. -/
def adjust (widths : List Nat) (l : LogicalLine) : Except LexError (List Token × List Nat) :=
  if l.indent > top widths then
    if l.indent % indentUnit ≠ 0 then
      .error ⟨.indentNotMultiple l.indent indentUnit, l.number, l.raw⟩
    else if l.indent - top widths ≠ indentUnit then
      .error ⟨.indentJump (top widths / indentUnit) (l.indent / indentUnit), l.number, l.raw⟩
    else .ok ([.bare .indent l.number], l.indent :: widths)
  else
    let kept := widths.dropWhile (l.indent < ·)
    if top kept ≠ l.indent then .error ⟨.inconsistentDedent l.indent, l.number, l.raw⟩
    else .ok (List.replicate (widths.length - kept.length) (.bare .dedent l.number), kept)

/-- The tokens of the lines that follow while `widths` are open, up to the end at line `last`. -/
def tokensFrom (last : Nat) (widths : List Nat) : List LogicalLine → Except LexError Scanned
  | [] =>
    .ok ⟨List.replicate widths.length (.bare .dedent last) ++ [.bare .endOfFile last], []⟩
  | l :: ls => do
    let (layout, widths) ← adjust widths l
    let content ← scan l.text.toList l.number l.raw
    let rest ← tokensFrom last widths ls
    return (⟨layout ++ content.tokens ++ [.bare .newline l.number], content.warnings⟩ : Scanned)
      |>.append rest

/-- The tokens of a source, with the warnings about dropped references. -/
def tokenize (source : String) : Except LexError Scanned := do
  tokensFrom (Text.lines source).length [] (← LogicalLine.ofSource source)

end IntentCode.Lexer
