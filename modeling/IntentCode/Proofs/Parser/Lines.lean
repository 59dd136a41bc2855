import IntentCode.Parser

/-!
# Token streams as lines

The layout tokens of a stream say how each line is indented relative to the line before. Read that
way, a stream is a list of lines, each with the move that leads to it: one level deeper, or back by
some number of levels, zero included. After the last line there is one more move.

Not every token list is such a stream. A line takes at most one `indent`, takes no `indent` after a
`dedent`, has no layout token inside it, and no move goes back further than the levels that are
open. `ofTokens` is the automaton that accepts the streams and returns their lines; it only counts the
levels, and knows nothing of scopes.

A state reads the lines of a stream one after another (`run`). Parsing does not take a stream to its
lines first: the cursor and the scopes move together, and it is the scopes that say whether a level is
open. That it comes to the same, for what is accepted and for what is refused, is `parse_eq`, and that it
goes through the same states is `reaches_run`.
-/

set_option autoImplicit false

namespace IntentCode.Parser

open Ast

/-- From the indentation of one line to that of the next. -/
inductive Move where
  /-- One level deeper, by the `indent` at the given line. -/
  | deeper (line : Nat)
  | back (levels : Nat)
deriving DecidableEq, Inhabited

structure Line where
  move : Move
  tokens : List Token
deriving DecidableEq, Inhabited

structure Stream where
  lines : List Line
  /-- The move after the last line. -/
  trailing : Move
deriving DecidableEq, Inhabited

/-! ## The automaton -/

namespace Stream

inductive Phase where
  /-- Before the content of a line, after layout tokens that amount to `move`. -/
  | layout (move : Move)
  /-- Inside a line that starts at source line `first`, after the tokens `read`. -/
  | content (move : Move) (first : Nat) (read : List Token)
deriving DecidableEq

/-- Puts a line in front of a stream. -/
def cons (l : Line) (s : Stream) : Stream := ⟨l :: s.lines, s.trailing⟩

/-- The lines of the tokens that follow with `depth` levels open. -/
def linesFrom (depth : Nat) (phase : Phase) : List Token → Except ParseError Stream
  | [] =>
    match phase with
    | .layout move => .ok ⟨[], move⟩
    | .content _ first _ => .error (.layoutInsideLine first)
  | t :: ts =>
    match phase, t.kind with
    | .layout move, .endOfFile => .ok ⟨[], move⟩
    | .layout move, .newline => (linesFrom depth (.layout (.back 0)) ts).map (cons ⟨move, []⟩)
    | .layout (.back 0), .indent => linesFrom (depth + 1) (.layout (.deeper t.line)) ts
    | .layout (.back (_ + 1)), .indent => .error (.indentAfterDedent t.line)
    | .layout (.deeper first), .indent => .error (.secondIndent first)
    | .layout (.back levels), .dedent =>
      match depth with
      | 0 => .error (.dedentBelowTop t.line)
      | depth + 1 => linesFrom depth (.layout (.back (levels + 1))) ts
    | .layout (.deeper _), .dedent => .error (.layoutInsideLine t.line)
    | .layout move, _ => linesFrom depth (.content move t.line [t]) ts
    | .content move _ read, .newline =>
      (linesFrom depth (.layout (.back 0)) ts).map (cons ⟨move, read⟩)
    | .content _ first _, .indent => .error (.layoutInsideLine first)
    | .content _ first _, .dedent => .error (.layoutInsideLine first)
    | .content _ first _, .endOfFile => .error (.layoutInsideLine first)
    | .content move first read, _ => linesFrom depth (.content move first (read ++ [t])) ts

/-- The lines of a token list that ends with the end of the file. What follows the first end of the
file is not looked at. -/
def ofTokens (ts : List Token) : Except ParseError Stream :=
  if (ts.getLast?.map Token.kind) = some .endOfFile then linesFrom 0 (.layout (.back 0)) ts
  else .error .missingEnd

end Stream

/-! ## Reading lines -/

namespace State

/-- One level back; nothing changes if no level is open. -/
def leave (s : State) : State := s.leave?.getD s

def move (s : State) (m : Move) (tokens : List Token) : State :=
  match m with
  | .deeper line => s.enter line tokens
  | .back levels => levels.repeat leave s.closeOpener

def step (s : State) (l : Line) : State := (s.move l.move l.tokens).line l.tokens

/-- The last move, and the end of the file. -/
def finish (s : State) (trailing : Move) : State := (s.move trailing []).close

end State

/-- The state after the lines of a stream. -/
def run (lines : List Line) : State := lines.foldl State.step .initial

def ofStream (stream : Stream) : Parsed :=
  let s := (run stream.lines).finish stream.trailing
  ⟨s.table, s.findings⟩

end IntentCode.Parser
