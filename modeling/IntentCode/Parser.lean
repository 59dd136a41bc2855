import IntentCode.Ast.Table
import IntentCode.Parser.Cursor
import IntentCode.Parser.Error
import IntentCode.Parser.Header

/-!
# The parser

The parser goes through a token stream in rounds, with a cursor and a stack of open scopes, and builds
the tree as it goes. A round moves past the layout before a line and past the line. No line makes it
give up: one that is malformed or out of place is reported and leaves nothing behind, and the block
under it is skipped.

Between two lines the state records three things besides the tree and the scopes.

* `opener` is what the line before announced: a block that may follow, a block that will be skipped
  because its opener was rejected, or nothing.
* `skipped` counts the levels of a block that is being skipped. While it is positive, lines are
  passed over, and moves only change the count.
* each scope keeps the notes that no declaration has taken yet. They go to the first declaration of
  the scope, and if none comes they are reported when the scope closes.

The open levels are the scopes other than the top level and the skipped ones. A `dedent` closes a
skipped level if there is one and else the innermost scope. If there is neither, or the layout tokens
stand where no lexer puts them, the stream is corrupted and parsing stops.
-/

set_option autoImplicit false

namespace IntentCode.Parser

open Ast

/-! ## State -/

/-- A note that waits for a declaration. -/
structure PendingNote where
  kind : NoteKind
  text : String
  line : Nat
  content : String
deriving DecidableEq, Inhabited

structure Scope where
  uid : Nat
  type : NodeType
  /-- The type of the last child; none if there is no child yet. -/
  last : Option NodeType
  /-- The last class, function or variable declared here. -/
  lastDecl : Option Nat
  declared : List String
  pending : List PendingNote
deriving DecidableEq, Inhabited

/-- What the line before announced. -/
inductive Opener where
  | none
  /-- A block of the node `uid` may follow; it has to if the line announced it with a colon. -/
  | block (uid : Nat) (type : NodeType) (explicit : Bool) (line : Nat) (content : String)
  /-- The line was rejected, and a block under it goes with it. -/
  | rejected
deriving DecidableEq, Inhabited

structure State where
  table : Table
  /-- The innermost scope. -/
  scope : Scope
  /-- The scopes around it, from the inside out. -/
  outer : List Scope
  opener : Opener
  /-- Levels of a block that is being skipped. -/
  skipped : Nat
  findings : List Finding
deriving Inhabited

namespace Scope

def new (uid : Nat) (type : NodeType) : Scope := ⟨uid, type, none, none, [], []⟩

/-- The types that the next child may have. -/
def allowed (s : Scope) : NodeSet :=
  match s.last with
  | none => expectedChild s.type
  | some previous => expectedNext s.type previous

end Scope

namespace State

def initial : State := ⟨.empty, .new 0 .root, [], .none, 0, []⟩

def report (s : State) (complaint : Complaint) (line : Nat) (content : String) : State :=
  { s with findings := s.findings ++ [⟨complaint, line, content⟩] }

/-! ## Notes -/

/-- Adds a line to a note; a blank line adds nothing. -/
def addLine (note text : String) : String :=
  if Text.isBlankString text then note
  else if note.isEmpty then text
  else note ++ "\n" ++ text

def addNote (kind : NoteKind) (text : String) (notes : Notes) : Notes :=
  match kind with
  | .description => { notes with description := addLine notes.description text }
  | .intent => { notes with intent := addLine notes.intent text }

/-- Adds a note to the declaration `uid`. -/
def attach (s : State) (uid : Nat) (kind : NoteKind) (text : String) : State :=
  let add := fun n : Node => { n with body := n.body.mapNotes (addNote kind text) }
  { s with table := s.table.modify uid add }

/-- A note goes to the last declaration of the scope, or waits for the first. -/
def note (s : State) (kind : NoteKind) (text : String) (line : Nat) (content : String) : State :=
  match s.scope.lastDecl with
  | some uid => s.attach uid kind text
  | none =>
    { s with scope := { s.scope with pending := s.scope.pending ++ [⟨kind, text, line, content⟩] } }

/-! ## Scopes -/

/-- Reports the notes that a scope leaves unattached. -/
def reportPending (s : State) (scope : Scope) : State :=
  scope.pending.foldl (fun s p => s.report (.detachedNote p.kind) p.line p.content) s

/-- No block follows the line before. -/
def closeOpener (s : State) : State :=
  let s' := { s with opener := .none }
  match s.opener with
  | .block _ _ true line content => s'.report .expectedBlock line content
  | _ => s'

/-- One level back, if a level is open. -/
def leave? (s : State) : Option State :=
  if s.skipped > 0 then some { s with skipped := s.skipped - 1 }
  else match s.outer with
    | [] => none
    | next :: outer => some ({ s with scope := next, outer }.reportPending s.scope)

/-- One level deeper, to a line with the given tokens. -/
def enter (s : State) (line : Nat) (tokens : List Token) : State :=
  if s.skipped > 0 then { s with skipped := s.skipped + 1 }
  else
    let s' := { s with opener := .none }
    match s.opener with
    | .block uid type .. => { s' with scope := .new uid type, outer := s.scope :: s.outer }
    | .rejected => { s' with skipped := 1 }
    | .none => { s' with skipped := 1 }.report .unexpectedIndentation line (Token.render tokens)

/-- Past the `dedent` tokens before a line, each of which closes a level. -/
def passDedents (s : State) : List Token → Except ParseError (State × Cursor)
  | [] => .ok (s, ⟨[]⟩)
  | t :: ts =>
    if t.kind = .dedent then
      match s.leave? with
      | none => .error (.dedentBelowTop t.line)
      | some s => s.passDedents ts
    else if t.kind = .indent then .error (.indentAfterDedent t.line)
    else .ok (s, ⟨t :: ts⟩)

/-- Past the layout before a line. -/
def passLayout (s : State) (c : Cursor) : Except ParseError (State × Cursor) :=
  if c.current.kind = .indent then
    let ahead := c.advance.2
    if ahead.current.kind = .indent then .error (.secondIndent c.current.line)
    else .ok (s.enter c.current.line ahead.peekLine, ahead)
  else s.closeOpener.passDedents c.rest

/-! ## Lines -/

/-- A rejected line whose block, if there is one, is skipped without another report. -/
def opensSkipped (tokens : List Token) : Bool :=
  endsWithColon tokens ||
    match tokens.head? with
    | some t => t.isKeyword "class" || t.isKeyword "func"
    | none => false

def reject (s : State) (complaint : Complaint) (line : Nat) (tokens : List Token)
    (opens : Bool) : State :=
  { s with opener := if opens then .rejected else .none }.report complaint line
    (Token.render tokens)

/-- Adds a node to the scope. -/
def add (s : State) (node : LineNode) (line : Nat) (tokens : List Token) : State :=
  let uid := s.table.size
  let type := node.body.type
  let content := Token.render tokens
  let declares := node.body.isDeclaration
  let s :=
    match node.body.declaredName? with
    | some name =>
      if s.scope.declared.contains name then s.report (.redeclared type name) line content
      else { s with scope := { s.scope with declared := s.scope.declared ++ [name] } }
    | none => s
  let pending := if declares then s.scope.pending else []
  let s :=
    { s with
      table := s.table.push s.scope.uid line node.body
      scope :=
        { s.scope with
          last := some type
          lastDecl := if declares then some uid else s.scope.lastDecl
          pending := if declares then [] else s.scope.pending }
      opener := if node.acceptsBlock then .block uid type node.explicit line content else s.opener }
  pending.foldl (fun s p => s.attach uid p.kind p.text) s

/-- A line that declares a node: added if the scope takes it, else rejected. -/
def accept (s : State) (node : LineNode) (line : Nat) (tokens : List Token) : State :=
  let allowed := s.scope.allowed
  if allowed.allows node.body.type then s.add node line tokens
  else
    let complaint :=
      if node.body.type = .moduleImport ∧ s.scope.type = .root then .lateModule
      else .notAllowed node.body.type s.scope.type allowed
    s.reject complaint line tokens (opensSkipped tokens || node.acceptsBlock)

/-- A line with content, outside any skipped block. -/
def content (s : State) (first : Token) (tokens : List Token) : State :=
  let line := first.line
  if first.kind = .intent then s.note .intent first.text line (Token.render tokens)
  else if first.isKeyword "description" then
    match tokens.drop 1 with
    | colon :: text =>
      if colon.kind = .colon then
        s.note .description (Token.render text) line (Token.render tokens)
      else s.reject (.malformed .descriptionWithoutColon) line tokens (opensSkipped tokens)
    | [] => s.reject (.malformed .descriptionWithoutColon) line tokens (opensSkipped tokens)
  else
    match lineNode tokens with
    | .error fault => s.reject (.malformed fault) line tokens (opensSkipped tokens)
    | .ok node =>
      let s := node.repeated.foldl (fun s c => s.report c line (Token.render tokens)) s
      s.accept node line tokens

/-- The tokens of a line. In a skipped block nothing is done with them. -/
def line (s : State) (tokens : List Token) : State :=
  match tokens with
  | [] => s
  | first :: _ => if s.skipped > 0 then s else s.content first tokens

/-! ## The run -/

/-- What a round comes to. -/
inductive Round where
  /-- The end of the file. -/
  | ended (s : State)
  /-- A line has been read, and this is ahead. -/
  | line (s : State) (ahead : Cursor)

/-- The layout before a line, and the line. -/
def round (s : State) (c : Cursor) : Except ParseError Round :=
  if c.isAtEnd then .ok (.ended s)
  else
    match s.passLayout c with
    | .error e => .error e
    | .ok (s, c) =>
      if c.isAtEnd then .ok (.ended s)
      else match c.takeLine with
        | (some tokens, ahead) => .ok (.line (s.line tokens) ahead)
        | (none, _) => .error (.layoutInsideLine c.current.line)

theorem length_passDedents {s next : State} {ts : List Token} {ahead : Cursor}
    (h : s.passDedents ts = .ok (next, ahead)) : ahead.rest.length ≤ ts.length := by
  fun_induction passDedents s ts with
  | case1 => cases h; exact Nat.le_refl _
  | case2 => cases h
  | case3 _ _ _ _ _ _ ih => exact Nat.le_succ_of_le (ih h)
  | case4 => cases h
  | case5 => cases h; exact Nat.le_refl _

theorem length_passLayout {s next : State} {c ahead : Cursor}
    (h : s.passLayout c = .ok (next, ahead)) : ahead.rest.length ≤ c.rest.length := by
  unfold passLayout at h
  split at h
  · dsimp only at h
    split at h
    · cases h
    · cases h
      exact c.length_advance
  · exact length_passDedents h

/-- **A round that reads a line leaves fewer tokens ahead.** -/
theorem length_round {s next : State} {c ahead : Cursor}
    (h : s.round c = .ok (.line next ahead)) : ahead.rest.length < c.rest.length := by
  unfold round at h
  split at h
  · cases h
  · split at h
    · cases h
    · next hlayout =>
      split at h
      · cases h
      · split at h
        · next hline =>
          cases h
          exact Nat.lt_of_lt_of_le (Cursor.length_takeLine hline) (length_passLayout hlayout)
        · cases h

/-- Rounds up to the end of the file. -/
def loop (s : State) (c : Cursor) : Except ParseError State :=
  match _h : s.round c with
  | .error e => .error e
  | .ok (.ended s) => .ok s
  | .ok (.line s ahead) => s.loop ahead
termination_by c.rest.length
decreasing_by exact length_round _h

/-- The end of the file closes every scope, the innermost first. -/
def close (s : State) : State :=
  let s := s.closeOpener
  (s.scope :: s.outer).foldl reportPending s

end State

/-! ## Parsing -/

/-- The tree of a source and what was found wrong on the way. -/
structure Parsed where
  table : Table
  findings : List Finding
deriving Inhabited

def Parsed.diagnostics (p : Parsed) : List Diagnostic := p.findings.map Finding.diagnostic

/-- What a run has built and found when everything is closed. -/
def State.parsed (s : State) : Parsed := ⟨s.close.table, s.close.findings⟩

def parse (tokens : List Token) : Except ParseError Parsed :=
  if (tokens.getLast?.map Token.kind) = some .endOfFile then
    (State.initial.loop ⟨tokens⟩).map State.parsed
  else .error .missingEnd

end IntentCode.Parser
