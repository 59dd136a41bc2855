/-!
# Tokens

A source is a sequence of logical lines, and the token stream keeps that shape: the content tokens
of a line end with a `newline`, and before the first of them stand the layout tokens that say how
the line is indented relative to the one before. The stream ends with `endOfFile`.

A token carries its text. The text of a punctuation token is determined by its kind
(`Kind.punctuation?`), the text of a layout token is empty, and `Token.bare` builds both; for the
other kinds the text is what was written, trimmed.

`render` writes content tokens back in the one canonical spacing. Nothing precedes a parenthesis, a
comma or a colon; a word is preceded by one space unless it comes first or follows an opening
parenthesis. Every description and step text in the syntax tree is such a rendering.
-/

set_option autoImplicit false

namespace IntentCode

namespace Token

inductive Kind where
  /-- One of the five leading words. -/
  | keyword
  /-- A maximal run of text without parentheses, commas and colons. -/
  | identifier
  /-- The text between two `$`. -/
  | reference
  /-- A whole line that starts with `@`. -/
  | intent
  | openParen
  | closeParen
  | comma
  | colon
  | indent
  | dedent
  | newline
  | endOfFile
deriving DecidableEq, Inhabited

namespace Kind

/-- The text that every token of a punctuation kind has. -/
def punctuation? : Kind → Option String
  | openParen => some "("
  | closeParen => some ")"
  | comma => some ","
  | colon => some ":"
  | _ => none

/-- Layout tokens stand for line structure and have no text of their own. -/
def isLayout : Kind → Bool
  | indent | dedent | newline | endOfFile => true
  | _ => false

/-- Kinds that are set off by a space when rendered. -/
def isWord : Kind → Bool
  | keyword | identifier | reference | intent => true
  | _ => false

/-- What a message calls a token of this kind. -/
def describe : Kind → String
  | keyword => "keyword"
  | identifier => "identifier"
  | reference => "`$` reference"
  | intent => "intent comment"
  | openParen => "`(`"
  | closeParen => "`)`"
  | comma => "`,`"
  | colon => "`:`"
  | indent => "indent"
  | dedent => "dedent"
  | newline => "newline"
  | endOfFile => "end of file"

/-- The name of the kind in a token listing. -/
def name : Kind → String
  | keyword => "Keyword"
  | identifier => "Identifier"
  | reference => "RefIdentifier"
  | intent => "IntentComment"
  | openParen => "LParen"
  | closeParen => "RParen"
  | comma => "Comma"
  | colon => "Colon"
  | indent => "Indent"
  | dedent => "Dedent"
  | newline => "Newline"
  | endOfFile => "Eof"

end Kind

end Token

structure Token where
  kind : Token.Kind
  text : String
  /-- The number of the source line, counted from one. -/
  line : Nat
deriving DecidableEq, Inhabited

namespace Token

/-- A punctuation or layout token. -/
def bare (kind : Kind) (line : Nat) : Token := ⟨kind, kind.punctuation?.getD "", line⟩

/-! ## Canonical text -/

/-- The token as it is written: a reference between `$`, an intent comment after `@`. -/
def chars (t : Token) : List Char :=
  match t.kind with
  | .reference => '$' :: t.text.toList ++ ['$']
  | .intent => '@' :: ' ' :: t.text.toList
  | _ => t.text.toList

def display (t : Token) : String := .ofList t.chars

/-- The tokens after one of kind `previous`, each with the space that belongs before it. -/
def charsAfter (previous : Kind) : List Token → List Char
  | [] => []
  | t :: ts =>
    let space := if t.kind.isWord && previous != .openParen then [' '] else []
    space ++ t.chars ++ charsAfter t.kind ts

/-- A line of content tokens in canonical spacing. -/
def lineChars : List Token → List Char
  | [] => []
  | t :: ts => t.chars ++ charsAfter t.kind ts

/-- The canonical text of the content tokens among `ts`. -/
def render (ts : List Token) : String :=
  .ofList (lineChars (ts.filter fun t => !t.kind.isLayout))

/-- The texts of the references among `ts`, in order. -/
def references (ts : List Token) : List String :=
  (ts.filter fun t => t.kind = .reference).map Token.text

/-! ## The words that start a declaration -/

/-- A line that begins with one of these words is a declaration or a description. -/
def keywords : List String := ["module", "func", "class", "var", "description"]

/-- Whether `t` is the keyword `word`. -/
def isKeyword (t : Token) (word : String) : Bool := t.kind = .keyword && t.text == word

end Token

end IntentCode
