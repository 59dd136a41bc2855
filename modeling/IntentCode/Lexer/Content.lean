import IntentCode.LogicalLine
import IntentCode.Text.Split
import IntentCode.Token

/-!
# The tokens of one line

A line's content is cut in three stages. A leading keyword is split off first; what is left is cut
at `$`, which makes every second piece a reference; and each piece outside a reference is cut into
punctuation and the maximal runs of text between.

A keyword counts only if a blank, a colon or the end of the line follows it, so `classify` is plain
text. A line that starts with `@` is not cut at all.
-/

set_option autoImplicit false

namespace IntentCode.Lexer

/-! ## Keywords -/

/-- Whether a keyword may end before `rest`. -/
def endsWord (rest : List Char) : Bool :=
  match rest.head? with
  | none => true
  | some c => c = ':' || Text.isBlank c

/-- The keyword at the front of a text, and the text after it. -/
def splitKeyword? (text : List Char) : Option (String × List Char) :=
  Token.keywords.findSome? fun word =>
    match word.toList.isPrefixOf? text with
    | some rest => if endsWord rest then some (word, rest) else none
    | none => none

/-! ## Text outside references -/

/-- A punctuation mark, or a run of text that holds none. -/
inductive Piece where
  | mark (kind : Token.Kind)
  | run (text : List Char)
deriving DecidableEq

def markOf? : Char → Option Token.Kind
  | '(' => some .openParen
  | ')' => some .closeParen
  | ',' => some .comma
  | ':' => some .colon
  | _ => none

def cutMarks : List Char → List Piece
  | [] => []
  | c :: cs =>
    match markOf? c, cutMarks cs with
    | some kind, ps => .mark kind :: ps
    | none, .run text :: ps => .run (c :: text) :: ps
    | none, ps => .run [c] :: ps

/-- The token of a piece; a run of blanks has none. -/
def Piece.token? (line : Nat) : Piece → Option Token
  | .mark kind => some (.bare kind line)
  | .run text =>
    let word := Text.trim text
    if word.isEmpty then none else some ⟨.identifier, .ofList word, line⟩

def plainTokens (line : Nat) (text : List Char) : List Token :=
  (cutMarks text).filterMap (Piece.token? line)

/-! ## References -/

/-- The tokens found so far and the references that turned out empty. -/
structure Scanned where
  tokens : List Token
  warnings : List EmptyReference
deriving DecidableEq, Inhabited

namespace Scanned

def empty : Scanned := ⟨[], []⟩

def append (s t : Scanned) : Scanned := ⟨s.tokens ++ t.tokens, s.warnings ++ t.warnings⟩

end Scanned

def referenceTokens (line : Nat) (raw : String) (text : List Char) : Scanned :=
  let name := Text.trim text
  if name.isEmpty then ⟨[], [⟨line, raw⟩]⟩ else ⟨[⟨.reference, .ofList name, line⟩], []⟩

/-- The tokens of the pieces of a text cut at `$`; the first lies inside a reference if `inside`. -/
def spanTokens (line : Nat) (raw : String) (inside : Bool) : List (List Char) → Scanned
  | [] => .empty
  | span :: spans =>
    (if inside then referenceTokens line raw span else ⟨plainTokens line span, []⟩).append
      (spanTokens line raw (!inside) spans)

/-! ## The line -/

/-- The tokens of a text with number `line`; `raw` is the physical line to quote. -/
def scan (text : List Char) (line : Nat) (raw : String) : Except LexError Scanned :=
  match text with
  | '@' :: comment => .ok ⟨[⟨.intent, .ofList (Text.trim comment), line⟩], []⟩
  | _ =>
    let (first, rest) : List Token × List Char :=
      match splitKeyword? text with
      | some (word, rest) => ([⟨.keyword, word, line⟩], rest)
      | none => ([], text)
    let count := rest.count '$'
    if count % 2 = 1 then .error ⟨.unpairedDollar count, line, raw⟩
    else .ok ((⟨first, []⟩ : Scanned).append (spanTokens line raw false (Text.cutAt '$' rest)))

end IntentCode.Lexer
