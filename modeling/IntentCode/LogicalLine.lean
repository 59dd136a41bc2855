import IntentCode.Text.Blank
import IntentCode.Text.Lines
import IntentCode.Lexer.Error

/-!
# Logical lines

A declaration or a step may be written over several physical lines. Folding turns the physical
lines of a source into logical ones:

* blank lines and lines that start with `//` are dropped;
* a line that ends with a backslash takes in the next line, whatever it is, but that line must not
  end with a colon;
* a line that ends with a comma takes in the next line that is neither blank nor a comment, and a
  comma that still dangles at the end of the source is dropped;
* a line that starts with `@` is taken as it stands.

Folding is a fold: `step` takes the state after the lines so far (nothing, or a line that still
waits for more) and one further physical line. A line waits exactly as long as it ends with one of
the two markers, so a finished line ends with neither (`ending_of_settle`). Joining may uncover a
new marker, and that is why `settle` looks again after every join.
-/

set_option autoImplicit false

namespace IntentCode

/-- A physical line with its number, counted from one. -/
structure SourceLine where
  number : Nat
  raw : String
deriving DecidableEq, Inhabited

/-- A line ready for tokens: the number and text of its first physical line, the columns by which
that is indented, and the joined content. -/
structure LogicalLine where
  number : Nat
  indent : Nat
  text : String
  raw : String
deriving DecidableEq, Inhabited

namespace SourceLine

def chars (l : SourceLine) : List Char := l.raw.toList

/-- Blank lines and comment lines. -/
def isSkipped (l : SourceLine) : Bool :=
  let trimmed := Text.trim l.chars
  trimmed.isEmpty || ['/', '/'].isPrefixOf trimmed

/-- The physical lines of a source, numbered. -/
def ofSource (source : String) : List SourceLine :=
  (Text.lines source).mapIdx fun i raw => ⟨i + 1, raw⟩

end SourceLine

namespace LogicalLine

/-! ## Continuation markers -/

inductive Marker where
  | backslash
  | comma
deriving DecidableEq

/-- The marker at the end of a text. -/
def ending (text : List Char) : Option Marker :=
  match text.getLast? with
  | some '\\' => some .backslash
  | some ',' => some .comma
  | _ => none

/-- Two parts of a line, a space between them unless one is empty. -/
def join (text next : List Char) : List Char :=
  if text.isEmpty || next.isEmpty then text ++ next else text ++ ' ' :: next

/-- The text without the backslash it ends with. -/
def dropBackslash (text : List Char) : List Char := Text.trimRight text.dropLast

/-- The text without the commas and spaces it ends with. -/
def dropCommas (text : List Char) : List Char :=
  (text.reverse.dropWhile fun c => c = ',' || c = ' ').reverse

/-! ## Folding -/

/-- A line that waits for its continuation. -/
structure Waiting where
  first : SourceLine
  indent : Nat
  text : List Char
  marker : Marker
deriving DecidableEq

/-- The logical line with the joined content `text`; none if nothing is left of it. -/
def emit (first : SourceLine) (indent : Nat) (text : List Char) : List LogicalLine :=
  if text.isEmpty then [] else [⟨first.number, indent, .ofList text, first.raw⟩]

/-- A line with joined content `text` either waits for more or is finished. -/
def settle (first : SourceLine) (indent : Nat) (text : List Char) :
    List LogicalLine × Option Waiting :=
  match ending text with
  | some marker => ([], some ⟨first, indent, text, marker⟩)
  | none => (emit first indent text, none)

/-- A physical line when no line waits. -/
def begin? (l : SourceLine) : Except LexError (List LogicalLine × Option Waiting) :=
  if l.isSkipped then .ok ([], none)
  else
    let body := l.chars.dropWhile (· = ' ')
    let indent := (l.chars.takeWhile (· = ' ')).length
    if body.head? = some '\t' then .error ⟨.tabIndentation, l.number, l.raw⟩
    else
      let text := Text.trimRight body
      if text.head? = some '@' then .ok (emit l indent text, none)
      else .ok (settle l indent text)

/-- A physical line when the line `w` waits for it. -/
def resume? (w : Waiting) (l : SourceLine) : Except LexError (List LogicalLine × Option Waiting) :=
  let next := Text.trim l.chars
  match w.marker with
  | .backslash =>
    if next.getLast? = some ':' then .error ⟨.continuationColon, l.number, l.raw⟩
    else .ok (settle w.first w.indent (join (dropBackslash w.text) next))
  | .comma =>
    if l.isSkipped then .ok ([], some w)
    else .ok (settle w.first w.indent (join w.text next))

def step (state : Option Waiting) (l : SourceLine) :
    Except LexError (List LogicalLine × Option Waiting) :=
  match state with
  | none => begin? l
  | some w => resume? w l

/-- What the end of the source makes of the state. -/
def finish : Option Waiting → Except LexError (List LogicalLine)
  | none => .ok []
  | some w =>
    match w.marker with
    | .backslash => .error ⟨.continuationAtEnd, w.first.number, w.first.raw⟩
    | .comma => .ok (emit w.first w.indent (dropCommas w.text))

def foldFrom (state : Option Waiting) : List SourceLine → Except LexError (List LogicalLine)
  | [] => finish state
  | l :: ls => do
    let (done, state) ← step state l
    return done ++ (← foldFrom state ls)

/-- The logical lines of a source. -/
def ofSource (source : String) : Except LexError (List LogicalLine) :=
  foldFrom none (SourceLine.ofSource source)

/-! ## What is finished ends with no marker -/

theorem ending_of_settle {first : SourceLine} {indent : Nat} {text : List Char} {l : LogicalLine}
    (h : l ∈ (settle first indent text).1) : ending l.text.toList = none := by
  unfold settle at h
  split at h
  · simp at h
  · next he =>
    unfold emit at h
    split at h
    · simp at h
    · simp only [List.mem_singleton] at h
      simpa [h] using he

end LogicalLine

end IntentCode
