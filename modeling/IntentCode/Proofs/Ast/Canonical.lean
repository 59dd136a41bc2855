import IntentCode.LogicalLine
import IntentCode.Proofs.Ast.Grammar
import IntentCode.Proofs.Ast.Validation
import IntentCode.Proofs.Lexer.Spelling

/-!
# Canonical trees

A tree that nobody has read can hold anything, and what it holds may look like something else once it
is written. Canonical trees are those that can be trusted by looking at them: names are single words,
texts are words and references with a space between them, and the references of a text are listed
beside it in their order. Nothing in this description mentions a parser.

Texts are given as `Span`s. Two words side by side are one word with a space inside, so whether
neighbouring words may be separate spans makes no difference to the texts.
-/

set_option autoImplicit false

namespace IntentCode.Ast

/-! ## Words and texts -/

/-- The characters that end a line, a word or a reference, or continue a line. -/
def reserved : List Char := ['\n', '\r', '(', ')', ',', ':', '$', '\\']

/-- Text that is one word to the lexer, and would be wherever it stood. -/
structure IsPlain (text : String) : Prop where
  ne_empty : text ≠ ""
  trimmed : Text.Trimmed text.toList
  unreserved : ∀ c ∈ text.toList, c ∉ reserved

/-- The name of a declaration or of a parameter. -/
structure IsPlainName (name : String) : Prop extends IsPlain name where
  unbroken : Text.containsBlank name = false

/-- What may stand between two `$`. -/
structure IsReferenceName (name : String) : Prop where
  ne_empty : name ≠ ""
  trimmed : Text.Trimmed name.toList
  unreserved : ∀ c ∈ name.toList, c ∉ ['$', '\n', '\r']

theorem all_notBlank_iff {end? : Option Char} :
    (end?.all fun c => !Text.isBlank c) = true ↔ ∀ c ∈ end?, Text.isBlank c = false := by
  cases end? <;> simp

instance (text : List Char) : Decidable (Text.Trimmed text) :=
  decidable_of_iff
    ((text.head?.all fun c => !Text.isBlank c) = true ∧
      (text.getLast?.all fun c => !Text.isBlank c) = true)
    ⟨fun h => ⟨all_notBlank_iff.mp h.1, all_notBlank_iff.mp h.2⟩,
      fun h => ⟨all_notBlank_iff.mpr h.head, all_notBlank_iff.mpr h.last⟩⟩

/-- Whether a text has none of some characters. -/
def avoids (chars : List Char) (text : String) : Bool := text.toList.all fun c => !chars.contains c

theorem avoids_iff {chars : List Char} {text : String} :
    avoids chars text = true ↔ ∀ c ∈ text.toList, c ∉ chars := by
  simp [avoids, List.all_eq_true]

instance (text : String) : Decidable (IsPlain text) :=
  decidable_of_iff (text ≠ "" ∧ Text.Trimmed text.toList ∧ avoids reserved text = true)
    ⟨fun h => ⟨h.1, h.2.1, avoids_iff.mp h.2.2⟩,
      fun h => ⟨h.ne_empty, h.trimmed, avoids_iff.mpr h.unreserved⟩⟩

instance (name : String) : Decidable (IsPlainName name) :=
  decidable_of_iff (IsPlain name ∧ Text.containsBlank name = false)
    ⟨fun h => ⟨h.1, h.2⟩, fun h => ⟨h.toIsPlain, h.unbroken⟩⟩

instance (name : String) : Decidable (IsReferenceName name) :=
  decidable_of_iff (name ≠ "" ∧ Text.Trimmed name.toList ∧ avoids ['$', '\n', '\r'] name = true)
    ⟨fun h => ⟨h.1, h.2.1, avoids_iff.mp h.2.2⟩,
      fun h => ⟨h.ne_empty, h.trimmed, avoids_iff.mpr h.unreserved⟩⟩

/-- The name of a base class. -/
def IsBaseName (name : String) : Prop :=
  IsPlainName name ∨ ∃ ref, IsReferenceName ref ∧ name = "$" ++ ref ++ "$"

/-- A piece of text: words, or a reference. -/
inductive Span where
  | words (text : String)
  | reference (name : String)
deriving DecidableEq

namespace Span

def text : Span → String
  | words text => text
  | reference name => "$" ++ name ++ "$"

def reference? : Span → Option String
  | words _ => none
  | reference name => some name

def Canonical : Span → Prop
  | words text => IsPlain text
  | reference name => IsReferenceName name

instance : (s : Span) → Decidable s.Canonical
  | words text => inferInstanceAs (Decidable (IsPlain text))
  | reference name => inferInstanceAs (Decidable (IsReferenceName name))

end Span

/-- A text made of spans, and the references in it. -/
def FreeText (text : String) (refs : List String) : Prop :=
  ∃ spans : List Span, spans ≠ [] ∧ (∀ s ∈ spans, s.Canonical) ∧
    text = String.intercalate " " (spans.map Span.text) ∧ refs = spans.filterMap Span.reference?

/-- The same, or nothing at all. -/
def OptionalText (text : String) (refs : List String) : Prop :=
  text = "" ∧ refs = [] ∨ FreeText text refs

/-- The text up to the first blank. -/
def firstWord (text : String) : String := .ofList (text.toList.takeWhile fun c => !Text.isBlank c)

/-- The text of a step, which is not to be taken for a note, a comment or a declaration. -/
structure StepText (text : String) (refs : List String) : Prop where
  free : FreeText text refs
  noNote : Text.startsWith text "@" = false
  noComment : Text.startsWith text "//" = false
  noKeyword : firstWord text ∉ Token.keywords

/-! ## Notes -/

/-- A line of a description: tokens in canonical spacing, and nothing at the end that would join the
next line to it. -/
structure IsDescriptionLine (line : String) : Prop where
  ne_empty : line ≠ ""
  flat : '\n' ∉ line.toList
  ending : LogicalLine.ending line.toList = none
  tokens : ∃ ts : List Token, (∀ t ∈ ts, t.Plain) ∧ line = Token.render ts

/-- A line of an intent comment. -/
structure IsIntentLine (line : String) : Prop where
  ne_empty : line ≠ ""
  trimmed : Text.Trimmed line.toList
  flat : '\n' ∉ line.toList

instance (line : String) : Decidable (IsIntentLine line) :=
  decidable_of_iff (line ≠ "" ∧ Text.Trimmed line.toList ∧ '\n' ∉ line.toList)
    ⟨fun h => ⟨h.1, h.2.1, h.2.2⟩, fun h => ⟨h.ne_empty, h.trimmed, h.flat⟩⟩

/-- Notes made of such lines, of any number of them. -/
structure CanonicalNotes (notes : Notes) : Prop where
  description : ∃ lines, (∀ l ∈ lines, IsDescriptionLine l) ∧
    notes.description = String.intercalate "\n" lines
  intent : ∃ lines, (∀ l ∈ lines, IsIntentLine l) ∧ notes.intent = String.intercalate "\n" lines

/-! ## Trees -/

/-- A body with proper names and texts, and with the references of its texts. -/
inductive CanonicalBody : Body → Prop
  | root : CanonicalBody .root
  | moduleImport {m : ModuleImport} (path : IsPlainName m.path)
    (content : ∃ refs, OptionalText m.content refs) : CanonicalBody (.moduleImport m)
  | classDecl {c : ClassDecl} (name : IsPlainName c.name) (notes : CanonicalNotes c.notes)
    (bases : ∀ e ∈ c.bases.toList, IsBaseName e.1 ∧ ∃ refs, OptionalText e.2 refs) :
    CanonicalBody (.classDecl c)
  | funcDecl {f : FuncDecl} (name : IsPlainName f.name) (notes : CanonicalNotes f.notes)
    (params : ∀ e ∈ f.params.toList, IsPlainName e.1 ∧
      ∃ refs, OptionalText e.2 refs ∧ f.paramRefs.get? e.1 = refs.head?)
    (listed : ∀ key ∈ f.paramRefs.keys, key ∈ f.params.keys) : CanonicalBody (.funcDecl f)
  | varDecl {v : VarDecl} (name : IsPlainName v.name) (notes : CanonicalNotes v.notes)
    (content : OptionalText v.content v.refs) : CanonicalBody (.varDecl v)
  | step {s : Step} (content : StepText s.content s.refs) : CanonicalBody (.step s)

/-- A tree that the grammar allows, with canonical bodies, in which no scope declares a name twice
and a step announces a block exactly if it has one. -/
structure Table.Canonical (t : Table) : Prop where
  valid : t.validate = .ok ()
  number : ∀ uid n, t.get? uid = some n → n.uid = uid
  grammatical : t.Grammatical
  bodies : ∀ uid n, t.get? uid = some n → CanonicalBody n.body
  distinct : ∀ uid, ((t.children uid).filterMap fun n => n.body.declaredName?).Nodup
  blocks : ∀ uid n, t.get? uid = some n → n.type = .step →
    (n.body.opensBlock = true ↔ n.children ≠ [])

/-- A tree from rows is a tree that the grammar allows; the rest is a matter of what is in it. -/
theorem Lawful.canonical {rows : List Row} (h : Lawful rows)
    (bodies : ∀ r ∈ rows, CanonicalBody r.body)
    (distinct : ∀ uid < rows.length + 1,
      (((Table.ofRows rows).children uid).filterMap fun n => n.body.declaredName?).Nodup)
    (blocks : ∀ n ∈ (Table.ofRows rows).toList, n.type = .step →
      (n.body.opensBlock = true ↔ n.children ≠ [])) : (Table.ofRows rows).Canonical where
  valid := (Table.linked_ofRows rows).validate_eq
  number := fun uid n hn => (Table.linked_ofRows rows).number hn
  grammatical := h.grammatical
  bodies := by
    intro uid n hn
    have hmem : n.body ∈ (Table.ofRows rows).bodies := List.mem_map_of_mem (Table.mem_toList hn)
    rw [Table.bodies_ofRows, List.mem_cons, List.mem_reverse] at hmem
    rcases hmem with hroot | hmem
    · rw [hroot]
      exact .root
    · obtain ⟨r, hr, hbody⟩ := List.mem_map.mp hmem
      rw [← hbody]
      exact bodies r hr
  distinct := by
    intro uid
    by_cases hlt : uid < rows.length + 1
    · exact distinct uid hlt
    · have hnone : (Table.ofRows rows).children uid = [] := by
        cases hn : (Table.ofRows rows).get? uid with
        | none => simp [Table.children, hn]
        | some n =>
          have hbound := Table.get?_lt hn
          rw [Table.size_ofRows] at hbound
          exact absurd hbound hlt
      rw [hnone]
      exact List.nodup_nil
  blocks := fun uid n hn => blocks n (Table.mem_toList hn)

/-! ## The tokens of a text -/

open Token

theorem IsPlain.notMem {text : String} (h : IsPlain text) {c : Char} (hc : c ∈ reserved) :
    c ∉ text.toList := fun hmem => h.unreserved c hmem hc

theorem IsPlain.isWord {text : String} (h : IsPlain text) : IsWord text.toList where
  ne_nil := by simpa using h.ne_empty
  trimmed := h.trimmed
  unmarked := by
    intro c hc
    refine ⟨?_, ?_⟩
    · cases hmark : Lexer.markOf? c with
      | none => rfl
      | some kind =>
        exfalso
        rcases Lexer.kind_of_markOf? hmark with ⟨rfl, -⟩ | ⟨rfl, -⟩ | ⟨rfl, -⟩ | ⟨rfl, -⟩ <;>
          exact h.notMem (by decide) hc
    · rintro rfl
      exact h.notMem (by decide) hc

theorem IsReferenceName.isReference {name : String} (h : IsReferenceName name) :
    IsReference name.toList where
  ne_nil := by simpa using h.ne_empty
  trimmed := h.trimmed
  unmarked := fun hc => h.unreserved _ hc (by simp)

namespace Span

/-- A span as a token. -/
def token : Span → Token
  | words text => ⟨.identifier, text, 0⟩
  | reference name => ⟨.reference, name, 0⟩

theorem chars_token (s : Span) : s.token.chars = s.text.toList := by
  cases s <;> simp [token, chars, text]

theorem isWord_token (s : Span) : s.token.kind.isWord = true := by
  cases s <;> rfl

theorem plain_token {s : Span} (h : s.Canonical) : s.token.Plain := by
  cases s with
  | words text => exact IsPlain.isWord h
  | reference name => exact IsReferenceName.isReference h

theorem charsAfter_tokens (spans : List Span) {previous : Kind} (h : previous ≠ .openParen) :
    charsAfter previous (spans.map token) = spans.flatMap fun s => ' ' :: s.text.toList := by
  induction spans generalizing previous with
  | nil => rfl
  | cons s spans ih =>
    have hspace : (s.token.kind.isWord && previous != .openParen) = true := by
      simp [isWord_token, h]
    have hnext : s.token.kind ≠ .openParen := by cases s <;> simp [token]
    rw [List.map_cons, charsAfter, if_pos hspace, chars_token, ih hnext]
    rfl

/-- **The tokens of spans render to their text.** -/
theorem render_tokens {spans : List Span} (h : ∀ s ∈ spans, s.Canonical) :
    render (spans.map token) = String.intercalate " " (spans.map text) := by
  have hplain : ∀ t ∈ spans.map token, t.Plain := by
    intro t ht
    obtain ⟨s, hs, rfl⟩ := List.mem_map.mp ht
    exact plain_token (h s hs)
  rw [Lexer.render_of_plain hplain, ← String.ofList_toList (s := String.intercalate _ _)]
  congr 1
  clear hplain h
  cases spans with
  | nil => rfl
  | cons s spans =>
    have hnext : s.token.kind ≠ .openParen := by cases s <;> simp [token]
    rw [List.map_cons, charsAfter, chars_token, charsAfter_tokens spans hnext]
    clear hnext
    simp only [bne_self_eq_false, Bool.and_false, Bool.false_eq_true, if_false, List.nil_append]
    induction spans generalizing s with
    | nil => simp
    | cons s' spans ih =>
      have hmore := ih s'
      rw [List.map_cons] at hmore
      rw [List.map_cons, List.map_cons, String.intercalate_cons_cons, String.toList_append,
        String.toList_append, ← hmore]
      simp

theorem references_tokens (spans : List Span) :
    references (spans.map token) = spans.filterMap reference? := by
  induction spans with
  | nil => rfl
  | cons s spans ih =>
    rw [List.map_cons, Lexer.references_cons, ih]
    cases s <;> rfl

end Span

end IntentCode.Ast
