import Mathlib.Algebra.Ring.Parity
import IntentCode.Proofs.Lexer.Content

/-!
# Scanning a line loses nothing

Scanning drops characters in three places: the two `$` around a reference, the blanks that trimming
takes off a word or a reference, and a reference with only blanks in it, which leaves a warning
behind. What is left is the `ink` of the line, its characters that are neither blank nor `$`, and
the tokens hold exactly that, in the order in which it was written.

The argument follows the three cuts. A keyword and the text behind it are the line again; the spans
between `$` are the text behind it without the `$` (`flatten_cutAt`); and the pieces of a span that
is no reference are the span (`flatMap_cutMarks`). Every second span is inside a reference,
so half the `$` are the references and the warnings together (`fates_spanTokens`).
-/

set_option autoImplicit false

namespace IntentCode

namespace Text

/-- The characters of a text that are not blank. -/
def ink (cs : List Char) : List Char := cs.filter fun c => !isBlank c

@[simp] theorem ink_append (cs ds : List Char) : ink (cs ++ ds) = ink cs ++ ink ds :=
  List.filter_append ..

theorem ink_trimLeft (cs : List Char) : ink (trimLeft cs) = ink cs := by
  induction cs with
  | nil => rfl
  | cons c cs ih =>
    by_cases hc : isBlank c = true
    · rw [trimLeft_blank hc, ih]
      simp [ink, hc]
    · rw [trimLeft_of_head]
      simpa using hc

theorem ink_trimRight (cs : List Char) : ink (trimRight cs) = ink cs := by
  have h := ink_trimLeft cs.reverse
  rw [ink, ink, List.filter_reverse] at h
  rw [trimRight, ink, ink, List.filter_reverse]
  exact List.reverse_eq_iff.mpr h

@[simp] theorem ink_trim (cs : List Char) : ink (trim cs) = ink cs := by
  rw [trim, ink_trimRight, ink_trimLeft]

theorem trimmed_of_trimmed {s : String} (h : Trimmed s.toList) : trimmed s = s := by
  rw [trimmed, trim_of_trimmed h, String.ofList_toList]

/-- Cutting at a separator takes out the separators and nothing else. -/
theorem flatten_cutAt (sep : Char) (cs : List Char) :
    (cutAt sep cs).flatten = cs.filter (· ≠ sep) := by
  fun_induction cutAt sep cs with
  | case1 => rfl
  | case2 cs ih => simpa using ih
  | case3 c cs hc hnil => exact absurd hnil (cutAt_ne_nil sep cs)
  | case4 c cs hc p ps hp ih =>
    rw [hp, List.flatten_cons] at ih
    rw [List.flatten_cons, List.cons_append, ih]
    simp [hc]

end Text

theorem Token.IsWord.notMem {cs : List Char} (h : IsWord cs) :
    ∀ c ∈ ['(', ')', ',', ':', '$'], c ∉ cs := by
  intro c hc hmem
  obtain ⟨hmark, hdollar⟩ := h.unmarked c hmem
  simp only [List.mem_cons, List.not_mem_nil, or_false] at hc
  rcases hc with rfl | rfl | rfl | rfl | rfl
  · cases hmark
  · cases hmark
  · cases hmark
  · cases hmark
  · exact hdollar rfl

namespace Lexer

open Token

/-! ## Pieces and references -/

theorem chars_mark {c : Char} {kind : Kind} (h : markOf? c = some kind) (line : Nat) :
    (Token.bare kind line).chars = [c] := by
  rcases kind_of_markOf? h with ⟨rfl, rfl⟩ | ⟨rfl, rfl⟩ | ⟨rfl, rfl⟩ | ⟨rfl, rfl⟩ <;>
    simp [chars, bare, Kind.punctuation?]

/-- What a piece was cut out of. -/
def Piece.chars : Piece → List Char
  | .mark kind => (Token.bare kind 0).chars
  | .run text => text

theorem flatMap_cutMarks (cs : List Char) : (cutMarks cs).flatMap Piece.chars = cs := by
  fun_induction cutMarks cs with
  | case1 => rfl
  | case2 c cs kind hc ih => simp [Piece.chars, chars_mark hc, ih]
  | case3 c cs text ps hps hc ih =>
    rw [hps] at ih
    simpa [Piece.chars] using ih
  | case4 c cs hc hps ih => simpa [Piece.chars] using ih

/-- The texts of the tokens, one after the other. -/
def textOf (ts : List Token) : List Char := ts.flatMap fun t => t.text.toList

@[simp] theorem textOf_nil : textOf [] = [] := rfl

@[simp] theorem textOf_append (ts us : List Token) : textOf (ts ++ us) = textOf ts ++ textOf us :=
  List.flatMap_append

theorem ink_token? (line : Nat) {cs : List Char} {p : Piece} (h : p.From cs) :
    Text.ink (textOf (p.token? line).toList) = Text.ink p.chars := by
  cases p with
  | mark kind =>
    obtain ⟨c, -, hc⟩ := h
    rcases kind_of_markOf? hc with ⟨-, rfl⟩ | ⟨-, rfl⟩ | ⟨-, rfl⟩ | ⟨-, rfl⟩ <;>
      simp [Piece.token?, Piece.chars, textOf, Token.chars, Token.bare]
  | run text =>
    simp only [Piece.token?, Piece.chars, List.isEmpty_iff]
    split
    · next hblank => rw [← Text.ink_trim text, hblank]; rfl
    · simp [textOf]

theorem ink_plainTokens (line : Nat) (cs : List Char) :
    Text.ink (textOf (plainTokens line cs)) = Text.ink cs := by
  have hpieces : ∀ ps : List Piece, (∀ p ∈ ps, p.From cs) →
      Text.ink (textOf (ps.filterMap (Piece.token? line))) = Text.ink (ps.flatMap Piece.chars) := by
    intro ps hps
    induction ps with
    | nil => rfl
    | cons p ps ih =>
      have hcons : (p :: ps).filterMap (Piece.token? line) =
          (p.token? line).toList ++ ps.filterMap (Piece.token? line) := by
        cases h : p.token? line <;> simp [h]
      rw [hcons, textOf_append, Text.ink_append, ink_token? line (hps p List.mem_cons_self),
        ih fun q hq => hps q (List.mem_cons_of_mem _ hq), List.flatMap_cons, Text.ink_append]
  rw [plainTokens, hpieces _ fun p hp => from_of_mem_cutMarks hp, flatMap_cutMarks]

theorem ink_referenceTokens (line : Nat) (raw : String) (cs : List Char) :
    Text.ink (textOf (referenceTokens line raw cs).tokens) = Text.ink cs := by
  simp only [referenceTokens, List.isEmpty_iff]
  split
  · next hblank => rw [← Text.ink_trim cs, hblank]; rfl
  · simp [textOf]

theorem ink_spanTokens (line : Nat) (raw : String) (inside : Bool) (spans : List (List Char)) :
    Text.ink (textOf (spanTokens line raw inside spans).tokens) = Text.ink spans.flatten := by
  induction spans generalizing inside with
  | nil => rfl
  | cons span spans ih =>
    rw [spanTokens, Scanned.append, textOf_append, Text.ink_append, ih, List.flatten_cons,
      Text.ink_append]
    cases inside with
    | true => simp only [if_true, ink_referenceTokens]
    | false => simp only [Bool.false_eq_true, if_false, ink_plainTokens]

theorem ink_plainOf (line : Nat) (raw : String) (rest : List Char) :
    Text.ink (textOf (plainOf line raw rest).tokens) = Text.ink (rest.filter (· ≠ '$')) := by
  rw [plainOf, ink_spanTokens, Text.flatten_cutAt]

/-! ## What becomes of the spans between `$` -/

/-- The references of a line, those without a name included. -/
def Scanned.fates (s : Scanned) : Nat :=
  s.tokens.countP (·.kind = .reference) + s.warnings.length

theorem Scanned.fates_append (s t : Scanned) : (s.append t).fates = s.fates + t.fates := by
  simp only [fates, append, List.countP_append, List.length_append]
  omega

theorem fates_plainTokens (line : Nat) (cs : List Char) :
    (⟨plainTokens line cs, []⟩ : Scanned).fates = 0 := by
  simp only [Scanned.fates, List.length_nil, Nat.add_zero]
  rw [List.countP_eq_zero]
  intro t ht
  obtain ⟨p, hp, ht⟩ := List.mem_filterMap.mp ht
  cases p with
  | mark kind =>
    obtain ⟨c, -, hk⟩ := from_of_mem_cutMarks hp
    obtain rfl := Option.some.inj ht
    rcases kind_of_markOf? hk with ⟨-, rfl⟩ | ⟨-, rfl⟩ | ⟨-, rfl⟩ | ⟨-, rfl⟩ <;> simp [Token.bare]
  | run text =>
    simp only [Piece.token?] at ht
    split at ht
    · cases ht
    · obtain rfl := Option.some.inj ht
      simp

theorem fates_referenceTokens (line : Nat) (raw : String) (cs : List Char) :
    (referenceTokens line raw cs).fates = 1 := by
  simp only [referenceTokens]
  split <;> rfl

/-- Every second span is a reference, with a name or without. -/
theorem fates_spanTokens (line : Nat) (raw : String) (inside : Bool) (spans : List (List Char)) :
    (spanTokens line raw inside spans).fates = (spans.length + if inside then 1 else 0) / 2 := by
  induction spans generalizing inside with
  | nil => cases inside <;> rfl
  | cons span spans ih =>
    rw [spanTokens, Scanned.fates_append, ih, List.length_cons]
    cases inside with
    | true =>
      simp only [if_true, fates_referenceTokens, Bool.not_true, Bool.false_eq_true, if_false]
      omega
    | false =>
      simp only [Bool.false_eq_true, if_false, fates_plainTokens, Bool.not_false, if_true]
      omega

theorem fates_plainOf (line : Nat) (raw : String) (rest : List Char) :
    (plainOf line raw rest).fates = (rest.count '$' + 1) / 2 := by
  rw [plainOf, fates_spanTokens, Text.length_cutAt]
  rfl

/-! ## The line -/

theorem dollar_notMem_keyword {word : String} (h : word ∈ keywords) : '$' ∉ word.toList := by
  revert word
  decide

/-- A line is cut behind its keyword, if it has one, and is scanned if its `$` are paired. -/
theorem scan_eq {text : List Char} (h : text.head? ≠ some '@') (line : Nat) (raw : String) :
    ∃ first rest, textOf first ++ rest = text ∧ (∀ t ∈ first, t.kind = .keyword) ∧
      '$' ∉ textOf first ∧
      scan text line raw =
        if text.count '$' % 2 = 1 then .error ⟨.unpairedDollar (text.count '$'), line, raw⟩
        else .ok ((⟨first, []⟩ : Scanned).append (plainOf line raw rest)) := by
  cases hk : splitKeyword? text with
  | none =>
    refine ⟨[], text, rfl, by simp, by simp, ?_⟩
    unfold scan
    split
    · exact absurd rfl h
    · rw [hk]
      rfl
  | some p =>
    obtain ⟨word, rest⟩ := p
    obtain ⟨hword, htext, -⟩ := of_splitKeyword? hk
    have hdollar := dollar_notMem_keyword hword
    have hcount : text.count '$' = rest.count '$' := by
      rw [htext, List.count_append, List.count_eq_zero_of_not_mem hdollar, Nat.zero_add]
    refine ⟨[⟨.keyword, word, line⟩], rest, by simp [textOf, htext], by simp,
      by simpa [textOf] using hdollar, ?_⟩
    rw [hcount]
    unfold scan
    split
    · exact absurd rfl h
    · rw [hk]
      rfl

/-- What the tokens of a line are to its text. -/
structure Conserves (text : List Char) (s : Scanned) : Prop where
  ink : Text.ink (text.filter (· ≠ '$')) = Text.ink (textOf s.tokens)
  identifier : ∀ t ∈ s.tokens, t.kind = .identifier →
    t.text ≠ "" ∧ Text.trimmed t.text = t.text ∧ ∀ c ∈ ['(', ')', ',', ':', '$'], c ∉ t.text.toList
  reference : ∀ t ∈ s.tokens, t.kind = .reference →
    t.text ≠ "" ∧ Text.trimmed t.text = t.text ∧ '$' ∉ t.text.toList
  keyword : ∀ t ∈ s.tokens.tail, t.kind ≠ .keyword
  fates : 2 * (s.tokens.countP (·.kind = .reference) + s.warnings.length) = text.count '$'

/-- **Scanning a line loses nothing and invents nothing.** It fails exactly if the `$` of the line
are not paired. -/
theorem scan_conserves {text : List Char} (h : text.head? ≠ some '@') (line : Nat) (raw : String) :
    ((∃ e, scan text line raw = .error e) ↔ Odd (text.count '$')) ∧
      ∀ s, scan text line raw = .ok s → Conserves text s := by
  obtain ⟨first, rest, htext, hfirst, hdollar, hscan⟩ := scan_eq h line raw
  have hcount : text.count '$' = rest.count '$' := by
    rw [← htext, List.count_append, List.count_eq_zero_of_not_mem hdollar, Nat.zero_add]
  refine ⟨?_, fun s hs => ?_⟩
  · rw [hscan, Nat.odd_iff]
    by_cases hodd : text.count '$' % 2 = 1 <;> simp [hodd]
  · obtain ⟨hsound, hplain⟩ := sound_of_scan hs
    rw [hscan] at hs
    split at hs
    · cases hs
    · next heven =>
      obtain rfl := Except.ok.inj hs
      refine ⟨?_, fun t ht hk => ?_, fun t ht hk => ?_, fun t ht hk => ?_, ?_⟩
      · show _ = Text.ink (textOf (first ++ (plainOf line raw rest).tokens))
        rw [textOf_append, Text.ink_append, ink_plainOf, ← htext, List.filter_append,
          Text.ink_append, List.filter_eq_self.mpr]
        -- the keyword has no `$` to lose
        intro c hc
        simpa using fun he : c = '$' => hdollar (he ▸ hc)
      · have hword : IsWord t.text.toList := by simpa [Sound, Plain, hk] using hsound t ht
        exact ⟨by simpa using hword.ne_nil, Text.trimmed_of_trimmed hword.trimmed, hword.notMem⟩
      · have href : IsReference t.text.toList := by simpa [Sound, Plain, hk] using hsound t ht
        exact ⟨by simpa using href.ne_nil, Text.trimmed_of_trimmed href.trimmed, href.unmarked⟩
      · simpa [Plain, hk] using hplain t ht
      · show 2 * Scanned.fates _ = _
        have hnone : (⟨first, []⟩ : Scanned).fates = 0 := by
          simp only [Scanned.fates, List.length_nil, Nat.add_zero, List.countP_eq_zero]
          exact fun t ht => by simp [hfirst t ht]
        rw [Scanned.fates_append, hnone, fates_plainOf, ← hcount]
        omega

theorem scan_conserves_variable :
    "var a: $b$ $ $".toList.head? ≠ some '@' ∧
      ∃ s, scan "var a: $b$ $ $".toList 1 "" = .ok s ∧
        s.tokens.map Token.text = ["var", "a", ":", "b"] ∧ s.warnings = [⟨1, ""⟩] ∧
        Conserves "var a: $b$ $ $".toList s := by
  have hhead : "var a: $b$ $ $".toList.head? ≠ some '@' := by decide
  have hscan : scan "var a: $b$ $ $".toList 1 "" = .ok ⟨[⟨.keyword, "var", 1⟩,
      ⟨.identifier, "a", 1⟩, .bare .colon 1, ⟨.reference, "b", 1⟩], [⟨1, ""⟩]⟩ := by
    decide +kernel
  exact ⟨hhead, _, hscan, rfl, rfl, (scan_conserves hhead 1 "").2 _ hscan⟩

end Lexer

end IntentCode
