import IntentCode.Proofs.Ast.Canonical
import Mathlib.Data.List.Chain

/-!
# Rendered lines are read back

A line of tokens in canonical spacing lexes to the tokens it was rendered from, provided that the
tokens could have come from a line at all (`CanonicalLine`). Three things are lost otherwise: two
words in a row become one, a keyword is text unless it is set off, and a text that begins like a
comment or with a keyword is taken for that.

`Spells` says what a rendered line lexes to, with neighbouring words fused. Where no two words are
neighbours nothing is fused (`fuse_of_content`). What is left is the front of the line: a text begins
with a keyword only if its first token does (`splitKeyword?_lineChars`).
-/

set_option autoImplicit false

namespace IntentCode.Lexer

open Token

/-- Tokens as they may follow each other in a line: no two words in a row. -/
structure Content (ts : List Token) : Prop where
  plain : ∀ t ∈ ts, t.Plain
  apart : ts.IsChain fun t u => t.kind = .identifier → u.kind ≠ .identifier

/-- What may follow a keyword. -/
def FollowsKeyword (t : Token) : Prop :=
  t.kind = .colon ∨ t.kind = .identifier ∨ t.kind = .reference

/-- What keeps a keyword in front of it from being one. -/
def HidesKeyword (t : Token) : Prop :=
  t.kind = .openParen ∨ t.kind = .closeParen ∨ t.kind = .comma

/-- A word that may stand first in a line, with `next` behind it. It is no comment, and its first
word is no keyword, unless that is all of it and `next` hides it. -/
structure Leads (text : String) (next : Option Token) : Prop where
  noComment : text.toList.head? ≠ some '@'
  noKeyword : Ast.firstWord text ∈ keywords → text ∈ keywords ∧ ∃ t ∈ next, HidesKeyword t

/-- The tokens of a line: an intent comment by itself, a keyword and more, or text. -/
inductive CanonicalLine : List Token → Prop
  | comment {t : Token} (kind : t.kind = .intent) (trimmed : Text.Trimmed t.text.toList) :
    CanonicalLine [t]
  | declaration {t : Token} {ts : List Token} (kind : t.kind = .keyword) (word : t.text ∈ keywords)
    (follows : ∀ u ∈ ts.head?, FollowsKeyword u) (content : Content ts) : CanonicalLine (t :: ts)
  | text {ts : List Token} (content : Content ts)
    (leads : ∀ t ∈ ts.head?, t.kind = .identifier → Leads t.text ts.tail.head?) : CanonicalLine ts

/-! ## Nothing is fused -/

theorem Content.tail {t : Token} {ts : List Token} (h : Content (t :: ts)) : Content ts :=
  ⟨fun u hu => h.plain u (List.mem_cons_of_mem _ hu), h.apart.tail⟩

theorem Content.head {t : Token} {ts : List Token} (h : Content (t :: ts))
    (hk : t.kind = .identifier) : ∀ u ∈ ts.head?, u.kind ≠ .identifier :=
  fun _ hu => h.apart.rel_head? hu hk

/-- A run that no word follows stays as it is, and so do the tokens behind it. -/
theorem fuseAfter_of_content (line : Nat) {ts : List Token} (h : Content ts) {run : List Char}
    (hrun : run = [] ∨ IsWord run ∧ ∀ u ∈ ts.head?, u.kind ≠ .identifier) :
    fuseAfter line run ts = wordTokens line run ++ ts.map (onLine line) := by
  induction ts generalizing run with
  | nil => simp [fuseAfter]
  | cons t ts ih =>
    by_cases hk : t.kind = .identifier
    · -- two words in a row are excluded, so this one starts a run
      obtain rfl : run = [] := hrun.resolve_right fun hword => hword.2 t rfl hk
      have hword : IsWord t.text.toList := by simpa [Plain, hk] using h.plain t List.mem_cons_self
      have hline : t.onLine line = ⟨.identifier, .ofList t.text.toList, line⟩ := by
        rw [onLine, hk, String.ofList_toList]
      rw [fuseAfter, if_pos hk, List.nil_append, fuseAfter_blank blank_space,
        ih h.tail (.inr ⟨hword, h.head hk⟩), wordTokens_of_isWord hword, wordTokens_nil,
        List.map_cons, hline]
      rfl
    · rw [fuseAfter, if_neg hk, ih h.tail (.inl rfl), wordTokens_nil]
      rfl

theorem fuse_of_content (line : Nat) {ts : List Token} (h : Content ts) :
    fuse line ts = ts.map (onLine line) := by
  rw [fuse, fuseAfter_of_content line h (.inl rfl), wordTokens_nil, List.nil_append]

/-- What tokens in the middle of a line spell. -/
theorem spells_of_content (line : Nat) {ts : List Token} (h : Content ts) (previous : Kind) :
    Spells line (charsAfter previous ts) (ts.map (onLine line)) := by
  have hbreaks : Breaks [] := fun c hc => by cases hc
  have hspells := spells_charsAfter line h.plain (Spells.nil line) hbreaks Unmarked.nil previous
    fun _ => rfl
  rw [List.nil_append, List.append_nil, List.append_nil] at hspells
  rw [← fuse_of_content line h]
  exact hspells

/-! ## The front of the line -/

/-- Behind a word there is a space or a mark. -/
theorem bounds_charsAfter {ts : List Token} (h : ∀ t ∈ ts, t.Plain) :
    Bounds (charsAfter .identifier ts) := by
  cases ts with
  | nil => intro c hc; cases hc
  | cons t ts =>
    intro c hc
    rcases chars_cases (h t List.mem_cons_self) with ⟨hk, -, -⟩ | ⟨hk, -, -⟩ | ⟨d, hd, hchars, -⟩
    · obtain rfl : ' ' = c := by simpa [charsAfter, hk, Kind.isWord] using hc
      exact .inl blank_space
    · obtain rfl : ' ' = c := by simpa [charsAfter, hk, Kind.isWord] using hc
      exact .inl blank_space
    · obtain rfl : d = c := by simpa [charsAfter, (isWord_of_mark hd).1, hchars] using hc
      exact .inr (.inr (by rw [hd]; exact Option.some_ne_none _))

/-- What hides a keyword is a mark, and no word ends before it. -/
theorem exists_mark_of_hides {t : Token} (h : HidesKeyword t) (ht : t.Plain) :
    ∃ c, markOf? c = some t.kind ∧ t.chars = [c] ∧ ∀ cs, endsWord (c :: cs) = false := by
  rcases chars_cases ht with ⟨hk, -, -⟩ | ⟨hk, -, -⟩ | ⟨c, hc, hchars, -⟩
  · simp [HidesKeyword, hk] at h
  · simp [HidesKeyword, hk] at h
  · refine ⟨c, hc, hchars, fun cs => ?_⟩
    rcases kind_of_markOf? hc with ⟨rfl, -⟩ | ⟨rfl, -⟩ | ⟨rfl, -⟩ | ⟨-, hk⟩
    · rfl
    · rfl
    · rfl
    · simp [HidesKeyword, hk] at h

/-- A keyword in front of a word that leads a line is only a part of it, or is hidden. -/
theorem endsWord_of_leads {t : Token} {ts : List Token} (ht : IsWord t.text.toList)
    (hts : ∀ u ∈ ts, u.Plain) (h : Leads t.text ts.head?) {word : String} (hword : word ∈ keywords)
    {tail : List Char} (htext : t.text.toList = word.toList ++ tail) :
    endsWord (tail ++ charsAfter .identifier ts) = false := by
  have hletters := letters_keyword word hword
  have hfirst : tail.takeWhile (fun c => !Text.isBlank c) = [] → Ast.firstWord t.text = word := by
    intro hend
    rw [Ast.firstWord, htext, List.takeWhile_append_of_pos, hend, List.append_nil,
      String.ofList_toList]
    intro c hc
    rw [(hletters c hc).1]
    rfl
  cases tail with
  | nil =>
    obtain ⟨-, u, hu, hhides⟩ := h.noKeyword (by rw [hfirst rfl]; exact hword)
    obtain ⟨us, rfl⟩ := List.head?_eq_some_iff.mp hu
    obtain ⟨c, hc, hchars, hends⟩ := exists_mark_of_hides hhides (hts u List.mem_cons_self)
    rw [List.nil_append, charsAfter, (isWord_of_mark hc).1, hchars]
    exact hends _
  | cons c tail =>
    have hmem : c ∈ t.text.toList := by
      rw [htext]
      exact List.mem_append_right _ List.mem_cons_self
    have hcolon : c ≠ ':' := by
      rintro rfl
      cases (ht.unmarked ':' hmem).1
    have hblank : Text.isBlank c = false := by
      rw [← Bool.not_eq_true]
      intro hc
      -- the keyword would be the first word, and then it would be all of the text
      obtain ⟨hall, -⟩ := h.noKeyword (by rw [hfirst (by simp [hc])]; exact hword)
      rw [(letters_keyword _ hall c hmem).1] at hc
      cases hc
    simp [endsWord, hcolon, hblank]

/-- **A line of text does not begin with a keyword or an `@`.** -/
theorem free_lineChars {ts : List Token} (h : Content ts)
    (hleads : ∀ t ∈ ts.head?, t.kind = .identifier → Leads t.text ts.tail.head?) :
    (lineChars ts).head? ≠ some '@' ∧ splitKeyword? (lineChars ts) = none := by
  cases ts with
  | nil => exact ⟨by simp [lineChars], by decide⟩
  | cons t ts =>
    have hts : ∀ u ∈ ts, u.Plain := h.tail.plain
    rw [lineChars]
    rcases chars_cases (h.plain t List.mem_cons_self) with
      ⟨hk, hchars, hword⟩ | ⟨hk, hchars, -⟩ | ⟨c, hc, hchars, -⟩
    · have hlead := hleads t rfl hk
      rw [hchars, hk]
      refine ⟨?_, splitKeyword?_eq_none fun word hw more hmore => ?_⟩
      · rw [List.head?_append_of_ne_nil _ hword.ne_nil]
        exact hlead.noComment
      · obtain ⟨tail, htext, rfl⟩ := exists_tail_of_bounds hw (bounds_charsAfter hts) hmore
        exact endsWord_of_leads hword hts hlead hw htext
    · have hbounds : Bounds ('$' :: (t.text.toList ++ ['$'] ++ charsAfter t.kind ts)) := by
        intro c hc
        obtain rfl : '$' = c := Option.some.inj hc
        exact .inr (.inl rfl)
      rw [hchars]
      exact ⟨by simp, splitKeyword?_of_bounds hbounds⟩
    · have hbounds : Bounds (c :: charsAfter t.kind ts) := by
        intro d hd
        obtain rfl : c = d := Option.some.inj hd
        exact .inr (.inr (by rw [hc]; exact Option.some_ne_none _))
      have hat : c ≠ '@' := by
        rintro rfl
        cases hc
      rw [hchars]
      exact ⟨by simpa using hat, splitKeyword?_of_bounds hbounds⟩

theorem endsWord_of_follows {ts : List Token} (hts : ∀ u ∈ ts, u.Plain)
    (h : ∀ u ∈ ts.head?, FollowsKeyword u) : endsWord (charsAfter .keyword ts) = true := by
  cases ts with
  | nil => rfl
  | cons u us =>
    have hplain := hts u List.mem_cons_self
    rcases h u rfl with hk | hk | hk
    · have hcolon : u.chars = [':'] := by
        have htext : u.text = ":" := by simpa [Plain, hk] using hplain
        simp [Token.chars, hk, htext]
      rw [charsAfter, hk, hcolon]
      rfl
    · rw [charsAfter, hk]
      rfl
    · rw [charsAfter, hk]
      rfl

/-! ## The line -/

theorem CanonicalLine.not_layout {ts : List Token} (h : CanonicalLine ts) :
    (ts.filter fun t => !t.kind.isLayout) = ts := by
  cases h with
  | comment kind trimmed => simp [kind, Kind.isLayout]
  | @declaration t ts kind word follows content =>
    rw [List.filter_cons_of_pos (by simp [kind, Kind.isLayout]), not_layout_of_plain content.plain]
  | text content leads => exact not_layout_of_plain content.plain

/-- **Lexing undoes rendering.** A canonical line in canonical spacing lexes to its tokens, without
a warning. -/
theorem scan_render {ts : List Token} (h : CanonicalLine ts) (line : Nat) (raw : String) :
    scan (render ts).toList line raw = .ok ⟨ts.map (onLine line), []⟩ := by
  rw [render, h.not_layout, String.toList_ofList]
  cases h with
  | @comment t kind trimmed =>
    have hchars : lineChars [t] = '@' :: ' ' :: t.text.toList := by
      simp [lineChars, charsAfter, Token.chars, kind]
    rw [hchars, scan_intent trimmed, List.map_singleton, onLine, kind, String.ofList_toList]
  | @declaration t ts kind word follows content =>
    have hchars : lineChars (t :: ts) = t.text.toList ++ charsAfter .keyword ts := by
      simp [lineChars, Token.chars, kind]
    rw [hchars, scan_keyword word (endsWord_of_follows content.plain follows)
      (spells_of_content line content .keyword), List.map_cons, onLine, kind]
  | text content leads =>
    obtain ⟨hat, hkeyword⟩ := free_lineChars content leads
    rw [lineChars_eq] at hat hkeyword ⊢
    exact scan_plain hat hkeyword (spells_of_content line content .openParen) raw

/-- A step that begins with a word that would be a keyword but for the parenthesis. -/
def callTokens : List Token :=
  [⟨.identifier, "func", 1⟩, .bare .openParen 1, ⟨.identifier, "a", 1⟩, .bare .colon 1,
    ⟨.reference, "b, c", 1⟩, .bare .closeParen 1, ⟨.identifier, "d e", 1⟩]

theorem canonicalLine_callTokens : CanonicalLine callTokens := by
  refine .text ⟨?_, ?_⟩ ?_
  · have hplain : ∀ text ∈ ["func", "a", "d e"], Ast.IsPlain text := by decide +kernel
    have hreference : IsReference "b, c".toList := ⟨by decide, by decide, by decide⟩
    simp only [callTokens, List.forall_mem_cons]
    exact ⟨(hplain "func" (by decide)).isWord, rfl, (hplain "a" (by decide)).isWord, rfl,
      hreference, rfl, (hplain "d e" (by decide)).isWord, by simp⟩
  · simp [callTokens, bare]
  · rintro t ⟨rfl⟩ -
    exact ⟨by decide, fun _ => ⟨by decide, _, rfl, .inl rfl⟩⟩

theorem scan_render_call :
    CanonicalLine callTokens ∧ render callTokens = "func(a: $b, c$) d e" ∧
      scan "func(a: $b, c$) d e".toList 1 "" = .ok ⟨callTokens, []⟩ := by
  have hrender : render callTokens = "func(a: $b, c$) d e" := by decide +kernel
  have hscan := scan_render canonicalLine_callTokens 1 ""
  rw [hrender] at hscan
  exact ⟨canonicalLine_callTokens, hrender, hscan⟩

end IntentCode.Lexer
