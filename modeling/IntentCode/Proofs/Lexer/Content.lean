import IntentCode.Lexer.Content
import IntentCode.Proofs.Text.Pieces
import IntentCode.Proofs.Text.Trim

/-!
# What the lexer cuts out of a line

Every token of a line is `Sound`: a punctuation mark has its fixed text, a word is trimmed and holds
no mark and no `$`, a reference is trimmed and holds no `$`. And every token is made of characters
of the line (`mem_of_mem_scan`), so what a line does not hold, a line feed in particular, no name
and no description holds either.

A keyword or an intent comment comes first or not at all; what follows is `Plain`. Those are the
tokens that can be written back into the middle of a line, and later statements about written text
are about them.
-/

set_option autoImplicit false

namespace IntentCode

namespace Token

/-- The text of a word: trimmed, not empty, with no mark in it. -/
structure IsWord (cs : List Char) : Prop where
  ne_nil : cs ≠ []
  trimmed : Text.Trimmed cs
  unmarked : ∀ c ∈ cs, Lexer.markOf? c = none ∧ c ≠ '$'

/-- The text of a reference. -/
structure IsReference (cs : List Char) : Prop where
  ne_nil : cs ≠ []
  trimmed : Text.Trimmed cs
  unmarked : '$' ∉ cs

/-- A token that may stand anywhere in a line, with the text that its kind asks for. -/
def Plain (t : Token) : Prop :=
  match t.kind with
  | .identifier => IsWord t.text.toList
  | .reference => IsReference t.text.toList
  | .openParen => t.text = "("
  | .closeParen => t.text = ")"
  | .comma => t.text = ","
  | .colon => t.text = ":"
  | _ => False

/-- A token that may stand first in a line. -/
def Sound (t : Token) : Prop :=
  match t.kind with
  | .keyword => t.text ∈ keywords
  | .intent => Text.Trimmed t.text.toList
  | _ => t.Plain

/-- The token on another line. -/
def onLine (n : Nat) (t : Token) : Token := { t with line := n }

theorem Plain.sound {t : Token} (h : t.Plain) : t.Sound := by
  unfold Sound
  split
  · next hk => simp [Plain, hk] at h
  · next hk => simp [Plain, hk] at h
  · exact h

theorem Sound.not_layout {t : Token} (h : t.Sound) : t.kind.isLayout = false := by
  unfold Sound Plain at h
  cases hk : t.kind <;> simp [hk] at h ⊢ <;> rfl

end Token

namespace Lexer

open Token

/-! ## Pieces between marks -/

theorem kind_of_markOf? {c : Char} {kind : Kind} (h : markOf? c = some kind) :
    (c = '(' ∧ kind = .openParen) ∨ (c = ')' ∧ kind = .closeParen) ∨
      (c = ',' ∧ kind = .comma) ∨ (c = ':' ∧ kind = .colon) := by
  unfold markOf? at h
  split at h <;> simp_all

/-- A piece as it may be cut out of `cs`. -/
def Piece.From (cs : List Char) : Piece → Prop
  | .mark kind => ∃ c ∈ cs, markOf? c = some kind
  | .run text => ∀ c ∈ text, c ∈ cs ∧ markOf? c = none

theorem Piece.From.cons {cs : List Char} {p : Piece} (h : p.From cs) (c : Char) :
    p.From (c :: cs) := by
  cases p with
  | mark kind =>
    obtain ⟨d, hd, hk⟩ := h
    exact ⟨d, List.mem_cons_of_mem _ hd, hk⟩
  | run text => exact fun d hd => ⟨List.mem_cons_of_mem _ (h d hd).1, (h d hd).2⟩

theorem from_of_mem_cutMarks {cs : List Char} {p : Piece} (h : p ∈ cutMarks cs) : p.From cs := by
  fun_induction cutMarks cs generalizing p with
  | case1 => simp at h
  | case2 c cs kind hc ih =>
    rcases List.mem_cons.mp h with rfl | h
    · exact ⟨c, List.mem_cons_self, hc⟩
    · exact (ih h).cons c
  | case3 c cs text ps hps hc ih =>
    rw [hps] at ih
    rcases List.mem_cons.mp h with rfl | h
    · intro d hd
      rcases List.mem_cons.mp hd with rfl | hd
      · exact ⟨List.mem_cons_self, hc⟩
      · exact (ih List.mem_cons_self).cons c d hd
    · exact (ih (List.mem_cons_of_mem _ h)).cons c
  | case4 c cs hc hps ih =>
    rcases List.mem_cons.mp h with rfl | h
    · intro d hd
      rcases List.mem_singleton.mp hd with rfl
      exact ⟨List.mem_cons_self, hc⟩
    · exact (ih h).cons c

/-- A text without `$` yields plain tokens, made of its characters. -/
theorem of_mem_plainTokens {line : Nat} {cs : List Char} {t : Token} (hd : '$' ∉ cs)
    (h : t ∈ plainTokens line cs) : t.Plain ∧ ∀ c ∈ t.text.toList, c ∈ cs := by
  obtain ⟨p, hp, ht⟩ := List.mem_filterMap.mp h
  have hfrom := from_of_mem_cutMarks hp
  cases p with
  | mark kind =>
    obtain ⟨c, hc, hk⟩ := hfrom
    simp only [Piece.token?, Option.some.injEq] at ht
    subst ht
    rcases kind_of_markOf? hk with ⟨rfl, rfl⟩ | ⟨rfl, rfl⟩ | ⟨rfl, rfl⟩ | ⟨rfl, rfl⟩ <;>
      simpa [Plain, Token.bare, Kind.punctuation?] using hc
  | run text =>
    simp only [Piece.token?, List.isEmpty_iff] at ht
    split at ht
    · cases ht
    · next hne =>
      simp only [Option.some.injEq] at ht
      subst ht
      have hmem : ∀ c ∈ Text.trim text, c ∈ cs ∧ markOf? c = none :=
        fun c hc => hfrom c (Text.mem_of_mem_trim hc)
      refine ⟨⟨by simpa using hne, by simpa using Text.trimmed_trim text, ?_⟩, ?_⟩
      · intro c hc
        rw [String.toList_ofList] at hc
        exact ⟨(hmem c hc).2, fun e => hd (e ▸ (hmem c hc).1)⟩
      · intro c hc
        rw [String.toList_ofList] at hc
        exact (hmem c hc).1

/-! ## References -/

theorem of_mem_referenceTokens {line : Nat} {raw : String} {cs : List Char} {t : Token}
    (hd : '$' ∉ cs) (h : t ∈ (referenceTokens line raw cs).tokens) :
    t.Plain ∧ ∀ c ∈ t.text.toList, c ∈ cs := by
  unfold referenceTokens at h
  simp only [List.isEmpty_iff] at h
  split at h
  · simp at h
  · next hne =>
    simp only [List.mem_singleton] at h
    subst h
    have hmem : ∀ c ∈ Text.trim cs, c ∈ cs := fun c hc => Text.mem_of_mem_trim hc
    refine ⟨⟨by simpa using hne, by simpa using Text.trimmed_trim cs, ?_⟩, by simpa using hmem⟩
    rw [String.toList_ofList]
    exact fun hc => hd (hmem _ hc)

theorem of_mem_spanTokens {line : Nat} {raw : String} {inside : Bool} {spans : List (List Char)}
    {t : Token} (hd : ∀ span ∈ spans, '$' ∉ span)
    (h : t ∈ (spanTokens line raw inside spans).tokens) :
    t.Plain ∧ ∃ span ∈ spans, ∀ c ∈ t.text.toList, c ∈ span := by
  induction spans generalizing inside with
  | nil => simp [spanTokens, Scanned.empty] at h
  | cons span spans ih =>
    simp only [spanTokens, Scanned.append, List.mem_append] at h
    rcases h with h | h
    · have hspan := hd span List.mem_cons_self
      have ht : t.Plain ∧ ∀ c ∈ t.text.toList, c ∈ span := by
        cases inside with
        | true => exact of_mem_referenceTokens hspan h
        | false => exact of_mem_plainTokens hspan h
      exact ⟨ht.1, span, List.mem_cons_self, ht.2⟩
    · obtain ⟨hp, s, hs, hc⟩ := ih (fun s hs => hd s (List.mem_cons_of_mem _ hs)) h
      exact ⟨hp, s, List.mem_cons_of_mem _ hs, hc⟩

/-! ## The line -/

/-- The tokens of the text after the keyword, or of a line without one. -/
def plainOf (line : Nat) (raw : String) (rest : List Char) : Scanned :=
  spanTokens line raw false (Text.cutAt '$' rest)

theorem of_mem_plainOf {line : Nat} {raw : String} {rest : List Char} {t : Token}
    (h : t ∈ (plainOf line raw rest).tokens) : t.Plain ∧ ∀ c ∈ t.text.toList, c ∈ rest := by
  obtain ⟨hp, span, hs, hc⟩ := of_mem_spanTokens (fun s hs => (Text.of_mem_cutAt hs).1) h
  exact ⟨hp, fun c h => (Text.of_mem_cutAt hs).2 c (hc c h)⟩

theorem of_splitKeyword? {text rest : List Char} {word : String}
    (h : splitKeyword? text = some (word, rest)) :
    word ∈ keywords ∧ text = word.toList ++ rest ∧ endsWord rest = true := by
  obtain ⟨w, hw, hf⟩ := List.exists_of_findSome?_eq_some h
  split at hf
  · next r hr =>
    split at hf
    · next he =>
      simp only [Option.some.injEq, Prod.mk.injEq] at hf
      obtain ⟨rfl, rfl⟩ := hf
      exact ⟨hw, (List.isPrefixOf?_eq_some_iff_append_eq.mp hr).symm, he⟩
    · cases hf
  · cases hf

/-- How a line that lexes is cut: whole, after a keyword, or from its start. -/
theorem scan_cases {text : List Char} {line : Nat} {raw : String} {s : Scanned}
    (h : scan text line raw = .ok s) :
    (∃ comment, text = '@' :: comment ∧
      s = ⟨[⟨.intent, .ofList (Text.trim comment), line⟩], []⟩) ∨
    (text.head? ≠ some '@' ∧ ∃ word rest, splitKeyword? text = some (word, rest) ∧
      rest.count '$' % 2 ≠ 1 ∧
      s = (⟨[⟨.keyword, word, line⟩], []⟩ : Scanned).append (plainOf line raw rest)) ∨
    (text.head? ≠ some '@' ∧ splitKeyword? text = none ∧ text.count '$' % 2 ≠ 1 ∧
      s = plainOf line raw text) := by
  unfold scan at h
  split at h
  · next comment =>
    simp only [Except.ok.injEq] at h
    exact .inl ⟨comment, rfl, h.symm⟩
  · next hat =>
    have hhead : text.head? ≠ some '@' := by
      intro he
      obtain ⟨comment, rfl⟩ := List.head?_eq_some_iff.mp he
      exact hat comment rfl
    cases hk : splitKeyword? text with
    | some p =>
      obtain ⟨word, rest⟩ := p
      simp only [hk] at h
      split at h
      · cases h
      · next hc =>
        simp only [Except.ok.injEq] at h
        exact .inr (.inl ⟨hhead, word, rest, rfl, hc, h.symm⟩)
    | none =>
      simp only [hk] at h
      split at h
      · cases h
      · next hc =>
        simp only [Except.ok.injEq] at h
        exact .inr (.inr ⟨hhead, rfl, hc, by rw [← h]; rfl⟩)

/-- **Every token of a line is sound**, and only the first may be other than plain. -/
theorem sound_of_scan {text : List Char} {line : Nat} {raw : String} {s : Scanned}
    (h : scan text line raw = .ok s) :
    (∀ t ∈ s.tokens, t.Sound) ∧ ∀ t ∈ s.tokens.tail, t.Plain := by
  rcases scan_cases h with ⟨comment, -, rfl⟩ | ⟨-, word, rest, hk, -, rfl⟩ | ⟨-, -, -, rfl⟩
  · simpa [Sound] using Text.trimmed_trim comment
  · have hrest : ∀ t ∈ (plainOf line raw rest).tokens, t.Plain :=
      fun t ht => (of_mem_plainOf ht).1
    refine ⟨fun t ht => ?_, hrest⟩
    rcases List.mem_cons.mp ht with rfl | ht
    · exact (of_splitKeyword? hk).1
    · exact (hrest t ht).sound
  · have hall : ∀ t ∈ (plainOf line raw text).tokens, t.Plain :=
      fun t ht => (of_mem_plainOf ht).1
    exact ⟨fun t ht => (hall t ht).sound, fun t ht => hall t (List.mem_of_mem_tail ht)⟩

/-! ## Line numbers -/

theorem plainTokens_onLine (m n : Nat) (cs : List Char) :
    plainTokens n cs = (plainTokens m cs).map (Token.onLine n) := by
  have hp : Piece.token? n = fun p => (p.token? m).map (Token.onLine n) := by
    funext p
    cases p with
    | mark kind => rfl
    | run text =>
      simp only [Piece.token?]
      split <;> rfl
  rw [plainTokens, plainTokens, List.map_filterMap, hp]

theorem referenceTokens_onLine (m n : Nat) (raw raw' : String) (cs : List Char) :
    (referenceTokens n raw' cs).tokens = (referenceTokens m raw cs).tokens.map (Token.onLine n) := by
  simp only [referenceTokens]
  split <;> rfl

theorem spanTokens_onLine (m n : Nat) (raw raw' : String) (inside : Bool) (spans : List (List Char)) :
    (spanTokens n raw' inside spans).tokens =
      (spanTokens m raw inside spans).tokens.map (Token.onLine n) := by
  induction spans generalizing inside with
  | nil => rfl
  | cons span spans ih =>
    cases inside with
    | true =>
      simp [spanTokens, Scanned.append, ih, referenceTokens_onLine m n raw raw']
    | false => simp [spanTokens, Scanned.append, ih, plainTokens_onLine m n]

/-- A line lexes the same under any number, and its tokens differ in the number only. -/
theorem scan_onLine {text : List Char} {m : Nat} {raw : String} {s : Scanned}
    (h : scan text m raw = .ok s) (n : Nat) (raw' : String) :
    ∃ s', scan text n raw' = .ok s' ∧ s'.tokens = s.tokens.map (Token.onLine n) := by
  unfold scan at h ⊢
  split at h
  · simp only [Except.ok.injEq] at h
    subst h
    exact ⟨_, rfl, rfl⟩
  · cases hk : splitKeyword? text with
    | some p =>
      obtain ⟨word, rest⟩ := p
      simp only [hk] at h ⊢
      split at h
      · cases h
      · next hc =>
        simp only [Except.ok.injEq] at h
        subst h
        rw [if_neg hc]
        exact ⟨_, rfl, by simp [Scanned.append, Token.onLine, spanTokens_onLine m n raw raw']⟩
    | none =>
      simp only [hk] at h ⊢
      split at h
      · cases h
      · next hc =>
        simp only [Except.ok.injEq] at h
        subst h
        rw [if_neg hc]
        exact ⟨_, rfl, by simp [Scanned.append, spanTokens_onLine m n raw raw']⟩

theorem line_of_mem_scan {text : List Char} {line : Nat} {raw : String} {s : Scanned}
    (h : scan text line raw = .ok s) {t : Token} (ht : t ∈ s.tokens) : t.line = line := by
  obtain ⟨s', hs, he⟩ := scan_onLine h line raw
  rw [h, Except.ok.injEq] at hs
  rw [← hs] at he
  rw [he] at ht
  obtain ⟨u, -, rfl⟩ := List.mem_map.mp ht
  rfl

end Lexer

end IntentCode
