import IntentCode.Proofs.Lexer.Content
import IntentCode.Proofs.Text.Pieces

/-!
# Lexing what has been written

The lexer cuts a text at `$`, each piece at its marks, and trims what lies between. A writer goes
the other way, one token after the other, and its text is not cut in that order. `Spells` is the
common ground: a text is a run without marks, or a run and a mark and more text, or a run and a
reference and more text. A text that is built up that way lexes to the tokens that were put in
(`Spells.plainOf_eq`), however much blank there is around them.

Two words in a row cannot be told from one word with a blank inside. So what a rendered line lexes
to is `fuse` of its tokens, in which neighbouring words have become one. Nothing that is asked of a
line can tell the difference: it renders the same and it has the same references.
-/

set_option autoImplicit false

namespace IntentCode.Lexer

open Token

/-! ## Runs -/

/-- Text without marks and without `$`. -/
def Unmarked (cs : List Char) : Prop := ∀ c ∈ cs, markOf? c = none ∧ c ≠ '$'

theorem Unmarked.nil : Unmarked [] := fun _ h => absurd h (by simp)

theorem Unmarked.append {cs ds : List Char} (hc : Unmarked cs) (hd : Unmarked ds) :
    Unmarked (cs ++ ds) := by
  intro c h
  rcases List.mem_append.mp h with h | h
  · exact hc c h
  · exact hd c h

theorem Unmarked.cons_blank {c : Char} (hc : Text.isBlank c = true) {cs : List Char}
    (h : Unmarked cs) : Unmarked (c :: cs) := by
  intro d hd
  rcases List.mem_cons.mp hd with rfl | hd
  · refine ⟨?_, ?_⟩
    · cases hm : markOf? d with
      | none => rfl
      | some kind =>
        rcases kind_of_markOf? hm with ⟨rfl, -⟩ | ⟨rfl, -⟩ | ⟨rfl, -⟩ | ⟨rfl, -⟩ <;>
          exact absurd hc (by decide)
    · rintro rfl
      exact absurd hc (by decide)
  · exact h d hd

theorem Unmarked.dollar_notMem {cs : List Char} (h : Unmarked cs) : '$' ∉ cs :=
  fun hm => (h _ hm).2 rfl

/-- The token of a run, if there is anything in it but blanks. -/
def wordTokens (line : Nat) (run : List Char) : List Token :=
  if (Text.trim run).isEmpty then [] else [⟨.identifier, .ofList (Text.trim run), line⟩]

theorem wordTokens_blank {c : Char} (hc : Text.isBlank c = true) (line : Nat) (run : List Char) :
    wordTokens line (c :: run) = wordTokens line run := by
  unfold wordTokens
  rw [Text.trim_blank hc]

theorem wordTokens_nil (line : Nat) : wordTokens line [] = [] := rfl

/-- The pieces of a run. -/
def runPieces (run : List Char) : List Piece := if run.isEmpty then [] else [.run run]

theorem cutMarks_run {run : List Char} (h : Unmarked run) : cutMarks run = runPieces run := by
  induction run with
  | nil => rfl
  | cons c run ih =>
    have hrun : Unmarked run := fun d hd => h d (List.mem_cons_of_mem _ hd)
    rw [cutMarks, (h c List.mem_cons_self).1, ih hrun]
    cases run <;> rfl

theorem cutMarks_mark {run : List Char} (h : Unmarked run) {c : Char} {kind : Kind}
    (hc : markOf? c = some kind) (cs : List Char) :
    cutMarks (run ++ c :: cs) = runPieces run ++ .mark kind :: cutMarks cs := by
  induction run with
  | nil => simp [cutMarks, hc, runPieces]
  | cons d run ih =>
    have hrun : Unmarked run := fun e he => h e (List.mem_cons_of_mem _ he)
    rw [List.cons_append, cutMarks, (h d List.mem_cons_self).1, ih hrun]
    cases run <;> rfl

theorem filterMap_runPieces (line : Nat) (run : List Char) :
    (runPieces run).filterMap (Piece.token? line) = wordTokens line run := by
  unfold runPieces wordTokens
  cases run with
  | nil => rfl
  | cons c run =>
    simp only [List.isEmpty_cons, Bool.false_eq_true, if_false, List.filterMap_cons, Piece.token?,
      List.filterMap_nil]
    split <;> simp_all

theorem plainTokens_run {run : List Char} (h : Unmarked run) (line : Nat) :
    plainTokens line run = wordTokens line run := by
  rw [plainTokens, cutMarks_run h, filterMap_runPieces]

theorem plainTokens_mark {run : List Char} (h : Unmarked run) {c : Char} {kind : Kind}
    (hc : markOf? c = some kind) (line : Nat) (cs : List Char) :
    plainTokens line (run ++ c :: cs) =
      wordTokens line run ++ .bare kind line :: plainTokens line cs := by
  rw [plainTokens, cutMarks_mark h hc, List.filterMap_append, filterMap_runPieces]
  rfl

/-! ## Spellings -/

/-- How a text is put together from tokens, with blanks around them. -/
inductive Spells (line : Nat) : List Char → List Token → Prop
  | run {run : List Char} (h : Unmarked run) : Spells line run (wordTokens line run)
  | mark {run cs : List Char} {ts : List Token} (h : Unmarked run) {c : Char} {kind : Kind}
    (hc : markOf? c = some kind) (rest : Spells line cs ts) :
    Spells line (run ++ c :: cs) (wordTokens line run ++ .bare kind line :: ts)
  | reference {run name cs : List Char} {ts : List Token} (h : Unmarked run) (hn : '$' ∉ name)
    (ne : Text.trim name ≠ []) (rest : Spells line cs ts) :
    Spells line (run ++ '$' :: (name ++ '$' :: cs))
      (wordTokens line run ++ ⟨.reference, .ofList (Text.trim name), line⟩ :: ts)

/-- **A text lexes to what it spells**, and its `$` are paired. -/
theorem Spells.plainOf_eq {line : Nat} {cs : List Char} {ts : List Token} (h : Spells line cs ts)
    (raw : String) : plainOf line raw cs = ⟨ts, []⟩ ∧ cs.count '$' % 2 = 0 := by
  induction h with
  | run h =>
    refine ⟨?_, ?_⟩
    · rw [plainOf, Text.cutAt_of_notMem h.dollar_notMem]
      simp [spanTokens, Scanned.append, Scanned.empty, plainTokens_run h]
    · rw [List.count_eq_zero.mpr h.dollar_notMem]
  | @mark run cs ts h c kind hc rest ih =>
    obtain ⟨hplain, hcount⟩ := ih
    have hdollar : c ≠ '$' := by
      rintro rfl
      cases hc
    -- the run and the mark belong to the first span of what is cut
    have hrun : '$' ∉ run ++ [c] := by
      simpa using ⟨h.dollar_notMem, hdollar.symm⟩
    refine ⟨?_, ?_⟩
    · cases hp : Text.cutAt '$' cs with
      | nil => exact absurd hp (Text.cutAt_ne_nil _ _)
      | cons p ps =>
        have hcut := Text.cutAt_prepend hrun hp
        rw [List.append_assoc, List.singleton_append, List.append_assoc, List.singleton_append]
          at hcut
        rw [plainOf, hp] at hplain
        rw [plainOf, hcut]
        simp only [spanTokens, Scanned.append, plainTokens_mark h hc, Scanned.mk.injEq,
          Bool.false_eq_true, if_false, Bool.not_false, List.nil_append] at hplain ⊢
        obtain ⟨htokens, hwarnings⟩ := hplain
        refine ⟨?_, hwarnings⟩
        rw [← htokens, List.append_assoc, List.cons_append]
    · rw [List.count_append, List.count_cons_of_ne hdollar,
        List.count_eq_zero.mpr h.dollar_notMem, Nat.zero_add]
      exact hcount
  | @reference run name cs ts h hn ne rest ih =>
    obtain ⟨hplain, hcount⟩ := ih
    refine ⟨?_, ?_⟩
    · rw [plainOf] at hplain
      rw [plainOf, Text.cutAt_append h.dollar_notMem, Text.cutAt_append hn]
      simp [spanTokens, Scanned.append, plainTokens_run h, referenceTokens, ne, hplain]
    · rw [List.count_append, List.count_cons_self, List.count_append, List.count_cons_self,
        List.count_eq_zero.mpr h.dollar_notMem, List.count_eq_zero.mpr hn]
      omega

/-- A blank at the front changes nothing. -/
theorem Spells.blank {line : Nat} {cs : List Char} {ts : List Token} (h : Spells line cs ts)
    {c : Char} (hc : Text.isBlank c = true) : Spells line (c :: cs) ts := by
  cases h with
  | run h =>
    rw [← wordTokens_blank hc]
    exact .run (h.cons_blank hc)
  | mark h hm rest =>
    rw [← wordTokens_blank hc]
    exact .mark (h.cons_blank hc) hm rest
  | reference h hn ne rest =>
    rw [← wordTokens_blank hc]
    exact .reference (h.cons_blank hc) hn ne rest

theorem Spells.nil (line : Nat) : Spells line [] [] := .run Unmarked.nil

/-! ## Rendered tokens -/

/-- The tokens that a run and the tokens after it lex to: words in a row become one. -/
def fuseAfter (line : Nat) (run : List Char) : List Token → List Token
  | [] => wordTokens line run
  | t :: ts =>
    if t.kind = .identifier then fuseAfter line (run ++ ' ' :: t.text.toList) ts
    else wordTokens line run ++ t.onLine line :: fuseAfter line [] ts

/-- The tokens that a rendered line lexes to. -/
def fuse (line : Nat) (ts : List Token) : List Token := fuseAfter line [] ts

theorem fuseAfter_blank {c : Char} (hc : Text.isBlank c = true) (line : Nat) (run : List Char)
    (ts : List Token) : fuseAfter line (c :: run) ts = fuseAfter line run ts := by
  induction ts generalizing run with
  | nil => exact wordTokens_blank hc line run
  | cons t ts ih =>
    rw [fuseAfter, fuseAfter, wordTokens_blank hc, List.cons_append, ih]

theorem blank_space : Text.isBlank ' ' = true := by decide

/-- What ends a run that stands before it: a mark, a dollar or the end of the line. -/
def Breaks (cs : List Char) : Prop := ∀ c ∈ cs.head?, markOf? c ≠ none ∨ c = '$'

theorem breaks_mark {c : Char} {kind : Kind} (h : markOf? c = some kind) {rest : List Char} :
    Breaks (c :: rest) := by
  intro d hd
  cases hd
  exact .inl (by simp [h])

/-- Where a spelling begins with a mark or a dollar, a run may stand before it. -/
theorem Spells.prepend {line : Nat} {cs : List Char} {ts : List Token} (h : Spells line cs ts)
    (hbreaks : Breaks cs) {run : List Char} (hrun : Unmarked run) :
    Spells line (run ++ cs) (wordTokens line run ++ ts) := by
  -- the run at the front of the spelling is empty
  have hempty : ∀ {front after : List Char}, Unmarked front → Breaks (front ++ after) →
      front = [] := by
    intro front after hfront hb
    cases front with
    | nil => rfl
    | cons c front =>
      have hc := hfront c List.mem_cons_self
      rcases hb c (by simp) with hm | hm
      · exact absurd hc.1 hm
      · exact absurd hm hc.2
  cases h with
  | run h =>
    rw [← List.append_nil cs] at hbreaks
    obtain rfl := hempty h hbreaks
    rw [wordTokens_nil, List.append_nil, List.append_nil]
    exact .run hrun
  | mark h hc rest =>
    obtain rfl := hempty h hbreaks
    exact .mark hrun hc rest
  | reference h hn ne rest =>
    obtain rfl := hempty h hbreaks
    exact .reference hrun hn ne rest

/-- A token other than a word is a mark or stands between dollars. -/
theorem chars_cases {t : Token} (h : t.Plain) :
    (t.kind = .identifier ∧ t.chars = t.text.toList ∧ IsWord t.text.toList) ∨
      (t.kind = .reference ∧ t.chars = '$' :: (t.text.toList ++ ['$']) ∧
        IsReference t.text.toList) ∨
      ∃ c, markOf? c = some t.kind ∧ t.chars = [c] ∧ ∀ line, t.onLine line = .bare t.kind line := by
  unfold Plain at h
  unfold Token.chars onLine bare
  cases hk : t.kind <;> simp only [hk] at h ⊢
  case identifier => exact .inl ⟨trivial, trivial, h⟩
  case reference => exact .inr (.inl ⟨trivial, rfl, h⟩)
  case openParen => exact .inr (.inr ⟨'(', rfl, by rw [h]; rfl, fun line => by rw [h]; rfl⟩)
  case closeParen => exact .inr (.inr ⟨')', rfl, by rw [h]; rfl, fun line => by rw [h]; rfl⟩)
  case comma => exact .inr (.inr ⟨',', rfl, by rw [h]; rfl, fun line => by rw [h]; rfl⟩)
  case colon => exact .inr (.inr ⟨':', rfl, by rw [h]; rfl, fun line => by rw [h]; rfl⟩)

theorem chars_ne_nil {t : Token} (h : t.Plain) : t.chars ≠ [] := by
  rcases chars_cases h with ⟨-, hchars, hword⟩ | ⟨-, hchars, -⟩ | ⟨c, -, hchars, -⟩
  · rw [hchars]
    exact hword.ne_nil
  · simp [hchars]
  · simp [hchars]

theorem isWord_of_mark {c : Char} {kind : Kind} (h : markOf? c = some kind) :
    kind.isWord = false ∧ kind ≠ .identifier := by
  rcases kind_of_markOf? h with ⟨-, rfl⟩ | ⟨-, rfl⟩ | ⟨-, rfl⟩ | ⟨-, rfl⟩ <;> simp [Kind.isWord]

/-- **Rendered tokens spell what they fuse to**, after a run and before a mark. -/
theorem spells_charsAfter (line : Nat) {ts : List Token} (hts : ∀ t ∈ ts, t.Plain)
    {rest : List Char} {us : List Token} (hrest : Spells line rest us) (hbreaks : Breaks rest)
    {run : List Char} (hrun : Unmarked run) (previous : Kind)
    (hprevious : previous = .openParen → run = []) :
    Spells line (run ++ charsAfter previous ts ++ rest) (fuseAfter line run ts ++ us) := by
  induction ts generalizing run previous with
  | nil =>
    rw [charsAfter, List.append_nil, fuseAfter]
    exact hrest.prepend hbreaks hrun
  | cons t ts ih =>
    have hmore : ∀ t ∈ ts, t.Plain := fun u hu => hts u (List.mem_cons_of_mem _ hu)
    rcases chars_cases (hts t List.mem_cons_self) with
      ⟨hkind, hchars, hword⟩ | ⟨hkind, hchars, href⟩ | ⟨c, hc, hchars, hbare⟩
    · -- a word joins the run
      have hwords : Unmarked t.text.toList := hword.unmarked
      rw [charsAfter, fuseAfter, if_pos hkind, hchars, hkind]
      by_cases hp : previous = .openParen
      · obtain rfl := hprevious hp
        have hspells := ih hmore hwords .identifier (fun h => by cases h)
        simp only [hp, List.nil_append, fuseAfter_blank blank_space]
        simpa using hspells
      · have hspells := ih hmore (hrun.append (hwords.cons_blank blank_space)) .identifier
          (fun h => by cases h)
        have hspace : (Kind.identifier.isWord && previous != .openParen) = true := by
          simp [Kind.isWord, hp]
        rw [if_pos hspace]
        simpa using hspells
    · -- a reference ends it, and a space behind it is trimmed away
      have hspells := ih hmore Unmarked.nil .reference (fun h => by cases h)
      have hne : Text.trim t.text.toList ≠ [] := by
        rw [Text.trim_of_trimmed href.trimmed]
        exact href.ne_nil
      have htoken : t.onLine line = ⟨.reference, .ofList (Text.trim t.text.toList), line⟩ := by
        rw [Text.trim_of_trimmed href.trimmed, String.ofList_toList, onLine, hkind]
      have hident : ¬ t.kind = .identifier := by
        rw [hkind]
        exact fun h => by cases h
      rw [charsAfter, fuseAfter, if_neg hident, hchars, hkind, htoken]
      by_cases hp : previous = .openParen
      · obtain rfl := hprevious hp
        have := Spells.reference Unmarked.nil href.unmarked hne hspells
        simpa [hp] using this
      · have hspaced : Unmarked (run ++ [' ']) :=
          hrun.append (Unmarked.nil.cons_blank blank_space)
        have := Spells.reference hspaced href.unmarked hne hspells
        have hword : wordTokens line (run ++ [' ']) = wordTokens line run := by
          unfold wordTokens
          rw [Text.trim_append_blank _ blank_space]
        rw [hword] at this
        have hspace : (Kind.reference.isWord && previous != .openParen) = true := by
          simp [Kind.isWord, hp]
        rw [if_pos hspace]
        simpa using this
    · -- and so does a mark, with no space between
      obtain ⟨hisWord, hident⟩ := isWord_of_mark hc
      have hspells := ih hmore Unmarked.nil t.kind (fun _ => rfl)
      have := Spells.mark hrun hc hspells
      rw [charsAfter, fuseAfter, if_neg hident, hchars, hisWord, hbare]
      simpa using this

/-! ## What fusing keeps -/

theorem lineChars_eq (ts : List Token) : lineChars ts = charsAfter .openParen ts := by
  cases ts with
  | nil => rfl
  | cons t ts => simp [lineChars, charsAfter]

theorem wordTokens_of_isWord {run : List Char} (h : IsWord run) (line : Nat) :
    wordTokens line run = [⟨.identifier, .ofList run, line⟩] := by
  unfold wordTokens
  rw [Text.trim_of_trimmed h.trimmed, if_neg (by simpa using h.ne_nil)]

/-- Two words with a blank between them are a word. -/
theorem isWord_join {cs ds : List Char} (hc : IsWord cs) (hd : IsWord ds) :
    IsWord (cs ++ ' ' :: ds) := by
  refine ⟨by simp, ⟨?_, ?_⟩, ?_⟩
  · rw [List.head?_append, List.head?_eq_some_head hc.ne_nil, Option.some_or,
      ← List.head?_eq_some_head]
    exact hc.trimmed.head
  · rw [List.getLast?_append, List.getLast?_cons, List.getLast?_eq_some_getLast hd.ne_nil]
    have := hd.trimmed.last
    rw [List.getLast?_eq_some_getLast hd.ne_nil] at this
    simpa using this
  · exact Unmarked.append hc.unmarked (Unmarked.cons_blank blank_space hd.unmarked)

/-- The run as `fuseAfter` carries it on after another word. -/
theorem fuseAfter_word (line : Nat) {run : List Char} (h : run = [] ∨ IsWord run) {t : Token}
    {ts : List Token} (hk : t.kind = .identifier) (ht : IsWord t.text.toList) :
    ∃ run', IsWord run' ∧ fuseAfter line run (t :: ts) = fuseAfter line run' ts ∧
      run' = (if run = [] then [] else run ++ [' ']) ++ t.text.toList := by
  rw [fuseAfter, if_pos hk]
  rcases h with rfl | h
  · exact ⟨t.text.toList, ht, by rw [List.nil_append, fuseAfter_blank blank_space], rfl⟩
  · exact ⟨_, isWord_join h ht, rfl, by simp [h.ne_nil]⟩

/-- What is fused renders as before. -/
theorem charsAfter_fuseAfter (line : Nat) {ts : List Token} (hts : ∀ t ∈ ts, t.Plain)
    {run : List Char} (hrun : run = [] ∨ IsWord run) (previous : Kind) :
    charsAfter previous (fuseAfter line run ts) =
      if run = [] then charsAfter previous ts
      else (if previous != .openParen then [' '] else []) ++ run ++ charsAfter .identifier ts := by
  induction ts generalizing run previous with
  | nil =>
    rcases hrun with rfl | hrun
    · rfl
    · rw [fuseAfter, wordTokens_of_isWord hrun, if_neg hrun.ne_nil]
      simp [charsAfter, Kind.isWord, Token.chars]
  | cons t ts ih =>
    have hmore : ∀ t ∈ ts, t.Plain := fun u hu => hts u (List.mem_cons_of_mem _ hu)
    by_cases hk : t.kind = .identifier
    · have ht : IsWord t.text.toList := by
        have := hts t List.mem_cons_self
        simpa [Plain, hk] using this
      obtain ⟨run', hrun', hfuse, heq⟩ := fuseAfter_word line hrun hk ht
      rw [hfuse, ih hmore (.inr hrun'), if_neg hrun'.ne_nil, heq]
      have hchars : t.chars = t.text.toList := by simp [Token.chars, hk]
      rcases hrun with rfl | hrun
      · simp [charsAfter, hk, hchars, Kind.isWord]
      · simp [charsAfter, hk, hchars, hrun.ne_nil, Kind.isWord]
    · have hrest := ih hmore (.inl rfl) t.kind
      rw [if_pos rfl] at hrest
      have hkind : (t.onLine line).kind = t.kind := rfl
      have hchars : (t.onLine line).chars = t.chars := rfl
      rw [fuseAfter, if_neg hk]
      rcases hrun with rfl | hrun
      · simp [wordTokens_nil, charsAfter, hkind, hchars, hrest]
      · have hword : Token.chars ⟨.identifier, .ofList run, line⟩ = run := by simp [Token.chars]
        rw [wordTokens_of_isWord hrun, if_neg hrun.ne_nil]
        simp [charsAfter, hkind, hchars, hrest, Kind.isWord, hword]

theorem not_layout_of_plain {ts : List Token} (h : ∀ t ∈ ts, t.Plain) :
    (ts.filter fun t => !t.kind.isLayout) = ts := by
  rw [List.filter_eq_self]
  intro t ht
  rw [(h t ht).sound.not_layout]
  rfl

theorem render_of_plain {ts : List Token} (h : ∀ t ∈ ts, t.Plain) :
    render ts = .ofList (charsAfter .openParen ts) := by
  rw [render, not_layout_of_plain h, lineChars_eq]

theorem plain_fuseAfter (line : Nat) {ts : List Token} (hts : ∀ t ∈ ts, t.Plain)
    {run : List Char} (hrun : run = [] ∨ IsWord run) : ∀ t ∈ fuseAfter line run ts, t.Plain := by
  have hword : ∀ {run : List Char}, (run = [] ∨ IsWord run) →
      ∀ t ∈ wordTokens line run, t.Plain := by
    intro run hrun t ht
    rcases hrun with rfl | hrun
    · cases ht
    · rw [wordTokens_of_isWord hrun] at ht
      obtain rfl := List.mem_singleton.mp ht
      simpa [Plain] using hrun
  induction ts generalizing run with
  | nil => exact hword hrun
  | cons t ts ih =>
    have hmore : ∀ t ∈ ts, t.Plain := fun u hu => hts u (List.mem_cons_of_mem _ hu)
    by_cases hk : t.kind = .identifier
    · have ht : IsWord t.text.toList := by
        have := hts t List.mem_cons_self
        simpa [Plain, hk] using this
      obtain ⟨run', hrun', hfuse, -⟩ := fuseAfter_word line hrun hk ht
      rw [hfuse]
      exact ih hmore (.inr hrun')
    · rw [fuseAfter, if_neg hk]
      intro u hu
      rcases List.mem_append.mp hu with hu | hu
      · exact hword hrun u hu
      · rcases List.mem_cons.mp hu with rfl | hu
        · exact hts t List.mem_cons_self
        · exact ih hmore (.inl rfl) u hu

theorem render_fuse (line : Nat) {ts : List Token} (hts : ∀ t ∈ ts, t.Plain) :
    render (fuse line ts) = render ts := by
  have hplain : ∀ t ∈ fuse line ts, t.Plain := plain_fuseAfter line hts (.inl rfl)
  rw [render_of_plain hts, render_of_plain hplain, fuse, charsAfter_fuseAfter line hts (.inl rfl),
    if_pos rfl]

theorem references_cons (t : Token) (ts : List Token) :
    references (t :: ts) = (if t.kind = .reference then [t.text] else []) ++ references ts := by
  unfold references
  rw [List.filter_cons]
  split
  · next h => rw [if_pos (by simpa using h)]; rfl
  · next h => rw [if_neg (by simpa using h)]; rfl

/-- Words are not references, and nothing else is fused. -/
theorem references_fuseAfter (line : Nat) (run : List Char) (ts : List Token) :
    references (fuseAfter line run ts) = references ts := by
  have hword : ∀ (run : List Char) (us : List Token),
      references (wordTokens line run ++ us) = references us := by
    intro run us
    unfold wordTokens
    split
    · rfl
    · rw [List.singleton_append, references_cons]
      rfl
  induction ts generalizing run with
  | nil =>
    have := hword run []
    rw [List.append_nil] at this
    exact this
  | cons t ts ih =>
    rw [fuseAfter]
    split
    · next hk =>
      rw [ih, references_cons, hk]
      rfl
    · rw [hword, references_cons, references_cons, ih]
      rfl

theorem references_fuse (line : Nat) (ts : List Token) :
    references (fuse line ts) = references ts := references_fuseAfter line [] ts

theorem fuse_ne_nil (line : Nat) {ts : List Token} (hts : ∀ t ∈ ts, t.Plain) (hne : ts ≠ []) :
    fuse line ts ≠ [] := by
  intro he
  have hchars := charsAfter_fuseAfter line hts (.inl rfl) .openParen
  rw [← fuse, he, if_pos rfl] at hchars
  cases ts with
  | nil => exact hne rfl
  | cons t ts =>
    simp [charsAfter, chars_ne_nil (hts t List.mem_cons_self)] at hchars

/-- The last token is the same, but for words that joined it. -/
theorem getLast_kind_fuseAfter (line : Nat) {ts : List Token} (hts : ∀ t ∈ ts, t.Plain)
    (run : List Char) (kind : Kind) (hk : kind ≠ .identifier) :
    (fuseAfter line run ts).getLast?.map Token.kind = some kind ↔
      ts.getLast?.map Token.kind = some kind := by
  have hword : ∀ run, ¬ (wordTokens line run).getLast?.map Token.kind = some kind := by
    intro run
    unfold wordTokens
    split
    · simp
    · simpa using hk.symm
  induction ts generalizing run with
  | nil =>
    rw [fuseAfter]
    exact ⟨fun h => absurd h (hword run), fun h => by cases h⟩
  | cons t ts ih =>
    have hmore : ∀ t ∈ ts, t.Plain := fun u hu => hts u (List.mem_cons_of_mem _ hu)
    rw [fuseAfter]
    split
    · next hi =>
      refine (ih hmore _).trans ?_
      cases ts with
      | nil => simpa [hi] using hk.symm
      | cons u us => rw [List.getLast?_cons_cons]
    · cases ts with
      | nil => simp [fuseAfter, wordTokens_nil, onLine]
      | cons u us =>
        have hne := fuse_ne_nil line hmore (by simp)
        have hrest := ih hmore []
        rw [List.getLast?_cons_cons]
        refine Iff.trans ?_ hrest
        cases hf : fuseAfter line [] (u :: us) with
        | nil => exact absurd hf hne
        | cons v vs => rw [List.getLast?_append, List.getLast?_cons_cons, List.getLast?_cons]; rfl

/-! ## Parentheses -/

/-- With `depth` parentheses open, the tokens close them all, and no comma stands outside. -/
def Closes : Nat → List Token → Prop
  | depth, [] => depth = 0
  | depth, t :: ts =>
    match t.kind with
    | .openParen => Closes (depth + 1) ts
    | .closeParen => 0 < depth ∧ Closes (depth - 1) ts
    | .comma => 0 < depth ∧ Closes depth ts
    | _ => Closes depth ts

theorem closes_word (line : Nat) (run : List Char) (depth : Nat) (ts : List Token) :
    Closes depth (wordTokens line run ++ ts) ↔ Closes depth ts := by
  unfold wordTokens
  split
  · rfl
  · rw [List.singleton_append, Closes]

/-- Fusing leaves the parentheses and commas where they are. -/
theorem closes_fuseAfter (line : Nat) (run : List Char) (depth : Nat) (ts : List Token) :
    Closes depth (fuseAfter line run ts) ↔ Closes depth ts := by
  induction ts generalizing run depth with
  | nil =>
    have := closes_word line run depth []
    rw [List.append_nil] at this
    exact this
  | cons t ts ih =>
    have hkind : (t.onLine line).kind = t.kind := rfl
    rw [fuseAfter]
    split
    · next hk =>
      rw [ih, Closes, hk]
    · rw [closes_word, Closes, Closes, hkind]
      cases t.kind <;> simp only [ih]

/-! ## Keywords -/

/-- The letters of a keyword are neither blanks nor marks nor dollars. -/
theorem letters_keyword : ∀ word ∈ keywords, ∀ c ∈ word.toList,
    Text.isBlank c = false ∧ c ≠ '$' ∧ markOf? c = none := by
  have hall : ∀ word ∈ keywords,
      (word.toList.all fun c => !Text.isBlank c && c != '$' && (markOf? c).isNone) = true := by
    decide
  intro word hword c hc
  have hletter := List.all_eq_true.mp (hall word hword) c hc
  simpa [and_assoc] using hletter

/-- What no keyword goes on with. -/
def Bounds (cs : List Char) : Prop :=
  ∀ c ∈ cs.head?, Text.isBlank c = true ∨ c = '$' ∨ markOf? c ≠ none

/-- A keyword in front of a text and what bounds it ends within the text. -/
theorem exists_tail_of_bounds {word : String} (hword : word ∈ keywords)
    {text rest more : List Char} (hrest : Bounds rest) (h : text ++ rest = word.toList ++ more) :
    ∃ tail, text = word.toList ++ tail ∧ more = tail ++ rest := by
  rcases List.append_eq_append_iff.mp h with ⟨tail, hlong, hmore⟩ | ⟨tail, htext, hmore⟩
  · cases tail with
    | nil => exact ⟨[], by simpa using hlong.symm, by simpa using hmore.symm⟩
    | cons c tail =>
      have hletter : c ∈ word.toList := by
        rw [hlong]
        exact List.mem_append_right _ List.mem_cons_self
      obtain ⟨hblank, hdollar, hmark⟩ := letters_keyword word hword c hletter
      rcases hrest c (by simp [hmore]) with hc | hc | hc
      · rw [hblank] at hc
        cases hc
      · exact absurd hc hdollar
      · exact absurd hmark hc
  · exact ⟨tail, htext, hmore⟩

theorem splitKeyword?_eq_none {text : List Char}
    (h : ∀ word ∈ keywords, ∀ rest, text = word.toList ++ rest → endsWord rest = false) :
    splitKeyword? text = none := by
  cases hsplit : splitKeyword? text with
  | none => rfl
  | some split =>
    obtain ⟨word, rest⟩ := split
    obtain ⟨hword, htext, hends⟩ := of_splitKeyword? hsplit
    rw [h word hword rest htext] at hends
    cases hends

theorem splitKeyword?_of_bounds {text : List Char} (h : Bounds text) :
    splitKeyword? text = none := by
  have hletters : ∀ word ∈ keywords, word.toList ≠ [] := by decide
  refine splitKeyword?_eq_none fun word hword rest hrest => ?_
  -- nothing stands in front of the text, so neither does a keyword
  have hfront : [] ++ text = word.toList ++ rest := hrest
  obtain ⟨tail, hnil, -⟩ := exists_tail_of_bounds hword h hfront
  exact absurd (List.append_eq_nil_iff.mp hnil.symm).1 (hletters word hword)

/-! ## Lines -/

theorem splitKeyword?_append {word : String} (hw : word ∈ keywords) {rest : List Char}
    (h : endsWord rest = true) : splitKeyword? (word.toList ++ rest) = some (word, rest) := by
  -- no two keywords start with the same letter
  have hletters : ∀ w ∈ keywords, w.toList ≠ [] ∧
      ∀ v ∈ keywords, v.toList.head? = w.toList.head? → v = w := by
    decide
  obtain ⟨before, after, hsplit, hno⟩ := List.eq_append_cons_of_mem hw
  unfold splitKeyword?
  rw [List.findSome?_eq_some_iff]
  refine ⟨before, word, after, hsplit, ?_, ?_⟩
  · rw [List.isPrefixOf?_eq_some_iff_append_eq.mpr rfl]
    simp only [h, if_true]
  · intro other hother
    have hmem : other ∈ keywords := by
      rw [hsplit]
      exact List.mem_append_left _ hother
    cases hp : other.toList.isPrefixOf? (word.toList ++ rest) with
    | none => rfl
    | some tail =>
      have hheads := congrArg List.head? (List.isPrefixOf?_eq_some_iff_append_eq.mp hp).symm
      rw [List.head?_append, List.head?_append, List.head?_eq_some_head (hletters word hw).1,
        List.head?_eq_some_head (hletters other hmem).1, Option.some_or, Option.some_or,
        ← List.head?_eq_some_head, ← List.head?_eq_some_head] at hheads
      have heq := (hletters word hw).2 other hmem hheads.symm
      exact absurd (heq ▸ hother) hno

/-- A line that starts with a keyword. -/
theorem scan_keyword {word : String} (hw : word ∈ keywords) {rest : List Char} {line : Nat}
    {ts : List Token} (hend : endsWord rest = true) (h : Spells line rest ts) (raw : String) :
    scan (word.toList ++ rest) line raw = .ok ⟨⟨.keyword, word, line⟩ :: ts, []⟩ := by
  obtain ⟨hplain, hcount⟩ := h.plainOf_eq raw
  have hhead : ∀ comment, word.toList ++ rest ≠ '@' :: comment := by
    simp only [keywords, List.mem_cons, List.not_mem_nil, or_false] at hw
    rcases hw with rfl | rfl | rfl | rfl | rfl <;> simp
  unfold scan
  split
  · next comment he => exact absurd he (hhead comment)
  · rw [splitKeyword?_append hw hend]
    simp only
    unfold plainOf at hplain
    rw [if_neg (by omega), hplain]
    rfl

/-- A line that starts with neither a keyword nor `@`. -/
theorem scan_plain {text : List Char} {line : Nat} {ts : List Token}
    (hhead : text.head? ≠ some '@') (hkeyword : splitKeyword? text = none)
    (h : Spells line text ts) (raw : String) : scan text line raw = .ok ⟨ts, []⟩ := by
  obtain ⟨hplain, hcount⟩ := h.plainOf_eq raw
  unfold scan
  split
  · exact absurd rfl hhead
  · rw [hkeyword]
    simp only
    unfold plainOf at hplain
    rw [if_neg (by omega), hplain]
    rfl

theorem scan_intent {text : List Char} (h : Text.Trimmed text) (line : Nat) (raw : String) :
    scan ('@' :: ' ' :: text) line raw = .ok ⟨[⟨.intent, .ofList text, line⟩], []⟩ := by
  have htrim : Text.trim (' ' :: text) = text := by
    rw [Text.trim_blank blank_space, Text.trim_of_trimmed h]
  simp only [scan, htrim]

end IntentCode.Lexer
