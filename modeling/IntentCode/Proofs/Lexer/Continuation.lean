import IntentCode.Proofs.Lexer.Markers

/-!
# A continued line is one line

A line that asks for the next one may as well be written together with it. The two physical lines
`splice` to one, and the source with that one line in their place lexes to the same tokens or fails
for the same reason (`tokenize_spliced`).

The two sources disagree about where things stand: the lines behind the splice have other numbers,
and the line itself is quoted differently in a message. So they are compared without their places
altogether (`SourceLine.nowhere`), and then the two lines and the one line lead to the same text
that waits or is given out (`blurring_spliced`).
-/

set_option autoImplicit false

namespace IntentCode

/-! ## Splicing -/

namespace Text

theorem dropWhile_append_of_ne_nil {p : Char → Bool} {cs : List Char} (h : cs.dropWhile p ≠ [])
    (ds : List Char) : (cs ++ ds).dropWhile p = cs.dropWhile p ++ ds := by
  rw [List.dropWhile_append, if_neg (by simpa using h)]

theorem takeWhile_append_of_ne_nil {p : Char → Bool} {cs : List Char} (h : cs.dropWhile p ≠ [])
    (ds : List Char) : (cs ++ ds).takeWhile p = cs.takeWhile p := by
  induction cs with
  | nil => exact absurd rfl h
  | cons c cs ih =>
    rw [List.cons_append]
    by_cases hc : p c = true
    · rw [List.dropWhile_cons_of_pos hc] at h
      rw [List.takeWhile_cons_of_pos hc, List.takeWhile_cons_of_pos hc, ih h]
    · rw [List.takeWhile_cons_of_neg hc, List.takeWhile_cons_of_neg hc]

end Text

/-- No place at all. -/
def SourceLine.nowhere (_ : SourceLine) : SourceLine := ⟨0, ""⟩

/-- The physical lines of a source, numbered from one. -/
def SourceLine.numbered (lines : List String) : List SourceLine :=
  lines.mapIdx fun i raw => ⟨i + 1, raw⟩

namespace LogicalLine

open Text

/-- What the line behind a continued one adds to it: its text behind a space, if there is any. -/
def tail (next : String) : List Char :=
  if trim next.toList = [] then [] else ' ' :: trim next.toList

/-- The line that continues with `next`, where `head` is what is left of it without a marker. -/
def splice (head : List Char) (next : String) : String := .ofList (trimRight head ++ tail next)

/-- The line `raw` asks for the line `next`, and without its marker it is `head`. A comma stays. -/
inductive Asks (raw next : String) : List Char → Prop
  | comma (marked : (trimRight raw.toList).getLast? = some ',') (solid : ¬ IsPadding next) :
    Asks raw next raw.toList
  | backslash {head : List Char} (marked : trimRight raw.toList = head ++ ['\\'])
    (solid : isBlankText head = false) (noColon : (trim next.toList).getLast? ≠ some ':') :
    Asks raw next head

/-- The line `raw` behind the lines `before` is the first one of a logical line: it is not left out,
and no line waits for it. -/
structure Begins (before : List String) (raw : String) : Prop where
  solid : ¬ IsPadding raw
  fresh : ∀ done w, advance none (SourceLine.numbered before) ≠ .ok (done, some w)

theorem join_trim {text : List Char} (h : text ≠ []) (next : String) :
    join text (trim next.toList) = text ++ tail next := by
  unfold join tail
  by_cases hnext : trim next.toList = []
  · rw [if_pos hnext, hnext]
    simp
  · rw [if_neg hnext]
    simp [h, hnext]

/-- A comment begins within a text already, unless what follows begins with a slash. -/
theorem comment_of_append {text rest : List Char} (hne : text ≠ []) (hrest : rest.head? ≠ some '/')
    (h : ['/', '/'] <+: text ++ rest) : ['/', '/'] <+: text := by
  obtain ⟨c, cs, rfl⟩ := List.exists_cons_of_ne_nil hne
  rw [List.cons_append, List.cons_prefix_cons] at h
  obtain ⟨rfl, h⟩ := h
  cases cs with
  | nil =>
    obtain ⟨more, rfl⟩ := h
    exact absurd rfl hrest
  | cons d ds =>
    rw [List.cons_append, List.cons_prefix_cons] at h
    rw [List.cons_prefix_cons, List.cons_prefix_cons]
    exact ⟨rfl, h.1, List.nil_prefix⟩

section

variable {raw next : String} {head : List Char} (h : Asks raw next head) (hraw : ¬ IsPadding raw)

include h hraw

theorem Asks.trim_head_ne_nil : trim head ≠ [] := by
  cases h with
  | comma marked solid => exact fun hnil => hraw (.inl hnil)
  | backslash marked solid noColon =>
    intro hnil
    rw [trim_eq_nil_iff.mp hnil] at solid
    cases solid

theorem Asks.trimRight_head_ne_nil : trimRight head ≠ [] := by
  intro hnil
  apply h.trim_head_ne_nil hraw
  rw [trim_eq, hnil]
  rfl

/-- Behind its columns the line says something. -/
theorem Asks.body_ne_nil : (trimRight head).dropWhile (· = ' ') ≠ [] := by
  intro hnil
  apply h.trim_head_ne_nil hraw
  rw [← trim_trimRight, ← trim_dropWhile isBlank_of_space, hnil]
  rfl

/-- The line waits for the next one, and together they are what is spliced. -/
theorem Asks.resumed :
    ∃ rest marker, trimRight raw.toList = trimRight head ++ rest ∧
      ending ((trimRight head).dropWhile (· = ' ') ++ rest) = some marker ∧
      ∀ (first : SourceLine) (indent : Nat) (l : SourceLine), l.raw = next →
        resume? ⟨first, indent, (trimRight head).dropWhile (· = ' ') ++ rest, marker⟩ l =
          .ok (settle first indent ((trimRight head).dropWhile (· = ' ') ++ tail next)) := by
  have hbody := h.body_ne_nil hraw
  cases h with
  | comma marked solid =>
    refine ⟨[], .comma, (List.append_nil _).symm, ?_, ?_⟩
    · have hlast : ((trimRight raw.toList).dropWhile (· = ' ')).getLast? = some ',' := by
        rw [← marked, List.getLast?_eq_some_getLast hbody]
        exact (getLast?_of_suffix (List.dropWhile_suffix _)
          (List.getLast?_eq_some_getLast hbody)).symm
      rw [List.append_nil, ending, hlast]
      rfl
    · intro first indent l hl
      have hskip : ¬ l.isSkipped = true := by
        rw [isSkipped_iff, hl]
        exact solid
      have hchars : l.chars = next.toList := congrArg String.toList hl
      rw [List.append_nil, resume?]
      simp only
      rw [if_neg hskip, hchars, join_trim hbody]
  | backslash marked solid noColon =>
    obtain ⟨blanks, hhead⟩ := trimRight_isPrefix head
    refine ⟨blanks ++ ['\\'], .backslash, ?_, ?_, ?_⟩
    · rw [marked, ← List.append_assoc, hhead]
    · rw [← List.append_assoc, ending, List.getLast?_concat]
      rfl
    · intro first indent l hl
      have hchars : l.chars = next.toList := congrArg String.toList hl
      have hdrop : dropBackslash ((trimRight head).dropWhile (· = ' ') ++ (blanks ++ ['\\'])) =
          (trimRight head).dropWhile (· = ' ') := by
        rw [dropBackslash, ← List.append_assoc, List.dropLast_concat,
          ← dropWhile_append_of_ne_nil hbody, hhead, dropWhile_trimRight]
      rw [resume?]
      simp only
      rw [hchars, if_neg noColon, hdrop, join_trim hbody]

theorem Asks.trimRight_splice :
    trimRight (trimRight head ++ tail next) = trimRight head ++ tail next := by
  rw [← join_trim (h.trimRight_head_ne_nil hraw)]
  exact trimRight_join (trimRight_trimRight head) (trimRight_trim _)

/-- The spliced line is no more left out than the line itself. -/
theorem Asks.not_padding_splice : ¬ IsPadding (splice head next) := by
  obtain ⟨rest, -, hrest, -⟩ := h.resumed hraw
  have hne := h.trim_head_ne_nil hraw
  have htrim : ∀ more, trimLeft (trimRight head ++ more) = trim head ++ more := by
    intro more
    rw [trim_eq] at hne ⊢
    exact dropWhile_append_of_ne_nil hne more
  have hsplice : trim (splice head next).toList = trim head ++ tail next := by
    rw [splice, String.toList_ofList, trim_eq, h.trimRight_splice hraw, htrim]
  have hhead : (tail next).head? ≠ some '/' := by
    unfold tail
    split <;> simp
  rintro (hnil | hcomment)
  · rw [hsplice, List.append_eq_nil_iff] at hnil
    exact hne hnil.1
  · rw [hsplice] at hcomment
    refine hraw (.inr ?_)
    rw [trim_eq, hrest, htrim]
    exact (comment_of_append hne hhead hcomment).trans (List.prefix_append _ _)

/-- Both lines break off at the same tab, or the line waits for the next one and with that they have
come to the same. -/
theorem Asks.begun {l m : SourceLine} (hl : l.raw = raw) (hm : m.raw = splice head next)
    (hnote : (raw.toList.dropWhile (· = ' ')).head? ≠ some '@') :
    (∃ e e', begin? l = .error e ∧ begin? m = .error e' ∧ e'.cause = e.cause) ∨
      ∃ w, begin? l = .ok ([], some w) ∧ ∀ n : SourceLine, n.raw = next →
        blurring .nowhere (blurredResult .nowhere) (begin? m) =
          blurring .nowhere (blurredResult .nowhere) (resume? w n) := by
  obtain ⟨rest, marker, hrest, hending, hresume⟩ := h.resumed hraw
  have hbody := h.body_ne_nil hraw
  have htight := h.trimRight_splice hraw
  have hlchars : trimRight l.chars = trimRight head ++ rest := by
    rw [← hrest, ← hl]
    rfl
  have hmchars : trimRight m.chars = trimRight head ++ tail next := by
    rw [← htight, ← String.toList_ofList (l := trimRight head ++ tail next), ← splice, ← hm]
    rfl
  have hlskip : ¬ l.isSkipped = true := by rwa [isSkipped_iff, hl]
  have hmskip : ¬ m.isSkipped = true := by
    rw [isSkipped_iff, hm]
    exact h.not_padding_splice hraw
  have hat : ((trimRight head).dropWhile (· = ' ')).head? ≠ some '@' := by
    have hne : trimRight (raw.toList.dropWhile (· = ' ')) ≠ [] := by
      rw [← dropWhile_trimRight, hrest, dropWhile_append_of_ne_nil hbody]
      exact fun hnil => hbody (List.append_eq_nil_iff.mp hnil).1
    rwa [← head?_trimRight hne, ← dropWhile_trimRight, hrest, dropWhile_append_of_ne_nil hbody,
      List.head?_append_of_ne_nil _ hbody] at hnote
  have hbegin : ∀ (x : SourceLine) (more : List Char), ¬ x.isSkipped = true →
      trimRight x.chars = trimRight head ++ more →
      begin? x =
        if ((trimRight head).dropWhile (· = ' ')).head? = some '\t' then
          .error ⟨.tabIndentation, x.number, x.raw⟩
        else .ok (settle x ((trimRight head).takeWhile (· = ' ')).length
          ((trimRight head).dropWhile (· = ' ') ++ more)) := by
    intro x more hskip hchars
    rw [begin?_eq hskip, hchars, dropWhile_append_of_ne_nil hbody,
      takeWhile_append_of_ne_nil hbody, List.head?_append_of_ne_nil _ hbody, if_neg hat]
  rw [hbegin l rest hlskip hlchars, hbegin m (tail next) hmskip hmchars]
  split
  · exact .inl ⟨_, _, rfl, rfl, rfl⟩
  · refine .inr ⟨⟨l, ((trimRight head).takeWhile (· = ' ')).length,
      (trimRight head).dropWhile (· = ' ') ++ rest, marker⟩, ?_, fun n hn => ?_⟩
    · rw [settle, hending]
    · have hnowhere : SourceLine.nowhere m = SourceLine.nowhere l := rfl
      rw [hresume l _ n hn]
      exact congrArg Except.ok (settle_blurred hnowhere _ _)

/-- **Two lines that are folded, and the one line that they splice to.** -/
theorem blurring_spliced {l m n : SourceLine} {ls ls' : List SourceLine} (hl : l.raw = raw)
    (hn : n.raw = next) (hm : m.raw = splice head next)
    (hnote : (raw.toList.dropWhile (· = ' ')).head? ≠ some '@')
    (hls : ls'.map SourceLine.raw = ls.map SourceLine.raw) :
    blurring .nowhere (List.map (blurred .nowhere)) (foldFrom none (m :: ls')) =
      blurring .nowhere (List.map (blurred .nowhere)) (foldFrom none (l :: n :: ls)) := by
  rcases h.begun hraw hl hm hnote with ⟨e, e', hbegin, hbegin', hcause⟩ | ⟨w, hbegin, hresume⟩
  · have hstep : step none l = .error e := hbegin
    have hstep' : step none m = .error e' := hbegin'
    rw [foldFrom_cons, foldFrom_cons, hstep, hstep']
    exact congrArg (fun cause => Except.error (⟨cause, 0, ""⟩ : LexError)) hcause
  · have hwaits : step none l = .ok ([], some w) := hbegin
    rw [foldFrom_cons_of_nil hwaits]
    refine blurring_foldFrom_cons (hresume n hn) fun _ _ _ _ hnext => ?_
    exact blurring_foldFrom hnext (SourceLine.alike_of_raw_eq (fun _ _ _ => rfl) hls)

end

/-- The same behind other lines, none of which waits. -/
theorem blurring_ofSource {source source' raw next : String} {before after : List String}
    {head : List Char} (hlines : Text.lines source = before ++ raw :: next :: after)
    (hlines' : Text.lines source' = before ++ splice head next :: after)
    (hbegins : Begins before raw)
    (hnote : (raw.toList.dropWhile (· = ' ')).head? ≠ some '@') (hasks : Asks raw next head) :
    blurring .nowhere (List.map (blurred .nowhere)) (ofSource source') =
      blurring .nowhere (List.map (blurred .nowhere)) (ofSource source) := by
  unfold ofSource SourceLine.ofSource
  rw [hlines, hlines', List.mapIdx_append, List.mapIdx_append]
  apply blurring_foldFrom_append
  intro done state hbefore
  obtain rfl : state = none := by
    cases state with
    | none => rfl
    | some w => exact absurd hbefore (hbegins.fresh done w)
  rw [List.mapIdx_cons, List.mapIdx_cons, List.mapIdx_cons]
  apply blurring_spliced hasks hbegins.solid rfl rfl rfl hnote
  apply List.ext_getElem
  · simp
  · intro i hi hi'
    simp

end LogicalLine

namespace Lexer

open LogicalLine

/-- **A line and the one that it asks for lex as the one line that they splice to.** Both sources
fail for the same cause, or they have the same tokens but for the numbers of lines. -/
theorem tokenize_spliced {source source' raw next : String} {before after : List String}
    {head : List Char} (hlines : Text.lines source = before ++ raw :: next :: after)
    (hlines' : Text.lines source' = before ++ splice head next :: after)
    (hbegins : Begins before raw)
    (hnote : (raw.toList.dropWhile (· = ' ')).head? ≠ some '@') (hasks : Asks raw next head) :
    (∃ e e', tokenize source = .error e ∧ tokenize source' = .error e' ∧ e'.cause = e.cause) ∨
      ∃ s s', tokenize source = .ok s ∧ tokenize source' = .ok s' ∧
        s'.tokens.map (Token.onLine 0) = s.tokens.map (Token.onLine 0) := by
  have hsame := blurring_tokenize (blurring_ofSource hlines hlines' hbegins hnote hasks)
  rcases cases_of_blurring_eq hsame with ⟨e, e', he, he', hblurred⟩ | ⟨s, s', hs, hs', hblurred⟩
  · exact .inl ⟨e, e', he, he', (LexError.mk.inj hblurred).1⟩
  · exact .inr ⟨s, s', hs, hs', (Scanned.mk.inj hblurred).1⟩

/-- A backslash behind a comma, and then a comma with a blank line behind it. -/
theorem tokenize_spliced_header :
    Begins ["class A:", "    // c"] "    func f(a, \\" ∧
    Asks "    func f(a, \\" "  b," "    func f(a, ".toList ∧
    ∃ s s', tokenize "class A:\n    // c\n    func f(a, \\\n  b,\n\n    c):" = .ok s ∧
      tokenize "class A:\n    // c\n    func f(a, b,\n\n    c):" = .ok s' ∧
      s'.tokens.map (Token.onLine 0) = s.tokens.map (Token.onLine 0) := by
  have hbegins : Begins ["class A:", "    // c"] "    func f(a, \\" := by
    refine ⟨by decide +kernel, fun done w h => ?_⟩
    have hfresh : advance none (SourceLine.numbered ["class A:", "    // c"]) =
        .ok ([⟨1, 0, "class A:", "class A:"⟩], none) := by decide +kernel
    rw [hfresh] at h
    cases h
  have hasks : Asks "    func f(a, \\" "  b," "    func f(a, ".toList :=
    .backslash (by decide +kernel) (by decide +kernel) (by decide +kernel)
  have hlines : Text.lines "class A:\n    // c\n    func f(a, \\\n  b,\n\n    c):" =
      ["class A:", "    // c"] ++ "    func f(a, \\" :: "  b," :: ["", "    c):"] := by
    decide +kernel
  have hlines' : Text.lines "class A:\n    // c\n    func f(a, b,\n\n    c):" =
      ["class A:", "    // c"] ++ splice "    func f(a, ".toList "  b," :: ["", "    c):"] := by
    decide +kernel
  refine ⟨hbegins, hasks, ?_⟩
  rcases tokenize_spliced hlines hlines' hbegins (by decide +kernel) hasks with ⟨e, -, h, -⟩ | hok
  · have hlexes : (tokenize "class A:\n    // c\n    func f(a, \\\n  b,\n\n    c):").toOption.isSome =
        true := by decide +kernel
    rw [h] at hlexes
    cases hlexes
  · exact hok

end Lexer

end IntentCode
