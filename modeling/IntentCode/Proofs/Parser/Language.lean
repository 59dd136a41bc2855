import IntentCode.Proofs.Parser.Rounds

/-!
# The language of token streams

Which token lists parse can be said without a parser, and without looking at anything but the kinds of
the tokens before the end of the file. They are lines with layout before each of them and after the last
(`LinesWord`), and nowhere have more levels been closed than opened (`StaysOpen`). What the lines say
does not matter, and blocks may be left open. Every other list that ends with the end of the file is
corrupted.

Both properties are about the whole list, while the automaton sees it token by token and stops at the
first thing that is out of place. In one direction the lines that it has accepted spell the list
(`accepted_of_linesFrom`). In the other a word is gone through line by line: the layout of a line is a
move that the open levels allow, since what has been read up to there is a prefix of the whole.
-/

set_option autoImplicit false

namespace IntentCode.Parser

/-! ## The language -/

/-- The layout before a line. -/
inductive LayoutWord : List Token.Kind → Prop
  | none : LayoutWord []
  | indent : LayoutWord [.indent]
  | dedents (more : Nat) : LayoutWord (List.replicate (more + 1) .dedent)

/-- Lines, and the layout after the last of them. -/
inductive LinesWord : List Token.Kind → Prop
  | done {layout : List Token.Kind} (word : LayoutWord layout) : LinesWord layout
  | line {layout content rest : List Token.Kind} (word : LayoutWord layout)
    (plain : ∀ k ∈ content, k.isLayout = false) (more : LinesWord rest) :
    LinesWord (layout ++ content ++ .newline :: rest)

/-- With some levels open at first, nowhere are more of them closed than are open. -/
def StaysOpen (level : Nat) (ks : List Token.Kind) : Prop :=
  ∀ p, p <+: ks → p.count .dedent ≤ level + p.count .indent

/-- A word of the language. -/
def WellLaid (ks : List Token.Kind) : Prop := LinesWord ks ∧ StaysOpen 0 ks

theorem staysOpen_append {level next : Nat} {ks ls : List Token.Kind}
    (h : next + ks.count .dedent = level + ks.count .indent) :
    StaysOpen level (ks ++ ls) ↔ StaysOpen level ks ∧ StaysOpen next ls := by
  constructor
  · intro hopen
    refine ⟨fun p hp => hopen p (hp.trans (List.prefix_append ks ls)), fun p hp => ?_⟩
    have hall := hopen (ks ++ p) ((List.prefix_append_right_inj ks).mpr hp)
    rw [List.count_append, List.count_append] at hall
    omega
  · rintro ⟨hks, hls⟩ p hp
    rcases List.prefix_or_prefix_of_prefix hp (List.prefix_append ks ls) with hp' | ⟨q, rfl⟩
    · exact hks p hp'
    · have hq := hls q ((List.prefix_append_right_inj ks).mp hp)
      rw [List.count_append, List.count_append]
      omega

/-- Kinds that open and close nothing. -/
theorem staysOpen_of_notMem {level : Nat} {ks : List Token.Kind} (h : .dedent ∉ ks) :
    StaysOpen level ks := by
  intro p hp
  rw [List.count_eq_zero.mpr fun hmem => h (hp.subset hmem)]
  exact Nat.zero_le _

/-- The content of a line opens and closes nothing, and neither does its end. -/
theorem staysOpen_content {level : Nat} {content rest : List Token.Kind}
    (h : ∀ k ∈ content, k.isLayout = false) :
    StaysOpen level (content ++ .newline :: rest) ↔ StaysOpen level rest := by
  have hno : ∀ kind : Token.Kind, kind.isLayout = true → kind ≠ .newline →
      kind ∉ content ++ [.newline] := by
    intro kind hlayout hne hmem
    rcases List.mem_append.mp hmem with hmem | hmem
    · rw [h kind hmem] at hlayout
      cases hlayout
    · exact hne (List.mem_singleton.mp hmem)
  have hdedent : .dedent ∉ content ++ [.newline] := hno .dedent rfl (by simp)
  have hindent : .indent ∉ content ++ [.newline] := hno .indent rfl (by simp)
  have hcount : level + (content ++ [Token.Kind.newline]).count .dedent =
      level + (content ++ [Token.Kind.newline]).count .indent := by
    rw [List.count_eq_zero.mpr hdedent, List.count_eq_zero.mpr hindent]
  rw [← List.singleton_append, ← List.append_assoc, staysOpen_append hcount]
  exact and_iff_right (staysOpen_of_notMem hdedent)

/-! ## What the automaton accepts -/

theorem layoutWord_kinds (m : Move) : LayoutWord m.kinds := by
  cases m with
  | deeper line => exact .indent
  | back levels =>
    cases levels with
    | zero => exact .none
    | succ levels => exact .dedents levels

theorem target_kinds {level : Nat} {m : Move} (h : m.Fits level) :
    m.target level + m.kinds.count .dedent = level + m.kinds.count .indent := by
  cases m with
  | deeper line => rfl
  | back levels =>
    have hfits : levels ≤ level := h
    have hindent : (List.replicate levels Token.Kind.dedent).count .indent = 0 := by
      rw [List.count_replicate]
      rfl
    simp only [Move.kinds, Move.target, hindent, List.count_replicate_self]
    omega

theorem staysOpen_kinds {level : Nat} {m : Move} : StaysOpen level m.kinds ↔ m.Fits level := by
  cases m with
  | deeper line => exact ⟨fun _ => trivial, fun _ => staysOpen_of_notMem (by simp [Move.kinds])⟩
  | back levels =>
    constructor
    · intro h
      have hall := h _ List.prefix_rfl
      show levels ≤ level
      simpa [Move.kinds, List.count_replicate] using hall
    · intro h p hp
      have hcount := hp.sublist.count_le .dedent
      rw [Move.kinds, List.count_replicate_self] at hcount
      exact Nat.le_add_right_of_le (Nat.le_trans hcount h)

namespace Stream

theorem linesWord_of_plain {trailing : Move} {ls : List Line}
    (h : ∀ l ∈ ls, ∀ k ∈ l.tokens.map Token.kind, k.isLayout = false) :
    LinesWord (ls.flatMap Line.kinds ++ trailing.kinds) := by
  induction ls with
  | nil => exact .done (layoutWord_kinds trailing)
  | cons l ls ih =>
    have hl := h l List.mem_cons_self
    have hrest := ih fun m hm => h m (List.mem_cons_of_mem _ hm)
    simpa [Line.kinds] using LinesWord.line (layoutWord_kinds l.move) hl hrest

theorem staysOpen_of_fits {trailing : Move} {level : Nat} {ls : List Line}
    (hplain : ∀ l ∈ ls, ∀ k ∈ l.tokens.map Token.kind, k.isLayout = false) (h : Fits level ls)
    (htrailing : trailing.Fits (levelAfter level ls)) :
    StaysOpen level (ls.flatMap Line.kinds ++ trailing.kinds) := by
  induction ls generalizing level with
  | nil => exact staysOpen_kinds.mpr htrailing
  | cons l ls ih =>
    obtain ⟨hfits, hrest⟩ := h
    have hmore := ih (fun m hm => hplain m (List.mem_cons_of_mem _ hm)) hrest htrailing
    rw [List.flatMap_cons, Line.kinds, List.append_assoc, List.append_assoc, List.append_assoc,
      staysOpen_append (target_kinds hfits), List.singleton_append,
      staysOpen_content (hplain l List.mem_cons_self)]
    exact ⟨staysOpen_kinds.mpr hfits, hmore⟩

/-! ## What the language contains -/

/-- The layout of a word is a move. -/
theorem exists_move {layout : List Token.Kind} (h : LayoutWord layout) {depth : Nat}
    (hopen : StaysOpen depth layout) {us : List Token} (hus : us.map Token.kind = layout) :
    ∃ move next, next + layout.count .dedent = depth + layout.count .indent ∧
      ∀ ts, linesFrom depth (.layout (.back 0)) (us ++ ts) = linesFrom next (.layout move) ts := by
  cases h with
  | none =>
    obtain rfl := List.map_eq_nil_iff.mp hus
    exact ⟨.back 0, depth, rfl, fun ts => rfl⟩
  | indent =>
    obtain ⟨t, us, rfl, hk, hnil⟩ := List.map_eq_cons_iff.mp hus
    obtain rfl := List.map_eq_nil_iff.mp hnil
    exact ⟨.deeper t.line, depth + 1, rfl, fun ts => by simp [linesFrom, hk]⟩
  | dedents more =>
    have hlength : us.length = more + 1 := by simpa using congrArg List.length hus
    have hkinds : ∀ t ∈ us, t.kind = .dedent := by
      intro t ht
      have hmem : t.kind ∈ us.map Token.kind := List.mem_map_of_mem ht
      rw [hus] at hmem
      exact List.eq_of_mem_replicate hmem
    have hle : more + 1 ≤ depth := by
      have hall := hopen _ List.prefix_rfl
      simpa [List.count_replicate] using hall
    refine ⟨.back us.length, depth - us.length, ?_, fun ts => ?_⟩
    · simp [List.count_replicate]
      omega
    · have hback := linesFrom_dedents hkinds (depth - us.length) 0 ts
      rw [Nat.sub_add_cancel (hlength ▸ hle), Nat.zero_add] at hback
      exact hback

theorem linesFrom_ended {depth : Nat} {move : Move} {rest : List Token}
    (h : ∀ t ∈ rest.head?, t.kind = .endOfFile) :
    linesFrom depth (.layout move) rest = .ok ⟨[], move⟩ := by
  cases rest with
  | nil => rfl
  | cons t rest => simp [linesFrom, h t rfl]

theorem exists_linesFrom {ks : List Token.Kind} (h : LinesWord ks) {depth : Nat}
    (hopen : StaysOpen depth ks) {ts rest : List Token} (hts : ts.map Token.kind = ks)
    (hrest : ∀ t ∈ rest.head?, t.kind = .endOfFile) :
    ∃ s, linesFrom depth (.layout (.back 0)) (ts ++ rest) = .ok s := by
  induction h generalizing depth ts with
  | done word =>
    obtain ⟨move, next, -, hmove⟩ := exists_move word hopen hts
    exact ⟨_, (hmove rest).trans (linesFrom_ended hrest)⟩
  | @line layout content more word plain _ ih =>
    obtain ⟨front, back, rfl, hfront, hback⟩ := List.map_eq_append_iff.mp hts
    obtain ⟨us, line, rfl, hus, hline⟩ := List.map_eq_append_iff.mp hfront
    obtain ⟨t, after, rfl, ht, hafter⟩ := List.map_eq_cons_iff.mp hback
    have hplain : ∀ t ∈ line, t.kind.isLayout = false := by
      intro u hu
      exact plain _ (hline ▸ List.mem_map_of_mem hu)
    have hlayout : StaysOpen depth layout :=
      fun p hp => hopen p (hp.trans (List.append_assoc .. ▸ List.prefix_append ..))
    obtain ⟨move, next, hnext, hmove⟩ := exists_move word hlayout hus
    have hmore : StaysOpen next more := by
      rw [List.append_assoc, staysOpen_append hnext, staysOpen_content plain] at hopen
      exact hopen.2
    obtain ⟨s, hs⟩ := ih hmore hafter
    refine ⟨cons ⟨move, line⟩ s, ?_⟩
    rw [List.append_assoc, List.append_assoc, hmove, List.cons_append, linesFrom_line hplain ht, hs]
    rfl

theorem wellLaid_of_linesFrom {ts : List Token} {s : Stream}
    (h : linesFrom 0 (.layout (.back 0)) ts = .ok s) :
    WellLaid ((upToEnd ts).map Token.kind) := by
  have haccepted : Accepted 0 (.layout (.back 0)) ts s :=
    accepted_of_linesFrom h (Nat.zero_le _) rfl
  have hkinds : (upToEnd ts).map Token.kind = s.lines.flatMap Line.kinds ++ s.trailing.kinds :=
    haccepted.kinds
  have hcontent : (upToEnd ts).filter (fun t => !t.kind.isLayout) = s.lines.flatMap Line.tokens :=
    haccepted.content
  have hplain : ∀ l ∈ s.lines, ∀ k ∈ l.tokens.map Token.kind, k.isLayout = false := by
    intro l hl k hk
    obtain ⟨t, ht, rfl⟩ := List.mem_map.mp hk
    have hmem : t ∈ s.lines.flatMap Line.tokens := List.mem_flatMap.mpr ⟨l, hl, ht⟩
    rw [← hcontent] at hmem
    simpa using (List.mem_filter.mp hmem).2
  rw [hkinds]
  exact ⟨linesWord_of_plain hplain, staysOpen_of_fits hplain haccepted.fits haccepted.trailing⟩

/-- The automaton accepts the language. -/
theorem linesFrom_eq_ok_iff {ts : List Token} :
    (∃ s, linesFrom 0 (.layout (.back 0)) ts = .ok s) ↔
      WellLaid ((upToEnd ts).map Token.kind) := by
  constructor
  · rintro ⟨s, hs⟩
    exact wellLaid_of_linesFrom hs
  · rintro ⟨hlines, hopen⟩
    have hrest : ∀ t ∈ (ts.dropWhile fun t => t.kind ≠ .endOfFile).head?, t.kind = .endOfFile := by
      intro t ht
      have hhead := List.head?_dropWhile_not (fun t : Token => decide (t.kind ≠ .endOfFile)) ts
      rw [Option.mem_def.mp ht] at hhead
      simpa using hhead
    obtain ⟨s, hs⟩ := exists_linesFrom hlines hopen rfl hrest
    exact ⟨s, (congrArg _ List.takeWhile_append_dropWhile.symm).trans hs⟩

theorem linesFrom_ne_missingEnd {depth : Nat} {phase : Phase} {ts : List Token} :
    linesFrom depth phase ts ≠ .error .missingEnd := by
  have hmap : ∀ {x : Except ParseError Stream} {f : Stream → Stream}, x ≠ .error .missingEnd →
      x.map f ≠ .error .missingEnd := by
    intro x f hx h
    cases x with
    | error e => exact hx (congrArg _ (Except.error.inj h))
    | ok s => cases h
  fun_induction linesFrom depth phase ts <;> simp_all

end Stream

/-! ## The language of the parser -/

/-- The last token is the end of the file. -/
def Ends (ts : List Token) : Prop := ∃ before last, ts = before ++ [last] ∧ last.kind = .endOfFile

theorem ends_iff {ts : List Token} : Ends ts ↔ ts.getLast?.map Token.kind = some .endOfFile := by
  constructor
  · rintro ⟨before, last, rfl, hlast⟩
    simp [hlast]
  · intro h
    obtain ⟨last, hlast, hkind⟩ := Option.map_eq_some_iff.mp h
    obtain ⟨before, rfl⟩ := List.getLast?_eq_some_iff.mp hlast
    exact ⟨before, last, rfl, hkind⟩

theorem not_ends_iff {ts : List Token} :
    ¬ Ends ts ↔ ts = [] ∨ ∃ before last, ts = before ++ [last] ∧ last.kind ≠ .endOfFile := by
  constructor
  · intro h
    rcases List.eq_nil_or_concat ts with rfl | ⟨before, last, rfl⟩
    · exact .inl rfl
    · rw [List.concat_eq_append] at h ⊢
      exact .inr ⟨before, last, rfl, fun hlast => h ⟨before, last, rfl, hlast⟩⟩
  · rintro (rfl | ⟨before, last, rfl, hlast⟩)
    · simp [ends_iff]
    · simp [ends_iff, hlast]

theorem parse_of_ends {ts : List Token} (h : Ends ts) :
    parse ts = (Stream.linesFrom 0 (.layout (.back 0)) ts).map ofStream := by
  rw [parse_eq, Stream.ofTokens, if_pos (ends_iff.mp h)]

theorem parse_of_not_ends {ts : List Token} (h : ¬ Ends ts) : parse ts = .error .missingEnd := by
  rw [parse, if_neg fun hends => h (ends_iff.mpr hends)]

theorem exists_parse_iff (ts : List Token) :
    (∃ parsed, parse ts = .ok parsed) ↔
      Ends ts ∧ WellLaid ((Stream.upToEnd ts).map Token.kind) := by
  by_cases h : Ends ts
  · rw [← Stream.linesFrom_eq_ok_iff, parse_of_ends h]
    cases Stream.linesFrom 0 (.layout (.back 0)) ts with
    | ok s => simp [Except.map, h]
    | error e => simp [Except.map]
  · simp [parse_of_not_ends h, h]

theorem parse_eq_missingEnd_iff (ts : List Token) :
    parse ts = .error .missingEnd ↔ ¬ Ends ts := by
  constructor
  · intro hparse hends
    have hne : Stream.linesFrom 0 (.layout (.back 0)) ts ≠ .error .missingEnd :=
      Stream.linesFrom_ne_missingEnd
    rw [parse_of_ends hends] at hparse
    cases hs : Stream.linesFrom 0 (.layout (.back 0)) ts with
    | ok s =>
      rw [hs] at hparse
      cases hparse
    | error e =>
      rw [hs] at hparse hne
      exact hne (congrArg _ (Except.error.inj hparse))
  · exact parse_of_not_ends

/-- What is not accepted is refused, for its end or as corrupted. -/
theorem corrupted_iff (ts : List Token) :
    (∃ e, parse ts = .error e ∧ e ≠ .missingEnd) ↔
      Ends ts ∧ ¬ WellLaid ((Stream.upToEnd ts).map Token.kind) := by
  have haccepted := exists_parse_iff ts
  have hmissing := parse_eq_missingEnd_iff ts
  cases hparse : parse ts with
  | ok parsed =>
    rw [hparse] at haccepted
    have hlaid := (haccepted.mp ⟨parsed, rfl⟩).2
    simp [hlaid]
  | error e =>
    rw [hparse] at haccepted hmissing
    have hnot : ¬ (Ends ts ∧ WellLaid ((Stream.upToEnd ts).map Token.kind)) := by
      simp [← haccepted]
    constructor
    · rintro ⟨e', he, hne⟩
      cases he
      have hends : Ends ts := Classical.not_not.mp fun h => hne (Except.error.inj (hmissing.mpr h))
      exact ⟨hends, fun h => hnot ⟨hends, h⟩⟩
    · rintro ⟨hends, -⟩
      exact ⟨e, rfl, fun he => hmissing.mp (congrArg _ he) hends⟩

/-- **Parsing accepts exactly the language of token streams.** A list that does not end with the end of
the file is refused for that and for nothing else. Of the others the kinds of the tokens before the
first end of the file decide: the list parses if they are a word of the language, and is corrupted if
they are not. Between two rounds of the run the scopes below the top level and the skipped levels are
together as many as the `indent` tokens behind them less the `dedent` tokens. The run ends on every list,
within one round more than there are tokens, and what it ends with is what parsing comes to. -/
theorem parse_language (ts : List Token) :
    (parse ts = .error .missingEnd ↔
      ts = [] ∨ ∃ before last, ts = before ++ [last] ∧ last.kind ≠ .endOfFile) ∧
    ((∃ parsed, parse ts = .ok parsed) ↔
      Ends ts ∧ WellLaid ((Stream.upToEnd ts).map Token.kind)) ∧
    ((∃ e, parse ts = .error e ∧ e ≠ .missingEnd) ↔
      Ends ts ∧ ¬ WellLaid ((Stream.upToEnd ts).map Token.kind)) ∧
    (∀ count s c, State.Reaches ts count s c → ∃ read, ts = read ++ c.rest ∧
      s.outer.length + s.skipped + (read.map Token.kind).count .dedent =
        (read.map Token.kind).count .indent) ∧
    ∀ count, ts.length < count → ∃ result, State.initial.rounds ⟨ts⟩ count = some result ∧
      (Ends ts → parse ts = result.map State.parsed) := by
  refine ⟨(parse_eq_missingEnd_iff ts).trans not_ends_iff, exists_parse_iff ts, corrupted_iff ts, ?_, ?_⟩
  · intro count s c hreached
    obtain ⟨read, hrest, hlevels⟩ := hreached.spans
    exact ⟨read, hrest, hlevels.trans (Nat.zero_add _)⟩
  · intro count hcount
    exact ⟨_, State.rounds_eq_some hcount, fun hends => by rw [parse, if_pos (ends_iff.mp hends)]⟩

end IntentCode.Parser
