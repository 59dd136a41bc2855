import IntentCode.Proofs.Ast.Canonical
import IntentCode.Proofs.Parser.Transfer

/-!
# Canonical bodies can be written

The names and texts of a canonical body have no marks in them that could be taken for the writer's, so
the body is legal (`legal_settled`). Put together, quiet pieces of text are quiet, and the
writer adds no others (`quiet_header`). So the body stays on its line and asks for no other one, and
so do its notes (`alone_of_notes`).
-/

set_option autoImplicit false

namespace IntentCode

/-! ## Quiet text -/

namespace LogicalLine

theorem ending_append_of_ne_nil {ds : List Char} (h : ds ≠ []) (cs : List Char) :
    ending (cs ++ ds) = ending ds := by
  unfold ending
  rw [List.getLast?_append, List.getLast?_eq_some_getLast h, Option.some_or]

/-- A text that neither ends its line nor asks for the next one. -/
structure Quiet (cs : List Char) : Prop where
  flat : '\n' ∉ cs
  ending : ending cs = none

namespace Quiet

variable {cs ds : List Char}

theorem nil : Quiet [] := ⟨List.not_mem_nil, rfl⟩

theorem append (hc : Quiet cs) (hd : Quiet ds) : Quiet (cs ++ ds) where
  flat := by
    rw [List.mem_append, not_or]
    exact ⟨hc.flat, hd.flat⟩
  ending := by
    by_cases h : ds = []
    · rw [h, List.append_nil]
      exact hc.ending
    · rw [ending_append_of_ne_nil h]
      exact hd.ending

/-- A text without commas and backslashes asks for no other line. -/
theorem of_notMem (hfeed : '\n' ∉ cs) (hcomma : ',' ∉ cs) (hslash : '\\' ∉ cs) : Quiet cs where
  flat := hfeed
  ending := by
    unfold LogicalLine.ending
    split
    · next h => exact absurd (List.mem_of_getLast? h) hslash
    · next h => exact absurd (List.mem_of_getLast? h) hcomma
    · rfl

theorem intercalate {sep : String} (hsep : Quiet sep.toList) {texts : List String}
    (h : ∀ t ∈ texts, Quiet t.toList) : Quiet (String.intercalate sep texts).toList := by
  induction texts with
  | nil => exact nil
  | cons t texts ih =>
    have ht := h t List.mem_cons_self
    have hmore := ih fun u hu => h u (List.mem_cons_of_mem _ hu)
    cases texts with
    | nil =>
      rw [String.intercalate_singleton]
      exact ht
    | cons u texts =>
      rw [String.intercalate_cons_cons, String.toList_append, String.toList_append]
      exact (ht.append hsep).append hmore

end Quiet

theorem quiet_keyword : ∀ word ∈ Token.keywords, Quiet word.toList := by
  have hwords : ∀ word ∈ Token.keywords, '\n' ∉ word.toList ∧ ending word.toList = none := by decide
  exact fun word hword => ⟨(hwords word hword).1, (hwords word hword).2⟩

end LogicalLine

namespace Ast

open Token LogicalLine

theorem IsPlain.quiet {text : String} (h : IsPlain text) : Quiet text.toList :=
  .of_notMem (h.notMem (by decide)) (h.notMem (by decide)) (h.notMem (by decide))

theorem IsReferenceName.quiet {name : String} (h : IsReferenceName name) :
    Quiet ("$" ++ name ++ "$").toList where
  flat := by
    have hname : '\n' ∉ name.toList := fun hc => h.unreserved _ hc (by simp)
    simpa using hname
  ending := by
    rw [String.toList_append, ending_append_of_ne_nil (by simp)]
    rfl

theorem IsBaseName.quiet {name : String} (h : IsBaseName name) : Quiet name.toList := by
  rcases h with h | ⟨ref, h, rfl⟩
  · exact h.quiet
  · exact h.quiet

/-! ## Texts -/

namespace Span

variable {spans : List Span}

theorem plain_tokens (h : ∀ s ∈ spans, s.Canonical) : ∀ t ∈ spans.map token, t.Plain := by
  intro t ht
  obtain ⟨s, hs, rfl⟩ := List.mem_map.mp ht
  exact plain_token (h s hs)

/-- Neither words nor references open or close anything. -/
theorem closes_tokens (spans : List Span) : Lexer.Closes 0 (spans.map token) := by
  induction spans with
  | nil => rfl
  | cons s spans ih => cases s <;> exact ih

theorem endsWithColon_tokens (spans : List Span) :
    Parser.endsWithColon (spans.map token) = false := by
  unfold Parser.endsWithColon
  rw [decide_eq_false_iff_not, List.getLast?_map, Option.map_map]
  intro h
  obtain ⟨s, -, hs⟩ := Option.map_eq_some_iff.mp h
  cases s <;> cases hs

theorem quiet_text {s : Span} (h : s.Canonical) : Quiet s.text.toList := by
  cases s with
  | words text => exact IsPlain.quiet h
  | reference name => exact IsReferenceName.quiet h

/-- Before the first reference there is no colon. -/
theorem colon_notMem (h : ∀ s ∈ spans, s.Canonical) :
    ':' ∉ (String.intercalate " " (spans.map text)).toList.takeWhile (· ≠ '$') := by
  induction spans with
  | nil => simp
  | cons s spans ih =>
    have hs := h s List.mem_cons_self
    have hmore := ih fun u hu => h u (List.mem_cons_of_mem _ hu)
    cases s with
    | reference name => cases spans <;> simp [text, String.intercalate_cons_cons]
    | words text =>
      have hcolon : ':' ∉ text.toList := IsPlain.notMem hs (by decide)
      have hwords : ∀ c ∈ text.toList, decide (c ≠ '$') = true := by
        intro c hc
        simpa using fun he : c = '$' => IsPlain.notMem hs (c := '$') (by decide) (he ▸ hc)
      cases spans with
      | nil =>
        rw [List.map_singleton, String.intercalate_singleton]
        exact fun hmem => hcolon (List.takeWhile_subset _ hmem)
      | cons u spans =>
        rw [List.map_cons] at hmore
        rw [List.map_cons, List.map_cons, String.intercalate_cons_cons, String.toList_append,
          String.toList_append, List.append_assoc, Span.text,
          List.takeWhile_append_of_pos hwords]
        simpa [hcolon] using hmore

end Span

section

variable {text : String} {refs : List String}

theorem OptionalText.exists_spans (h : OptionalText text refs) :
    ∃ spans : List Span, (∀ s ∈ spans, s.Canonical) ∧
      text = String.intercalate " " (spans.map Span.text) ∧
      refs = spans.filterMap Span.reference? := by
  rcases h with ⟨rfl, rfl⟩ | ⟨spans, -, hspans, htext, hrefs⟩
  · exact ⟨[], by simp, rfl, rfl⟩
  · exact ⟨spans, hspans, htext, hrefs⟩

/-- **A text has tokens that render to it**, and its references are theirs. -/
theorem OptionalText.exists_tokens (h : OptionalText text refs) :
    ∃ ts : List Token, (∀ t ∈ ts, t.Plain) ∧ Lexer.Closes 0 ts ∧
      Parser.endsWithColon ts = false ∧ render ts = text ∧ references ts = refs := by
  obtain ⟨spans, hspans, rfl, rfl⟩ := h.exists_spans
  exact ⟨spans.map Span.token, Span.plain_tokens hspans, Span.closes_tokens spans,
    Span.endsWithColon_tokens spans, Span.render_tokens hspans, Span.references_tokens spans⟩

theorem OptionalText.quiet (h : OptionalText text refs) : Quiet text.toList := by
  obtain ⟨spans, hspans, rfl, -⟩ := h.exists_spans
  have hspace : Quiet (" " : String).toList := ⟨by decide, rfl⟩
  apply hspace.intercalate
  intro t ht
  obtain ⟨s, hs, rfl⟩ := List.mem_map.mp ht
  exact Span.quiet_text (hspans s hs)

theorem FreeText.ne_empty (h : FreeText text refs) : text ≠ "" := by
  obtain ⟨spans, hne, hspans, rfl, -⟩ := h
  obtain ⟨s, spans, rfl⟩ := List.exists_cons_of_ne_nil hne
  have htokens := Span.plain_tokens hspans
  rw [← Span.render_tokens hspans]
  intro hempty
  have hnil := (Parser.render_eq_empty htokens).mp (String.isEmpty_iff.mpr hempty)
  cases hnil

theorem FreeText.exists_cons (h : FreeText text refs) : ∃ c cs, text.toList = c :: cs := by
  have hnil : text.toList ≠ [] := by simpa using h.ne_empty
  exact List.exists_cons_of_ne_nil hnil

/-- A free text can describe something. -/
theorem FreeText.isDescriptionLine (h : FreeText text refs) : IsDescriptionLine text := by
  have hoptional : OptionalText text refs := .inr h
  obtain ⟨ts, hplain, -, -, hrender, -⟩ := hoptional.exists_tokens
  exact ⟨h.ne_empty, hoptional.quiet.flat, hoptional.quiet.ending, ts, hplain, hrender.symm⟩

end

theorem CanonicalBody.settles {b : Body} (h : CanonicalBody b) : b.Settles := by
  rintro f rfl
  cases h with
  | funcDecl name notes params listed => exact listed

theorem CanonicalBody.notes {b : Body} (h : CanonicalBody b) :
    ∀ notes ∈ b.notes?, CanonicalNotes notes := by
  rintro notes hn
  cases h with
  | classDecl name own bases =>
    cases hn
    exact own
  | funcDecl name own params listed =>
    cases hn
    exact own
  | varDecl name own content =>
    cases hn
    exact own
  | root => cases hn
  | moduleImport path content => cases hn
  | step content => cases hn

end Ast

namespace Parser

open Ast Lexer Token LogicalLine

/-! ## Legal bodies -/

theorem isName_of_isPlainName {name : String} (h : IsPlainName name) : IsName name :=
  ⟨h.isWord, h.unbroken⟩

/-- Entries for the names and texts of a list. What is known of the references of each text is known
of those of its entry. -/
theorem exists_entries (allowRefs : Bool) (list : List (String × String))
    {R : String → List String → Prop}
    (h : ∀ p ∈ list, (∃ t : Token, t.Plain ∧ (t.kind = .identifier ∨ t.kind = .reference) ∧
      entryName? allowRefs t = .ok p.1) ∧ ∃ refs, OptionalText p.2 refs ∧ R p.1 refs) :
    ∃ es : List Entry, (es.map fun e => (e.name, render e.description)) = list ∧
      (∀ e ∈ es, e.Legal allowRefs) ∧ ∀ e ∈ es, R e.name (references e.description) := by
  induction list with
  | nil => exact ⟨[], rfl, by simp, by simp⟩
  | cons p list ih =>
    obtain ⟨es, hes, hlegal, hrefs⟩ := ih fun q hq => h q (List.mem_cons_of_mem _ hq)
    obtain ⟨hname, refs, htext, hown⟩ := h p List.mem_cons_self
    obtain ⟨ts, hplain, hcloses, -, hrender, rfl⟩ := htext.exists_tokens
    refine ⟨⟨p.1, ts⟩ :: es, by rw [List.map_cons, hes, hrender], ?_, ?_⟩
    · intro e he
      rcases List.mem_cons.mp he with rfl | he
      · exact ⟨hname, hplain, hcloses⟩
      · exact hlegal e he
    · intro e he
      rcases List.mem_cons.mp he with rfl | he
      · exact hown
      · exact hrefs e he

theorem exists_nameToken (allowRefs : Bool) {name : String} (h : IsPlainName name) :
    ∃ t : Token, t.Plain ∧ (t.kind = .identifier ∨ t.kind = .reference) ∧
      entryName? allowRefs t = .ok name :=
  ⟨⟨.identifier, name, 0⟩, h.isWord, .inl rfl, by simp [entryName?, h.unbroken]⟩

theorem exists_baseToken {name : String} (h : IsBaseName name) :
    ∃ t : Token, t.Plain ∧ (t.kind = .identifier ∨ t.kind = .reference) ∧
      entryName? true t = .ok name := by
  rcases h with h | ⟨ref, h, rfl⟩
  · exact exists_nameToken true h
  · refine ⟨⟨.reference, ref, 0⟩, h.isReference, .inr rfl, ?_⟩
    have hdisplay : display ⟨.reference, ref, 0⟩ = "$" ++ ref ++ "$" := by
      apply String.ext
      simp [display, chars]
    simp [entryName?, hdisplay]

section

variable {es : List Entry} {m : OrderedMap String}
  (hes : (es.map fun e => (e.name, render e.description)) = m.toList)

include hes

theorem nodup_of_entries : (es.map Entry.name).Nodup := by
  have hkeys := m.nodup_keys
  rw [← hes, List.map_map] at hkeys
  exact hkeys

theorem descriptions_of_entries : descriptions es = m := by
  apply OrderedMap.ext
  rw [toList_descriptions (nodup_of_entries hes), hes]

/-- The references of the entries are those of the parameters, in their order. -/
theorem firstReferences_of_entries {refs : OrderedMap String}
    (h : ∀ e ∈ es, refs.get? e.name = (references e.description).head?) :
    firstReferences es = refs.inOrderOf m := by
  have hlist : (es.filterMap fun e =>
      (references e.description).head?.map fun r => (e.name, r)) = (refs.inOrderOf m).toList := by
    show _ = m.toList.filterMap fun e => (refs.get? e.1).map fun v => (e.1, v)
    rw [← hes, List.filterMap_map]
    apply List.filterMap_congr
    intro e he
    show _ = (refs.get? e.name).map fun v => (e.name, v)
    rw [h e he]
  apply OrderedMap.ext
  unfold firstReferences
  rw [hlist, OrderedMap.toList_ofList (refs.inOrderOf m).nodup_keys]

end

/-- **Canonical bodies are legal.** -/
theorem legal_settled {b : Body} (h : CanonicalBody b) (hb : b ≠ .root) : Legal b.settled := by
  cases h with
  | root => exact absurd rfl hb
  | @moduleImport m path content =>
    obtain ⟨refs, htext⟩ := content
    obtain ⟨ts, hplain, -, -, hrender, -⟩ := htext.exists_tokens
    have hlegal := Legal.moduleImport (isName_of_isPlainName path) hplain
    rw [hrender] at hlegal
    exact hlegal
  | @varDecl v name notes content =>
    obtain ⟨ts, hplain, -, -, hrender, hrefs⟩ := content.exists_tokens
    have hlegal := Legal.varDecl v.notes (isName_of_isPlainName name) hplain
    rw [hrender, hrefs] at hlegal
    exact hlegal
  | @step s content =>
    have htext : OptionalText s.content s.refs := .inr content.free
    obtain ⟨ts, hplain, -, hcolon, hrender, hrefs⟩ := htext.exists_tokens
    have hne : ts ≠ [] := by
      rintro rfl
      exact content.free.ne_empty hrender.symm
    have hlegal := Legal.step s.opensBlock hplain fun _ => ⟨hne, hcolon⟩
    rw [hrender, hrefs] at hlegal
    exact hlegal
  | @classDecl c name notes bases =>
    obtain ⟨es, hes, hentries, -⟩ := exists_entries true c.bases.toList
      (R := fun _ _ => True) fun p hp => by
        obtain ⟨hname, refs, htext⟩ := bases p hp
        exact ⟨exists_baseToken hname, refs, htext, trivial⟩
    have hlegal := Legal.classDecl c.notes (isName_of_isPlainName name) (nodup_of_entries hes) hentries
    rw [descriptions_of_entries hes] at hlegal
    exact hlegal
  | @funcDecl f name notes params listed =>
    obtain ⟨es, hes, hentries, hrefs⟩ := exists_entries false f.params.toList
      (R := fun key refs => f.paramRefs.get? key = refs.head?)
      fun p hp => by
        obtain ⟨hname, hrest⟩ := params p hp
        exact ⟨exists_nameToken false hname, hrest⟩
    have hlegal := Legal.funcDecl f.notes (isName_of_isPlainName name) (nodup_of_entries hes) hentries
    rw [descriptions_of_entries hes, firstReferences_of_entries hes hrefs] at hlegal
    exact hlegal

/-! ## Quiet lines -/

theorem quiet_text {text : String} (h : Quiet text.toList) :
    Quiet (if text.isEmpty then [] else ':' :: ' ' :: text.toList) := by
  split
  · exact .nil
  · have hcolon : Quiet [':', ' '] := ⟨by decide, rfl⟩
    exact hcolon.append h

theorem quiet_withText {head text : String} (hhead : Quiet head.toList) (h : Quiet text.toList) :
    Quiet (Format.withText head text).toList := by
  rw [toList_withText]
  exact hhead.append (quiet_text h)

theorem quiet_entryList {entries : OrderedMap String}
    (h : ∀ e ∈ entries.toList, Quiet e.1.toList ∧ Quiet e.2.toList) :
    Quiet (Format.entryList entries).toList := by
  unfold Format.entryList
  split
  · exact .nil
  · have hopen : Quiet ("(" : String).toList := ⟨by decide, rfl⟩
    have hclose : Quiet (")" : String).toList := ⟨by decide, rfl⟩
    have hcomma : Quiet (", " : String).toList := ⟨by decide, rfl⟩
    rw [String.toList_append, String.toList_append]
    refine (hopen.append (hcomma.intercalate fun t ht => ?_)).append hclose
    obtain ⟨e, he, rfl⟩ := List.mem_map.mp ht
    exact quiet_withText (h e he).1 (h e he).2

theorem quiet_colon (colon : Bool) : Quiet (if colon then ":" else "" : String).toList := by
  cases colon <;> exact ⟨by decide, rfl⟩

/-- What follows a keyword. -/
theorem quiet_keywordLine {word : String} (hw : word ∈ keywords) {name : String}
    (hname : IsPlainName name) {rest : List Char} (h : Quiet rest) :
    Quiet (word.toList ++ ' ' :: (name.toList ++ rest)) := by
  have hspace : Quiet [' '] := ⟨by decide, rfl⟩
  exact (quiet_keyword word hw).append (hspace.append (hname.quiet.append h))

/-- **The line of a canonical body is quiet.** -/
theorem quiet_header {n : Node} (h : CanonicalBody n.body) : Quiet (Format.header n).toList := by
  generalize hbody : n.body = body at h
  cases h with
  | root =>
    unfold Format.header
    rw [hbody]
    exact .nil
  | moduleImport path content =>
    obtain ⟨refs, htext⟩ := content
    rw [header_module hbody]
    exact quiet_keywordLine (by decide) path (quiet_text htext.quiet)
  | varDecl name notes content =>
    rw [header_var hbody]
    exact quiet_keywordLine (by decide) name (quiet_text content.quiet)
  | step content =>
    have htext : OptionalText _ _ := .inr content.free
    rw [header_step hbody]
    exact htext.quiet.append (quiet_colon _)
  | @classDecl c name notes bases =>
    have hlist : ∀ e ∈ c.bases.toList, Quiet e.1.toList ∧ Quiet e.2.toList := by
      intro e he
      obtain ⟨hbase, refs, htext⟩ := bases e he
      exact ⟨hbase.quiet, htext.quiet⟩
    rw [header_class hbody]
    exact quiet_keywordLine (by decide) name ((quiet_entryList hlist).append (quiet_colon _))
  | @funcDecl f name notes params listed =>
    have hlist : ∀ e ∈ f.params.toList, Quiet e.1.toList ∧ Quiet e.2.toList := by
      intro e he
      obtain ⟨hparam, refs, htext, -⟩ := params e he
      exact ⟨hparam.quiet, htext.quiet⟩
    rw [header_func hbody]
    exact quiet_keywordLine (by decide) name ((quiet_entryList hlist).append (quiet_colon _))

/-! ## Lines that are no comments -/

theorem not_comment_of_head {c : Char} (h : c ≠ '/') (cs : List Char) :
    ['/', '/'].isPrefixOf (c :: cs) = false := by
  simp [List.isPrefixOf, h.symm]

/-- No keyword starts with a slash. -/
theorem not_comment_keyword {word : String} (hw : word ∈ keywords) (rest : List Char) :
    ['/', '/'].isPrefixOf (word.toList ++ rest) = false := by
  have hletters : ∀ w ∈ keywords, w.toList ≠ [] ∧ w.toList.head? ≠ some '/' := by decide
  obtain ⟨hnil, hslash⟩ := hletters word hw
  obtain ⟨c, cs, hword⟩ := List.exists_cons_of_ne_nil hnil
  rw [hword] at hslash ⊢
  exact not_comment_of_head (fun hc => hslash (congrArg some hc)) _

/-! ## Notes -/

theorem isBlankString_of_trimmed {text : String} (hne : text ≠ "") (h : Text.Trimmed text.toList) :
    Text.isBlankString text = false := by
  have hnil : text.toList ≠ [] := by simpa using hne
  obtain ⟨c, cs, htext⟩ := List.exists_cons_of_ne_nil hnil
  have hc : Text.isBlank c = false := h.head c (by rw [htext]; rfl)
  rw [Text.isBlankString, Text.isBlankText, htext, List.all_cons, hc, Bool.false_and]

theorem grownFrom_description {lines : List String} (h : ∀ l ∈ lines, IsDescriptionLine l) :
    GrownFrom .description lines (String.intercalate "\n" lines) where
  joined := rfl
  each := by
    intro l hl
    obtain ⟨hne, hflat, -, ts, hplain, rfl⟩ := h l hl
    exact ⟨⟨hflat, ts, hplain, rfl⟩, isBlankString_of_trimmed hne (trimmed_render hplain)⟩

theorem grownFrom_intent {lines : List String} (h : ∀ l ∈ lines, IsIntentLine l) :
    GrownFrom .intent lines (String.intercalate "\n" lines) where
  joined := rfl
  each := by
    intro l hl
    obtain ⟨hne, htrimmed, hflat⟩ := h l hl
    exact ⟨⟨hflat, htrimmed⟩, isBlankString_of_trimmed hne htrimmed⟩

theorem grown_of_canonicalNotes {notes : Notes} (h : CanonicalNotes notes) : Grown notes := by
  obtain ⟨⟨descriptions, hdescriptions, hd⟩, ⟨intents, hintents, hi⟩⟩ := h
  refine ⟨⟨descriptions, ?_⟩, ⟨intents, ?_⟩⟩
  · rw [hd]
    exact grownFrom_description hdescriptions
  · rw [hi]
    exact grownFrom_intent hintents

/-- The lines of canonical notes stand alone. -/
theorem alone_of_notes {n : Node} (h : CanonicalBody n.body) {level : Nat} {l : Format.Line}
    (hl : l ∈ Format.notesOf level n.body) : Alone l.text.toList := by
  unfold Format.notesOf at hl
  cases hnotes : n.body.notes? with
  | none =>
    rw [hnotes] at hl
    cases hl
  | some notes =>
    obtain ⟨⟨descriptions, hdescriptions, hd⟩, ⟨intents, hintents, hi⟩⟩ := h.notes notes hnotes
    simp only [hnotes] at hl
    rcases List.mem_append.mp hl with hl | hl
    · rw [hd, (grownFrom_description hdescriptions).noteLines_eq] at hl
      obtain ⟨text, htext, rfl⟩ := List.mem_map.mp hl
      have hline := hdescriptions text htext
      refine ⟨?_, .inr ?_⟩
      · rw [String.toList_append]
        exact not_comment_of_head (by decide) _
      rw [String.toList_append, ending_append_of_ne_nil (by simpa using hline.ne_empty)]
      exact hline.ending
    · rw [hi, (grownFrom_intent hintents).noteLines_eq] at hl
      obtain ⟨text, htext, rfl⟩ := List.mem_map.mp hl
      rw [String.toList_append]
      exact ⟨not_comment_of_head (by decide) _, .inl rfl⟩

/-- **Canonical bodies can be written.** -/
theorem writable_settled {b : Body} (h : CanonicalBody b) (hb : b ≠ .root) : Writable b.settled where
  legal := legal_settled h hb
  flat := by
    intro m hm
    obtain ⟨f, hbody⟩ := exists_mapNotes hm
    -- neither the notes nor the order of the references is on the line
    have hheader : Format.header m = Format.header { m with body := b } := by
      unfold Format.header
      rw [hbody]
      cases b <;> rfl
    rw [hheader]
    exact (quiet_header h).flat
  notes := by
    rw [Body.notes?_settled]
    exact fun notes hn => grown_of_canonicalNotes (h.notes notes hn)

end Parser

end IntentCode
