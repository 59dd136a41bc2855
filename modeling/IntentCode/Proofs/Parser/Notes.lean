import IntentCode.Proofs.Format.Source
import IntentCode.Proofs.Parser.Tally

/-!
# Notes that have been written

A note grows a line at a time, and each line of it has been read from a line of the source. So what
a note holds can be written again on lines of its own (`lines_join`), and read as the same lines
(`reads_note`). The text of a note line is trimmed, and so is that of a declaration: what is
written never begins or ends with a blank (`solid_header`).
-/

set_option autoImplicit false

namespace IntentCode

/-! ## Text that ends with no blank -/

namespace Text

theorem last_append {cs ds : List Char} (hc : ∀ c ∈ cs.getLast?, isBlank c = false)
    (hd : ∀ c ∈ ds.getLast?, isBlank c = false) : ∀ c ∈ (cs ++ ds).getLast?, isBlank c = false := by
  intro c hcd
  rw [List.getLast?_append] at hcd
  cases hl : ds.getLast? with
  | some d =>
    rw [hl] at hcd
    exact hd c (hl ▸ hcd)
  | none =>
    rw [hl] at hcd
    exact hc c hcd

/-- The line feeds between solid lines are the only ones. -/
theorem lines_join {texts : List String} (h : ∀ t ∈ texts, Solid t.toList) :
    lines (String.intercalate "\n" texts) = texts := by
  have hcontent : ∀ t ∈ texts, content (t.toList ++ ['\n']) = t.toList := by
    intro t ht
    refine content_append (h t ht).unbroken ?_
    obtain ⟨c, hc, hblank⟩ := (h t ht).last
    rw [hc]
    rintro hcr
    cases hcr
    exact absurd hblank (by decide)
  unfold lines
  induction texts with
  | nil => rfl
  | cons t texts ih =>
    have ht := h t List.mem_cons_self
    have hrest := ih (fun u hu => h u (List.mem_cons_of_mem _ hu)) fun u hu =>
      hcontent u (List.mem_cons_of_mem _ hu)
    cases texts with
    | nil => simp [breakLines_unended ⟨ht.ne_nil, ht.unbroken⟩]
    | cons u texts =>
      have hfeed : ("\n" : String).toList = ['\n'] := rfl
      rw [String.intercalate_cons_cons, String.toList_append, String.toList_append, hfeed,
        List.append_assoc, List.singleton_append, breakLines_ended ht.unbroken,
        hcontent t List.mem_cons_self, List.map_cons, hrest, String.ofList_toList]

end Text

namespace Parser

open Ast Lexer Token Text

/-! ## Rendered tokens -/

theorem trimmed_chars {t : Token} (h : t.Plain) : Trimmed t.chars := by
  rcases chars_cases h with ⟨-, hchars, hword⟩ | ⟨-, hchars, -⟩ | ⟨c, hc, hchars, -⟩
  · rw [hchars]
    exact hword.trimmed
  · rw [hchars]
    have hdollar : isBlank '$' = false := by decide
    refine ⟨by simp [hdollar], ?_⟩
    rw [← List.cons_append, List.getLast?_concat]
    simp [hdollar]
  · rw [hchars]
    have hblank : isBlank c = false := by
      rcases kind_of_markOf? hc with ⟨rfl, -⟩ | ⟨rfl, -⟩ | ⟨rfl, -⟩ | ⟨rfl, -⟩ <;> decide
    exact ⟨by simp [hblank], by simp [hblank]⟩

theorem last_charsAfter {ts : List Token} (h : ∀ t ∈ ts, t.Plain) (previous : Kind) :
    ∀ c ∈ (charsAfter previous ts).getLast?, isBlank c = false := by
  induction ts generalizing previous with
  | nil => simp [charsAfter]
  | cons t ts ih =>
    have ht := h t List.mem_cons_self
    rw [charsAfter]
    refine last_append ?_ (ih (fun u hu => h u (List.mem_cons_of_mem _ hu)) t.kind)
    intro c hc
    rw [List.getLast?_append, List.getLast?_eq_some_getLast (chars_ne_nil ht), Option.some_or,
      ← List.getLast?_eq_some_getLast (chars_ne_nil ht)] at hc
    exact (trimmed_chars ht).last c hc

theorem trimmed_render {ts : List Token} (h : ∀ t ∈ ts, t.Plain) : Trimmed (render ts).toList := by
  rw [render_of_plain h, String.toList_ofList]
  refine ⟨?_, last_charsAfter h _⟩
  cases ts with
  | nil => simp [charsAfter]
  | cons t ts =>
    have ht := h t List.mem_cons_self
    intro c hc
    simp only [charsAfter, bne_self_eq_false, Bool.and_false, Bool.false_eq_true, if_false,
      List.nil_append] at hc
    rw [List.head?_append, List.head?_eq_some_head (chars_ne_nil ht), Option.some_or,
      ← List.head?_eq_some_head (chars_ne_nil ht)] at hc
    exact (trimmed_chars ht).head c hc

/-! ## Declarations -/

theorem last_text {text : String} (h : Trimmed text.toList) :
    ∀ c ∈ (if text.isEmpty then [] else ':' :: ' ' :: text.toList : List Char).getLast?,
      isBlank c = false := by
  split
  · simp
  · next hne =>
    have hne : text.toList ≠ [] := fun hnil => hne (by simpa using hnil)
    rw [List.getLast?_cons_of_ne_nil (by simp), List.getLast?_cons_of_ne_nil hne]
    exact h.last

theorem last_colon (b : Bool) :
    ∀ c ∈ (if b then ":" else "" : String).toList.getLast?, isBlank c = false := by
  intro c hc
  cases b with
  | false => cases hc
  | true =>
    cases hc
    decide

theorem last_entryList (entries : OrderedMap String) :
    ∀ c ∈ (Format.entryList entries).toList.getLast?, isBlank c = false := by
  unfold Format.entryList
  split
  · simp
  · intro c hc
    rw [String.toList_append, List.getLast?_append] at hc
    cases hc
    decide

theorem last_name {name : String} (h : IsName name) :
    ∀ c ∈ (' ' :: name.toList).getLast?, isBlank c = false := by
  rw [List.getLast?_cons_of_ne_nil h.word.ne_nil]
  exact h.word.trimmed.last

/-- A line that starts with a keyword. -/
theorem trimmed_keyword {word : String} (hw : word ∈ keywords) {rest : List Char}
    (hrest : ∀ c ∈ (' ' :: rest).getLast?, isBlank c = false) :
    word.toList ++ ' ' :: rest ≠ [] ∧ Trimmed (word.toList ++ ' ' :: rest) := by
  have hletters : ∀ word ∈ keywords, word.toList.head?.map isBlank = some false := by decide
  refine ⟨by simp, ?_, ?_⟩
  · intro c hc
    obtain ⟨d, hd, hblank⟩ := Option.map_eq_some_iff.mp (hletters word hw)
    rw [List.head?_append, hd] at hc
    cases hc
    exact hblank
  · rw [List.getLast?_append, List.getLast?_eq_some_getLast (by simp), Option.some_or,
      ← List.getLast?_eq_some_getLast (by simp)]
    exact hrest

/-- A step, with the colon of its block. -/
theorem trimmed_step {ts : List Token} (hts : ∀ t ∈ ts, t.Plain) {opens : Bool}
    (ends : opens = false → ts ≠ []) :
    (render ts).toList ++ (if opens then ":" else "" : String).toList ≠ [] ∧
      Trimmed ((render ts).toList ++ (if opens then ":" else "" : String).toList) := by
  have htrimmed := trimmed_render hts
  cases opens with
  | true =>
    have hcolon : isBlank ':' = false := by decide
    refine ⟨by simp, ?_, last_append htrimmed.last (last_colon true)⟩
    intro c hc
    cases hcontent : (render ts).toList with
    | nil =>
      simp only [hcontent] at hc
      cases hc
      exact hcolon
    | cons d ds =>
      simp only [hcontent, List.cons_append, List.head?_cons] at hc
      exact htrimmed.head c (by rw [hcontent]; exact hc)
  | false =>
    have hne : render ts ≠ "" := fun he =>
      ends rfl ((render_eq_empty hts).mp (String.isEmpty_iff.mpr he))
    simpa [hne] using htrimmed

/-- **What is written for a declaration begins and ends with no blank.** -/
theorem trimmed_header {n : Node} (h : Legal n.body) :
    (Format.header n).toList ≠ [] ∧ Trimmed (Format.header n).toList := by
  generalize hbody : n.body = body at h
  cases h with
  | moduleImport name plain =>
    rw [header_module hbody]
    refine trimmed_keyword (by decide) ?_
    rw [← List.cons_append]
    exact last_append (last_name name) (last_text (trimmed_render plain))
  | varDecl notes name plain =>
    rw [header_var hbody]
    refine trimmed_keyword (by decide) ?_
    rw [← List.cons_append]
    exact last_append (last_name name) (last_text (trimmed_render plain))
  | classDecl notes name names entries =>
    rw [header_class hbody]
    refine trimmed_keyword (by decide) ?_
    rw [← List.cons_append]
    exact last_append (last_name name) (last_append (last_entryList _) (last_colon _))
  | funcDecl notes name names entries =>
    rw [header_func hbody]
    refine trimmed_keyword (by decide) ?_
    rw [← List.cons_append]
    exact last_append (last_name name) (last_append (last_entryList _) (last_colon _))
  | step opens plain ends =>
    rw [header_step hbody]
    exact trimmed_step plain fun hopens => (ends hopens).1

theorem solid_header {n : Node} (h : Legal n.body) (hflat : '\n' ∉ (Format.header n).toList) :
    Solid (Format.header n).toList :=
  ⟨(trimmed_header h).1, (trimmed_header h).2, hflat⟩

/-! ## Notes -/

/-- The text of a note line, as it has been read. -/
def IsNote (kind : NoteKind) (text : String) : Prop :=
  '\n' ∉ text.toList ∧
    match kind with
    | .description => ∃ ts : List Token, (∀ t ∈ ts, t.Plain) ∧ text = render ts
    | .intent => Trimmed text.toList

/-- A note that has grown by such lines; `texts` are the ones that were not blank. -/
structure GrownFrom (kind : NoteKind) (texts : List String) (note : String) : Prop where
  joined : note = String.intercalate "\n" texts
  each : ∀ t ∈ texts, IsNote kind t ∧ isBlankString t = false

theorem solid_of_isNote {kind : NoteKind} {text : String} (h : IsNote kind text)
    (hne : isBlankString text = false) : Solid text.toList := by
  refine ⟨?_, ?_, h.1⟩
  · intro hnil
    rw [isBlankString, hnil] at hne
    cases hne
  · cases kind with
    | description =>
      obtain ⟨-, ts, hts, rfl⟩ := h
      exact trimmed_render hts
    | intent => exact h.2

theorem GrownFrom.lines_eq {kind : NoteKind} {texts : List String} {note : String}
    (h : GrownFrom kind texts note) : Text.lines note = texts := by
  rw [h.joined]
  exact lines_join fun t ht => solid_of_isNote (h.each t ht).1 (h.each t ht).2

theorem GrownFrom.empty (kind : NoteKind) : GrownFrom kind [] "" := ⟨rfl, by simp⟩

/-- A line that is added to a note is one more line, unless it is blank. -/
theorem GrownFrom.add {kind : NoteKind} {texts : List String} {note : String}
    (h : GrownFrom kind texts note) {text : String} (ht : IsNote kind text) :
    GrownFrom kind (if isBlankString text then texts else texts ++ [text])
      (State.addLine note text) := by
  unfold State.addLine
  cases hblank : isBlankString text with
  | true => exact h
  | false =>
    have heach : ∀ t ∈ texts ++ [text], IsNote kind t ∧ isBlankString t = false := by
      intro t htext
      rcases List.mem_append.mp htext with htext | htext
      · exact h.each t htext
      · obtain rfl := List.mem_singleton.mp htext
        exact ⟨ht, hblank⟩
    by_cases hempty : texts = []
    · subst hempty
      obtain rfl : note = "" := h.joined
      exact ⟨by simp, heach⟩
    · have hnote : note.isEmpty = false := by
        rw [← Bool.not_eq_true, String.isEmpty_iff]
        rintro rfl
        exact hempty h.lines_eq.symm
      refine ⟨?_, heach⟩
      simp only [Bool.false_eq_true, if_false, hnote]
      rw [intercalate_concat hempty, ← h.joined]

/-- What a note line starts with. -/
def marker : NoteKind → String
  | .description => "description: "
  | .intent => "@ "

theorem GrownFrom.noteLines_eq {kind : NoteKind} {texts : List String} {note : String}
    (h : GrownFrom kind texts note) (level : Nat) (mark : String) :
    Format.noteLines level mark note = texts.map fun text => ⟨level, mark ++ text⟩ := by
  have hkept : texts.filter (fun t => !t.isEmpty) = texts := by
    rw [List.filter_eq_self]
    intro t ht
    have hsolid := solid_of_isNote (h.each t ht).1 (h.each t ht).2
    simpa [String.isEmpty_iff, ← String.toList_eq_nil_iff] using hsolid.ne_nil
  rw [Format.noteLines, h.lines_eq, hkept]

/-- A line that reads back as a note. -/
def ReadsNote (text : List Char) (kind : NoteKind) (note : String) : Prop :=
  ∀ line raw, ∃ ts, scan text line raw = .ok ⟨ts, []⟩ ∧ ts ≠ [] ∧
    Reading.ofTokens ts = .note kind note

/-- **A note line that has been written is read again.** -/
theorem reads_note {kind : NoteKind} {text : String} (h : IsNote kind text)
    (hne : isBlankString text = false) : ReadsNote (marker kind ++ text).toList kind text := by
  intro line raw
  cases kind with
  | description =>
    obtain ⟨-, ts, hts, rfl⟩ := h
    have hno : ts ≠ [] := by
      rintro rfl
      cases hne
    have hempty : ¬ (render ts).isEmpty = true := fun he => hno ((render_eq_empty hts).mp he)
    have hspells := (spells_text_end line hts).2
    rw [if_neg hempty, if_neg hno] at hspells
    have hword : "description" ∈ keywords := by decide
    have hscan := scan_keyword hword (by rfl) hspells raw
    have htext : (marker .description ++ render ts).toList =
        "description".toList ++ ':' :: ' ' :: (render ts).toList := by
      simp [marker]
    rw [htext, hscan]
    refine ⟨_, rfl, by simp, ?_⟩
    simp [Reading.ofTokens, isKeyword, Reading.ofDescription, bare, render_fuse line hts]
  | intent =>
    have hscan := scan_intent h.2 line raw
    have htext : (marker .intent ++ text).toList = '@' :: ' ' :: text.toList := by simp [marker]
    rw [htext, hscan]
    exact ⟨_, rfl, by simp, by simp [Reading.ofTokens]⟩

theorem solid_marker {kind : NoteKind} {text : String} (h : IsNote kind text)
    (hne : isBlankString text = false) : Solid (marker kind ++ text).toList := by
  have hsolid := solid_of_isNote h hne
  rw [String.toList_append]
  refine ⟨by simp [hsolid.ne_nil], ?_, ?_⟩
  · refine ⟨by cases kind <;> simp [marker] <;> decide, ?_⟩
    rw [List.getLast?_append, List.getLast?_eq_some_getLast hsolid.ne_nil, Option.some_or,
      ← List.getLast?_eq_some_getLast hsolid.ne_nil]
    exact hsolid.trimmed.last
  · have hmarker : '\n' ∉ (marker kind).toList := by cases kind <;> decide
    simpa [hmarker] using hsolid.unbroken

/-! ## Bodies -/

/-- The notes of a declaration, each as it has grown. -/
structure Grown (notes : Notes) : Prop where
  description : ∃ texts, GrownFrom .description texts notes.description
  intent : ∃ texts, GrownFrom .intent texts notes.intent

theorem Grown.none : Grown .none := ⟨⟨[], .empty _⟩, ⟨[], .empty _⟩⟩

theorem Grown.add {notes : Notes} (h : Grown notes) {kind : NoteKind} {text : String}
    (ht : IsNote kind text) : Grown (State.addNote kind text notes) := by
  obtain ⟨⟨ds, hd⟩, ⟨is, hi⟩⟩ := h
  cases kind with
  | description => exact ⟨⟨_, hd.add ht⟩, ⟨is, hi⟩⟩
  | intent => exact ⟨⟨ds, hd⟩, ⟨_, hi.add ht⟩⟩

theorem foldl_addLine {kind : NoteKind} {before texts : List String}
    (h : ∀ t ∈ before ++ texts, IsNote kind t ∧ isBlankString t = false) :
    texts.foldl State.addLine (String.intercalate "\n" before) =
      String.intercalate "\n" (before ++ texts) := by
  induction texts generalizing before with
  | nil => simp
  | cons t texts ih =>
    obtain ⟨ht, hblank⟩ := h t (by simp)
    have hbefore : GrownFrom kind before (String.intercalate "\n" before) :=
      ⟨rfl, fun u hu => h u (List.mem_append_left _ hu)⟩
    have hstep := (hbefore.add ht).joined
    rw [hblank, if_neg (by simp)] at hstep
    rw [List.foldl_cons, hstep, ih (by simpa using h), List.append_assoc, List.singleton_append]

/-- **Notes grow again from their lines.** -/
theorem Grown.remarks {notes : Notes} (h : Grown notes) :
    ∃ remarks : List (NoteKind × String),
      (∀ p ∈ remarks, IsNote p.1 p.2 ∧ isBlankString p.2 = false) ∧
      remarks.foldl (fun n p => State.addNote p.1 p.2 n) .none = notes ∧
      ∀ level, Format.noteLines level "description: " notes.description ++
          Format.noteLines level "@ " notes.intent =
        remarks.map fun p => ⟨level, marker p.1 ++ p.2⟩ := by
  obtain ⟨⟨ds, hd⟩, ⟨is, hi⟩⟩ := h
  have hgrow : ∀ {kind : NoteKind} {texts : List String} {note : String},
      GrownFrom kind texts note → texts.foldl State.addLine "" = note := by
    intro kind texts note hg
    have hfold : texts.foldl State.addLine (String.intercalate "\n" []) = _ :=
      foldl_addLine (by simpa using hg.each)
    rw [List.nil_append, ← hg.joined] at hfold
    exact hfold
  refine ⟨ds.map (fun t => (.description, t)) ++ is.map fun t => (.intent, t), ?_, ?_, ?_⟩
  · intro p hp
    rcases List.mem_append.mp hp with hp | hp
    · obtain ⟨t, ht, rfl⟩ := List.mem_map.mp hp
      exact hd.each t ht
    · obtain ⟨t, ht, rfl⟩ := List.mem_map.mp hp
      exact hi.each t ht
  · have hdescription : ∀ n : Notes, (ds.map fun t => (NoteKind.description, t)).foldl
        (fun n p => State.addNote p.1 p.2 n) n =
          { n with description := ds.foldl State.addLine n.description } := by
      intro n
      rw [List.foldl_map]
      clear hd
      induction ds generalizing n with
      | nil => rfl
      | cons t ds ih => rw [List.foldl_cons, ih]; rfl
    have hintent : ∀ n : Notes, (is.map fun t => (NoteKind.intent, t)).foldl
        (fun n p => State.addNote p.1 p.2 n) n =
          { n with intent := is.foldl State.addLine n.intent } := by
      intro n
      rw [List.foldl_map]
      clear hi
      induction is generalizing n with
      | nil => rfl
      | cons t is ih => rw [List.foldl_cons, ih]; rfl
    rw [List.foldl_append, hdescription, hintent]
    simp only [Notes.none, hgrow hd, hgrow hi]
  · intro level
    rw [hd.noteLines_eq, hi.noteLines_eq, List.map_append, List.map_map, List.map_map]
    rfl

/-- A body that can be written, on lines of its own, and read again. -/
structure Writable (b : Body) : Prop where
  legal : Legal b
  flat : ∀ n : Node, n.body.bare = b.bare → '\n' ∉ (Format.header n).toList
  notes : ∀ notes ∈ b.notes?, Grown notes

theorem Legal.mapNotes {b : Body} (h : Legal b) (f : Notes → Notes) : Legal (b.mapNotes f) := by
  cases h with
  | moduleImport name plain => exact .moduleImport name plain
  | varDecl notes name plain => exact .varDecl _ name plain
  | step opens plain ends => exact .step opens plain ends
  | classDecl notes name names entries => exact .classDecl _ name names entries
  | funcDecl notes name names entries => exact .funcDecl _ name names entries

theorem Writable.mapNotes {b : Body} (h : Writable b) {kind : NoteKind} {text : String}
    (ht : IsNote kind text) : Writable (b.mapNotes (State.addNote kind text)) where
  legal := h.legal.mapNotes _
  flat := by
    rw [Body.bare_mapNotes]
    exact h.flat
  notes := by
    have hgrown := h.notes
    cases b with
    | classDecl c =>
      rintro notes hn
      cases hn
      exact (hgrown _ rfl).add ht
    | funcDecl f =>
      rintro notes hn
      cases hn
      exact (hgrown _ rfl).add ht
    | varDecl v =>
      rintro notes hn
      cases hn
      exact (hgrown _ rfl).add ht
    | root => exact fun notes hn => by cases hn
    | moduleImport m => exact fun notes hn => by cases hn
    | step s => exact fun notes hn => by cases hn

/-- A body is what it is without its notes, and the notes one after the other. -/
theorem Writable.remarks {b : Body} (h : Writable b) :
    ∃ remarks : List (NoteKind × String),
      (∀ p ∈ remarks, IsNote p.1 p.2 ∧ isBlankString p.2 = false) ∧
      b.bare.mapNotes (remarks.foldl fun n p => State.addNote p.1 p.2 n) = b ∧
      (∀ level, Format.notesOf level b = remarks.map fun p => ⟨level, marker p.1 ++ p.2⟩) ∧
      (remarks ≠ [] → b.isDeclaration = true) := by
  have hgrown := h.notes
  cases b with
  | classDecl c =>
    obtain ⟨remarks, heach, hfold, hlines⟩ := (hgrown c.notes rfl).remarks
    exact ⟨remarks, heach, by simp [Body.bare, Body.mapNotes, hfold], hlines, fun _ => rfl⟩
  | funcDecl f =>
    obtain ⟨remarks, heach, hfold, hlines⟩ := (hgrown f.notes rfl).remarks
    exact ⟨remarks, heach, by simp [Body.bare, Body.mapNotes, hfold], hlines, fun _ => rfl⟩
  | varDecl v =>
    obtain ⟨remarks, heach, hfold, hlines⟩ := (hgrown v.notes rfl).remarks
    exact ⟨remarks, heach, by simp [Body.bare, Body.mapNotes, hfold], hlines, fun _ => rfl⟩
  | root => exact ⟨[], by simp, rfl, fun _ => rfl, fun h => absurd rfl h⟩
  | moduleImport m => exact ⟨[], by simp, rfl, fun _ => rfl, fun h => absurd rfl h⟩
  | step t => exact ⟨[], by simp, rfl, fun _ => rfl, fun h => absurd rfl h⟩

/-- A declaration starts without notes. -/
theorem notes_of_declares {ts : List Token} {node : LineNode} (h : Declares ts node) :
    ∀ notes ∈ node.body.notes?, notes = .none := by
  cases h <;> simp [Body.notes?, stepLine]

/-- **What a line declares can be written.** -/
theorem writable_of_ofTokens {l : LogicalLine} {node : LineNode} (hl : '\n' ∉ l.text.toList)
    (ne : l.tokens ≠ []) (h : Reading.ofTokens l.tokens = .node node) : Writable node.body where
  legal := legal_of_ofTokens ne h
  flat := by
    intro n hn hfeed
    have hforeign : Foreign (· == '\n') := ⟨rfl, rfl, rfl⟩
    have hline : l.text.toList.countP (· == '\n') = 0 := List.count_eq_zero.mpr hl
    have htokens := l.tally_tokens hforeign
    have hheader := countP_header_le hforeign (declares_of_ofTokens h) l.sound_tokens.2 hn
    have hzero : (Format.header n).toList.count '\n' = 0 := by
      unfold List.count
      omega
    exact List.count_eq_zero.mp hzero hfeed
  notes := by
    intro notes hn
    rw [notes_of_declares (declares_of_ofTokens h) notes hn]
    exact .none

/-- What a note line says can be written. -/
theorem isNote_of_ofTokens {l : LogicalLine} {kind : NoteKind} {text : String}
    (hl : '\n' ∉ l.text.toList) (h : Reading.ofTokens l.tokens = .note kind text) :
    IsNote kind text := by
  have hforeign : Foreign (· == '\n') := ⟨rfl, rfl, rfl⟩
  have hline : l.text.toList.countP (· == '\n') = 0 := List.count_eq_zero.mpr hl
  have htokens := l.tally_tokens hforeign
  obtain ⟨hsound, hplain⟩ := l.sound_tokens
  have hremarks := remarks_of_ofTokens h
  generalize l.tokens = ts at hremarks hsound hplain htokens
  cases hremarks with
  | intent t rest hk =>
    rw [tally_cons] at htokens
    refine ⟨?_, ?_⟩
    · have hchars : t.chars = '@' :: ' ' :: t.text.toList := by simp [chars, hk]
      have hzero : t.chars.count '\n' = 0 := by
        unfold List.count
        omega
      rw [hchars] at hzero
      have hno := List.count_eq_zero.mp hzero
      exact fun hfeed => hno (by simp [hfeed])
    · have ht := hsound t List.mem_cons_self
      simpa [Sound, hk] using ht
  | description k colon text =>
    have hrender := countP_render_le hforeign text
    rw [tally_cons, tally_cons] at htokens
    have hzero : (render text).toList.count '\n' = 0 := by
      unfold List.count
      omega
    exact ⟨List.count_eq_zero.mp hzero, text,
      fun t ht => hplain t (List.mem_cons_of_mem _ ht), rfl⟩

end Parser

end IntentCode
