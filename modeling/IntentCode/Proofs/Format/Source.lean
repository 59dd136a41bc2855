import IntentCode.Format
import IntentCode.Proofs.Text.Segments
import IntentCode.Proofs.Text.Trim

/-!
# The lines of written source

A source is written as a text and read as lines, and in between stand the line endings. If what is
written on each line neither begins nor ends with a blank and holds no line feed (`Solid`), reading
gives the lines that were written (`lines_source`): no line feed breaks a line in two, no carriage
return at the end of one goes to its ending, and the last line is not blank, so that there is
nothing to be dropped behind it.
-/

set_option autoImplicit false

namespace IntentCode.Text

/-- A text that can stand on a line of its own. -/
structure Solid (text : List Char) : Prop where
  ne_nil : text ≠ []
  trimmed : Trimmed text
  unbroken : '\n' ∉ text

theorem Solid.last {text : List Char} (h : Solid text) :
    ∃ c, text.getLast? = some c ∧ isBlank c = false := by
  obtain ⟨c, hc⟩ := Option.ne_none_iff_exists'.mp fun hn => h.ne_nil (List.getLast?_eq_none_iff.mp hn)
  exact ⟨c, hc, h.trimmed.last c hc⟩

/-- A line that does not end with a carriage return is what stands before its line feed. -/
theorem content_append {body : List Char} (h : '\n' ∉ body) (hr : body.getLast? ≠ some '\r') :
    content (body ++ ['\n']) = body := by
  unfold content
  induction body with
  | nil => simp [breakLines]
  | cons c body ih =>
    have hc : c ≠ '\n' := fun hc => h (by simp [hc])
    have hbody : '\n' ∉ body := fun hb => h (by simp [hb])
    have hhead : c = '\r' → (body ++ ['\n']).head? ≠ some '\n' := by
      rintro rfl
      cases body with
      | nil => exact absurd rfl hr
      | cons d body => simpa using fun hd => hbody (by simp [hd])
    have hlast : body.getLast? ≠ some '\r' := by
      cases body with
      | nil => simp
      | cons d body => simpa using hr
    rw [List.cons_append, breakLines_cons hc hhead]
    have hmore := ih hbody hlast
    cases hb : breakLines (body ++ ['\n']) with
    | nil =>
      rw [hb] at hmore
      rw [← hmore]
      rfl
    | cons l ls =>
      rw [hb] at hmore
      rw [← hmore]
      rfl

end IntentCode.Text

namespace IntentCode.Format

open Ast

/-- The characters of a line, without its ending. -/
def Line.chars (size : Nat) (l : Line) : List Char :=
  List.replicate (l.level * size) ' ' ++ l.text.toList

theorem Line.chars_blank (size : Nat) : Line.chars size ⟨0, ""⟩ = [] := by simp [Line.chars]

theorem Line.last_chars {size : Nat} {l : Line} (h : Text.Solid l.text.toList) :
    (l.chars size).getLast? = l.text.toList.getLast? := by
  obtain ⟨c, hc, -⟩ := h.last
  rw [chars, List.getLast?_append, hc]
  rfl

theorem Line.lineFeed_notMem {size : Nat} {l : Line} (h : '\n' ∉ l.text.toList) :
    '\n' ∉ l.chars size := by
  unfold chars
  rw [List.mem_append, List.mem_replicate, not_or]
  exact ⟨by simp, h⟩

/-! ## The emitter -/

theorem toList_foldl_emitLine (e : Emitter) (ls : List Line) :
    (ls.foldl emitLine e).buffer.toList =
      e.buffer.toList ++ (ls.map fun l => l.chars e.indentSize ++ ['\n']).flatten := by
  induction ls generalizing e with
  | nil => simp
  | cons l ls ih =>
    rw [List.foldl_cons, ih]
    simp [emitLine, Emitter.newline, Emitter.indent, Emitter.emit, Line.chars]

/-- A text that ends with one line feed is left as it is. -/
theorem endBreak_append (text : List Char) {c : Char} (h : text.getLast? = some c) (hc : c ≠ '\n') :
    (Emitter.endBreak (text ++ ['\n']).reverse).reverse = text ++ ['\n'] := by
  obtain ⟨front, rfl⟩ := List.getLast?_eq_some_iff.mp h
  have hdrop : Emitter.dropExtraBreaks ('\n' :: c :: front.reverse) =
      '\n' :: c :: front.reverse := by
    rw [Emitter.dropExtraBreaks]
    rintro cs heq
    exact hc (List.cons.inj (List.cons.inj heq).2).1
  simp [Emitter.endBreak, hdrop]

/-! ## The lines of the top level -/

theorem lines_cons (level : Nat) (n : Node) (below beside : Forest) :
    lines level (.cons n below beside) =
      lines level (.cons n below .nil) ++ lines level beside := by
  simp [lines]

/-- A line between declarations is empty; every other line belongs to a declaration. -/
theorem mem_topLines {config : Config} {previous : Option NodeType} {f : Forest} {l : Line}
    (h : l ∈ topLines config previous f) : l = ⟨0, ""⟩ ∨ l ∈ lines 0 f := by
  induction f generalizing previous with
  | nil => cases h
  | cons n below beside ihb ihs =>
    rw [topLines] at h
    rw [lines_cons]
    rcases List.mem_append.mp h with h | h
    · rcases List.mem_append.mp h with h | h
      · split at h
        · exact .inl (List.mem_singleton.mp h)
        · cases h
      · exact .inr (List.mem_append_left _ h)
    · exact (ihs h).imp_right fun h => List.mem_append_right _ h

/-- The blank lines aside, the top level is written like any other. -/
theorem filter_topLines {config : Config} (previous : Option NodeType) {f : Forest}
    (h : ∀ l ∈ lines 0 f, l.text.isEmpty = false) :
    (topLines config previous f).filter (fun l => !l.text.isEmpty) = lines 0 f := by
  induction f generalizing previous with
  | nil => rfl
  | cons n below beside ihb ihs =>
    rw [lines_cons] at h ⊢
    have hown : (lines 0 (.cons n below .nil)).filter (fun l => !l.text.isEmpty) =
        lines 0 (.cons n below .nil) := by
      rw [List.filter_eq_self]
      intro l hl
      rw [h l (List.mem_append_left _ hl)]
      rfl
    have hrest := ihs (some n.type) fun l hl => h l (List.mem_append_right _ hl)
    rw [topLines, List.filter_append, List.filter_append, hown, hrest]
    split <;> rfl

/-- The last line is not one of the blank ones. -/
theorem last_topLines {config : Config} {previous : Option NodeType} {f : Forest} {l : Line}
    (h : (topLines config previous f).getLast? = some l) : l ∈ lines 0 f := by
  induction f generalizing previous with
  | nil => cases h
  | cons n below beside ihb ihs =>
    rw [topLines, List.getLast?_append] at h
    rw [lines_cons]
    cases hb : (topLines config (some n.type) beside).getLast? with
    | some l' =>
      rw [hb] at h
      obtain rfl := Option.some.inj h
      exact List.mem_append_right _ (ihs hb)
    | none =>
      have hown : lines 0 (.cons n below .nil) ≠ [] := by simp [lines]
      rw [hb, Option.none_or, List.getLast?_append, List.getLast?_eq_some_getLast hown,
        Option.some_or, Option.some.injEq] at h
      rw [← h]
      exact List.mem_append_left _ (List.getLast_mem hown)

/-! ## The source -/

/-- The text is the lines of the top level, each with its ending. -/
theorem toList_source {config : Config} {t : Table}
    (h : ∀ l ∈ lines 0 t.forest, Text.Solid l.text.toList) :
    (source config t).toList =
      ((topLines config none t.forest).map fun l =>
        l.chars config.indentSize ++ ['\n']).flatten := by
  have hbuffer := toList_foldl_emitLine (.new config.indentSize) (topLines config none t.forest)
  have hnew : (Emitter.new config.indentSize).buffer.toList = [] := rfl
  rw [hnew, List.nil_append] at hbuffer
  unfold source
  simp only [Emitter.endLine, String.toList_ofList]
  rw [hbuffer]
  cases hlast : (topLines config none t.forest).getLast? with
  | none =>
    rw [List.getLast?_eq_none_iff.mp hlast]
    rfl
  | some l =>
    obtain ⟨front, hfront⟩ := List.getLast?_eq_some_iff.mp hlast
    have hsolid := h l (last_topLines hlast)
    obtain ⟨c, hc, hblank⟩ := hsolid.last
    have hne : c ≠ '\n' := by
      rintro rfl
      exact absurd hblank (by decide)
    have hend := endBreak_append ((front.map fun l => l.chars config.indentSize ++ ['\n']).flatten ++
      l.chars config.indentSize) (by
        rw [List.getLast?_append, Line.last_chars hsolid, hc]
        rfl) hne
    rw [hfront]
    simpa [Emitter.new] using hend

/-- **The lines of a source are the lines that were written.** -/
theorem lines_source {config : Config} {t : Table}
    (h : ∀ l ∈ lines 0 t.forest, Text.Solid l.text.toList) :
    Text.lines (source config t) =
      (topLines config none t.forest).map fun l => .ofList (l.chars config.indentSize) := by
  have hends : ∀ l ∈ topLines config none t.forest, '\n' ∉ l.chars config.indentSize ∧
      Text.content (l.chars config.indentSize ++ ['\n']) = l.chars config.indentSize := by
    intro l hl
    rcases mem_topLines hl with rfl | hl
    · rw [Line.chars_blank]
      exact ⟨by simp, rfl⟩
    · have hsolid := h l hl
      have hunbroken : '\n' ∉ l.chars config.indentSize := Line.lineFeed_notMem hsolid.unbroken
      refine ⟨hunbroken, Text.content_append hunbroken ?_⟩
      obtain ⟨c, hc, hblank⟩ := hsolid.last
      rw [Line.last_chars hsolid, hc]
      rintro hcr
      cases hcr
      exact absurd hblank (by decide)
  have hcut : ∀ ls : List Line, (∀ l ∈ ls, '\n' ∉ l.chars config.indentSize) →
      Text.Cut (ls.map fun l => l.chars config.indentSize ++ ['\n']) := by
    intro ls
    induction ls with
    | nil => exact fun _ => .nil
    | cons l ls ih =>
      intro hls
      exact .cons ⟨_, rfl, hls l List.mem_cons_self⟩ (ih fun m hm => hls m (List.mem_cons_of_mem _ hm))
  rw [Text.lines, toList_source h, Text.breakLines_flatten (hcut _ fun l hl => (hends l hl).1),
    List.map_map, List.map_map]
  apply List.map_congr_left
  intro l hl
  exact congrArg String.ofList (hends l hl).2

/-! ## Trees with one source -/

/-- Forests of one shape whose nodes are written the same. -/
inductive WrittenAlike : Forest → Forest → Prop
  | nil : WrittenAlike .nil .nil
  | cons {m n : Node} {below below' beside beside' : Forest} (line : header m = header n)
    (notes : m.body.notes? = n.body.notes?) (type : m.type = n.type)
    (inner : WrittenAlike below below') (outer : WrittenAlike beside beside') :
    WrittenAlike (.cons m below beside) (.cons n below' beside')

theorem WrittenAlike.lines_eq {f g : Forest} (h : WrittenAlike f g) (level : Nat) :
    lines level f = lines level g := by
  induction h generalizing level with
  | nil => rfl
  | cons line notes type inner outer ihb ihs =>
    rw [lines, lines, line, notesOf, notesOf, notes, ihb, ihs]

theorem WrittenAlike.topLines_eq {f g : Forest} (h : WrittenAlike f g) (config : Config)
    (previous : Option NodeType) : topLines config previous f = topLines config previous g := by
  induction h generalizing previous with
  | nil => rfl
  | @cons m n below below' beside beside' line notes type inner outer ihb ihs =>
    have hown : lines 0 (.cons m below .nil) = lines 0 (.cons n below' .nil) :=
      (WrittenAlike.cons line notes type inner .nil).lines_eq 0
    rw [topLines, topLines, type, hown, ihs]

/-- **Trees whose nodes are written the same have one source.** -/
theorem source_eq_of_writtenAlike {t u : Table} (h : WrittenAlike t.forest u.forest)
    (config : Config) : source config t = source config u := by
  unfold source
  rw [h.topLines_eq]

end IntentCode.Format
