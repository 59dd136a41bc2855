import IntentCode.Proofs.Ast.Same
import IntentCode.Proofs.Parser.Account

/-!
# The lines of a tree that has been read

Every written line of such a tree is the line of a node or a note line after its marker
(`cases_lines`). All of them can stand on lines of their own, and together they weigh what the nodes
weigh (`weight_lines`).

A line that is `Free` is read as a step. No line is but those of steps: a declaration starts with
its keyword, and a note with its marker (`free_lines_le`).
-/

set_option autoImplicit false

namespace IntentCode

/-- Terms that are no larger, with a sum that is no smaller, are the same terms. -/
theorem eq_of_sum_le {α : Type} {f g : α → Nat} {xs : List α} (h : ∀ x ∈ xs, f x ≤ g x)
    (hsum : (xs.map g).sum ≤ (xs.map f).sum) : ∀ x ∈ xs, f x = g x := by
  induction xs with
  | nil => exact fun x hx => by cases hx
  | cons y ys ih =>
    have hy := h y List.mem_cons_self
    have hys : ∀ x ∈ ys, f x ≤ g x := fun x hx => h x (List.mem_cons_of_mem _ hx)
    have hle := List.sum_le_sum hys
    rw [List.map_cons, List.map_cons, List.sum_cons, List.sum_cons] at hsum
    intro x hx
    rcases List.mem_cons.mp hx with rfl | hx
    · omega
    · exact ih hys (by omega) x hx

namespace Parser

open Ast Lexer Token Text

/-! ## Lines and nodes -/

/-- What is counted over the written lines is counted node by node. -/
theorem sum_lines (w : String → Nat) (level : Nat) (f : Forest) :
    ((Format.lines level f).map fun l => w l.text).sum =
      (f.nodes.map fun n =>
        w (Format.header n) + ((Format.notesOf 0 n.body).map fun l => w l.text).sum).sum := by
  have hnotes : ∀ (level : Nat) (b : Body), ((Format.notesOf level b).map fun l => w l.text) =
      (Format.notesOf 0 b).map fun l => w l.text := by
    intro level b
    unfold Format.notesOf Format.noteLines
    cases b.notes? <;> simp [Function.comp_def]
  induction f generalizing level with
  | nil => rfl
  | cons n below beside ihb ihs =>
    simp only [Format.lines, Forest.nodes, List.cons_append, List.map_cons, List.map_append,
      List.sum_cons, List.sum_append, ihb, ihs, hnotes level]
    omega

theorem mem_lines {level : Nat} {f : Forest} {l : Format.Line} (h : l ∈ Format.lines level f) :
    ∃ n ∈ f.nodes, l.text = Format.header n ∨ ∃ level, l ∈ Format.notesOf level n.body := by
  induction f generalizing level with
  | nil => cases h
  | cons n below beside ihb ihs =>
    have hlift : ∀ {g : Forest}, (∀ m ∈ g.nodes, m ∈ (Forest.cons n below beside).nodes) →
        (∃ m ∈ g.nodes, l.text = Format.header m ∨ ∃ level, l ∈ Format.notesOf level m.body) →
        ∃ m ∈ (Forest.cons n below beside).nodes,
          l.text = Format.header m ∨ ∃ level, l ∈ Format.notesOf level m.body := by
      rintro g hg ⟨m, hm, hl⟩
      exact ⟨m, hg m hm, hl⟩
    rw [Format.lines] at h
    rcases List.mem_append.mp h with h | h
    · rcases List.mem_append.mp h with h | h
      · rcases List.mem_cons.mp h with rfl | h
        · exact ⟨n, List.mem_cons_self, .inl rfl⟩
        · exact hlift (fun m hm => List.mem_cons_of_mem _ (List.mem_append_left _ hm)) (ihb h)
      · exact ⟨n, List.mem_cons_self, .inr ⟨level, h⟩⟩
    · exact hlift (fun m hm => List.mem_cons_of_mem _ (List.mem_append_right _ hm)) (ihs h)

variable {f : Forest}

/-- **Every written line is that of a node or that of a note.** -/
theorem cases_lines (hw : ∀ n ∈ f.nodes, Writable n.body) {level : Nat} {l : Format.Line}
    (h : l ∈ Format.lines level f) :
    (∃ n ∈ f.nodes, l.text = Format.header n) ∨
      ∃ kind text, IsNote kind text ∧ isBlankString text = false ∧
        l.text = marker kind ++ text := by
  obtain ⟨n, hn, hl | ⟨level, hl⟩⟩ := mem_lines h
  · exact .inl ⟨n, hn, hl⟩
  · right
    obtain ⟨remarks, heach, -, hlines, -⟩ := (hw n hn).remarks
    rw [hlines] at hl
    obtain ⟨p, hp, rfl⟩ := List.mem_map.mp hl
    exact ⟨p.1, p.2, (heach p hp).1, (heach p hp).2, rfl⟩

theorem solid_lines (level : Nat) (hw : ∀ n ∈ f.nodes, Writable n.body) :
    ∀ l ∈ Format.lines level f, Solid l.text.toList := by
  intro l hl
  rcases cases_lines hw hl with ⟨n, hn, htext⟩ | ⟨kind, text, hnote, hblank, htext⟩
  · rw [htext]
    exact solid_header (hw n hn).legal ((hw n hn).flat n rfl)
  · rw [htext]
    exact solid_marker hnote hblank

/-- The written lines can be cut into tokens without a warning, if those of steps are free. -/
theorem scan_lines {level : Nat} (hw : ∀ n ∈ f.nodes, Writable n.body)
    (hfree : ∀ n ∈ f.nodes, n.type = .step → Free (Format.header n).toList) :
    ∀ l ∈ Format.lines level f, ∀ line raw, ∃ ts, scan l.text.toList line raw = .ok ⟨ts, []⟩ := by
  intro l hl line raw
  rcases cases_lines hw hl with ⟨n, hn, htext⟩ | ⟨kind, text, hnote, hblank, htext⟩
  · obtain ⟨ts, hscan, -⟩ := reads_header (hw n hn).legal
      (fun s hs => hfree n hn (by rw [Node.type, hs]; rfl)) line raw
    rw [htext]
    exact ⟨ts, hscan⟩
  · obtain ⟨ts, hscan, -⟩ := reads_note hnote hblank line raw
    rw [htext]
    exact ⟨ts, hscan⟩

/-! ## What the lines weigh -/

/-- The colon before a block weighs nothing. -/
theorem marks_header (n : Node) :
    marks (Format.header n).toList = marks (Format.header ⟨0, none, [], 0, n.body⟩).toList := by
  have hcolon : ∀ b : Bool, marks (if b then ":" else "" : String).toList = 0 := by
    intro b
    cases b <;> decide
  cases hb : n.body with
  | classDecl c =>
    rw [header_class hb, header_class (n := ⟨0, none, [], 0, .classDecl c⟩) rfl]
    simp only [marks_append, marks_cons ' ' (_ ++ _), hcolon]
  | funcDecl f =>
    rw [header_func hb, header_func (n := ⟨0, none, [], 0, .funcDecl f⟩) rfl]
    simp only [marks_append, marks_cons ' ' (_ ++ _), hcolon]
  | root => simp only [Format.header, hb]
  | moduleImport m => simp only [Format.header, hb]
  | varDecl v => simp only [Format.header, hb]
  | step t => simp only [Format.header, hb]

/-- **The lines of a tree weigh what its nodes weigh.** -/
theorem weight_lines (level : Nat) (hw : ∀ n ∈ f.nodes, Writable n.body) :
    Format.weight (Format.lines level f) = (f.nodes.map fun n => bodyWeight n.body).sum := by
  unfold Format.weight
  rw [sum_lines fun text => marks text.toList + 1]
  congr 1
  apply List.map_congr_left
  intro n hn
  have hlegal := (hw n hn).legal
  rw [marks_header n]
  unfold bodyWeight
  split
  · next hroot =>
    rw [hroot] at hlegal
    cases hlegal
  · rfl

/-! ## The same bodies weigh the same -/

theorem marks_entryList {m n : OrderedMap String} (h : m.toList.Perm n.toList) :
    marks (Format.entryList m).toList = marks (Format.entryList n).toList := by
  have hempty : m.isEmpty = n.isEmpty := h.isEmpty_eq
  unfold Format.entryList
  rw [hempty]
  split
  · rfl
  · next hne =>
    -- without its brackets, and with one more comma, a list is a sum over its entries
    have hlist : ∀ {texts : List String}, texts ≠ [] →
        marks ("(" ++ String.intercalate ", " texts ++ ")").toList + 1 =
          (texts.map fun t => marks t.toList + 1).sum := by
      intro texts htexts
      have hcommas := countP_intercalate foreign_marks htexts
      have hone : [','].countP (fun c => c = ',' || c = '\\') = 1 := by decide
      have hopen : marks ("(" : String).toList = 0 := by decide
      have hclose : marks (")" : String).toList = 0 := by decide
      rw [hone] at hcommas
      rw [String.toList_append, String.toList_append, marks_append, marks_append, hopen, hclose,
        Nat.zero_add]
      exact hcommas
    have hn : n.toList ≠ [] := by simpa [OrderedMap.isEmpty] using hne
    have hm : m.toList ≠ [] := fun hm => hn (by rw [hm] at h; exact h.nil_eq.symm)
    apply Nat.add_right_cancel (m := 1)
    rw [hlist (by simpa using hm), hlist (by simpa using hn)]
    exact ((h.map _).map _).sum_eq

/-- **Bodies that are the same weigh the same.** -/
theorem bodyWeight_same {b c : Body} (h : b.same c = true) : bodyWeight b = bodyWeight c := by
  unfold Body.same at h
  split at h
  · next c d =>
    simp only [Bool.and_eq_true, beq_iff_eq] at h
    obtain ⟨⟨hname, hnotes⟩, hbases⟩ := h
    have hlist := marks_entryList (OrderedMap.perm_of_sameEntries hbases)
    simp only [bodyWeight, Format.notesOf, Body.notes?, hnotes,
      header_class (n := ⟨0, none, [], 0, .classDecl c⟩) rfl,
      header_class (n := ⟨0, none, [], 0, .classDecl d⟩) rfl, marks_append, marks_cons ' ' (_ ++ _),
      hname, hlist]
  · next f g =>
    simp only [Bool.and_eq_true, beq_iff_eq] at h
    obtain ⟨⟨⟨hname, hnotes⟩, hparams⟩, -⟩ := h
    have hlist := marks_entryList (OrderedMap.perm_of_sameEntries hparams)
    simp only [bodyWeight, Format.notesOf, Body.notes?, hnotes,
      header_func (n := ⟨0, none, [], 0, .funcDecl f⟩) rfl,
      header_func (n := ⟨0, none, [], 0, .funcDecl g⟩) rfl, marks_append, marks_cons ' ' (_ ++ _),
      hname, hlist]
  · rw [beq_iff_eq.mp h]

/-! ## Steps -/

instance (text : List Char) : Decidable (Free text) := inferInstanceAs (Decidable (_ ∧ _))

/-- One for a step, nothing for any other body. -/
def stepCount (b : Body) : Nat := if b.type = .step then 1 else 0

/-- One for a text that is read as a step. -/
def freeCount (text : String) : Nat := if Free text.toList then 1 else 0

theorem stepCount_same {b c : Body} (h : b.same c = true) : stepCount b = stepCount c := by
  have htype : b.type = c.type := by
    unfold Body.same at h
    split at h
    · rfl
    · rfl
    · rw [beq_iff_eq.mp h]
  unfold stepCount
  rw [htype]

/-- A line that gives a step is free. -/
theorem free_of_step {l : LogicalLine} (ne : l.tokens ≠ []) {node : LineNode}
    (h : Reading.ofTokens l.tokens = .node node) (hs : node.body.type = .step) :
    Free l.text.toList := by
  have hfirst : ∀ t ∈ l.tokens.head?, t.kind ≠ .keyword := by
    have hdeclares := declares_of_ofTokens h
    generalize l.tokens = ts at hdeclares
    cases hdeclares with
    | step ts free => exact free
    | moduleImport => cases hs
    | varDecl => cases hs
    | classDecl => cases hs
    | funcDecl => cases hs
  cases hscan : scan l.text.toList l.number l.raw with
  | error e =>
    unfold LogicalLine.tokens at ne
    rw [hscan] at ne
    exact absurd rfl ne
  | ok scanned =>
    have htokens : l.tokens = scanned.tokens := by
      unfold LogicalLine.tokens
      rw [hscan]
    rw [htokens] at h hfirst
    -- an `@` line is a note, and a line that starts with a keyword has it as its first token
    rcases scan_cases hscan with ⟨comment, -, rfl⟩ | ⟨-, word, rest, -, -, rfl⟩ | ⟨hat, hkey, -, -⟩
    · simp [Reading.ofTokens] at h
    · exact absurd rfl (hfirst ⟨.keyword, word, l.number⟩ (by simp [Scanned.append]))
    · exact ⟨hat, hkey⟩

/-- A run gives no more steps than it has free lines. -/
theorem Built.steps_le {past : List LogicalLine} {rows : List Row} (h : Built past rows) :
    (rows.map fun r => stepCount r.body).sum ≤ (past.map fun l => freeCount l.text).sum := by
  induction h with
  | nil => exact Nat.le_refl 0
  | line l built ih =>
    rw [List.map_cons, List.sum_cons]
    omega
  | row l node built ne meaning climbs allowed hangs ih =>
    have hone : stepCount node.body.bare ≤ freeCount l.text := by
      unfold stepCount freeCount
      rw [Body.type_bare]
      split
      · next hs => rw [if_pos (free_of_step ne meaning hs)]
      · exact Nat.zero_le _
    simp only [List.map_cons, List.sum_cons]
    omega

theorem not_free_keyword {word : String} (hw : word ∈ keywords) {rest : List Char}
    (h : endsWord rest = true) : ¬ Free (word.toList ++ rest) := by
  rintro ⟨-, hnone⟩
  rw [splitKeyword?_append hw h] at hnone
  cases hnone

/-- A declaration starts with its keyword. -/
theorem not_free_header {n : Node} (h : Legal n.body) (hn : n.type ≠ .step) :
    ¬ Free (Format.header n).toList := by
  unfold Node.type at hn
  generalize hbody : n.body = body at h hn
  cases h with
  | moduleImport name plain =>
    rw [header_module hbody]
    exact not_free_keyword (by decide) (endsWord_space _)
  | varDecl notes name plain =>
    rw [header_var hbody]
    exact not_free_keyword (by decide) (endsWord_space _)
  | classDecl notes name names entries =>
    rw [header_class hbody]
    exact not_free_keyword (by decide) (endsWord_space _)
  | funcDecl notes name names entries =>
    rw [header_func hbody]
    exact not_free_keyword (by decide) (endsWord_space _)
  | step opens plain ends => exact absurd rfl hn

/-- A note starts with its marker. -/
theorem not_free_marker (kind : NoteKind) (text : String) :
    ¬ Free (marker kind ++ text).toList := by
  cases kind with
  | description =>
    have hword : "description" ∈ keywords := by decide
    have htext : (marker .description ++ text).toList =
        "description".toList ++ ':' :: ' ' :: text.toList := by
      simp [marker]
    rw [htext]
    exact not_free_keyword hword rfl
  | intent =>
    rintro ⟨hat, -⟩
    exact hat (by simp [marker])

/-- **The lines that are free are lines of steps.** -/
theorem free_lines_le (level : Nat) (hw : ∀ n ∈ f.nodes, Writable n.body) :
    ((Format.lines level f).map fun l => freeCount l.text).sum ≤
      (f.nodes.map fun n => if n.type = .step then freeCount (Format.header n) else 0).sum := by
  rw [sum_lines freeCount]
  apply List.sum_le_sum
  intro n hn
  have hnotes : ((Format.notesOf 0 n.body).map fun l => freeCount l.text).sum = 0 := by
    obtain ⟨remarks, -, -, hlines, -⟩ := (hw n hn).remarks
    rw [hlines, List.sum_eq_zero_iff]
    intro count hcount
    simp only [List.map_map, List.mem_map, Function.comp_apply] at hcount
    obtain ⟨p, -, rfl⟩ := hcount
    exact if_neg (not_free_marker p.1 p.2)
  rw [hnotes, Nat.add_zero]
  split
  · exact Nat.le_refl _
  · next hstep => exact Nat.le_of_eq (if_neg (not_free_header (hw n hn).legal hstep))

/-- **If there are as many free lines as steps, the steps are free.** -/
theorem free_of_steps_le (level : Nat) (hw : ∀ n ∈ f.nodes, Writable n.body)
    (h : (f.nodes.map fun n => stepCount n.body).sum ≤
      ((Format.lines level f).map fun l => freeCount l.text).sum) :
    ∀ n ∈ f.nodes, n.type = .step → Free (Format.header n).toList := by
  have hle := free_lines_le level hw
  have heach : ∀ n ∈ f.nodes, (if n.type = .step then freeCount (Format.header n) else 0) ≤
      stepCount n.body := by
    intro n hn
    by_cases hstep : n.type = .step
    · have hcount : stepCount n.body = 1 := if_pos hstep
      rw [if_pos hstep, hcount]
      unfold freeCount
      split
      · exact Nat.le_refl _
      · exact Nat.zero_le _
    · rw [if_neg hstep]
      exact Nat.zero_le _
  intro n hn hstep
  have hone := eq_of_sum_le heach (Nat.le_trans h hle) n hn
  have hcount : stepCount n.body = 1 := if_pos hstep
  rw [if_pos hstep, hcount] at hone
  unfold freeCount at hone
  by_contra hno
  rw [if_neg hno] at hone
  cases hone

end Parser

end IntentCode
