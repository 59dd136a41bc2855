import IntentCode.Proofs.Ast.Drawing
import IntentCode.Proofs.Format.Folding
import IntentCode.Proofs.Parser.Built
import IntentCode.Proofs.Parser.Notes

/-!
# What a run takes in and what a tree has

A run keeps an account of its own. Written out, a tree weighs no more than the lines it was read from
(`accounts_readAll`): a line gives one node or one line of a note, or it waits, or it is lost. And
whatever the tree has taken in can be written on lines of its own.
-/

set_option autoImplicit false

namespace IntentCode

theorem sum_modify_le {α : Type} {w : α → Nat} {g : α → α} {c : Nat} {bs : List α}
    (h : ∀ b ∈ bs, w (g b) ≤ w b + c) (i : Nat) :
    ((bs.modify i g).map w).sum ≤ (bs.map w).sum + c := by
  induction bs generalizing i with
  | nil => simp
  | cons b bs ih =>
    cases i with
    | zero =>
      have hb := h b List.mem_cons_self
      simp only [List.modify_zero_cons, List.map_cons, List.sum_cons]
      omega
    | succ i =>
      have hmore := ih (fun b' hb' => h b' (List.mem_cons_of_mem _ hb')) i
      simp only [List.modify_succ_cons, List.map_cons, List.sum_cons]
      omega

theorem mem_modify {α : Type} {g : α → α} {bs : List α} {i : Nat} {b : α}
    (h : b ∈ bs.modify i g) : b ∈ bs ∨ ∃ b' ∈ bs, b = g b' := by
  induction bs generalizing i with
  | nil => simp at h
  | cons a bs ih =>
    cases i with
    | zero =>
      rcases List.mem_cons.mp h with rfl | h
      · exact .inr ⟨a, List.mem_cons_self, rfl⟩
      · exact .inl (List.mem_cons_of_mem _ h)
    | succ i =>
      rcases List.mem_cons.mp h with rfl | h
      · exact .inl List.mem_cons_self
      · rcases ih h with h | ⟨b', hb', rfl⟩
        · exact .inl (List.mem_cons_of_mem _ h)
        · exact .inr ⟨b', List.mem_cons_of_mem _ hb', rfl⟩

namespace Parser

open Ast Token Text

theorem foreign_marks : Foreign fun c => c = ',' || c = '\\' := ⟨by decide, by decide, by decide⟩

/-! ## The weight of a tree -/

/-- The weight of a note line. -/
def noteWeight (text : String) : Nat := if isBlankString text then 0 else marks text.toList + 1

/-- The weight of a node: that of its line and of its note lines. The root has none. -/
def bodyWeight : Body → Nat
  | .root => 0
  | b => marks (Format.header ⟨0, none, [], 0, b⟩).toList + 1 + Format.weight (Format.notesOf 0 b)

theorem marks_marker (kind : NoteKind) (text : String) :
    marks (marker kind ++ text).toList = marks text.toList := by
  have hmarker : marks (marker kind).toList = 0 := by cases kind <;> decide
  rw [String.toList_append, marks_append, hmarker, Nat.zero_add]

theorem weight_noteLines {kind : NoteKind} {texts : List String} {note : String}
    (h : GrownFrom kind texts note) (level : Nat) :
    Format.weight (Format.noteLines level (marker kind) note) = (texts.map noteWeight).sum := by
  rw [h.noteLines_eq, Format.weight, List.map_map]
  congr 1
  apply List.map_congr_left
  intro t ht
  simp only [Function.comp_apply, marks_marker, noteWeight, (h.each t ht).2]
  rfl

theorem weight_addLine {kind : NoteKind} {texts : List String} {note : String}
    (h : GrownFrom kind texts note) {text : String} (ht : IsNote kind text) (level : Nat) :
    Format.weight (Format.noteLines level (marker kind) (State.addLine note text)) =
      Format.weight (Format.noteLines level (marker kind) note) + noteWeight text := by
  rw [weight_noteLines (h.add ht), weight_noteLines h]
  cases hblank : isBlankString text <;> simp [noteWeight, hblank]

theorem weight_append (ls ms : List Format.Line) :
    Format.weight (ls ++ ms) = Format.weight ls + Format.weight ms := by
  simp [Format.weight]

/-- What one more note line adds. -/
theorem bodyWeight_mapNotes {b : Body} (h : Writable b) {kind : NoteKind} {text : String}
    (ht : IsNote kind text) :
    bodyWeight (b.mapNotes (State.addNote kind text)) ≤ bodyWeight b + noteWeight text := by
  have hnotes : ∀ {notes : Notes}, Grown notes →
      Format.weight (Format.noteLines 0 "description: " (State.addNote kind text notes).description ++
          Format.noteLines 0 "@ " (State.addNote kind text notes).intent) =
        Format.weight (Format.noteLines 0 "description: " notes.description ++
          Format.noteLines 0 "@ " notes.intent) + noteWeight text := by
    rintro notes ⟨⟨ds, hd⟩, ⟨is, hi⟩⟩
    rw [weight_append, weight_append]
    cases kind with
    | description =>
      have := weight_addLine hd ht 0
      simp only [marker, State.addNote] at this ⊢
      omega
    | intent =>
      have := weight_addLine hi ht 0
      simp only [marker, State.addNote] at this ⊢
      omega
  have hgrown := h.notes
  cases b with
  | classDecl c =>
    have := hnotes (hgrown _ rfl)
    simp only [bodyWeight, Body.mapNotes, Format.notesOf, Body.notes?, Format.header] at this ⊢
    omega
  | funcDecl f =>
    have := hnotes (hgrown _ rfl)
    simp only [bodyWeight, Body.mapNotes, Format.notesOf, Body.notes?, Format.header] at this ⊢
    omega
  | varDecl v =>
    have := hnotes (hgrown _ rfl)
    simp only [bodyWeight, Body.mapNotes, Format.notesOf, Body.notes?, Format.header] at this ⊢
    omega
  | root => exact Nat.le_add_right _ _
  | moduleImport m => exact Nat.le_add_right _ _
  | step s => exact Nat.le_add_right _ _

/-- A declaration weighs no more than its line. -/
theorem bodyWeight_le {l : LogicalLine} {node : LineNode}
    (h : Reading.ofTokens l.tokens = .node node) : bodyWeight node.body ≤ l.weight := by
  have hdeclares := declares_of_ofTokens h
  have hheader := countP_header_le foreign_marks hdeclares l.sound_tokens.2
    (n := ⟨0, none, [], 0, node.body⟩) rfl
  have htokens := l.tally_tokens foreign_marks
  have hnotes : Format.notesOf 0 node.body = [] := by
    have hnone := notes_of_declares hdeclares
    unfold Format.notesOf
    cases hn : node.body.notes? with
    | none => rfl
    | some notes =>
      rw [hnone notes hn]
      rfl
  have hweight : bodyWeight node.body ≤
      marks (Format.header ⟨0, none, [], 0, node.body⟩).toList + 1 := by
    unfold bodyWeight
    split
    · exact Nat.zero_le _
    · simp [hnotes, Format.weight]
  unfold LogicalLine.weight
  unfold marks at hweight ⊢
  omega

/-- A note weighs no more than its line. -/
theorem noteWeight_le {l : LogicalLine} {kind : NoteKind} {text : String}
    (h : Reading.ofTokens l.tokens = .note kind text) : noteWeight text ≤ l.weight := by
  have htokens := l.tally_tokens foreign_marks
  have htext : text.toList.countP (fun c => c = ',' || c = '\\') ≤
      tally (fun c => c = ',' || c = '\\') l.tokens := by
    have hremarks := remarks_of_ofTokens h
    generalize l.tokens = ts at hremarks
    cases hremarks with
    | intent t rest hk =>
      rw [tally_cons]
      simp only [chars, hk, List.countP_cons]
      omega
    | description k colon text =>
      have hrender := countP_render_le foreign_marks text
      rw [tally_cons, tally_cons]
      omega
  unfold noteWeight
  split
  · exact Nat.zero_le _
  · unfold LogicalLine.weight marks
    omega

/-! ## The account of a run -/

/-- The weight of the notes that wait in a scope. -/
def pendingWeight (scope : Scope) : Nat := (scope.pending.map fun p => noteWeight p.text).sum

/-- Everything in a table can be written, and it weighs no more than a budget. -/
structure Accounted (budget : Nat) (t : Table) : Prop where
  writable : ∀ b ∈ t.bodies, b ≠ .root → Writable b
  weight : (t.bodies.map bodyWeight).sum ≤ budget

namespace Accounted

variable {budget : Nat} {t : Table}

theorem push (h : Accounted budget t) (parent line : Nat) {body : Body} (hb : Writable body) :
    Accounted (budget + bodyWeight body) (t.push parent line body) := by
  have hbodies : (t.push parent line body).bodies = t.bodies ++ [body] :=
    Table.map_push (fun _ _ => rfl) t parent line body
  refine ⟨?_, ?_⟩
  · rw [hbodies]
    intro b hmem hne
    rcases List.mem_append.mp hmem with hmem | hmem
    · exact h.writable b hmem hne
    · obtain rfl := List.mem_singleton.mp hmem
      exact hb
  · have := h.weight
    rw [hbodies, List.map_append, List.sum_append]
    simp only [List.map_cons, List.map_nil, List.sum_cons, List.sum_nil]
    omega

theorem modify (h : Accounted budget t) (uid : Nat) {kind : NoteKind} {text : String}
    (ht : IsNote kind text) :
    Accounted (budget + noteWeight text) (t.modify uid (State.noted kind text)) := by
  have hbodies : (t.modify uid (State.noted kind text)).bodies =
      t.bodies.modify uid (Body.mapNotes (State.addNote kind text)) :=
    Table.map_modify (f := Node.body) (g := State.noted kind text) (fun n => rfl) t uid
  refine ⟨?_, ?_⟩
  · rw [hbodies]
    intro b hmem hne
    rcases mem_modify hmem with hmem | ⟨b', hb', rfl⟩
    · exact h.writable b hmem hne
    · refine (h.writable b' hb' ?_).mapNotes ht
      rintro rfl
      exact hne rfl
  · rw [hbodies]
    refine Nat.le_trans (sum_modify_le (c := noteWeight text) ?_ uid) ?_
    · intro b hb
      by_cases hroot : b = .root
      · subst hroot
        exact Nat.zero_le _
      · exact bodyWeight_mapNotes (h.writable b hb hroot) ht
    · exact Nat.add_le_add_right h.weight _

theorem withNotes (h : Accounted budget t) (uid : Nat) {notes : List PendingNote}
    (hnotes : ∀ p ∈ notes, IsNote p.kind p.text) :
    Accounted (budget + (notes.map fun p => noteWeight p.text).sum)
      (State.withNotes t uid notes) := by
  unfold State.withNotes
  induction notes generalizing t budget with
  | nil => exact h
  | cons p ps ih =>
    have hp := h.modify uid (hnotes p List.mem_cons_self)
    have hrest := ih hp fun q hq => hnotes q (List.mem_cons_of_mem _ hq)
    rw [List.foldl_cons, List.map_cons, List.sum_cons, ← Nat.add_assoc]
    exact hrest

end Accounted

/-- A state has taken in no more than a budget, and what waits in its scopes can be written. -/
structure Accounts (budget : Nat) (s : State) : Prop where
  table : ∃ spent, Accounted spent s.table ∧ spent + (s.scopes.map pendingWeight).sum ≤ budget
  pending : ∀ scope ∈ s.scopes, ∀ p ∈ scope.pending, IsNote p.kind p.text

namespace Accounts

variable {budget : Nat} {s : State}

theorem initial : Accounts 0 .initial where
  table := by
    refine ⟨0, ⟨?_, ?_⟩, Nat.le_refl 0⟩
    · intro b hb hne
      exact absurd (List.mem_singleton.mp hb) hne
    · exact Nat.le_refl 0
  pending := by
    intro scope hscope p hp
    obtain rfl := List.mem_singleton.mp hscope
    cases hp

theorem mono (h : Accounts budget s) {more : Nat} (hle : budget ≤ more) : Accounts more s := by
  obtain ⟨⟨spent, hspent, hsum⟩, hpending⟩ := h
  exact ⟨⟨spent, hspent, Nat.le_trans hsum hle⟩, hpending⟩

/-- The account is one of the table and the open scopes. -/
theorem congr {s' : State} (h : Accounts budget s) (ht : s'.table = s.table)
    (hs : s'.scopes = s.scopes) : Accounts budget s' := by
  obtain ⟨htable, hpending⟩ := h
  exact ⟨by rw [ht, hs]; exact htable, by rw [hs]; exact hpending⟩

theorem closing (h : Accounts budget s) {count : Nat} (hc : count ≤ s.outer.length) :
    Accounts budget (s.closing count) := by
  obtain ⟨⟨spent, hspent, hsum⟩, hpending⟩ := h
  have hdrop := ((List.drop_sublist count s.scopes).map pendingWeight).sum_le_sum
    fun _ _ => Nat.zero_le _
  refine ⟨⟨spent, hspent, ?_⟩, ?_⟩
  · rw [State.scopes_closing hc]
    omega
  · rw [State.scopes_closing hc]
    exact fun scope hscope => hpending scope (List.mem_of_mem_drop hscope)

theorem arrive (h : Accounts budget s) {l : LogicalLine} {s' : State}
    (ha : State.Arrives s l s') : Accounts budget s' := by
  cases ha with
  | further level skipping => exact h.congr rfl rfl
  | opened uid type explicit line content level reading opener =>
    obtain ⟨⟨spent, hspent, hsum⟩, hpending⟩ := h
    refine ⟨⟨spent, hspent, ?_⟩, ?_⟩
    · have hnew : pendingWeight (.new uid type) = 0 := rfl
      simp only [State.scopes, List.map_cons, List.sum_cons, hnew] at hsum ⊢
      omega
    · intro scope hscope
      rcases List.mem_cons.mp hscope with rfl | hscope
      · exact fun p hp => by cases hp
      · exact hpending scope hscope
  | dropped level reading opener => exact h.congr rfl rfl
  | unexpected level reading opener => exact h.congr rfl rfl
  | back level =>
    refine Accounts.closing ?_ (Nat.sub_le _ _)
    exact h.congr rfl rfl

/-- A note goes to the table or waits. -/
theorem note (h : Accounts budget s) {kind : NoteKind} {text : String} (ht : IsNote kind text)
    (line : Nat) (content : String) :
    Accounts (budget + noteWeight text) (s.note kind text line content) := by
  obtain ⟨⟨spent, hspent, hsum⟩, hpending⟩ := h
  unfold State.note
  cases hd : s.scope.lastDecl with
  | some uid =>
    -- it is spent at once
    refine ⟨⟨_, hspent.modify uid ht, ?_⟩, hpending⟩
    simp only [State.scopes_attach]
    omega
  | none =>
    -- it waits
    refine ⟨⟨spent, hspent, ?_⟩, ?_⟩
    · simp only [State.scopes, List.map_cons, List.sum_cons, pendingWeight, List.map_append,
        List.sum_append, List.map_nil, List.sum_nil] at hsum ⊢
      omega
    · intro scope hscope p hp
      rcases List.mem_cons.mp hscope with rfl | hscope
      · rcases List.mem_append.mp hp with hp | hp
        · exact hpending s.scope List.mem_cons_self p hp
        · obtain rfl := List.mem_singleton.mp hp
          exact ht
      · exact hpending scope (List.mem_cons_of_mem _ hscope) p hp

/-- A node goes to the table, and takes the notes with it that have waited for it. -/
theorem add (h : Accounts budget s) {node : LineNode} (hb : Writable node.body) (line : Nat)
    (tokens : List Token) : Accounts (budget + bodyWeight node.body) (s.add node line tokens) := by
  obtain ⟨⟨spent, hspent, hsum⟩, hpending⟩ := h
  have hpushed := hspent.push s.scope.uid line hb
  have hscope := hpending s.scope List.mem_cons_self
  rw [State.add_eq]
  cases hd : node.body.isDeclaration with
  | true =>
    -- what has waited is spent with it
    have hnoted := hpushed.withNotes s.table.size hscope
    rw [if_pos rfl]
    refine ⟨⟨_, hnoted, ?_⟩, ?_⟩
    · have hnone : pendingWeight (s.scope.extended s.table.size node.body) = 0 := by
        simp [pendingWeight, Scope.extended, hd]
      have htaken : (s.scope.pending.map fun p => noteWeight p.text).sum =
          pendingWeight s.scope := rfl
      simp only [State.scopes, List.map_cons, List.sum_cons, hnone, htaken] at hsum ⊢
      omega
    · intro scope hscope p hp
      rcases List.mem_cons.mp hscope with rfl | hscope
      · simp [Scope.extended, hd] at hp
      · exact hpending scope (List.mem_cons_of_mem _ hscope) p hp
  | false =>
    rw [if_neg (by simp)]
    refine ⟨⟨_, hpushed, ?_⟩, ?_⟩
    · have hsame : pendingWeight (s.scope.extended s.table.size node.body) =
          pendingWeight s.scope := by
        simp [pendingWeight, Scope.extended, hd]
      simp only [State.scopes, List.map_cons, List.sum_cons, hsame] at hsum ⊢
      omega
    · intro scope hscope p hp
      rcases List.mem_cons.mp hscope with rfl | hscope
      · have : p ∈ s.scope.pending := by simpa [Scope.extended, hd] using hp
        exact hpending s.scope List.mem_cons_self p this
      · exact hpending scope (List.mem_cons_of_mem _ hscope) p hp

/-- **Reading a line takes in no more than the line.** -/
theorem read (h : Accounts budget s) {l : LogicalLine} (hfeed : '\n' ∉ l.text.toList)
    (hl : l.level ≤ s.depth + 1) : Accounts (budget + l.weight) (s.read l) := by
  obtain ⟨harr, ht⟩ := State.read_cases hl
  have hmoved := h.arrive harr
  generalize s.arrive l = s₁ at ht hmoved
  generalize s.read l = s₂ at ht ⊢
  cases ht with
  | passed hp => exact hmoved.mono (Nat.le_add_right _ _)
  | noted kind text ne reading meaning =>
    have hnote := hmoved.note (isNote_of_ofTokens hfeed meaning) l.number (render l.tokens)
    exact hnote.mono (Nat.add_le_add_left (noteWeight_le meaning) _)
  | faulty fault ne reading meaning =>
    refine Accounts.mono ?_ (Nat.le_add_right _ _)
    exact hmoved.congr rfl rfl
  | refused node ne reading meaning refuses =>
    refine Accounts.mono ?_ (Nat.le_add_right _ _)
    exact hmoved.congr rfl rfl
  | added node ne reading meaning allows =>
    have hreported : Accounts budget (s₁.reportAll node.repeated l.number (render l.tokens)) :=
      hmoved.congr rfl rfl
    have hadd := hreported.add (writable_of_ofTokens hfeed ne meaning) l.number l.tokens
    exact hadd.mono (Nat.add_le_add_left (bodyWeight_le meaning) _)

end Accounts

/-- **A run takes in no more than its lines**, and nothing that cannot be written. -/
theorem accounts_readAll {ls : List LogicalLine} {budget : Nat} {s : State}
    (h : Accounts budget s) (hfeed : ∀ l ∈ ls, '\n' ∉ l.text.toList) (hls : Climbs s.depth ls) :
    Accounts (budget + (ls.map LogicalLine.weight).sum) (readAll s ls) := by
  induction ls generalizing s budget with
  | nil => exact h
  | cons l ls ih =>
    have hread := h.read (hfeed l List.mem_cons_self) hls.1
    have hrest : Climbs (s.read l).depth ls := by
      rw [State.depth_read hls.1]
      exact hls.2
    have hall := ih hread (fun m hm => hfeed m (List.mem_cons_of_mem _ hm)) hrest
    rw [List.map_cons, List.sum_cons, ← Nat.add_assoc]
    exact hall

end Parser

end IntentCode
