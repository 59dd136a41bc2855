import IntentCode.Proofs.Lexer.Content
import IntentCode.Proofs.Lexer.Levels
import IntentCode.Proofs.Parser.Lines

/-!
# What the parser does with one line

A line is read in two moves: the layout before it opens or closes scopes, and then its content is
taken. Each of the two is one function with many exits, and every statement about a run would have
to go through all of them. This file goes through them once. `Arrives` lists what the layout can do
and `Takes` what the content can do, guards included; an invariant of the parser is then a case
analysis over five cases and never unfolds `step`.

The state is seen from a logical line here, not from a token stream: `State.read` makes the move
that leads from the depth of the state to the level of the line. `run_linesAt` says that this is the
run over the stream, as long as no line is more than one level deeper than the one before.
-/

set_option autoImplicit false

namespace IntentCode.Parser

open Ast

/-! ## Lines of a stream from logical lines -/

/-- The move from a level to that of a line. -/
def moveTo (level : Nat) (l : LogicalLine) : Move :=
  if l.level = level + 1 then .deeper l.number else .back (level - l.level)

/-- A line of the stream, coming from a level. -/
def lineAt (level : Nat) (l : LogicalLine) : Line := ⟨moveTo level l, l.tokens⟩

def linesAt (level : Nat) : List LogicalLine → List Line
  | [] => []
  | l :: ls => lineAt level l :: linesAt l.level ls

namespace State

/-- The open levels: the scopes below the top level, and the levels that are being skipped. -/
def depth (s : State) : Nat := s.outer.length + s.skipped

theorem depth_of_reading {s : State} (h : s.skipped = 0) : s.depth = s.outer.length := by
  rw [depth, h, Nat.add_zero]

/-- The open scopes, the innermost first. -/
def scopes (s : State) : List Scope := s.scope :: s.outer

/-- Reads a logical line. -/
def read (s : State) (l : LogicalLine) : State := s.step (lineAt s.depth l)

/-- The state after the layout before a logical line. -/
def arrive (s : State) (l : LogicalLine) : State := s.move (moveTo s.depth l) l.tokens

/-! ## Reports and notes -/

/-- Several complaints about one line. -/
def reportAll (s : State) (complaints : List Complaint) (line : Nat) (content : String) : State :=
  { s with findings := s.findings ++ complaints.map fun c => ⟨c, line, content⟩ }

theorem foldl_report (s : State) (complaints : List Complaint) (line : Nat) (content : String) :
    complaints.foldl (fun s c => s.report c line content) s =
      s.reportAll complaints line content := by
  induction complaints generalizing s with
  | nil => simp [reportAll]
  | cons c cs ih =>
    rw [List.foldl_cons, ih]
    simp [report, reportAll]

/-- What a scope reports when it closes. -/
def pendingFindings (scope : Scope) : List Finding :=
  scope.pending.map fun p => ⟨.detachedNote p.kind, p.line, p.content⟩

theorem reportPending_eq (s : State) (scope : Scope) :
    s.reportPending scope = { s with findings := s.findings ++ pendingFindings scope } := by
  unfold reportPending pendingFindings
  induction scope.pending generalizing s with
  | nil => simp
  | cons p ps ih =>
    rw [List.foldl_cons, ih]
    simp [report]

/-- What is reported if no block follows. -/
def missingBlock : Opener → List Finding
  | .block _ _ true line content => [⟨.expectedBlock, line, content⟩]
  | _ => []

theorem mem_missingBlock {opener : Opener} {f : Finding} (h : f ∈ missingBlock opener) :
    f.complaint = .expectedBlock ∧
      ∃ uid type content, opener = .block uid type true f.line content := by
  unfold missingBlock at h
  split at h
  · obtain rfl := List.mem_singleton.mp h
    exact ⟨rfl, _, _, _, rfl⟩
  · cases h

theorem closeOpener_eq (s : State) :
    s.closeOpener = { s with opener := .none, findings := s.findings ++ missingBlock s.opener } := by
  unfold closeOpener missingBlock
  cases h : s.opener with
  | block uid type explicit line content => cases explicit <;> simp [report]
  | none => simp
  | rejected => simp

/-- Adds a line to the note of a node. -/
def noted (kind : NoteKind) (text : String) (n : Node) : Node :=
  { n with body := n.body.mapNotes (addNote kind text) }

theorem attach_eq (s : State) (uid : Nat) (kind : NoteKind) (text : String) :
    s.attach uid kind text = { s with table := s.table.modify uid (noted kind text) } := rfl

/-- The table after several notes have gone to one node. -/
def withNotes (t : Table) (uid : Nat) (notes : List PendingNote) : Table :=
  notes.foldl (fun t p => t.modify uid (noted p.kind p.text)) t

theorem foldl_attach (s : State) (uid : Nat) (notes : List PendingNote) :
    notes.foldl (fun s p => s.attach uid p.kind p.text) s =
      { s with table := withNotes s.table uid notes } := by
  induction notes generalizing s with
  | nil => rfl
  | cons p ps ih =>
    rw [List.foldl_cons, ih, attach_eq]
    rfl

/-! ## Adding a node -/

end State

/-- A scope after the node `uid` has been added to it. -/
def Scope.extended (scope : Scope) (uid : Nat) (body : Body) : Scope :=
  { scope with
    last := some body.type
    lastDecl := if body.isDeclaration then some uid else scope.lastDecl
    declared :=
      match body.declaredName? with
      | some name =>
        if scope.declared.contains name then scope.declared else scope.declared ++ [name]
      | none => scope.declared
    pending := if body.isDeclaration then [] else scope.pending }

namespace State

/-- The complaint about a name that its scope has declared already. -/
def redeclaration (scope : Scope) (body : Body) : List Complaint :=
  match body.declaredName? with
  | some name => if scope.declared.contains name then [.redeclared body.type name] else []
  | none => []

theorem mem_redeclaration {scope : Scope} {body : Body} {c : Complaint}
    (h : c ∈ redeclaration scope body) : ∃ name, c = .redeclared body.type name := by
  unfold redeclaration at h
  split at h
  · split at h
    · exact ⟨_, List.mem_singleton.mp h⟩
    · cases h
  · cases h

theorem code_redeclaration {scope : Scope} {body : Body} :
    ∀ c ∈ redeclaration scope body, c.code ≠ .detachedNote := by
  intro c hc
  obtain ⟨name, rfl⟩ := mem_redeclaration hc
  simp [Complaint.code]

theorem add_eq (s : State) (node : LineNode) (line : Nat) (tokens : List Token) :
    s.add node line tokens =
      { s with
        table :=
          withNotes (s.table.push s.scope.uid line node.body) s.table.size
            (if node.body.isDeclaration then s.scope.pending else [])
        scope := s.scope.extended s.table.size node.body
        opener :=
          if node.acceptsBlock then
            .block s.table.size node.body.type node.explicit line (Token.render tokens)
          else s.opener
        findings :=
          s.findings ++
            (redeclaration s.scope node.body).map fun c => ⟨c, line, Token.render tokens⟩ } := by
  unfold add
  rw [foldl_attach]
  unfold redeclaration Scope.extended
  cases hn : node.body.declaredName? with
  | none => simp
  | some name =>
    simp only
    split <;> simp [report]

/-! ## The layout before a line -/

/-- The state with the innermost `count` scopes closed; the top level stays. -/
def closing (s : State) (count : Nat) : State :=
  { s with
    scope := (s.scopes.drop count).headD s.scope
    outer := s.outer.drop count
    findings := s.findings ++ (s.scopes.take count).flatMap pendingFindings }

/-- **What one level back does**: it leaves a skipped level if there is one, else the innermost scope, and
there is no way back from the top level. -/
theorem leave?_eq (s : State) :
    s.leave? =
      if 0 < s.skipped then some { s with skipped := s.skipped - 1 }
      else if s.outer = [] then none
      else some (s.closing 1) := by
  unfold leave?
  split
  · rfl
  · cases hs : s.outer with
    | nil => rfl
    | cons next outer => simp [reportPending_eq, closing, scopes, hs]

theorem leave_eq_of_skipped {s : State} (h : 0 < s.skipped) :
    s.leave = { s with skipped := s.skipped - 1 } := by
  rw [leave, leave?_eq, if_pos h, Option.getD_some]

theorem leave_eq_closing {s : State} (h : s.skipped = 0) (ho : s.outer ≠ []) :
    s.leave = s.closing 1 := by
  rw [leave, leave?_eq, if_neg (by omega), if_neg ho, Option.getD_some]

/-- There is a way back exactly if a level is open. -/
theorem leave?_eq_none_iff {s : State} : s.leave? = none ↔ s.depth = 0 := by
  rw [leave?_eq, depth]
  split
  · simp only [reduceCtorEq, false_iff]
    omega
  · split
    · next ho => simp [ho]; omega
    · next ho => simp [ho]

/-- The way back leads out by one level. -/
theorem depth_of_leave? {s next : State} (h : s.leave? = some next) : s.depth = next.depth + 1 := by
  rw [leave?_eq] at h
  split at h
  · next hs =>
    cases h
    simp only [depth]
    omega
  · split at h
    · cases h
    · next hs ho =>
      have hpos : 0 < s.outer.length := List.length_pos_iff.mpr ho
      cases h
      simp only [depth, closing, List.length_drop]
      omega

theorem scopes_closing {s : State} {count : Nat} (h : count ≤ s.outer.length) :
    (s.closing count).scopes = s.scopes.drop count := by
  have hc : count < s.scopes.length := by simp [scopes]; omega
  simp only [closing, scopes] at hc ⊢
  rw [List.drop_eq_getElem_cons hc]
  simp

theorem closing_closing {s : State} {m n : Nat} (h : m + n ≤ s.outer.length) :
    (s.closing m).closing n = s.closing (m + n) := by
  have hs : (s.closing m).scopes = s.scopes.drop m := scopes_closing (by omega)
  have hn : m + n < s.scopes.length := by simp [scopes]; omega
  unfold closing at *
  simp only [hs, List.drop_drop, List.append_assoc, State.mk.injEq, true_and,
    List.append_cancel_left_eq]
  refine ⟨?_, ?_⟩
  · rw [List.drop_eq_getElem_cons hn]
    rfl
  · rw [← List.flatMap_append]
    congr 1
    rw [List.take_add]

/-- Going back first leaves the skipped levels and then closes scopes. -/
theorem repeat_leave {s : State} {levels : Nat} (h : levels ≤ s.depth) :
    levels.repeat leave s =
      { s with skipped := s.skipped - levels }.closing (levels - s.skipped) := by
  induction levels with
  | zero => simp [Nat.repeat, closing, scopes]
  | succ levels ih =>
    rw [Nat.repeat, ih (by omega)]
    unfold depth at h
    by_cases hk : levels < s.skipped
    · -- still inside the skipped block
      have h0 : levels - s.skipped = 0 := by omega
      have h1 : levels + 1 - s.skipped = 0 := by omega
      rw [h0, h1, leave_eq_of_skipped (by simp [closing]; omega)]
      simp [closing, scopes]
      omega
    · have h0 : s.skipped - levels = 0 := by omega
      have h1 : s.skipped - (levels + 1) = 0 := by omega
      have h2 : levels + 1 - s.skipped = levels - s.skipped + 1 := by omega
      rw [h0, h1, h2, leave_eq_closing rfl, closing_closing]
      · simp only
        omega
      · simp only [closing, ne_eq, List.drop_eq_nil_iff]
        omega

/-- Where the layout before a line leads. -/
inductive Arrives (s : State) (l : LogicalLine) : State → Prop
  /-- Deeper into a block that is being skipped. -/
  | further (level : l.level = s.depth + 1) (skipping : 0 < s.skipped) :
    Arrives s l { s with skipped := s.skipped + 1 }
  /-- Into the block that the line before announced. -/
  | opened (uid : Nat) (type : NodeType) (explicit : Bool) (line : Nat) (content : String)
    (level : l.level = s.depth + 1) (reading : s.skipped = 0)
    (opener : s.opener = .block uid type explicit line content) :
    Arrives s l { s with scope := .new uid type, outer := s.scopes, opener := .none }
  /-- Into the block of a rejected line. -/
  | dropped (level : l.level = s.depth + 1) (reading : s.skipped = 0)
    (opener : s.opener = .rejected) :
    Arrives s l { s with opener := .none, skipped := 1 }
  /-- Into a block that nothing announced. -/
  | unexpected (level : l.level = s.depth + 1) (reading : s.skipped = 0)
    (opener : s.opener = .none) :
    Arrives s l
      { s with
        opener := .none
        skipped := 1
        findings :=
          s.findings ++ [⟨.unexpectedIndentation, l.number, Token.render l.tokens⟩] }
  /-- To the level of an open scope, or to one that is being skipped. -/
  | back (level : l.level ≤ s.depth) :
    Arrives s l
      ({ s with
        opener := .none
        skipped := l.level - s.outer.length
        findings := s.findings ++ missingBlock s.opener }.closing (s.outer.length - l.level))

theorem arrives {s : State} {l : LogicalLine} (h : l.level ≤ s.depth + 1) :
    Arrives s l (s.arrive l) := by
  unfold arrive moveTo
  split
  · next hl =>
    simp only [move]
    unfold enter
    split
    · next hs => exact .further hl hs
    · next hs =>
      have h0 : s.skipped = 0 := by omega
      cases ho : s.opener with
      | none => exact .unexpected hl h0 ho
      | block uid type explicit line content => exact .opened uid type explicit line content hl h0 ho
      | rejected => exact .dropped hl h0 ho
  · next hl =>
    have hle : l.level ≤ s.depth := by omega
    have hrep : (s.depth - l.level).repeat leave s.closeOpener = _ :=
      repeat_leave (by simp [closeOpener_eq, depth])
    simp only [move]
    rw [hrep, closeOpener_eq]
    unfold depth at *
    have h1 : s.skipped - (s.outer.length + s.skipped - l.level) = l.level - s.outer.length := by
      omega
    have h2 : s.outer.length + s.skipped - l.level - s.skipped = s.outer.length - l.level := by
      omega
    simp only [h1, h2]
    exact .back hle

/-- The depth after the layout before a line is the level of the line. -/
theorem Arrives.depth_eq {s s' : State} {l : LogicalLine} (h : Arrives s l s') :
    s'.depth = l.level := by
  cases h with
  | further hl hs => simp only [depth] at *; omega
  | opened uid type explicit line content hl hs ho =>
    simp only [depth, scopes, List.length_cons] at *
    omega
  | dropped hl hs ho => simp only [depth] at *; omega
  | unexpected hl hs ho => simp only [depth] at *; omega
  | back hl => simp only [depth, closing, List.length_drop] at *; omega

/-! ## What the layout leaves alone -/

theorem table_leave (s : State) : s.leave.table = s.table := by
  rw [leave, leave?_eq]
  split
  · rfl
  · split <;> rfl

theorem table_move (s : State) (m : Move) (tokens : List Token) :
    (s.move m tokens).table = s.table := by
  cases m with
  | deeper line =>
    simp only [move, enter]
    split
    · rfl
    · split <;> rfl
  | back levels =>
    simp only [move]
    induction levels with
    | zero => rw [Nat.repeat, closeOpener_eq]
    | succ levels ih => rw [Nat.repeat, table_leave, ih]

/-- Closing what is open at the end adds nothing to the tree. -/
theorem table_close (s : State) : s.close.table = s.table := by
  have hfold : ∀ (scopes : List Scope) (s : State),
      (scopes.foldl reportPending s).table = s.table := by
    intro scopes
    induction scopes with
    | nil => exact fun s => rfl
    | cons scope scopes ih =>
      intro s
      rw [List.foldl_cons, ih, reportPending_eq]
  simp only [close]
  rw [hfold, closeOpener_eq]

theorem table_finish (s : State) (trailing : Move) : (s.finish trailing).table = s.table := by
  rw [finish, table_close, table_move]

/-! ## The content of a line -/

end State

/-- What the tokens of a line say, whatever stands around it. -/
inductive Reading where
  | note (kind : NoteKind) (text : String)
  | node (node : LineNode)
  | fault (fault : HeaderFault)

namespace Reading

/-- The reading of a `description` line, from the tokens after the word. -/
def ofDescription : List Token → Reading
  | [] => .fault .descriptionWithoutColon
  | t :: text =>
    if t.kind = .colon then .note .description (Token.render text)
    else .fault .descriptionWithoutColon

def ofTokens (ts : List Token) : Reading :=
  match ts with
  | [] => .node (stepLine [])
  | t :: rest =>
    if t.kind = .intent then .note .intent t.text
    else if t.isKeyword "description" then ofDescription rest
    else
      match lineNode ts with
      | .ok n => .node n
      | .error f => .fault f

end Reading

namespace State

/-- Why a scope does not take a node. -/
def refusal (scope : Scope) (node : LineNode) : Complaint :=
  if node.body.type = .moduleImport ∧ scope.type = .root then .lateModule
  else .notAllowed node.body.type scope.type scope.allowed

theorem code_refusal (scope : Scope) (node : LineNode) :
    (refusal scope node).code ≠ .detachedNote := by
  unfold refusal
  split <;> simp [Complaint.code]

/-- What becomes of a line's content. -/
inductive Takes (s : State) (l : LogicalLine) : State → Prop
  /-- An empty line, or a line in a skipped block. -/
  | passed (h : l.tokens = [] ∨ 0 < s.skipped) : Takes s l s
  | noted (kind : NoteKind) (text : String) (ne : l.tokens ≠ []) (reading : s.skipped = 0)
    (meaning : Reading.ofTokens l.tokens = .note kind text) :
    Takes s l (s.note kind text l.number (Token.render l.tokens))
  | faulty (fault : HeaderFault) (ne : l.tokens ≠ []) (reading : s.skipped = 0)
    (meaning : Reading.ofTokens l.tokens = .fault fault) :
    Takes s l (s.reject (.malformed fault) l.number l.tokens (opensSkipped l.tokens))
  | refused (node : LineNode) (ne : l.tokens ≠ []) (reading : s.skipped = 0)
    (meaning : Reading.ofTokens l.tokens = .node node)
    (refuses : s.scope.allowed.allows node.body.type = false) :
    Takes s l
      ((s.reportAll node.repeated l.number (Token.render l.tokens)).reject (refusal s.scope node)
        l.number l.tokens (opensSkipped l.tokens || node.acceptsBlock))
  | added (node : LineNode) (ne : l.tokens ≠ []) (reading : s.skipped = 0)
    (meaning : Reading.ofTokens l.tokens = .node node)
    (allows : s.scope.allowed.allows node.body.type = true) :
    Takes s l
      ((s.reportAll node.repeated l.number (Token.render l.tokens)).add node l.number l.tokens)

theorem content_eq {s : State} {first : Token} {rest : List Token} :
    s.content first (first :: rest) =
      match Reading.ofTokens (first :: rest) with
      | .note kind text => s.note kind text first.line (Token.render (first :: rest))
      | .fault fault =>
        s.reject (.malformed fault) first.line (first :: rest) (opensSkipped (first :: rest))
      | .node node =>
        (s.reportAll node.repeated first.line (Token.render (first :: rest))).accept node
          first.line (first :: rest) := by
  unfold content Reading.ofTokens
  by_cases hi : first.kind = .intent
  · simp [hi]
  · by_cases hd : first.isKeyword "description" = true
    · simp only [hi, hd, if_false, if_true, List.drop_succ_cons, List.drop_zero]
      cases rest with
      | nil => rfl
      | cons colon text =>
        simp only [Reading.ofDescription]
        by_cases hc : colon.kind = .colon <;> simp [hc]
    · simp only [hi, hd, if_false]
      cases hn : lineNode (first :: rest) with
      | error fault => simp
      | ok node => simp [foldl_report]

theorem takes (s : State) (l : LogicalLine) :
    Takes s l (s.line l.tokens) := by
  unfold line
  cases ht : l.tokens with
  | nil => exact .passed (.inl ht)
  | cons first rest =>
    have hne : l.tokens ≠ [] := by simp [ht]
    have hline : first.line = l.number := LogicalLine.line_of_mem_tokens (by simp [ht])
    simp only
    split
    · next hs => exact .passed (.inr hs)
    · next hs =>
      have h0 : s.skipped = 0 := by omega
      rw [content_eq, hline, ← ht]
      cases hr : Reading.ofTokens l.tokens with
      | note kind text => exact .noted kind text hne h0 hr
      | fault fault => exact .faulty fault hne h0 hr
      | node node =>
        simp only [accept]
        split
        · next ha => exact .added node hne h0 hr ha
        · next ha => exact .refused node hne h0 hr (eq_false_of_ne_true ha)

/-- What becomes of a line's content is determined. -/
theorem Takes.unique {s s₁ s₂ : State} {l : LogicalLine} (h₁ : Takes s l s₁) (h₂ : Takes s l s₂) :
    s₁ = s₂ := by
  cases h₁ <;> cases h₂ <;> grind

/-- **What reading a line does**: the layout leads somewhere, and there the content is taken. -/
theorem read_cases {s : State} {l : LogicalLine} (h : l.level ≤ s.depth + 1) :
    Arrives s l (s.arrive l) ∧ Takes (s.arrive l) l (s.read l) :=
  ⟨arrives h, takes (s.arrive l) l⟩

/-! ## What content leaves alone -/

@[simp] theorem scopes_attach (s : State) (uid : Nat) (kind : NoteKind) (text : String) :
    (s.attach uid kind text).scopes = s.scopes := rfl

theorem note_outer (s : State) (kind : NoteKind) (text : String) (line : Nat) (content : String) :
    (s.note kind text line content).outer = s.outer ∧
      (s.note kind text line content).skipped = s.skipped := by
  unfold note
  split <;> exact ⟨rfl, rfl⟩

/-- Content opens and closes nothing. -/
theorem Takes.outer_eq {s s' : State} {l : LogicalLine} (h : Takes s l s') :
    s'.outer = s.outer ∧ s'.skipped = s.skipped := by
  cases h with
  | passed => exact ⟨rfl, rfl⟩
  | noted kind text => exact note_outer s kind text _ _
  | faulty => exact ⟨rfl, rfl⟩
  | refused => exact ⟨rfl, rfl⟩
  | added node =>
    rw [add_eq]
    exact ⟨rfl, rfl⟩

/-- A line that is rejected opens no block. -/
theorem opener_reject (s : State) (complaint : Complaint) (line : Nat) (tokens : List Token)
    (opens : Bool) (uid : Nat) (type : NodeType) (explicit : Bool) (number : Nat) (content : String) :
    (s.reject complaint line tokens opens).opener ≠ .block uid type explicit number content := by
  intro ho
  simp only [reject, report] at ho
  split at ho <;> cases ho

theorem Takes.depth_eq {s s' : State} {l : LogicalLine} (h : Takes s l s') :
    s'.depth = s.depth := by
  unfold depth
  rw [h.outer_eq.1, h.outer_eq.2]

/-- **The open levels after a line are the level of the line.** -/
theorem depth_read {s : State} {l : LogicalLine} (h : l.level ≤ s.depth + 1) :
    (s.read l).depth = l.level := by
  obtain ⟨ha, ht⟩ := read_cases h
  rw [ht.depth_eq, ha.depth_eq]

end State

/-! ## Runs -/

/-- The state after some lines. -/
def readAll (s : State) (ls : List LogicalLine) : State := ls.foldl State.read s

/-- Each line is at most one level deeper than the one before. -/
def Climbs (level : Nat) : List LogicalLine → Prop
  | [] => True
  | l :: ls => l.level ≤ level + 1 ∧ Climbs l.level ls

theorem climbs_of_lexes {level : Nat} {ls : List LogicalLine} (h : Lexer.Lexes level ls) :
    Climbs level ls := by
  induction ls generalizing level with
  | nil => trivial
  | cons l ls ih => exact ⟨h.2.1, ih h.2.2.2⟩

/-- Lines that climb lex if each of them does. -/
theorem lexes_of_climbs {level : Nat} {ls : List LogicalLine} (h : Climbs level ls)
    (hls : ∀ l ∈ ls, l.indent = l.level * Lexer.indentUnit ∧
      ∃ scanned, Lexer.scan l.text.toList l.number l.raw = .ok scanned) :
    Lexer.Lexes level ls := by
  induction ls generalizing level with
  | nil => trivial
  | cons l ls ih =>
    obtain ⟨hindent, hscan⟩ := hls l List.mem_cons_self
    exact ⟨hindent, h.1, hscan, ih h.2 fun m hm => hls m (List.mem_cons_of_mem _ hm)⟩

theorem readAll_append (s : State) (ls ms : List LogicalLine) :
    readAll s (ls ++ ms) = readAll (readAll s ls) ms := List.foldl_append

theorem climbs_append {level : Nat} {ls ms : List LogicalLine} :
    Climbs level (ls ++ ms) ↔
      Climbs level ls ∧ Climbs (LogicalLine.lastLevel level ls) ms := by
  induction ls generalizing level with
  | nil => simp [Climbs]
  | cons l ls ih => simp [Climbs, ih, and_assoc]

theorem depth_readAll {s : State} {ls : List LogicalLine} (h : Climbs s.depth ls) :
    (readAll s ls).depth = LogicalLine.lastLevel s.depth ls := by
  induction ls generalizing s with
  | nil => rfl
  | cons l ls ih =>
    have hd := State.depth_read h.1
    have := ih (s := s.read l) (by rw [hd]; exact h.2)
    rw [LogicalLine.lastLevel_cons, ← hd]
    exact this

/-- The run over the lines of the stream reads the logical lines. -/
theorem foldl_step_linesAt {s : State} {ls : List LogicalLine} (h : Climbs s.depth ls) :
    (linesAt s.depth ls).foldl State.step s = readAll s ls := by
  induction ls generalizing s with
  | nil => rfl
  | cons l ls ih =>
    have hd := State.depth_read h.1
    have hls : Climbs (s.read l).depth ls := by
      rw [hd]
      exact h.2
    have := ih hls
    rw [hd] at this
    exact this

end IntentCode.Parser
