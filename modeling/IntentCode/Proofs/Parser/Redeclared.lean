import IntentCode.Proofs.Parser.Placed

/-!
# Names that are declared twice

Every scope remembers the names that have been declared in it. `Known` says that these are the names in
the rows of that scope so far, and that what has been reported is exactly one finding for each row
whose name its scope had already, in order (`redeclared`). A line that is rejected or lost gives no row,
so it neither causes a report nor gets one.
-/

set_option autoImplicit false

namespace IntentCode

namespace Ast

/-! ## Names in rows -/

/-- The names that are declared in a scope, in the order of the source. -/
def namesIn (uid : Nat) : List Row → List String
  | [] => []
  | r :: before =>
    namesIn uid before ++
      if uid = parentOf before r.level then r.body.declaredName?.toList else []

/-- The name of a row is declared in its scope by the rows before it. -/
def Redeclares (r : Row) (before : List Row) : Prop :=
  ∃ name, r.body.declaredName? = some name ∧ name ∈ namesIn (parentOf before r.level) before

instance (r : Row) (before : List Row) : Decidable (Redeclares r before) :=
  decidable_of_iff (∃ name ∈ r.body.declaredName?, name ∈ namesIn (parentOf before r.level) before)
    Iff.rfl

/-- The rows with a name that their scope had already, in the order of the source. -/
def redeclared : List Row → List Row
  | [] => []
  | r :: before => redeclared before ++ if Redeclares r before then [r] else []

/-- Nothing hangs from a row that is still to come, or from the last one. -/
theorem namesIn_of_le {uid : Nat} {rs : List Row} (h : rs.length ≤ uid) (hne : rs ≠ []) :
    namesIn uid rs = [] := by
  induction rs with
  | nil => exact absurd rfl hne
  | cons r before ih =>
    rw [List.length_cons] at h
    have hle := parentOf_le before r.level
    have hnames : namesIn uid before = [] := by
      by_cases hb : before = []
      · rw [hb]
        rfl
      · exact ih (by omega) hb
    rw [namesIn, hnames, if_neg (by omega)]
    rfl

theorem mem_namesIn {uid : Nat} {rs : List Row} {name : String} :
    name ∈ namesIn uid rs ↔
      ∃ after r before, rs = after ++ r :: before ∧ uid = parentOf before r.level ∧
        r.body.declaredName? = some name := by
  induction rs with
  | nil => simp [namesIn]
  | cons q rest ih =>
    rw [namesIn, List.mem_append, ih]
    constructor
    · rintro (⟨after, r, before, rfl, hu, hname⟩ | hq)
      · exact ⟨q :: after, r, before, rfl, hu, hname⟩
      · split at hq
        · next hu => exact ⟨[], q, rest, rfl, hu, Option.mem_toList.mp hq⟩
        · cases hq
    · rintro ⟨after, r, before, hsplit, hu, hname⟩
      cases after with
      | nil =>
        obtain ⟨rfl, rfl⟩ := List.cons.inj hsplit
        rw [if_pos hu]
        exact .inr (Option.mem_toList.mpr hname)
      | cons a after =>
        obtain ⟨rfl, rfl⟩ := List.cons.inj hsplit
        exact .inl ⟨after, r, before, rfl, hu, hname⟩

theorem namesIn_map_bare (uid : Nat) (rs : List Row) :
    namesIn uid (rs.map .bare) = namesIn uid rs := by
  induction rs with
  | nil => rfl
  | cons r before ih => simp [namesIn, ih, parentOf_map_bare, Row.bare]

/-- Notes do not matter for names. -/
theorem redeclared_map_bare (rs : List Row) :
    redeclared (rs.map .bare) = (redeclared rs).map .bare := by
  induction rs with
  | nil => rfl
  | cons r before ih =>
    have hiff : Redeclares r.bare (before.map .bare) ↔ Redeclares r before := by
      simp [Redeclares, namesIn_map_bare, parentOf_map_bare, Row.bare]
    rw [List.map_cons, redeclared, redeclared, ih, List.map_append]
    congr 1
    by_cases h : Redeclares r before
    · rw [if_pos h, if_pos (hiff.mpr h)]
      rfl
    · rw [if_neg h, if_neg fun hr => h (hiff.mp hr)]
      rfl

theorem exists_name_of_mem_redeclared {rs : List Row} {r : Row} (h : r ∈ redeclared rs) :
    ∃ name, r.body.declaredName? = some name := by
  induction rs with
  | nil => cases h
  | cons q before ih =>
    rcases List.mem_append.mp h with h | h
    · exact ih h
    · split at h
      · next hq =>
        obtain rfl := List.mem_singleton.mp h
        obtain ⟨name, hname, -⟩ := hq
        exact ⟨name, hname⟩
      · cases h

/-- Without a report every name was new when it was declared. -/
theorem not_redeclares_of_nil {rs : List Row} (h : redeclared rs = []) {after : List Row} {r : Row}
    {before : List Row} (hsplit : rs = after ++ r :: before) : ¬ Redeclares r before := by
  induction after generalizing rs with
  | nil =>
    subst hsplit
    intro hr
    rw [List.nil_append, redeclared, if_pos hr] at h
    simp at h
  | cons a after ih =>
    subst hsplit
    rw [List.cons_append, redeclared, List.append_eq_nil_iff] at h
    exact ih h.1 rfl

end Ast

namespace Parser

open Ast

/-! ## Reports about names -/

/-- A report that a name is declared already. -/
def Complaint.isRedeclared : Complaint → Bool
  | redeclared .. => true
  | _ => false

def redeclarations (fs : List Finding) : List Finding :=
  fs.filter fun f => f.complaint.isRedeclared

theorem redeclarations_append (fs gs : List Finding) :
    redeclarations (fs ++ gs) = redeclarations fs ++ redeclarations gs := List.filter_append ..

theorem redeclarations_of_not {fs : List Finding} (h : ∀ f ∈ fs, f.complaint.isRedeclared = false) :
    redeclarations fs = [] := by
  refine List.filter_eq_nil_iff.mpr fun f hf => ?_
  rw [h f hf]
  exact Bool.false_ne_true

theorem redeclarations_missingBlock (opener : Opener) :
    redeclarations (State.missingBlock opener) = [] := by
  refine redeclarations_of_not fun f hf => ?_
  rw [(State.mem_missingBlock hf).1]
  rfl

theorem redeclarations_pending (scopes : List Scope) :
    redeclarations (scopes.flatMap State.pendingFindings) = [] := by
  refine redeclarations_of_not fun f hf => ?_
  obtain ⟨scope, -, hf⟩ := List.mem_flatMap.mp hf
  obtain ⟨p, -, rfl⟩ := List.mem_map.mp hf
  rfl

theorem redeclarations_repeated {ts : List Token} {node : LineNode} (h : Declares ts node)
    (line : Nat) (content : String) :
    redeclarations (node.repeated.map fun c => ⟨c, line, content⟩) = [] := by
  refine redeclarations_of_not fun f hf => ?_
  obtain ⟨c, hc, rfl⟩ := List.mem_map.mp hf
  obtain ⟨what, name, rfl⟩ := h.mem_repeated hc
  rfl

theorem isRedeclared_refusal (scope : Scope) (node : LineNode) :
    (State.refusal scope node).isRedeclared = false := by
  unfold State.refusal
  split <;> rfl

/-! ## The invariant -/

/-- What is said about a row: that its name is there already. -/
def redeclarationOf (r : Row) : Option (Complaint × Nat) :=
  r.body.declaredName?.map fun name => (.redeclared r.body.type name, r.line)

/-- The scopes know the names in their rows, and what has been reported are the rows whose names they
knew. -/
structure Known (rs : List Row) (s : State) : Prop where
  declared : ∀ scope ∈ s.scopes, ∀ name, name ∈ scope.declared ↔ name ∈ namesIn scope.uid rs
  reported : (redeclarations s.findings).map (fun f => (f.complaint, f.line)) =
    (redeclared rs).filterMap redeclarationOf

namespace Known

variable {rs : List Row} {s : State}

theorem initial : Known [] .initial where
  declared := by simp [State.initial, State.scopes, Scope.new, namesIn]
  reported := rfl

/-- The invariant is about the scopes and the reports about names. -/
theorem congr {s' : State} (h : Known rs s) (hs : s'.scopes = s.scopes)
    (hf : redeclarations s'.findings = redeclarations s.findings) : Known rs s' where
  declared := hs ▸ h.declared
  reported := by
    rw [hf]
    exact h.reported

/-- The invariant of the scopes only needs the scopes that stay. -/
theorem closing (h : Known rs s) {count : Nat} (hc : count ≤ s.outer.length) :
    Known rs (s.closing count) where
  declared := by
    intro scope hscope
    rw [State.scopes_closing hc] at hscope
    exact h.declared scope (List.mem_of_mem_drop hscope)
  reported := by
    show (redeclarations (s.findings ++ (s.scopes.take count).flatMap State.pendingFindings)).map _ = _
    rw [redeclarations_append, redeclarations_pending, List.append_nil]
    exact h.reported

/-- Nothing has been declared yet in the scope of the last row. -/
theorem opening (h : Known rs s) {uid : Nat} {type : NodeType} (hne : rs ≠ [])
    (hu : uid = rs.length) :
    Known rs { s with scope := .new uid type, outer := s.scopes, opener := .none } where
  declared := by
    intro scope hscope
    rcases List.mem_cons.mp hscope with rfl | hscope
    · rw [Scope.new, namesIn_of_le (Nat.le_of_eq hu.symm) hne]
      exact fun name => Iff.rfl
    · exact h.declared scope hscope
  reported := h.reported

theorem note (h : Known rs s) (kind : NoteKind) (text : String) (line : Nat) (content : String) :
    Known rs (s.note kind text line content) := by
  unfold State.note
  cases hd : s.scope.lastDecl with
  | some uid => exact ⟨h.declared, h.reported⟩
  | none =>
    refine ⟨fun scope hscope => ?_, h.reported⟩
    rcases List.mem_cons.mp hscope with rfl | hscope
    · exact h.declared s.scope List.mem_cons_self
    · exact h.declared scope (List.mem_cons_of_mem _ hscope)

theorem mem_declared_extended {scope : Scope} {uid : Nat} {body : Body} {name : String} :
    name ∈ (scope.extended uid body).declared ↔
      name ∈ scope.declared ∨ name ∈ body.declaredName?.toList := by
  unfold Scope.extended
  cases body.declaredName? with
  | none => simp
  | some own =>
    simp only [Option.toList_some, List.mem_singleton]
    split
    · next h =>
      have hmem : own ∈ scope.declared := by simpa using h
      exact (or_iff_left_of_imp fun heq => heq ▸ hmem).symm
    · simp

/-- The report about a node, if there is one. -/
theorem redeclarations_redeclaration (scope : Scope) (body : Body) (line : Nat)
    (content : String) :
    (redeclarations ((State.redeclaration scope body).map fun c => ⟨c, line, content⟩)).map
        (fun f => (f.complaint, f.line)) =
      (State.redeclaration scope body).map fun c => (c, line) := by
  unfold State.redeclaration
  split
  · split <;> rfl
  · rfl

/-- A node that declares a name is reported if the scope knows it, and then the scope does. -/
theorem add (h : Known rs s) (hp : Placed rs s) {node : LineNode} (line : Nat)
    (tokens : List Token) :
    Known (⟨s.outer.length, line, node.body.bare⟩ :: rs) (s.add node line tokens) := by
  have hscope : s.scope.uid = parentOf rs s.outer.length := hp.scopes.1.uid
  have hknown := h.declared s.scope List.mem_cons_self
  rw [State.add_eq]
  refine ⟨fun scope hmem name => ?_, ?_⟩
  · rw [namesIn, Body.declaredName?_bare, List.mem_append]
    rcases List.mem_cons.mp hmem with rfl | hmem
    · have huid : (s.scope.extended s.table.size node.body).uid = s.scope.uid := rfl
      rw [mem_declared_extended, hknown, huid, if_pos hscope]
    · rw [if_neg fun hnew => hp.uid_ne scope hmem (hnew.trans hscope.symm),
        or_iff_left List.not_mem_nil]
      exact h.declared scope (List.mem_cons_of_mem _ hmem) name
  · show (redeclarations (s.findings ++ _)).map _ = _
    rw [redeclarations_append, List.map_append, h.reported, redeclarations_redeclaration, redeclared,
      List.filterMap_append]
    congr 1
    unfold State.redeclaration
    cases hname : node.body.declaredName? with
    | none =>
      have hno : ¬ Redeclares ⟨s.outer.length, line, node.body.bare⟩ rs := by
        rintro ⟨name, hn, -⟩
        rw [Body.declaredName?_bare, hname] at hn
        cases hn
      rw [if_neg hno]
      rfl
    | some name =>
      have hiff : Redeclares ⟨s.outer.length, line, node.body.bare⟩ rs ↔
          s.scope.declared.contains name = true := by
        simp [Redeclares, hname, hknown, hscope]
      simp only
      by_cases hc : s.scope.declared.contains name = true
      · rw [if_pos hc, if_pos (hiff.mpr hc)]
        simp [redeclarationOf, hname]
      · rw [if_neg hc, if_neg fun hr => hc (hiff.mp hr)]
        rfl

/-! ### One line -/

theorem move (h : Known rs s) (ha : Announcing rs s) {l : Line} {s' : State}
    (hm : State.Moves s l s') : Known rs s' := by
  cases hm with
  | further line move skipping => exact h.congr rfl rfl
  | opened line uid type explicit number content move reading opener =>
    obtain ⟨-, ⟨r, before, hrs, -⟩, hu⟩ := ha uid type explicit number content opener
    exact h.opening (by rw [hrs]; exact List.cons_ne_nil _ _) hu
  | dropped line move reading opener => exact h.congr rfl rfl
  | unexpected line move reading opener =>
    refine h.congr rfl ?_
    rw [redeclarations_append]
    exact List.append_nil _
  | back levels move fits =>
    have hsettled : Known rs { s with
        opener := .none
        skipped := s.skipped - levels
        findings := s.findings ++ State.missingBlock s.opener } := by
      refine h.congr rfl ?_
      rw [redeclarations_append, redeclarations_missingBlock, List.append_nil]
    refine hsettled.closing ?_
    simp only [State.depth] at fits ⊢
    omega

theorem repeated (h : Known rs s) {ts : List Token} {node : LineNode} (hn : Declares ts node)
    (line : Nat) (content : String) : Known rs (s.reportAll node.repeated line content) := by
  refine h.congr rfl ?_
  simp only [State.reportAll]
  rw [redeclarations_append, redeclarations_repeated hn, List.append_nil]

theorem reject (h : Known rs s) {c : Complaint} (hc : c.isRedeclared = false) (line : Nat)
    (tokens : List Token) (opens : Bool) : Known rs (s.reject c line tokens opens) := by
  refine h.congr rfl ?_
  simp only [State.reject, State.report]
  rw [redeclarations_append]
  simp [redeclarations, hc]

theorem handle (h : Known rs s) (hp : Placed rs s) {l : Line} {loss fate : Fate} {s' : State}
    (hloss : loss.isLost = true) (hh : State.Handles s l loss fate s') :
    Known ((Outcome.row? ⟨s.depth, l, fate⟩).toList ++ rs) s' := by
  cases hh with
  | lost skipping =>
    rw [Outcome.row?_of_isLost hloss]
    exact h
  | empty reading none => exact h
  | note kind text reading ne meaning => exact h.note kind text _ _
  | faulty fault reading ne meaning => exact h.reject rfl _ _ _
  | refused node reading ne meaning refuses =>
    exact (h.repeated (declares_of_ofTokens meaning) _ _).reject (isRedeclared_refusal _ _) _ _ _
  | node node reading ne meaning allows =>
    show Known (⟨s.depth, l.number, node.body.bare⟩ :: rs) _
    rw [State.depth_of_reading reading]
    exact (h.repeated (declares_of_ofTokens meaning) _ _).add (hp.congr rfl rfl) l.number l.tokens

end Known

/-! ## Runs -/

/-- **What the scopes know after some lines** is what their rows say. -/
theorem known_run {ls : List Line} (h : Fits 0 ls) : Known (rows (outcomes ls).reverse) (run ls) := by
  have hrun := run_induction
    (motive := fun past s => (Placed (rows past) s ∧ Announcing (rows past) s) ∧ Known (rows past) s)
    [] .initial h ⟨⟨Placed.initial, fun _ _ _ _ _ ho => by cases ho⟩, Known.initial⟩
    fun past s l hs hfits => by
      obtain ⟨⟨hplaced, hannouncing⟩, hknown⟩ := hs
      obtain ⟨hmoves, hhandles⟩ := State.step_cases hfits
      obtain ⟨hmoved, -⟩ := hplaced.move hannouncing hmoves
      refine ⟨hplaced.step hannouncing hfits, ?_⟩
      have hstep := (hknown.move hannouncing hmoves).handle hmoved (State.isLost_loss s l) hhandles
      rw [hmoves.depth_eq] at hstep
      rw [rows_cons]
      exact hstep
  rw [List.append_nil] at hrun
  exact hrun.2

/-- **The reports about names are one for each row whose name its scope had already**, in order. -/
theorem redeclarations_ofStream {ts : List Token} {stream : Stream}
    (h : Stream.ofTokens ts = .ok stream) :
    (redeclarations (ofStream stream).findings).map (fun f => (f.complaint, f.line)) =
      (redeclared (rows (outcomes stream.lines).reverse)).filterMap redeclarationOf := by
  obtain ⟨-, hlines, htrailing⟩ := Stream.spells_of_ofTokens h
  have hfits : stream.trailing.Fits (run stream.lines).depth := by
    rw [depth_run hlines]
    exact htrailing
  have hmoves := State.moves (s := run stream.lines) (l := ⟨stream.trailing, []⟩) hfits
  obtain ⟨-, hannouncing⟩ := placed_run hlines
  have hknown := (known_run hlines).move hannouncing hmoves
  show (redeclarations ((run stream.lines).finish stream.trailing).findings).map _ = _
  rw [State.findings_finish, redeclarations_append, redeclarations_append,
    redeclarations_missingBlock, redeclarations_pending, List.append_nil, List.append_nil]
  exact hknown.reported

/-- A row is reported under its name. -/
theorem exists_redeclarationOf {rs : List Row} {r : Row} (h : r ∈ redeclared rs) :
    ∃ report, redeclarationOf r = some report := by
  obtain ⟨name, hname⟩ := exists_name_of_mem_redeclared h
  exact ⟨_, by rw [redeclarationOf, hname, Option.map_some]⟩

/-- **A tree without reports about names** comes from rows whose names were all new. -/
theorem exists_rows_of_undoubled {ts : List Token} {parsed : Parsed} (h : parse ts = .ok parsed)
    (hclean : ∀ f ∈ parsed.findings, f.complaint.isRedeclared = false) :
    ∃ full, parsed.table = .ofRows full ∧ Lawful full ∧ redeclared full = [] := by
  obtain ⟨stream, hstream, rfl⟩ := parse_eq_ok_iff.mp h
  obtain ⟨⟨full, hfull, htable⟩, hlawful⟩ := tableOf_ofStream hstream
  have hreports := redeclarations_ofStream hstream
  rw [redeclarations_of_not hclean, List.map_nil] at hreports
  have hnil : redeclared (rows (outcomes stream.lines).reverse) = [] := by
    refine List.eq_nil_iff_forall_not_mem.mpr fun r hr => ?_
    obtain ⟨report, hreport⟩ := exists_redeclarationOf hr
    rw [List.filterMap_eq_nil_iff.mp hreports.symm r hr] at hreport
    cases hreport
  rw [← hfull, redeclared_map_bare, List.map_eq_nil_iff] at hnil
  refine ⟨full, htable, ?_, hnil⟩
  rw [← hfull, lawful_map_bare] at hlawful
  exact hlawful

end Parser

end IntentCode
