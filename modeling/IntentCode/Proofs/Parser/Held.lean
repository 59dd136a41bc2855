import IntentCode.Proofs.Parser.Fates
import IntentCode.Proofs.Parser.Notes
import IntentCode.Proofs.Parser.Owners

/-!
# Where the notes end up

The parser decides as it goes to whom a note belongs. It adds it to the last declaration of the scope,
or lets it wait, and hands what waits to the first declaration that comes or reports it when the scope
closes. `Held` says that at any time this is what the owners in the tree so far make of it: a
declaration has the notes that it owns, an open scope the notes in it that no one owns, and what has
been reported are the notes without an owner whose scope is closed. No note is in two of these places,
and none is lost.
-/

set_option autoImplicit false

namespace IntentCode

namespace Ast.Body

theorem notes?_mapNotes (f : Notes → Notes) (b : Body) : (b.mapNotes f).notes? = b.notes?.map f := by
  cases b <;> rfl

theorem mapNotes_mapNotes (f g : Notes → Notes) (b : Body) :
    (b.mapNotes f).mapNotes g = b.mapNotes (g ∘ f) := by
  cases b <;> rfl

@[simp] theorem isDeclaration_mapNotes (f : Notes → Notes) (b : Body) :
    (b.mapNotes f).isDeclaration = b.isDeclaration := by
  cases b <;> rfl

theorem notes?_bare {b : Body} (h : b.isDeclaration = true) : b.bare.notes? = some .none := by
  cases b <;> first | rfl | cases h

end Ast.Body

namespace Parser

open Ast

/-! ## The invariant -/

/-- The findings about notes without an owner. -/
def detachments (fs : List Finding) : List Finding :=
  fs.filter fun f => f.complaint.code = .detachedNote

theorem detachments_append (fs gs : List Finding) :
    detachments (fs ++ gs) = detachments fs ++ detachments gs := List.filter_append ..

theorem detachments_missingBlock (opener : Opener) :
    detachments (State.missingBlock opener) = [] := by
  refine List.filter_eq_nil_iff.mpr fun f hf => ?_
  rw [(State.mem_missingBlock hf).1]
  simp [Complaint.code]

/-- Complaints about a line are not among them, unless that is what they say. -/
theorem detachments_of_code {cs : List Complaint} (h : ∀ c ∈ cs, c.code ≠ .detachedNote) (line : Nat)
    (content : String) : detachments (cs.map fun c => ⟨c, line, content⟩) = [] := by
  refine List.filter_eq_nil_iff.mpr fun f hf => ?_
  obtain ⟨c, hc, rfl⟩ := List.mem_map.mp hf
  simpa using h c hc

/-- The notes are where their owners say. -/
structure Held (rs : List Row) (rems : List Remark) (s : State) : Prop where
  place : ∀ r ∈ rems, r.scope ≤ r.before ∧ r.before ≤ rs.length
  /-- A block is announced for a node after which there has been no note. -/
  fresh : ∀ uid type explicit line content, s.opener = .block uid type explicit line content →
    uid = rs.length ∧ ∀ r ∈ rems, r.before < uid
  last : ∀ scope ∈ s.scopes, scope.lastDecl = (declaredIn scope.uid rs).getLast?
  pending : ∀ scope ∈ s.scopes, scope.pending = (waiting rs rems scope.uid).map Remark.note
  notes : ∀ uid n, s.table.get? uid = some n → n.body.isDeclaration = true →
    n.body.notes? = some (collected ((owned rs rems uid).map Remark.note))
  /-- What has been reported are the notes that no one owns and whose scope is closed. -/
  reported : (detachments s.findings).Perm
    ((loose rs rems (s.scopes.map Scope.uid)).map fun r => r.note.finding)

namespace State

/-- The node with several notes added. -/
theorem get?_withNotes (t : Table) (uid : Nat) (ps : List PendingNote) (i : Nat) :
    (withNotes t uid ps).get? i =
      if i = uid then
        (t.get? i).map fun n => { n with body := n.body.mapNotes (withRemarks ps) }
      else t.get? i := by
  unfold withNotes
  induction ps generalizing t with
  | nil =>
    split
    · have hid : ∀ n : Node, { n with body := n.body.mapNotes (withRemarks []) } = n := by
        rintro ⟨uid, parent, children, line, body⟩
        cases body <;> rfl
      cases h : t.get? i <;> simp [h, hid]
    · rfl
  | cons p ps ih =>
    rw [List.foldl_cons, ih, Table.get?_modify]
    split
    · rw [Option.map_map]
      congr 1
      funext n
      simp only [noted, Function.comp_apply, Body.mapNotes_mapNotes]
      rfl
    · rfl

end State

namespace Held

variable {rs : List Row} {rems : List Remark} {s : State}

theorem initial : Held [] [] .initial where
  place := by simp
  fresh := fun _ _ _ _ _ ho => by cases ho
  last := by simp [State.initial, State.scopes, Scope.new, declaredIn]
  pending := by simp [State.initial, State.scopes, Scope.new, waiting]
  notes := by
    intro uid n hn hd
    obtain rfl : uid = 0 := Nat.lt_one_iff.mp (Table.get?_lt hn)
    cases hn
    cases hd
  reported := .refl _

/-- The invariant is about the table, the scopes, the announcement of a block and the notes that have
been reported. -/
theorem congr {s' : State} (h : Held rs rems s) (ht : s'.table = s.table)
    (hs : s'.scopes = s.scopes)
    (ho : s'.opener = s.opener ∨
      ∀ uid type explicit line content, s'.opener ≠ .block uid type explicit line content)
    (hf : detachments s'.findings = detachments s.findings) : Held rs rems s' where
  place := h.place
  fresh := by
    intro uid type explicit line content hopener
    rcases ho with ho | ho
    · exact h.fresh uid type explicit line content (ho ▸ hopener)
    · exact absurd hopener (ho _ _ _ _ _)
  last := hs ▸ h.last
  pending := hs ▸ h.pending
  notes := ht ▸ h.notes
  reported := by
    rw [hf, hs]
    exact h.reported

/-! ### The layout before a line -/

/-- Nothing has been declared or noted yet in the scope of the last row. -/
theorem opening (h : Held rs rems s) {uid : Nat} {type : NodeType} (hu : uid = rs.length)
    (hb : ∀ r ∈ rems, r.before < uid) :
    Held rs rems { s with scope := .new uid type, outer := s.scopes, opener := .none } where
  place := h.place
  fresh := fun _ _ _ _ _ ho => by cases ho
  last := by
    intro scope hscope
    rcases List.mem_cons.mp hscope with rfl | hscope
    · have hnil : declaredIn uid rs = [] := by
        refine List.eq_nil_iff_forall_not_mem.mpr fun d hd => ?_
        have := lt_of_mem_declaredIn hd
        omega
      rw [Scope.new, hnil]
      rfl
    · exact h.last scope hscope
  pending := by
    intro scope hscope
    rcases List.mem_cons.mp hscope with rfl | hscope
    · have hnil : waiting rs rems uid = [] := by
        refine List.filter_eq_nil_iff.mpr fun r hr => ?_
        have := hb r hr
        have := (h.place r hr).1
        simp only [decide_eq_true_eq, not_and]
        omega
      rw [Scope.new, hnil]
      rfl
    · exact h.pending scope hscope
  notes := h.notes
  reported := by
    have hloose : loose rs rems (uid :: s.scopes.map Scope.uid) =
        loose rs rems (s.scopes.map Scope.uid) := by
      refine List.filter_congr fun r hr => ?_
      have hne : r.scope ≠ uid := by
        have := hb r hr
        have := (h.place r hr).1
        omega
      simp [hne]
    show (detachments s.findings).Perm
      ((loose rs rems (uid :: s.scopes.map Scope.uid)).map fun r => r.note.finding)
    rw [hloose]
    exact h.reported

theorem detachments_pending (h : Held rs rems s) {scopes : List Scope} (hs : scopes ⊆ s.scopes) :
    detachments (scopes.flatMap State.pendingFindings) =
      ((scopes.map Scope.uid).flatMap (waiting rs rems)).map fun r => r.note.finding := by
  have hpending : ∀ scope ∈ scopes, State.pendingFindings scope =
      (waiting rs rems scope.uid).map fun r => r.note.finding := by
    intro scope hscope
    show scope.pending.map PendingNote.finding = _
    rw [h.pending scope (hs hscope), List.map_map]
    rfl
  have hall : detachments (scopes.flatMap State.pendingFindings) =
      scopes.flatMap State.pendingFindings := by
    refine List.filter_eq_self.mpr fun f hf => ?_
    obtain ⟨scope, -, hf⟩ := List.mem_flatMap.mp hf
    obtain ⟨p, -, rfl⟩ := List.mem_map.mp hf
    simp [Complaint.code]
  rw [hall, List.map_flatMap, List.flatMap_map]
  exact List.flatMap_congr hpending

/-- A scope that closes reports what waits in it. -/
theorem closing (h : Held rs rems s) (hp : Placed rs s) {count : Nat}
    (hc : count ≤ s.outer.length)
    (ho : ∀ uid type explicit line content, s.opener ≠ .block uid type explicit line content) :
    Held rs rems (s.closing count) where
  place := h.place
  fresh := fun _ _ _ _ _ hopener => absurd hopener (ho _ _ _ _ _)
  last := by
    intro scope hscope
    rw [State.scopes_closing hc] at hscope
    exact h.last scope (List.mem_of_mem_drop hscope)
  pending := by
    intro scope hscope
    rw [State.scopes_closing hc] at hscope
    exact h.pending scope (List.mem_of_mem_drop hscope)
  notes := h.notes
  reported := by
    have hsplit : (s.scopes.take count).map Scope.uid ++ (s.scopes.drop count).map Scope.uid =
        s.scopes.map Scope.uid := by
      rw [← List.map_append, List.take_append_drop]
    have hperm := loose_perm_append rs rems (hsplit ▸ hp.nodup_uids)
    rw [hsplit] at hperm
    rw [State.scopes_closing hc]
    show (detachments (s.findings ++ (s.scopes.take count).flatMap State.pendingFindings)).Perm _
    rw [detachments_append, h.detachments_pending (List.take_subset _ _)]
    refine .trans ?_ (hperm.map _).symm
    rw [List.map_append]
    exact h.reported.append_right _

/-! ### The content of a line -/

/-- A note that is read now belongs to the last declaration of its scope. -/
theorem ownerIn_eq (h : Held rs rems s) {r : Remark} (hscope : r.scope = s.scope.uid)
    (hbefore : r.before = rs.length) : r.ownerIn rs = s.scope.lastDecl := by
  rw [h.last s.scope List.mem_cons_self, Remark.ownerIn, hscope]
  refine Remark.ownerAmong_of_le fun d hd => ?_
  rw [hbefore]
  exact (lt_of_mem_declaredIn hd).2

theorem place_concat (h : Held rs rems s) (hp : Placed rs s) {r : Remark}
    (hscope : r.scope = s.scope.uid) (hbefore : r.before = rs.length) :
    ∀ r' ∈ rems ++ [r], r'.scope ≤ r'.before ∧ r'.before ≤ rs.length := by
  intro r' hr
  rcases List.mem_append.mp hr with hr | hr
  · exact h.place r' hr
  · obtain rfl := List.mem_singleton.mp hr
    rw [hscope, hbefore, hp.scopes.1.uid]
    exact ⟨parentOf_le _ _, Nat.le_refl _⟩

/-- A note goes to the last declaration of the scope. -/
theorem attach (h : Held rs rems s) (hp : Placed rs s)
    (ho : ∀ uid type explicit line content, s.opener ≠ .block uid type explicit line content)
    {r : Remark} (hscope : r.scope = s.scope.uid) (hbefore : r.before = rs.length) {u : Nat}
    (hu : s.scope.lastDecl = some u) :
    Held rs (rems ++ [r]) (s.attach u r.note.kind r.note.text) := by
  have howner : r.ownerIn rs = some u := (h.ownerIn_eq hscope hbefore).trans hu
  refine ⟨h.place_concat hp hscope hbefore, fun _ _ _ _ _ hopener => absurd hopener (ho _ _ _ _ _),
    h.last, ?_, ?_, ?_⟩
  · intro scope hscope
    rw [waiting_concat, if_neg (by simp [howner]), List.append_nil]
    exact h.pending scope hscope
  · intro uid n hn hdecl
    rw [owned_concat, howner]
    rw [State.attach_eq, Table.get?_modify] at hn
    split at hn
    · next huid =>
      obtain ⟨m, hm, rfl⟩ := Option.map_eq_some_iff.mp hn
      have hnotes := h.notes uid m hm (by simpa [State.noted] using hdecl)
      rw [if_pos (by rw [huid]), List.map_append, List.map_singleton, collected_append, State.noted,
        Body.notes?_mapNotes, hnotes]
      rfl
    · next huid =>
      rw [if_neg (by simpa using Ne.symm huid), List.append_nil]
      exact h.notes uid n hn hdecl
  · rw [loose_concat (by simp [howner])]
    exact h.reported

/-- A note waits in a scope that has no declaration yet. -/
theorem wait (h : Held rs rems s) (hp : Placed rs s)
    (ho : ∀ uid type explicit line content, s.opener ≠ .block uid type explicit line content)
    {r : Remark} (hscope : r.scope = s.scope.uid) (hbefore : r.before = rs.length)
    (hnone : s.scope.lastDecl = none) :
    Held rs (rems ++ [r])
      { s with scope := { s.scope with pending := s.scope.pending ++ [r.note] } } := by
  have howner : r.ownerIn rs = none := (h.ownerIn_eq hscope hbefore).trans hnone
  refine ⟨h.place_concat hp hscope hbefore, fun _ _ _ _ _ hopener => absurd hopener (ho _ _ _ _ _),
    ?_, ?_, ?_, ?_⟩
  · intro scope hmem
    rcases List.mem_cons.mp hmem with rfl | hmem
    · exact h.last s.scope List.mem_cons_self
    · exact h.last scope (List.mem_cons_of_mem _ hmem)
  · intro scope hmem
    rw [waiting_concat]
    rcases List.mem_cons.mp hmem with rfl | hmem
    · rw [if_pos ⟨howner, hscope⟩, List.map_append, ← h.pending s.scope List.mem_cons_self]
      rfl
    · have hne := hp.uid_ne scope hmem
      rw [if_neg fun hnew => hne (hnew.2.symm.trans hscope), List.append_nil]
      exact h.pending scope (List.mem_cons_of_mem _ hmem)
  · intro uid n hn hdecl
    rw [owned_concat, if_neg (by simp [howner]), List.append_nil]
    exact h.notes uid n hn hdecl
  · have hmem : r.scope ∈ s.scopes.map Scope.uid := hscope ▸ List.mem_cons_self
    show (detachments s.findings).Perm
      ((loose rs (rems ++ [r]) (s.scopes.map Scope.uid)).map fun r => r.note.finding)
    rw [loose_concat fun _ => hmem]
    exact h.reported

theorem note (h : Held rs rems s) (hp : Placed rs s)
    (ho : ∀ uid type explicit line content, s.opener ≠ .block uid type explicit line content)
    (kind : NoteKind) (text : String) (line : Nat) (content : String) :
    Held rs (rems ++ [⟨s.scope.uid, rs.length, ⟨kind, text, line, content⟩⟩])
      (s.note kind text line content) := by
  unfold State.note
  cases hd : s.scope.lastDecl with
  | some u => exact h.attach hp ho (r := ⟨_, _, ⟨kind, text, line, content⟩⟩) rfl rfl hd
  | none => exact h.wait hp ho (r := ⟨_, _, ⟨kind, text, line, content⟩⟩) rfl rfl hd

/-! ### A node that is added -/

theorem before_le (h : Held rs rems s) : ∀ r ∈ rems, r.before ≤ rs.length := fun r hr =>
  (h.place r hr).2

/-- A declaration is the last of its scope, and of no other. -/
theorem last_extended (h : Held rs rems s) (hp : Placed rs s) (line : Nat) (body : Body) :
    ∀ scope ∈ s.scope.extended s.table.size body :: s.outer,
      scope.lastDecl =
        (declaredIn scope.uid (⟨s.outer.length, line, body.bare⟩ :: rs)).getLast? := by
  have hscope : s.scope.uid = parentOf rs s.outer.length := hp.scopes.1.uid
  have hsize : s.table.size = rs.length + 1 := hp.table.size_eq
  intro scope hmem
  rw [declaredIn]
  rcases List.mem_cons.mp hmem with rfl | hmem
  · show (if body.isDeclaration then some s.table.size else s.scope.lastDecl) =
      (declaredIn s.scope.uid rs ++ if s.scope.uid = parentOf rs s.outer.length ∧ _ then _
        else []).getLast?
    rw [h.last s.scope List.mem_cons_self, hsize]
    cases hd : body.isDeclaration <;> simp [hd, hscope]
  · rw [if_neg fun hnew => hp.uid_ne scope hmem (hnew.1.trans hscope.symm), List.append_nil]
    exact h.last scope (List.mem_cons_of_mem _ hmem)

/-- Nothing waits any longer in the scope of a declaration. -/
theorem pending_extended (h : Held rs rems s) (hp : Placed rs s) (line : Nat) (body : Body) :
    ∀ scope ∈ s.scope.extended s.table.size body :: s.outer,
      scope.pending =
        (waiting (⟨s.outer.length, line, body.bare⟩ :: rs) rems scope.uid).map Remark.note := by
  have hscope : s.scope.uid = parentOf rs s.outer.length := hp.scopes.1.uid
  intro scope hmem
  rw [waiting_cons h.before_le]
  rcases List.mem_cons.mp hmem with rfl | hmem
  · show (if body.isDeclaration then [] else s.scope.pending) =
      (if s.scope.uid = _ ∧ _ then [] else waiting rs rems s.scope.uid).map Remark.note
    rw [h.pending s.scope List.mem_cons_self]
    cases hd : body.isDeclaration <;> simp [hd, hscope]
  · rw [if_neg fun hnew => hp.uid_ne scope hmem (hnew.1.trans hscope.symm)]
    exact h.pending scope (List.mem_cons_of_mem _ hmem)

/-- The new node takes what has been waiting, and the others keep what they have. -/
theorem notes_push (h : Held rs rems s) (hp : Placed rs s) (line : Nat) {body : Body}
    (hbare : body.bare = body) {uid : Nat} {n : Node}
    (hn : (State.withNotes (s.table.push s.scope.uid line body) s.table.size
      (if body.isDeclaration then s.scope.pending else [])).get? uid = some n)
    (hd : n.body.isDeclaration = true) :
    n.body.notes? = some (collected
      ((owned (⟨s.outer.length, line, body.bare⟩ :: rs) rems uid).map Remark.note)) := by
  have hscope : s.scope.uid = parentOf rs s.outer.length := hp.scopes.1.uid
  have hsize : s.table.size = rs.length + 1 := hp.table.size_eq
  have hparent : s.scope.uid < s.table.size := by
    rw [hscope, hsize]
    exact Nat.lt_succ_of_le (parentOf_le _ _)
  rw [State.get?_withNotes] at hn
  split at hn
  · next hu =>
    rw [hu, Table.get?_push hparent, if_pos rfl, Option.map_some, Option.some.injEq] at hn
    subst hn
    have hd : body.isDeclaration = true := by simpa using hd
    have hdecl : body.bare.isDeclaration = true := by rw [Body.isDeclaration_bare, hd]
    rw [hu, hsize, owned_cons_self h.before_le hdecl, hd, if_pos rfl, ← hscope,
      ← h.pending s.scope List.mem_cons_self, Body.notes?_mapNotes, ← hbare, Body.notes?_bare hd]
    rfl
  · next hu =>
    rw [owned_cons_of_ne h.before_le _ (hsize ▸ hu)]
    rcases Table.cases_get?_push hparent hn with ⟨rfl, -⟩ | ⟨m, hm, rfl⟩
    · exact absurd rfl hu
    · exact h.notes uid m hm hd

/-- A node that declares something takes what waits in its scope. -/
theorem add (h : Held rs rems s) (hp : Placed rs s)
    (ho : ∀ uid type explicit line content, s.opener ≠ .block uid type explicit line content)
    {node : LineNode} (hbare : node.body.bare = node.body) (line : Nat) (tokens : List Token) :
    Held (⟨s.outer.length, line, node.body.bare⟩ :: rs) rems (s.add node line tokens) := by
  have hsize : s.table.size = rs.length + 1 := hp.table.size_eq
  rw [State.add_eq]
  refine ⟨?_, ?_, h.last_extended hp line node.body, h.pending_extended hp line node.body,
    fun uid n hn hd => h.notes_push hp line hbare hn hd, ?_⟩
  · intro r hr
    have := h.place r hr
    rw [List.length_cons]
    omega
  · intro uid type explicit number content hopener
    simp only at hopener
    split at hopener
    · cases hopener
      rw [hsize]
      exact ⟨rfl, fun r hr => Nat.lt_succ_of_le (h.before_le r hr)⟩
    · exact absurd hopener (ho _ _ _ _ _)
  · have hmem : parentOf rs s.outer.length ∈ s.scopes.map Scope.uid :=
      hp.scopes.1.uid ▸ List.mem_cons_self
    have hnone : detachments ((State.redeclaration s.scope node.body).map fun c =>
        ⟨c, line, Token.render tokens⟩) = [] :=
      detachments_of_code State.code_redeclaration line _
    show (detachments (s.findings ++ _)).Perm
      ((loose _ rems (s.scopes.map Scope.uid)).map fun r => r.note.finding)
    rw [detachments_append, hnone, List.append_nil, loose_cons h.before_le hmem]
    exact h.reported

/-! ### One line -/

/-- The layout before a line. -/
theorem move (h : Held rs rems s) (hp : Placed rs s) {l : Line} {s' : State}
    (hm : State.Moves s l s') : Held rs rems s' := by
  cases hm with
  | further line move skipping => exact h.congr rfl rfl (.inl rfl) rfl
  | opened line uid type explicit number content move reading opener =>
    obtain ⟨hu, hb⟩ := h.fresh uid type explicit number content opener
    exact h.opening hu hb
  | dropped line move reading opener => exact h.congr rfl rfl (.inr (by simp)) rfl
  | unexpected line move reading opener =>
    refine h.congr rfl rfl (.inr (by simp)) ?_
    rw [detachments_append]
    exact List.append_nil _
  | back levels move fits =>
    have hsettled : Held rs rems { s with
        opener := .none
        skipped := s.skipped - levels
        findings := s.findings ++ State.missingBlock s.opener } := by
      refine h.congr rfl rfl (.inr (by simp)) ?_
      rw [detachments_append, detachments_missingBlock, List.append_nil]
    refine hsettled.closing (hp.congr rfl rfl) ?_ (by simp)
    simp only [State.depth] at fits ⊢
    omega

theorem reportAll (h : Held rs rems s) {cs : List Complaint}
    (hcs : ∀ c ∈ cs, c.code ≠ .detachedNote) (line : Nat) (content : String) :
    Held rs rems (s.reportAll cs line content) := by
  refine h.congr rfl rfl (.inl rfl) ?_
  simp only [State.reportAll]
  rw [detachments_append, detachments_of_code hcs, List.append_nil]

theorem reject (h : Held rs rems s) {c : Complaint} (hc : c.code ≠ .detachedNote) (line : Nat)
    (tokens : List Token) (opens : Bool) : Held rs rems (s.reject c line tokens opens) := by
  refine h.congr rfl rfl (.inr (State.opener_reject _ _ _ _ _)) ?_
  simp only [State.reject, State.report]
  rw [detachments_append]
  simp [detachments, hc]

/-- The content of a line. -/
theorem handle (h : Held rs rems s) (hp : Placed rs s) {l : Line} {loss fate : Fate} {s' : State}
    (ho : ∀ uid type explicit line content, s.opener ≠ .block uid type explicit line content)
    (hloss : loss.isLost = true) (hh : State.Handles s l loss fate s') :
    Held ((Outcome.row? ⟨s.depth, l, fate⟩).toList ++ rs)
      (rems ++ (Outcome.remark? rs ⟨s.depth, l, fate⟩).toList) s' := by
  cases hh with
  | lost skipping =>
    rw [Outcome.row?_of_isLost hloss, Outcome.remark?_of_isLost hloss]
    show Held rs (rems ++ []) s
    rw [List.append_nil]
    exact h
  | empty reading none =>
    show Held rs (rems ++ []) s
    rw [List.append_nil]
    exact h
  | note kind text reading ne meaning =>
    have hnote := h.note hp ho kind text l.number (Token.render l.tokens)
    rw [hp.scopes.1.uid] at hnote
    rw [State.depth_of_reading reading]
    exact hnote
  | faulty fault reading ne meaning =>
    show Held rs (rems ++ []) _
    rw [List.append_nil]
    exact h.reject (by simp [Complaint.code]) _ _ _
  | refused node reading ne meaning refuses =>
    show Held rs (rems ++ []) _
    rw [List.append_nil]
    have hrepeated := (declares_of_ofTokens meaning).code_repeated
    exact (h.reportAll hrepeated _ _).reject (State.code_refusal _ _) _ _ _
  | node node reading ne meaning allows =>
    have hdeclares := declares_of_ofTokens meaning
    have hreported := h.reportAll hdeclares.code_repeated l.number (Token.render l.tokens)
    show Held (⟨s.depth, l.number, node.body.bare⟩ :: rs) (rems ++ []) _
    rw [List.append_nil, State.depth_of_reading reading]
    exact hreported.add (hp.congr rfl rfl) ho (bare_of_declares hdeclares) l.number l.tokens

end Held

/-- **What is held after some lines** is what their notes and their rows say. -/
theorem held_run {ls : List Line} (h : Fits 0 ls) :
    Held (rows (outcomes ls).reverse) (remarks (outcomes ls).reverse) (run ls) := by
  have hrun := run_induction
    (motive := fun past s => (Placed (rows past) s ∧ Announcing (rows past) s) ∧
      Held (rows past) (remarks past) s)
    [] .initial h
    ⟨⟨Placed.initial, fun _ _ _ _ _ ho => by cases ho⟩, Held.initial⟩
    fun past s l hs hfits => by
      obtain ⟨⟨hplaced, hannouncing⟩, hheld⟩ := hs
      obtain ⟨hmoves, hhandles⟩ := State.step_cases hfits
      obtain ⟨hmoved, hno⟩ := hplaced.move hannouncing hmoves
      refine ⟨hplaced.step hannouncing hfits, ?_⟩
      have hstep := (hheld.move hplaced hmoves).handle hmoved hno (State.isLost_loss s l) hhandles
      rw [hmoves.depth_eq] at hstep
      rw [rows_cons]
      exact hstep
  rw [List.append_nil] at hrun
  exact hrun.2

end Parser

end IntentCode
