import IntentCode.Proofs.Ast.Links

/-!
# Trees that the grammar allows

`Lawful` says of a list of rows that each of them was allowed where it came, and what is allowed there
depends on the scope and on the child before. `Grammatical` says of a tree which types of nodes stand
below which, and it mentions neither levels nor an order in which the tree was made. Rows that are
lawful give a grammatical tree (`Lawful.grammatical`).

What joins the two is that the rows know the tree: the scope at a level is the node under which the
next row of that level goes (`get?_parentOf`), and the last row there is the last child of that node
(`lastAt_eq`).
-/

set_option autoImplicit false

namespace IntentCode.Ast

namespace Table

/-- The types of the children of the node at a position. -/
def childTypes (t : Table) (uid : Nat) : List NodeType := (t.children uid).map Node.type

/-- Which nodes stand below which, and in what order. -/
structure Grammatical (t : Table) : Prop where
  root : ∀ type ∈ t.childTypes 0, type = .moduleImport ∨ type = .classDecl ∨ type = .funcDecl ∨
    type = .varDecl
  /-- At the top level every module comes before everything else. -/
  modulesFirst : ∃ modules others, t.childTypes 0 = modules ++ others ∧
    (∀ type ∈ modules, type = .moduleImport) ∧ ∀ type ∈ others, type ≠ .moduleImport
  classDecl : ∀ uid n, t.get? uid = some n → n.type = .classDecl →
    ∀ type ∈ t.childTypes uid, type = .funcDecl ∨ type = .varDecl
  funcDecl : ∀ uid n, t.get? uid = some n → n.type = .funcDecl →
    ∀ type ∈ t.childTypes uid, type = .varDecl ∨ type = .step
  step : ∀ uid n, t.get? uid = some n → n.type = .step →
    ∀ type ∈ t.childTypes uid, type = .step
  moduleImport : ∀ uid n, t.get? uid = some n → n.type = .moduleImport → n.children = []
  varDecl : ∀ uid n, t.get? uid = some n → n.type = .varDecl → n.children = []
  /-- A step without a colon has no block. -/
  plainStep : ∀ uid n s, t.get? uid = some n → n.body = .step s → s.opensBlock = false →
    n.children = []

/-- Numbers are positions, and they grow from parent to child and from child to child. -/
structure Numbered (t : Table) : Prop where
  index : ∀ i n, t.get? i = some n → n.uid = i
  below : ∀ i n, t.get? i = some n → ∀ c ∈ n.children, i < c
  ordered : ∀ i n, t.get? i = some n → n.children.Pairwise (· < ·)

theorem Linked.numbered {t : Table} (h : t.Linked) : t.Numbered where
  index := fun i n hn => h.number hn
  below := by
    intro i n hn c hc
    obtain ⟨m, -, -, hlt⟩ := h.child hn c hc
    exact hlt
  ordered := fun i n hn => h.ordered hn

/-! ## One more node -/

theorem childTypes_of_none {t : Table} {uid : Nat} (h : t.get? uid = none) :
    t.childTypes uid = [] := by
  simp [childTypes, children, h]

/-- The new node is the last child of its parent, and no one else's. -/
theorem childTypes_push {t : Table} (h : t.Linked) {parent line : Nat} {body : Body}
    (hp : parent < t.size) (uid : Nat) :
    (t.push parent line body).childTypes uid =
      if uid = parent then t.childTypes uid ++ [body.type] else t.childTypes uid := by
  refine (map_children_push (fun _ _ => rfl) h hp uid).trans ?_
  split
  · rfl
  · exact List.append_nil _

end Table

open Table

/-! ## What rows know of the tree -/

/-- The scope at a level is the node under which the next row there goes. -/
theorem get?_parentOf (rs : List Row) (level : Nat) :
    ∃ n, (ofRows rs).get? (parentOf rs level) = some n ∧ n.type = scopeType rs level := by
  induction rs with
  | nil => cases level <;> exact ⟨rootNode, rfl, rfl⟩
  | cons r before ih =>
    have hp := parentOf_lt_size before r.level
    have hold : ∀ {n : Node}, (ofRows before).get? (parentOf before level) = some n →
        n.type = scopeType before level →
        ∃ m, (ofRows (r :: before)).get? (parentOf before level) = some m ∧
          m.type = scopeType before level := fun hn htype =>
      ⟨_, get?_push_of_some hp hn, htype⟩
    obtain ⟨n, hn, htype⟩ := ih
    cases level with
    | zero => simpa [parentOf, scopeType] using hold hn htype
    | succ level =>
      rw [parentOf, scopeType]
      split
      · obtain ⟨children, hc⟩ := get?_ofRows [] r before
        exact ⟨_, hc, rfl⟩
      · exact hold hn htype

/-- Scopes that are open at different levels are different nodes. -/
theorem parentOf_inj {rs : List Row} (h : Climbing rs) {i j : Nat} (hi : i ≤ topLevel rs)
    (hj : j ≤ topLevel rs) (hp : parentOf rs i = parentOf rs j) : i = j := by
  have hzero : ∀ {k : Nat}, k + 1 ≤ topLevel rs → parentOf rs (k + 1) ≠ 0 := by
    intro k hk
    obtain ⟨after, r, before, -, -, hpar⟩ := exists_level h hk
    omega
  cases i with
  | zero =>
    cases j with
    | zero => rfl
    | succ j => exact absurd hp.symm (by simpa [parentOf] using hzero hj)
  | succ i =>
    cases j with
    | zero => exact absurd hp (by simpa [parentOf] using hzero hi)
    | succ j =>
      obtain ⟨after, r, before, hrs, hl, hpar⟩ := exists_level h hi
      obtain ⟨after', r', before', hrs', hl', hpar'⟩ := exists_level h hj
      have hlen : before.length = before'.length := by omega
      have hrest : r :: before = r' :: before' := by
        refine List.append_inj_right' (hrs.symm.trans hrs') ?_
        rw [List.length_cons, List.length_cons, hlen]
      rw [← hl, ← hl', (List.cons.inj hrest).1]

theorem childTypes_ofRows_cons (r : Row) (before : List Row) (uid : Nat) :
    (ofRows (r :: before)).childTypes uid =
      if uid = parentOf before r.level then (ofRows before).childTypes uid ++ [r.body.type]
      else (ofRows before).childTypes uid :=
  childTypes_push (linked_ofRows before) (parentOf_lt_size before r.level) uid

/-- The last row of a scope is the last child of its node. -/
theorem lastAt_eq {rs : List Row} (h : Climbing rs) {level : Nat} (hl : level ≤ topLevel rs) :
    lastAt rs level = ((ofRows rs).childTypes (parentOf rs level)).getLast? := by
  induction rs with
  | nil =>
    obtain rfl : level = 0 := Nat.le_zero.mp hl
    rfl
  | cons r before ih =>
    rw [lastAt, childTypes_ofRows_cons]
    by_cases hdeep : r.level < level
    · -- the scope of the new row, which has no children yet
      obtain rfl : level = r.level + 1 := by
        simp only [topLevel] at hl
        omega
      have hnone : (ofRows before).get? (before.length + 1) = none := size_ofRows before ▸ get?_size _
      have hle := parentOf_le before r.level
      rw [if_pos hdeep, parentOf, if_pos rfl, if_neg (by omega), childTypes_of_none hnone]
      rfl
    · rw [if_neg hdeep, parentOf_cons_of_le (by omega)]
      by_cases heq : r.level = level
      · rw [if_pos heq, if_pos (by rw [heq]), List.getLast?_concat]
      · have hlt : level ≤ topLevel before := by
          have := h.1
          omega
        have hne : parentOf before level ≠ parentOf before r.level := fun hp =>
          heq (parentOf_inj h.2 hlt h.1 hp).symm
        rw [if_neg heq, if_neg hne, ih h.2 hlt]

/-! ## Lawful rows -/

/-- Only a module is followed by a module. -/
theorem eq_of_expectedNext_root {previous : NodeType}
    (h : (expectedNext .root previous).allows .moduleImport = true) :
    previous = .moduleImport := by
  cases previous <;> first | rfl | exact absurd h (by decide)

theorem expectedChild_root {type : NodeType} (h : (expectedChild .root).allows type = true) :
    type = .moduleImport ∨ type = .classDecl ∨ type = .funcDecl ∨ type = .varDecl := by
  revert h
  cases type <;> decide

theorem expectedChild_classDecl {type : NodeType}
    (h : (expectedChild .classDecl).allows type = true) : type = .funcDecl ∨ type = .varDecl := by
  revert h
  cases type <;> decide

theorem expectedChild_funcDecl {type : NodeType}
    (h : (expectedChild .funcDecl).allows type = true) : type = .varDecl ∨ type = .step := by
  revert h
  cases type <;> decide

theorem expectedChild_step {type : NodeType} (h : (expectedChild .step).allows type = true) :
    type = .step := by
  revert h
  cases type <;> decide

/-- What may follow a child may also stand there without one. -/
theorem expectedChild_of_allowedAt {rs : List Row} {level : Nat} {type : NodeType}
    (h : (allowedAt rs level).allows type = true) :
    (expectedChild (scopeType rs level)).allows type = true := by
  unfold allowedAt at h
  cases hl : lastAt rs level with
  | none =>
    rw [hl] at h
    exact h
  | some previous =>
    rw [hl] at h
    simp only at h
    generalize scopeType rs level = scope at h ⊢
    cases scope <;> cases previous <;> cases type <;> first | exact h | exact absurd h (by decide)

/-- The node under which a row goes may have a block. -/
theorem Lawful.opensBlock {r : Row} {before : List Row} (h : Lawful (r :: before)) {n : Node}
    (hn : (ofRows before).get? (parentOf before r.level) = some n) : n.body.opensBlock = true := by
  cases hl : r.level with
  | zero =>
    obtain ⟨children, hroot⟩ := root_ofRows before
    rw [hl, parentOf, hroot] at hn
    cases hn
    rfl
  | succ level =>
    obtain ⟨p, hp, hopens⟩ := h.2.2.1 level (by omega)
    obtain ⟨after, rest, rfl, hpar⟩ := parentOf_of_find? hp
    obtain ⟨children, hc⟩ := get?_ofRows after p rest
    rw [hl, hpar, hc] at hn
    cases hn
    exact hopens

/-- What a tree from lawful rows keeps as it grows. -/
structure Kept (t : Table) : Prop where
  allowed : ∀ uid n, t.get? uid = some n →
    ∀ type ∈ t.childTypes uid, (expectedChild n.type).allows type = true
  modules : ∃ modules others, t.childTypes 0 = modules ++ others ∧
    (∀ type ∈ modules, type = .moduleImport) ∧ ∀ type ∈ others, type ≠ .moduleImport
  leaves : ∀ uid n, t.get? uid = some n → n.body.opensBlock = false → n.children = []

theorem kept_empty : Kept .empty where
  allowed := by
    intro uid n hn type htype
    obtain rfl : uid = 0 := Nat.lt_one_iff.mp (get?_lt hn)
    cases htype
  modules := ⟨[], [], rfl, by simp, by simp⟩
  leaves := by
    intro uid n hn hopens
    obtain rfl : uid = 0 := Nat.lt_one_iff.mp (get?_lt hn)
    cases hn
    cases hopens

/-- At the top level a module comes first or after modules. -/
theorem modules_concat {types modules others : List NodeType} {type : NodeType}
    (htypes : types = modules ++ others) (hm : ∀ m ∈ modules, m = NodeType.moduleImport)
    (ho : ∀ m ∈ others, m ≠ NodeType.moduleImport)
    (hlast : ∀ previous ∈ types.getLast?, previous ≠ .moduleImport → type ≠ .moduleImport) :
    ∃ modules others, types ++ [type] = modules ++ others ∧
      (∀ m ∈ modules, m = NodeType.moduleImport) ∧ ∀ m ∈ others, m ≠ NodeType.moduleImport := by
  by_cases hmod : type = .moduleImport
  · -- then nothing but modules stands before it
    have hnil : others = [] := by
      by_contra hne
      have hlast' : types.getLast? = some (others.getLast hne) := by
        rw [htypes, List.getLast?_append, List.getLast?_eq_some_getLast hne, Option.some_or]
      exact hlast _ hlast' (ho _ (List.getLast_mem hne)) hmod
    refine ⟨modules ++ [type], [], by simp [htypes, hnil], ?_, by simp⟩
    simpa [or_imp, forall_and, hmod] using hm
  · refine ⟨modules, others ++ [type], by simp [htypes], hm, ?_⟩
    simpa [or_imp, forall_and, hmod] using ho

namespace Kept

variable {r : Row} {before : List Row}

/-- The new node is allowed under its parent, and has no children yet. -/
theorem allowed_cons (h : Kept (ofRows before)) (hl : Lawful (r :: before)) {uid : Nat} {n : Node}
    (hn : (ofRows (r :: before)).get? uid = some n) {type : NodeType}
    (htype : type ∈ (ofRows (r :: before)).childTypes uid) :
    (expectedChild n.type).allows type = true := by
  have hp := parentOf_lt_size before r.level
  rw [childTypes_ofRows_cons] at htype
  rcases cases_get?_push hp hn with ⟨rfl, rfl⟩ | ⟨m, hm, rfl⟩
  · rw [if_neg (by omega), childTypes_of_none (get?_size _)] at htype
    cases htype
  · split at htype
    · next hu =>
      rcases List.mem_append.mp htype with htype | htype
      · exact h.allowed uid m hm type htype
      · obtain rfl := List.mem_singleton.mp htype
        obtain ⟨p, hpar, hscope⟩ := get?_parentOf before r.level
        rw [hu, hpar, Option.some.injEq] at hm
        have hparent : m.type = scopeType before r.level := hm ▸ hscope
        have hallows := expectedChild_of_allowedAt hl.2.1
        rw [← hparent] at hallows
        exact hallows
    · exact h.allowed uid m hm type htype

theorem modules_cons (h : Kept (ofRows before)) (hl : Lawful (r :: before)) :
    ∃ modules others, (ofRows (r :: before)).childTypes 0 = modules ++ others ∧
      (∀ type ∈ modules, type = .moduleImport) ∧ ∀ type ∈ others, type ≠ .moduleImport := by
  obtain ⟨modules, others, hmodules, hm, ho⟩ := h.modules
  rw [childTypes_ofRows_cons]
  split
  · next hroot =>
    -- a row of the top level
    have hzero : r.level = 0 := by
      refine (parentOf_inj hl.climbing.2 (Nat.zero_le _) hl.1 ?_).symm
      simpa [parentOf] using hroot
    refine modules_concat hmodules hm ho fun previous hprevious hne hmod => ?_
    have hlast := lastAt_eq hl.climbing.2 (Nat.zero_le (topLevel before))
    have hparent : parentOf before 0 = 0 := by cases before <;> rfl
    have hscope : scopeType before 0 = .root := by cases before <;> rfl
    rw [hparent, hprevious] at hlast
    have hallows := hl.2.1
    unfold allowedAt at hallows
    rw [hzero, hlast, hscope, hmod] at hallows
    exact hne (eq_of_expectedNext_root hallows)
  · exact ⟨modules, others, hmodules, hm, ho⟩

/-- A node that may not have a block is not the parent of the new one. -/
theorem leaves_cons (h : Kept (ofRows before)) (hl : Lawful (r :: before)) {uid : Nat} {n : Node}
    (hn : (ofRows (r :: before)).get? uid = some n) (hopens : n.body.opensBlock = false) :
    n.children = [] := by
  rcases cases_get?_push (parentOf_lt_size before r.level) hn with ⟨rfl, rfl⟩ | ⟨m, hm, rfl⟩
  · rfl
  · have hno : uid ≠ parentOf before r.level := by
      rintro rfl
      simp only at hopens
      rw [hl.opensBlock hm] at hopens
      cases hopens
    simp only [if_neg hno]
    exact h.leaves uid m hm hopens

end Kept

theorem Lawful.kept {rs : List Row} (h : Lawful rs) : Kept (ofRows rs) := by
  induction rs with
  | nil => exact kept_empty
  | cons r before ih =>
    have hkept := ih h.2.2.2
    exact ⟨fun uid n hn type htype => hkept.allowed_cons h hn htype, hkept.modules_cons h,
      fun uid n hn hopens => hkept.leaves_cons h hn hopens⟩

/-- **Lawful rows give a grammatical tree.** -/
theorem Lawful.grammatical {rs : List Row} (h : Lawful rs) : (ofRows rs).Grammatical := by
  obtain ⟨hallowed, hmodules, hleaves⟩ := h.kept
  have hscope : ∀ {scope : NodeType} {uid : Nat} {n : Node}, (ofRows rs).get? uid = some n →
      n.type = scope → ∀ type ∈ (ofRows rs).childTypes uid,
        (expectedChild scope).allows type = true := by
    rintro scope uid n hn rfl type htype
    exact hallowed uid n hn type htype
  have hleaf : ∀ {uid : Nat} {n : Node}, (ofRows rs).get? uid = some n →
      n.body.opensBlock = false → n.children = [] := fun {uid n} => hleaves uid n
  obtain ⟨children, hroot⟩ := root_ofRows rs
  refine ⟨?_, hmodules, ?_, ?_, ?_, ?_, ?_, ?_⟩
  · exact fun type htype => expectedChild_root (hscope hroot rfl type htype)
  · exact fun uid n hn hn' type htype => expectedChild_classDecl (hscope hn hn' type htype)
  · exact fun uid n hn hn' type htype => expectedChild_funcDecl (hscope hn hn' type htype)
  · exact fun uid n hn hn' type htype => expectedChild_step (hscope hn hn' type htype)
  · intro uid n hn htype
    refine hleaf hn ?_
    cases hb : n.body <;> simp_all [Node.type, Body.type, Body.opensBlock]
  · intro uid n hn htype
    refine hleaf hn ?_
    cases hb : n.body <;> simp_all [Node.type, Body.type, Body.opensBlock]
  · intro uid n s hn hbody hopens
    refine hleaf hn ?_
    rw [hbody]
    exact hopens

end IntentCode.Ast
