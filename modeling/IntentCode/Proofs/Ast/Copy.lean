import IntentCode.Proofs.Ast.Accepted
import IntentCode.Proofs.Ast.Grammar
import IntentCode.Proofs.Ast.Same

/-!
# The copy of a tree

Any table that is accepted can be written down as rows and made again from them. The nodes of the
copy are numbered in the order of the rows, whatever their numbers were before, so the copy is a
table that a parser could have built. What it has in common with the original is its shape and its
bodies (`Forest.Copies`), and that makes the two the same in structure (`sameStructure_of_copies`).

A body is put in order on the way: the references of parameters come in the order of the
parameters. A map does not say which order that is, but a parser always gives this one.
-/

set_option autoImplicit false

namespace IntentCode

/-! ## Maps in the order of another -/

namespace OrderedMap

variable {α β : Type}

theorem keys_filterMap (get : String → Option α) (l : List (String × β)) :
    (l.filterMap fun e => (get e.1).map fun v => (e.1, v)).map Prod.fst =
      (l.map Prod.fst).filter fun key => (get key).isSome := by
  induction l with
  | nil => rfl
  | cons e l ih =>
    cases h : get e.1 with
    | none => simp [h, ih]
    | some v => simp [h, ih]

/-- The entries in the order in which another map has their keys; entries under other keys are left
out. -/
def inOrderOf (m : OrderedMap α) (order : OrderedMap β) : OrderedMap α :=
  ⟨order.toList.filterMap fun e => (m.get? e.1).map fun v => (e.1, v), by
    rw [keys_filterMap]
    exact order.nodup_keys.filter _⟩

theorem keys_inOrderOf (m : OrderedMap α) (order : OrderedMap β) :
    (m.inOrderOf order).keys = order.keys.filter fun key => (m.get? key).isSome :=
  keys_filterMap m.get? order.toList

/-- **Nothing but the order changes**, if every key has a place in it. -/
theorem sameEntries_inOrderOf [BEq α] [LawfulBEq α] {m : OrderedMap α} {order : OrderedMap β}
    (h : ∀ key ∈ m.keys, key ∈ order.keys) : (m.inOrderOf order).sameEntries m = true := by
  have hperm : (m.inOrderOf order).keys.Perm m.keys := by
    rw [keys_inOrderOf]
    refine (List.perm_ext_iff_of_nodup (order.nodup_keys.filter _) m.nodup_keys).mpr fun key => ?_
    rw [List.mem_filter, isSome_get?_iff]
    exact ⟨fun hk => hk.2, fun hk => ⟨h key hk, hk⟩⟩
  have hsize : (m.inOrderOf order).size = m.size := by
    have hlength := hperm.length_eq
    rw [keys, keys, List.length_map, List.length_map] at hlength
    exact hlength
  unfold sameEntries
  rw [hsize, beq_self_eq_true, Bool.true_and, List.all_eq_true]
  intro e he
  obtain ⟨o, -, ho⟩ := List.mem_filterMap.mp he
  obtain ⟨v, hv, rfl⟩ := Option.map_eq_some_iff.mp ho
  rw [hv]
  exact beq_self_eq_true _

end OrderedMap

namespace Ast

/-! ## Settled bodies -/

namespace Body

/-- The references of parameters in the order of the parameters. -/
def settled : Body → Body
  | funcDecl f => funcDecl { f with paramRefs := f.paramRefs.inOrderOf f.params }
  | b => b

@[simp] theorem type_settled (b : Body) : b.settled.type = b.type := by cases b <;> rfl

@[simp] theorem opensBlock_settled (b : Body) : b.settled.opensBlock = b.opensBlock := by
  cases b <;> rfl

@[simp] theorem notes?_settled (b : Body) : b.settled.notes? = b.notes? := by cases b <;> rfl

@[simp] theorem declaredName?_settled (b : Body) : b.settled.declaredName? = b.declaredName? := by
  cases b <;> rfl

/-- No parameter has a reference that is not in the list. -/
def Settles (b : Body) : Prop :=
  ∀ f, b = .funcDecl f → ∀ key ∈ f.paramRefs.keys, key ∈ f.params.keys

theorem Settles.same {b : Body} (h : b.Settles) : b.settled.same b = true := by
  cases b with
  | funcDecl f =>
    have hrefs := OrderedMap.sameEntries_inOrderOf (h f rfl)
    simp [settled, Body.same, OrderedMap.sameEntries_self, hrefs]
  | root => exact same_self _
  | moduleImport m => exact same_self _
  | classDecl c => exact same_self _
  | varDecl v => exact same_self _
  | step s => exact same_self _

end Body

def Row.settled (r : Row) : Row := { r with body := r.body.settled }

/-! ## Forests that the grammar allows -/

/-- What may come next in a scope. -/
def allowedAfter (scope : NodeType) (last : Option NodeType) : NodeSet :=
  match last with
  | none => expectedChild scope
  | some previous => expectedNext scope previous

/-- Types that may follow one another in a scope. -/
def Follows (scope : NodeType) (last : Option NodeType) : List NodeType → Prop
  | [] => True
  | type :: types =>
    (allowedAfter scope last).allows type = true ∧ Follows scope (some type) types

/-- A forest that may stand in a scope, after a child of the given type. -/
def Forest.Fits (scope : NodeType) (last : Option NodeType) : Forest → Prop
  | .nil => True
  | .cons n below beside =>
    (allowedAfter scope last).allows n.type = true ∧
      (below ≠ .nil → n.body.opensBlock = true) ∧ below.Fits n.type none ∧
      beside.Fits scope (some n.type)

theorem allowedAfter_of_ne_root {scope : NodeType} (h : scope ≠ .root) (last : Option NodeType) :
    allowedAfter scope last = expectedChild scope := by
  cases last with
  | none => rfl
  | some previous => cases scope <;> first | rfl | exact absurd rfl h

/-- No node is of the type of the root. -/
theorem Forest.Fits.ne_root {f : Forest} {scope : NodeType} {last : Option NodeType}
    (h : f.Fits scope last) : ∀ n ∈ f.nodes, n.body ≠ .root := by
  induction f generalizing scope last with
  | nil => exact fun n hn => by cases hn
  | cons m below beside ihb ihs =>
    obtain ⟨hallows, -, hbelow, hbeside⟩ := h
    intro n hn hroot
    rw [nodes] at hn
    rcases List.mem_append.mp hn with hn | hn
    · rcases List.mem_cons.mp hn with rfl | hn
      · rw [Node.type, hroot] at hallows
        cases hallows
      · exact ihb hbelow n hn hroot
    · exact ihs hbeside n hn hroot

/-- Below the top level the order is free. -/
theorem follows_of_allows {scope : NodeType} (h : scope ≠ .root) {types : List NodeType}
    (hall : ∀ type ∈ types, (expectedChild scope).allows type = true) (last : Option NodeType) :
    Follows scope last types := by
  induction types generalizing last with
  | nil => trivial
  | cons type types ih =>
    refine ⟨?_, ih (fun t ht => hall t (List.mem_cons_of_mem _ ht)) _⟩
    rw [allowedAfter_of_ne_root h]
    exact hall type List.mem_cons_self

theorem expectedNext_root_of_ne {type previous : NodeType}
    (h : type = .classDecl ∨ type = .funcDecl ∨ type = .varDecl) :
    (expectedNext .root previous).allows type = true := by
  rcases h with rfl | rfl | rfl <;> cases previous <;> rfl

/-- At the top level modules come first. -/
theorem follows_root {modules others : List NodeType} {last : Option NodeType}
    (hlast : last = none ∨ last = some .moduleImport)
    (hm : ∀ type ∈ modules, type = NodeType.moduleImport)
    (ho : ∀ type ∈ others, type = NodeType.classDecl ∨ type = .funcDecl ∨ type = .varDecl) :
    Follows .root last (modules ++ others) := by
  induction modules generalizing last with
  | nil =>
    clear hlast
    induction others generalizing last with
    | nil => trivial
    | cons type others ih =>
      have htype := ho type List.mem_cons_self
      refine ⟨?_, ih fun t ht => ho t (List.mem_cons_of_mem _ ht)⟩
      cases last with
      | none => rcases htype with rfl | rfl | rfl <;> rfl
      | some previous => exact expectedNext_root_of_ne htype
  | cons type modules ih =>
    obtain rfl := hm type List.mem_cons_self
    refine ⟨?_, ih (.inr rfl) fun t ht => hm t (List.mem_cons_of_mem _ ht)⟩
    rcases hlast with rfl | rfl <;> rfl

namespace Table

variable {t : Table}

theorem childTypes_eq {uid : Nat} {n : Node} (h : t.get? uid = some n) :
    t.childTypes uid = (n.children.filterMap t.get?).map Node.type := by
  rw [childTypes, children_eq h]

theorem type_mem_childTypes {uid : Nat} {n p : Node} (hp : t.get? uid = some p)
    (hchild : n.uid ∈ p.children) (hn : t.get? n.uid = some n) : n.type ∈ t.childTypes uid := by
  rw [childTypes_eq hp]
  exact List.mem_map_of_mem (List.mem_filterMap.mpr ⟨n.uid, hchild, hn⟩)

/-- The children of a node follow one another as the grammar says. -/
theorem Grammatical.follows (hg : t.Grammatical) {uid : Nat} {n : Node}
    (hn : t.get? uid = some n) (htype : n.type ≠ .root) :
    Follows n.type none (t.childTypes uid) := by
  refine follows_of_allows htype (fun type hmem => ?_) none
  cases hscope : n.type with
  | root => exact absurd hscope htype
  | classDecl => rcases hg.classDecl uid n hn hscope type hmem with rfl | rfl <;> rfl
  | funcDecl => rcases hg.funcDecl uid n hn hscope type hmem with rfl | rfl <;> rfl
  | step =>
    obtain rfl := hg.step uid n hn hscope type hmem
    rfl
  | moduleImport =>
    rw [childTypes_eq hn, hg.moduleImport uid n hn hscope] at hmem
    cases hmem
  | varDecl =>
    rw [childTypes_eq hn, hg.varDecl uid n hn hscope] at hmem
    cases hmem

theorem Grammatical.follows_root (hg : t.Grammatical) : Follows .root none (t.childTypes 0) := by
  obtain ⟨modules, others, htypes, hm, ho⟩ := hg.modulesFirst
  have hroot := hg.root
  rw [htypes] at hroot ⊢
  refine Ast.follows_root (.inl rfl) hm fun type hmem => ?_
  exact (hroot type (List.mem_append_right _ hmem)).resolve_left (ho type hmem)

/-- A node with children may have a block. -/
theorem Grammatical.opensBlock (hg : t.Grammatical) {uid : Nat} {n : Node}
    (hn : t.get? uid = some n) (hc : n.children ≠ []) : n.body.opensBlock = true := by
  cases hb : n.body with
  | root => rfl
  | classDecl c => rfl
  | funcDecl f => rfl
  | moduleImport m => exact absurd (hg.moduleImport uid n hn (by rw [Node.type, hb]; rfl)) hc
  | varDecl v => exact absurd (hg.varDecl uid n hn (by rw [Node.type, hb]; rfl)) hc
  | step s =>
    cases hs : s.opensBlock with
    | true => exact hs
    | false => exact absurd (hg.plainStep uid n s hn hb hs) hc

/-- **The forest of a grammatical tree fits.** -/
theorem Draws.fits (hg : t.Grammatical) {uids : List Nat} {f : Forest} (h : t.Draws uids f)
    {scope : NodeType} {last : Option NodeType}
    (hfollows : Follows scope last ((uids.filterMap t.get?).map Node.type)) :
    f.Fits scope last := by
  induction h generalizing scope last with
  | nil => trivial
  | @cons uid n uids below beside get number hbelow hbeside ihb ihs =>
    rw [List.filterMap_cons_some get, List.map_cons] at hfollows
    obtain ⟨hallows, hmore⟩ := hfollows
    have htype : n.type ≠ .root := by
      intro hroot
      rw [hroot] at hallows
      cases hallows
    refine ⟨hallows, fun hne => hg.opensBlock get ?_, ihb ?_, ihs hmore⟩
    · intro hnone
      rw [hnone] at hbelow
      cases hbelow
      exact hne rfl
    · have hchildren := hg.follows get htype
      rw [childTypes_eq get] at hchildren
      exact hchildren

end Table

/-! ## Rows of a forest -/

/-- The rows of the copy of a forest, the latest first. -/
def Forest.copied (level : Nat) (f : Forest) : List Row :=
  ((f.numbered level).map fun e => e.2.settled).reverse

theorem Forest.copied_cons (level : Nat) (n : Node) (below beside : Forest) :
    copied level (.cons n below beside) =
      copied level beside ++ (copied (level + 1) below ++ [⟨level, n.line, n.body.settled⟩]) := by
  simp [copied, numbered, Row.settled]

theorem Forest.level_copied {f : Forest} {level : Nat} : ∀ r ∈ f.copied level, level ≤ r.level := by
  intro r hr
  obtain ⟨e, he, rfl⟩ := List.mem_map.mp (List.mem_reverse.mp hr)
  exact level_numbered e he

/-- A row that is open for the next level: the latest one of its level, with a block. -/
def OpenAt (rows : List Row) (level : Nat) : Prop :=
  ∃ p, rows.find? (fun q => q.level = level) = some p ∧ p.body.opensBlock = true

/-- The place of some siblings: their level can be reached, and what its scope is like is known. -/
structure Spot (rows : List Row) (level : Nat) (scope : NodeType) (last : Option NodeType) :
    Prop where
  lawful : Lawful rows
  climbs : level ≤ topLevel rows
  type : scopeType rows level = scope
  previous : lastAt rows level = last
  hangs : ∀ k < level, OpenAt rows k

namespace Spot

variable {rows : List Row} {level : Nat} {scope : NodeType} {last : Option NodeType}

/-- A row of the level takes its place. -/
theorem push (h : Spot rows level scope last) {r : Row} (hr : r.level = level)
    (hallows : (allowedAfter scope last).allows r.body.type = true) :
    Spot (r :: rows) level scope (some r.body.type) where
  lawful := by
    subst hr
    refine ⟨h.climbs, ?_, h.hangs, h.lawful⟩
    rw [← h.type, ← h.previous] at hallows
    exact hallows
  climbs := by
    rw [topLevel, hr]
    exact Nat.le_succ _
  type := by
    rw [scopeType_cons_of_le (Nat.le_of_eq hr.symm)]
    exact h.type
  previous := by
    rw [lastAt, if_neg (by omega), if_pos hr]
  hangs := by
    intro k hk
    obtain ⟨p, hp, hopens⟩ := h.hangs k hk
    refine ⟨p, ?_, hopens⟩
    rw [List.find?_cons_of_neg (by simp; omega), hp]

/-- Below a row that has a block nothing stands yet. -/
theorem enter {r : Row} (h : Spot (r :: rows) level scope last) (hr : r.level = level)
    (hopens : r.body.opensBlock = true) : Spot (r :: rows) (level + 1) r.body.type none where
  lawful := h.lawful
  climbs := by
    rw [topLevel, hr]
  type := by
    rw [scopeType, if_pos hr]
  previous := by
    rw [lastAt, if_pos (by omega)]
  hangs := by
    intro k hk
    by_cases hkl : k = level
    · refine ⟨r, ?_, hopens⟩
      rw [List.find?_cons_of_pos (by simp [hr, hkl])]
    · exact h.hangs k (by omega)

/-- What is deeper changes nothing. -/
theorem back {more : List Row} (h : Spot rows level scope last) (hmore : ∀ r ∈ more, level < r.level)
    (hlawful : Lawful (more ++ rows)) : Spot (more ++ rows) level scope last := by
  induction more with
  | nil => exact h
  | cons r more ih =>
    have hr := hmore r List.mem_cons_self
    have hrest := ih (fun q hq => hmore q (List.mem_cons_of_mem _ hq)) hlawful.2.2.2
    rw [List.cons_append] at hlawful ⊢
    refine ⟨hlawful, ?_, ?_, ?_, ?_⟩
    · rw [topLevel]
      omega
    · rw [scopeType_cons_of_le (Nat.le_of_lt hr)]
      exact hrest.type
    · rw [lastAt, if_neg (by omega), if_neg (by omega)]
      exact hrest.previous
    · intro k hk
      obtain ⟨p, hp, hopens⟩ := hrest.hangs k hk
      refine ⟨p, ?_, hopens⟩
      rw [List.find?_cons_of_neg (by simp; omega), hp]

end Spot

/-- **The rows of a forest that fits are lawful.** -/
theorem Spot.lawful_copied {f : Forest} {rows : List Row} {level : Nat} {scope : NodeType}
    {last : Option NodeType} (h : Spot rows level scope last) (hf : f.Fits scope last) :
    Lawful (f.copied level ++ rows) := by
  induction f generalizing rows level scope last with
  | nil => exact h.lawful
  | cons n below beside ihb ihs =>
    obtain ⟨hallows, hopens, hbelow, hbeside⟩ := hf
    rw [Forest.copied_cons, List.append_assoc, List.append_assoc, List.singleton_append]
    have hrow : Spot (⟨level, n.line, n.body.settled⟩ :: rows) level scope (some n.type) := by
      have hpush := h.push (r := ⟨level, n.line, n.body.settled⟩) rfl (by
        rw [Body.type_settled]
        exact hallows)
      rw [Body.type_settled] at hpush
      exact hpush
    have hunder : Lawful (below.copied (level + 1) ++ ⟨level, n.line, n.body.settled⟩ :: rows) := by
      by_cases hnil : below = .nil
      · rw [hnil]
        exact hrow.lawful
      · have henter := hrow.enter rfl (by
          rw [Body.opensBlock_settled]
          exact hopens hnil)
        rw [Body.type_settled] at henter
        exact ihb henter hbelow
    exact ihs (hrow.back (fun r hr => Forest.level_copied r hr) hunder) hbeside

/-! ## Copies -/

/-- A forest and its copy: one shape, and the bodies of the copy are settled. -/
inductive Forest.Copies : Forest → Forest → Prop
  | nil : Copies .nil .nil
  | cons {m n : Node} {below below' beside beside' : Forest} (body : m.body = n.body.settled)
    (leaf : m.children = [] ↔ n.children = []) (inner : Copies below below')
    (outer : Copies beside beside') : Copies (.cons m below beside) (.cons n below' beside')

/-- Lists of rows that are deeper than a level, each with rows of that level behind it. -/
theorem append_inj_of_levels {level : Nat} {as bs cs ds : List Row}
    (has : ∀ r ∈ as, level < r.level) (hcs : ∀ r ∈ cs, level < r.level)
    (hbs : ∀ r ∈ bs.head?, r.level = level) (hds : ∀ r ∈ ds.head?, r.level = level)
    (h : as ++ bs = cs ++ ds) : as = cs ∧ bs = ds := by
  induction as generalizing cs with
  | nil =>
    cases cs with
    | nil => exact ⟨rfl, h⟩
    | cons c cs =>
      have hlevel := hbs c (by rw [← List.nil_append bs, h]; rfl)
      have hdeep := hcs c List.mem_cons_self
      omega
  | cons a as ih =>
    cases cs with
    | nil =>
      have hlevel := hds a (by rw [← List.nil_append ds, ← h]; rfl)
      have hdeep := has a List.mem_cons_self
      omega
    | cons c cs =>
      obtain ⟨rfl, hrest⟩ := List.cons.inj h
      obtain ⟨rfl, rfl⟩ := ih (fun r hr => has r (List.mem_cons_of_mem _ hr))
        (fun r hr => hcs r (List.mem_cons_of_mem _ hr)) hrest
      exact ⟨rfl, rfl⟩

theorem Forest.head?_numbered (f : Forest) (level : Nat) :
    ∀ e ∈ (f.numbered level).head?, e.2.level = level := by
  cases f with
  | nil => exact fun e he => by cases he
  | cons n below beside =>
    intro e he
    cases he
    rfl

namespace Table

/-- The rows of a forest determine its shape. -/
theorem Draws.copies {t u : Table} {is js : List Nat} {f g : Forest} (hf : t.Draws is f)
    (hg : u.Draws js g) {level : Nat}
    (h : (g.numbered level).map Prod.snd = (f.numbered level).map fun e => e.2.settled) :
    g.Copies f := by
  induction hf generalizing js g level with
  | nil =>
    cases hg with
    | nil => exact .nil
    | cons get number children siblings => cases h
  | @cons i n is below beside get number hbelow hbeside ihb ihs =>
    cases hg with
    | nil => cases h
    | @cons j m js below' beside' get' number' hbelow' hbeside' =>
      simp only [Forest.numbered, List.cons_append, List.map_cons, List.map_append] at h
      obtain ⟨hrow, hrest⟩ := List.cons.inj h
      have hbody : m.body = n.body.settled := congrArg Row.body hrow
      -- what is below is deeper than what is beside
      have hdeep : ∀ {g : Forest} {s : Row → Row}, (∀ r, (s r).level = r.level) →
          ∀ r ∈ (g.numbered (level + 1)).map (fun e => s e.2), level < r.level := by
        intro g s hs r hr
        obtain ⟨e, he, rfl⟩ := List.mem_map.mp hr
        rw [hs]
        exact Forest.level_numbered e he
      have hhead : ∀ {g : Forest} {s : Row → Row}, (∀ r, (s r).level = r.level) →
          ∀ r ∈ ((g.numbered level).map fun e => s e.2).head?, r.level = level := by
        intro g s hs r hr
        rw [List.head?_map] at hr
        obtain ⟨e, he, rfl⟩ := Option.map_eq_some_iff.mp hr
        rw [hs]
        exact Forest.head?_numbered g level e he
      obtain ⟨hinner, houter⟩ := append_inj_of_levels (hdeep (s := id) fun _ => rfl)
        (hdeep (s := Row.settled) fun _ => rfl) (hhead (s := id) fun _ => rfl)
        (hhead (s := Row.settled) fun _ => rfl) hrest
      have hcopy := ihb hbelow' hinner
      refine .cons hbody ?_ hcopy (ihs hbeside' houter)
      constructor
      · intro hm
        rw [hm] at hbelow'
        cases hbelow'
        cases hcopy
        generalize n.children = cs at hbelow
        cases hbelow
        rfl
      · intro hn
        rw [hn] at hbelow
        cases hbelow
        cases hcopy
        generalize m.children = cs at hbelow'
        cases hbelow'
        rfl

end Table

namespace Forest.Copies

variable {f g : Forest}

/-- Every node of a copy is that of a node. -/
theorem exists_node (h : g.Copies f) {m : Node} (hm : m ∈ g.nodes) :
    ∃ n ∈ f.nodes, m.body = n.body.settled ∧ (m.children = [] ↔ n.children = []) := by
  induction h with
  | nil => cases hm
  | @cons m' n below below' beside beside' body leaf inner outer ihb ihs =>
    rw [nodes] at hm
    rcases List.mem_append.mp hm with hm | hm
    · rcases List.mem_cons.mp hm with rfl | hm
      · exact ⟨n, List.mem_cons_self, body, leaf⟩
      · obtain ⟨k, hk, hboth⟩ := ihb hm
        exact ⟨k, List.mem_cons_of_mem _ (List.mem_append_left _ hk), hboth⟩
    · obtain ⟨k, hk, hboth⟩ := ihs hm
      exact ⟨k, List.mem_cons_of_mem _ (List.mem_append_right _ hk), hboth⟩

theorem alike (h : g.Copies f) (hf : ∀ n ∈ f.nodes, n.body.Settles) : g.Alike f := by
  induction h with
  | nil => exact .nil
  | @cons m n below below' beside beside' body leaf inner outer ihb ihs =>
    refine .cons ?_ (ihb fun k hk => hf k ?_) (ihs fun k hk => hf k ?_)
    · rw [body]
      exact (hf n List.mem_cons_self).same
    · exact List.mem_cons_of_mem _ (List.mem_append_left _ hk)
    · exact List.mem_cons_of_mem _ (List.mem_append_right _ hk)

/-- Line numbers make no difference to what is a copy. -/
theorem of_unnumbered {g' : Forest} (h : g.Copies f) (hg : g'.unnumbered = g.unnumbered) :
    g'.Copies f := by
  induction h generalizing g' with
  | nil =>
    cases g' with
    | nil => exact .nil
    | cons => cases hg
  | @cons m n below below' beside beside' body leaf inner outer ihb ihs =>
    cases g' with
    | nil => cases hg
    | cons k under next =>
      obtain ⟨hnode, hbelow, hbeside⟩ := Forest.cons.inj hg
      obtain ⟨-, -, hchildren, -, hbody⟩ := Node.mk.inj hnode
      exact .cons (hbody.trans body) (by rw [hchildren, leaf]) (ihb hbelow) (ihs hbeside)

end Forest.Copies

/-! ## The same structure -/

namespace Table

/-- The numbers of source lines do not matter. -/
theorem sameUpTo_unnumbered (t u : Table) (bound i j : Nat) :
    t.unnumbered.sameUpTo u bound i j = t.sameUpTo u bound i j := by
  induction bound generalizing i j with
  | zero => rfl
  | succ bound ih =>
    rw [sameUpTo, sameUpTo, get?_unnumbered]
    cases t.get? i with
    | none => rfl
    | some n =>
      cases u.get? j with
      | none => rfl
      | some m => simp only [Option.map_some, ih]

/-- Alike forests are found the same by any walk that is long enough. -/
theorem Draws.sameUpTo {t u : Table} {is js : List Nat} {f g : Forest} (hf : t.Draws is f)
    (hg : u.Draws js g) (h : f.Alike g) {bound : Nat} (hb : f.height ≤ bound) :
    is.length = js.length ∧ ∀ p ∈ is.zip js, t.sameUpTo u bound p.1 p.2 = true := by
  induction h generalizing is js bound with
  | nil =>
    cases hf
    cases hg
    exact ⟨rfl, fun p hp => by cases hp⟩
  | @cons m n below below' beside beside' body inner outer ihb ihs =>
    rw [Forest.height] at hb
    have hwide : beside.height ≤ bound := by omega
    cases hf with
    | @cons i m is below beside get number hbelow hbeside =>
      cases hg with
      | @cons j n js below' beside' get' number' hbelow' hbeside' =>
        obtain ⟨hlength, hall⟩ := ihs hbeside hbeside' hwide
        refine ⟨by rw [List.length_cons, List.length_cons, hlength], ?_⟩
        intro p hp
        rw [List.zip_cons_cons] at hp
        rcases List.mem_cons.mp hp with rfl | hp
        · cases bound with
          | zero => omega
          | succ bound =>
            have hdeep : below.height ≤ bound := by omega
            obtain ⟨hchildren, hunder⟩ := ihb hbelow hbelow' hdeep
            rw [Table.sameUpTo, get, get']
            simp only [body, hchildren, beq_self_eq_true, Bool.and_self, Bool.true_and,
              List.all_eq_true]
            exact hunder
        · exact hall p hp

/-- **Every accepted tree that the grammar allows has a copy.** -/
theorem exists_copy {t : Table} (h : t.validate = .ok ())
    (hnumber : ∀ i n, t.get? i = some n → n.uid = i) (hg : t.Grammatical) :
    ∃ rows, Lawful rows ∧ (ofRows rows).forest.Copies t.forest := by
  obtain ⟨n, hn, hbody, hdraws, -⟩ := draws_of_validate h hnumber
  have hspot : Spot [] 0 .root none :=
    ⟨trivial, Nat.le_refl 0, rfl, rfl, fun k hk => absurd hk (Nat.not_lt_zero k)⟩
  have hfits : t.forest.Fits .root none := by
    apply hdraws.fits hg
    rw [← childTypes_eq hn]
    exact hg.follows_root
  have hlawful := hspot.lawful_copied hfits
  rw [List.append_nil] at hlawful
  obtain ⟨children, hroot, hdrawn, hrows⟩ := numbered_forest hlawful.climbing
  rw [Forest.copied, List.reverse_reverse] at hrows
  exact ⟨t.forest.copied 0, hlawful, hdraws.copies hdrawn hrows⟩

/-- **A copy has the structure of the tree**, whatever the numbers of its source lines. -/
theorem sameStructure_of_copies {t u : Table} (h : t.validate = .ok ())
    (hnumber : ∀ i n, t.get? i = some n → n.uid = i)
    (hsettles : ∀ n ∈ t.forest.nodes, n.body.Settles) {rows : List Row} (hlawful : Lawful rows)
    (hcopies : (ofRows rows).forest.Copies t.forest)
    (hu : u.unnumbered = (ofRows rows).unnumbered) : u.sameStructure t = true := by
  obtain ⟨n, hn, hbody, hdraws, -⟩ := draws_of_validate h hnumber
  obtain ⟨children, hroot, hdrawn, hrows⟩ := numbered_forest hlawful.climbing
  have hheight : (ofRows rows).forest.height ≤ rows.length + t.size := by
    have hle := (ofRows rows).forest.height_le 0
    have hlength := congrArg List.length hrows
    rw [List.length_map, List.length_reverse] at hlength
    omega
  obtain ⟨hchildren, hall⟩ := hdrawn.sameUpTo hdraws (hcopies.alike hsettles) hheight
  have hsize : u.size + t.size = rows.length + t.size + 1 := by
    have hsizes := size_unnumbered u
    rw [hu, size_unnumbered, size_ofRows] at hsizes
    omega
  have hroots : Body.same .root n.body = true := by
    rw [hbody]
    rfl
  rw [sameStructure, hsize, ← sameUpTo_unnumbered, hu, sameUpTo_unnumbered, Table.sameUpTo, hroot,
    hn]
  simp only [hroots, hchildren, beq_self_eq_true, Bool.and_self, Bool.true_and, List.all_eq_true]
  exact hall

end Table

end Ast

end IntentCode
