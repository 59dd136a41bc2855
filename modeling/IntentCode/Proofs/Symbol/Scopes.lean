import IntentCode.Proofs.Ast.Links
import IntentCode.Symbol.Declared

/-!
# The scopes around a node

A symbol path is read off upwards, from a node to the root, while the symbols of a file are collected
downwards. Where links agree the two meet: what lies around a node is what lies around its
parent, and the parent (`scopeNames_of_parent`). The walk to the root is bounded by the size of the
table, and the bound is never met, because parents have smaller numbers.
-/

set_option autoImplicit false

namespace IntentCode.Ast

namespace Table

/-! ## The way to the root -/

theorem Linked.parent?_lt {t : Table} (h : t.Linked) {uid : Nat} {p : Node}
    (hp : t.parent? uid = some p) : p.uid < uid := by
  obtain ⟨n, hn, hp⟩ := Option.bind_eq_some_iff.mp hp
  obtain ⟨i, hi, hp⟩ := Option.bind_eq_some_iff.mp hp
  rw [h.number hp]
  have hpos : 0 < uid := by
    obtain ⟨root, hroot, hnone, -⟩ := h.root
    by_contra hzero
    obtain rfl : uid = 0 := by omega
    rw [hroot, Option.some.injEq] at hn
    rw [← hn, hnone] at hi
    cases hi
  obtain ⟨q, m, hq, -, hlt, -⟩ := h.listed hn hpos
  rw [hi, Option.some.injEq] at hq
  omega

/-- A bound that is high enough makes no difference. -/
theorem Linked.ancestorsUpTo_eq {t : Table} (h : t.Linked) {uid bound more : Nat}
    (hb : uid ≤ bound) (hm : uid ≤ more) : t.ancestorsUpTo bound uid = t.ancestorsUpTo more uid := by
  induction uid using Nat.strongRecOn generalizing bound more with
  | ind uid ih =>
    cases hp : t.parent? uid with
    | none => cases bound <;> cases more <;> simp [ancestorsUpTo, hp]
    | some p =>
      have hlt := h.parent?_lt hp
      obtain ⟨bound, rfl⟩ : ∃ b, bound = b + 1 := ⟨bound - 1, by omega⟩
      obtain ⟨more, rfl⟩ : ∃ b, more = b + 1 := ⟨more - 1, by omega⟩
      have hrest : t.ancestorsUpTo bound p.uid = t.ancestorsUpTo more p.uid :=
        ih p.uid hlt (by omega) (by omega)
      simp only [ancestorsUpTo, hp, hrest]

theorem Linked.ancestors_of_parent {t : Table} (h : t.Linked) {uid i : Nat} {n p : Node}
    (hn : t.get? uid = some n) (hi : n.parent = some i) (hp : t.get? i = some p) :
    t.ancestors uid = p :: t.ancestors i := by
  have hparent : t.parent? uid = some p := by simp [parent?, hn, hi, hp]
  have hsize := get?_lt hn
  have hlt := h.parent?_lt hparent
  rw [h.number hp] at hlt
  obtain ⟨bound, hbound⟩ : ∃ b, t.size = b + 1 := ⟨t.size - 1, by omega⟩
  have hrest : t.ancestorsUpTo bound i = t.ancestors i := h.ancestorsUpTo_eq (by omega) (by omega)
  rw [ancestors, hbound, ancestorsUpTo, hparent]
  simp only [h.number hp, hrest]

theorem Linked.ancestors_root {t : Table} (h : t.Linked) : t.ancestors 0 = [] := by
  obtain ⟨root, hroot, hnone, -⟩ := h.root
  have hparent : t.parent? 0 = none := by simp [parent?, hroot, hnone]
  unfold ancestors
  cases t.size <;> simp [ancestorsUpTo, hparent]

/-- Nothing but nodes of the table lies on the way. -/
theorem exists_of_mem_ancestors {t : Table} {uid : Nat} {a : Node} (h : a ∈ t.ancestors uid) :
    ∃ i, t.get? i = some a := by
  unfold ancestors at h
  generalize t.size = bound at h
  induction bound generalizing uid with
  | zero => cases h
  | succ bound ih =>
    rw [ancestorsUpTo] at h
    cases hp : t.parent? uid with
    | none =>
      rw [hp] at h
      cases h
    | some p =>
      rw [hp] at h
      rcases List.mem_cons.mp h with rfl | h
      · obtain ⟨n, -, hp⟩ := Option.bind_eq_some_iff.mp hp
        obtain ⟨i, -, hp⟩ := Option.bind_eq_some_iff.mp hp
        exact ⟨i, hp⟩
      · exact ih h

end Table

/-! ## The names of the scopes -/

/-- The name that a body puts before the names of what is declared in it. -/
def Body.scopeName? : Body → Option String
  | classDecl c => some c.name
  | funcDecl f => some f.name
  | root | moduleImport _ | varDecl _ | step _ => none

theorem Body.declaredName?_of_scopeName? {b : Body} {name : String} (h : b.scopeName? = some name) :
    b.declaredName? = some name := by
  cases b <;> first | exact h | cases h

namespace Table

/-- The names of the classes and functions around a node, from the outside. -/
def scopeNames (t : Table) (uid : Nat) : List String :=
  ((t.ancestors uid).filterMap fun a => a.body.scopeName?).reverse

/-- The names of the scopes around a declaration, and its own. -/
def qualifiedName? (t : Table) (uid : Nat) : Option (List String) := do
  let n ← t.get? uid
  let name ← n.body.declaredName?
  pure (t.scopeNames uid ++ [name])

/-- **A symbol path is a qualified name, joined.** -/
theorem symbolPath?_eq (t : Table) (uid : Nat) :
    t.symbolPath? uid = (t.qualifiedName? uid).map SymbolPath.join := by
  have hscopes : (((t.ancestors uid).filter fun a => a.type = .classDecl || a.type = .funcDecl).filterMap
      fun a => a.body.name?) = (t.ancestors uid).filterMap fun a => a.body.scopeName? := by
    rw [List.filterMap_filter]
    apply List.filterMap_congr
    intro a _
    unfold Node.type
    cases a.body <;> rfl
  cases hn : t.get? uid with
  | none => simp [symbolPath?, qualifiedName?, hn]
  | some n =>
    cases hname : n.body.declaredName? with
    | none => simp [symbolPath?, qualifiedName?, hn, hname]
    | some name =>
      simp only [symbolPath?, qualifiedName?, hn, hname, scopeNames, hscopes, bind, pure,
        Option.bind_some, Option.map_some]

theorem Linked.scopeNames_root {t : Table} (h : t.Linked) : t.scopeNames 0 = [] := by
  rw [scopeNames, h.ancestors_root]
  rfl

/-- **What lies around a node is what lies around its parent, and the parent.** -/
theorem Linked.scopeNames_of_parent {t : Table} (h : t.Linked) {uid i : Nat} {n p : Node}
    (hn : t.get? uid = some n) (hi : n.parent = some i) (hp : t.get? i = some p) :
    t.scopeNames uid = t.scopeNames i ++ p.body.scopeName?.toList := by
  unfold scopeNames
  rw [h.ancestors_of_parent hn hi hp]
  cases hname : p.body.scopeName? <;> simp [hname]

/-- A name in a qualified name is that of a declaration. -/
theorem exists_of_mem_qualifiedName {t : Table} {uid : Nat} {path : List String}
    (h : t.qualifiedName? uid = some path) {name : String} (hname : name ∈ path) :
    ∃ i n, t.get? i = some n ∧ n.body.declaredName? = some name := by
  obtain ⟨n, hn, h⟩ := Option.bind_eq_some_iff.mp h
  obtain ⟨own, hown, h⟩ := Option.bind_eq_some_iff.mp h
  obtain rfl := Option.some.inj h
  rcases List.mem_append.mp hname with hname | hname
  · rw [scopeNames, List.mem_reverse] at hname
    obtain ⟨a, ha, hname⟩ := List.mem_filterMap.mp hname
    obtain ⟨i, hi⟩ := exists_of_mem_ancestors ha
    exact ⟨i, a, hi, Body.declaredName?_of_scopeName? hname⟩
  · obtain rfl := List.mem_singleton.mp hname
    exact ⟨uid, n, hn, hown⟩

/-- **The beginning of the names around a node is the qualified name of a scope around it.** -/
theorem Linked.exists_scope {t : Table} (h : t.Linked) {uid : Nat} {n : Node}
    (hn : t.get? uid = some n) {path : List String} (hne : path ≠ [])
    (hp : path <+: t.scopeNames uid) :
    ∃ i < uid, t.qualifiedName? i = some path := by
  induction uid using Nat.strongRecOn generalizing n with
  | ind uid ih =>
    by_cases hzero : uid = 0
    · rw [hzero, h.scopeNames_root, List.prefix_nil] at hp
      exact absurd hp hne
    · obtain ⟨i, p, hi, hget, hlt, -⟩ := h.listed hn (by omega)
      have hup : path <+: t.scopeNames i → ∃ i < uid, t.qualifiedName? i = some path := by
        intro hp
        obtain ⟨j, hj, hpath⟩ := ih i hlt hget hp
        exact ⟨j, by omega, hpath⟩
      rw [h.scopeNames_of_parent hn hi hget] at hp
      cases hscope : p.body.scopeName? with
      | none =>
        rw [hscope, Option.toList_none, List.append_nil] at hp
        exact hup hp
      | some name =>
        rw [hscope, Option.toList_some] at hp
        rcases List.prefix_concat_iff.mp hp with rfl | hp
        · refine ⟨i, hlt, ?_⟩
          simp [qualifiedName?, hget, Body.declaredName?_of_scopeName? hscope]
        · exact hup hp

/-- **A qualified name begins with qualified names.** -/
theorem Linked.exists_of_prefix {t : Table} (h : t.Linked) {uid : Nat} {path start : List String}
    (hpath : t.qualifiedName? uid = some path) (hne : start ≠ []) (hp : start <+: path) :
    ∃ i, t.qualifiedName? i = some start := by
  obtain ⟨n, hn, hrest⟩ := Option.bind_eq_some_iff.mp hpath
  obtain ⟨own, -, hrest⟩ := Option.bind_eq_some_iff.mp hrest
  obtain rfl := Option.some.inj hrest
  rcases List.prefix_concat_iff.mp hp with rfl | hp
  · exact ⟨uid, hpath⟩
  · obtain ⟨i, -, hi⟩ := h.exists_scope hn hne hp
    exact ⟨i, hi⟩

end Table

end IntentCode.Ast
