import IntentCode.Proofs.Ast.Links

/-!
# The declarations of a scope

Which classes, functions and variables are children of a node (`Table.declaredChildren`) is a matter of
the rows alone: the row of a declaration adds its number to the scope in which it stands
(`declaredChildren_ofRows`). Numbers grow, so a declaration is after everything that was there before it,
and no declaration is in two scopes.
-/

set_option autoImplicit false

namespace IntentCode.Ast

@[simp] theorem Body.isDeclaration_bare (b : Body) : b.bare.isDeclaration = b.isDeclaration := by
  rw [isDeclaration, isDeclaration, type_bare]

/-- The numbers of the classes, functions and variables among the children of a node. -/
def Table.declaredChildren (t : Table) (uid : Nat) : List Nat :=
  ((t.children uid).filter fun n => n.body.isDeclaration).map Node.uid

/-- The numbers of the declarations that stand in a scope, in the order of the source. -/
def declaredIn (uid : Nat) : List Row → List Nat
  | [] => []
  | r :: before =>
    declaredIn uid before ++
      if uid = parentOf before r.level ∧ r.body.isDeclaration = true then [before.length + 1] else []

theorem declaredIn_map_bare (uid : Nat) (rs : List Row) :
    declaredIn uid (rs.map .bare) = declaredIn uid rs := by
  induction rs with
  | nil => rfl
  | cons r before ih => simp [declaredIn, ih, parentOf_map_bare, Row.bare]

namespace Table

theorem declaredChildren_push {t : Table} (h : t.Linked) {parent line : Nat} {body : Body}
    (hp : parent < t.size) (uid : Nat) :
    (t.push parent line body).declaredChildren uid =
      t.declaredChildren uid ++
        if uid = parent ∧ body.isDeclaration = true then [t.size] else [] := by
  have hpair : ∀ t : Table, t.declaredChildren uid =
      (((t.children uid).map fun n => (n.uid, n.body.isDeclaration)).filter fun p => p.2).map
        Prod.fst := by
    intro t
    rw [List.filter_map, List.map_map]
    rfl
  rw [hpair, hpair, map_children_push (fun _ _ => rfl) h hp, List.filter_append, List.map_append]
  congr 1
  by_cases hu : uid = parent
  · cases hd : body.isDeclaration <;> simp [hu]
  · simp [hu]

/-- **The declarations of a node in a tree from rows** are those that stand in its scope. -/
theorem declaredChildren_ofRows (rs : List Row) (uid : Nat) :
    (ofRows rs).declaredChildren uid = declaredIn uid rs := by
  induction rs with
  | nil =>
    cases uid <;> rfl
  | cons r before ih =>
    rw [ofRows, declaredChildren_push (linked_ofRows before) (parentOf_lt_size before r.level), ih,
      declaredIn, size_ofRows]

end Table

/-! ## Numbers -/

/-- A declaration comes after its scope. -/
theorem lt_of_mem_declaredIn {uid d : Nat} {rs : List Row} (h : d ∈ declaredIn uid rs) :
    uid < d ∧ d ≤ rs.length := by
  induction rs with
  | nil => cases h
  | cons r before ih =>
    rw [List.length_cons]
    rcases List.mem_append.mp h with h | h
    · have := ih h
      omega
    · split at h
      · next hr =>
        have := parentOf_le before r.level
        obtain rfl := List.mem_singleton.mp h
        rw [hr.1]
        omega
      · cases h

end IntentCode.Ast
