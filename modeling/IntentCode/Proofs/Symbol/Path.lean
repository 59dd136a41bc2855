import IntentCode.Proofs.Text.Pieces
import IntentCode.Symbol.Path

/-!
# Going down a path

A path can be made in one go, by joining its names, or name by name from the outside (`extend`), as
everything that goes down a tree does. The two agree when no name is empty (`extend_empty`): the
empty path is how the root is written, so an empty first name would not be seen.

The names can be read off a path again if there is no dot in them (`names_join`).
-/

set_option autoImplicit false

namespace IntentCode.SymbolPath

/-- A list of names below a path. -/
def extend (start : String) (names : List String) : String := names.foldl child start

/-! ## Joining -/

@[simp] theorem join_singleton (name : String) : join [name] = name := String.intercalate_singleton

theorem join_append {names more : List String} (h : names ≠ []) (hm : more ≠ []) :
    join (names ++ more) = join names ++ "." ++ join more :=
  Text.intercalate_append h hm

theorem join_cons (name : String) {more : List String} (h : more ≠ []) :
    join (name :: more) = name ++ "." ++ join more := by
  rw [← List.singleton_append, join_append (by simp) h, join_singleton]

theorem join_ne_empty {names : List String} (h : names ≠ []) (hne : "" ∉ names) :
    join names ≠ "" := by
  obtain ⟨name, more, rfl⟩ := List.exists_cons_of_ne_nil h
  have hname : name ≠ "" := fun he => hne (he ▸ List.mem_cons_self)
  by_cases hm : more = []
  · rw [hm, join_singleton]
    exact hname
  · rw [join_cons name hm]
    simp [hname]

/-- Names without dots are found again. -/
theorem names_join {path : List String} (h : path ≠ []) (hdot : ∀ name ∈ path, '.' ∉ name.toList) :
    names (join path) = path :=
  Text.pieces_intercalate h hdot

theorem join_names (path : String) : join (names path) = path := Text.intercalate_pieces '.' path

theorem names_of_notMem {name : String} (h : '.' ∉ name.toList) : names name = [name] := by
  rw [names, Text.pieces, Text.cutAt_of_notMem h, List.map_singleton, String.ofList_toList]

/-- The names of two paths, one below the other. -/
theorem names_joined (path more : String) :
    names (path ++ "." ++ more) = names path ++ names more :=
  Text.pieces_joined '.' path more

theorem join_inj {path other : List String} (h : path ≠ []) (ho : other ≠ [])
    (hdot : ∀ name ∈ path, '.' ∉ name.toList) (hodot : ∀ name ∈ other, '.' ∉ name.toList)
    (heq : join path = join other) : path = other := by
  rw [← names_join h hdot, heq, names_join ho hodot]

/-! ## One name further -/

@[simp] theorem child_empty (name : String) : child "" name = name := rfl

theorem child_of_ne {path : String} (h : path ≠ "") (name : String) :
    child path name = path ++ "." ++ name := by
  simp [child, h]

@[simp] theorem extend_nil (start : String) : extend start [] = start := rfl

@[simp] theorem extend_cons (start name : String) (more : List String) :
    extend start (name :: more) = extend (child start name) more := rfl

theorem extend_of_ne {start : String} (h : start ≠ "") {names : List String} (hne : names ≠ []) :
    extend start names = start ++ "." ++ join names := by
  induction names generalizing start with
  | nil => exact absurd rfl hne
  | cons name more ih =>
    rw [extend_cons, child_of_ne h]
    by_cases hm : more = []
    · rw [hm, extend_nil, join_singleton]
    · rw [ih (by simp [h]) hm, join_cons name hm]
      simp [String.append_assoc]

/-- **Going down from the root joins the names.** -/
theorem extend_empty {names : List String} (h : "" ∉ names) : extend "" names = join names := by
  cases names with
  | nil => rfl
  | cons name more =>
    have hname : name ≠ "" := fun he => h (he ▸ List.mem_cons_self)
    rw [extend_cons, child_empty]
    by_cases hm : more = []
    · rw [hm, extend_nil, join_singleton]
    · rw [extend_of_ne hname hm, join_cons name hm]

end IntentCode.SymbolPath
