import IntentCode.Proofs.Symbol.Path
import IntentCode.Symbol.Tree

/-!
# The routes of a symbol tree

A route is the list of names on the way from the root to an entry. The dotted paths of a tree are its
routes joined (`paths_eq`), but two routes can join to one path, so what happens to a tree is said of
its routes: `ensure` adds the beginnings of one route and takes none away (`mem_routes_ensure`).
-/

set_option autoImplicit false

namespace IntentCode.SymbolTree

open SymbolPath (extend)

/-- The way to every entry, in the order of the entries. -/
def routes : SymbolTree → List (List String)
  | empty => []
  | entry name below beside => [name] :: below.routes.map (name :: ·) ++ beside.routes

/-- No entry has an empty name. -/
def Named (t : SymbolTree) : Prop := ∀ route ∈ t.routes, "" ∉ route

instance (t : SymbolTree) : Decidable t.Named := List.decidableBAll _ _

theorem mem_routes_entry {name : String} {below beside : SymbolTree} {route : List String} :
    route ∈ (entry name below beside).routes ↔
      route = [name] ∨ (∃ rest ∈ below.routes, route = name :: rest) ∨ route ∈ beside.routes := by
  simp [routes, eq_comm]

theorem ne_nil_of_mem_routes {t : SymbolTree} {route : List String} (h : route ∈ t.routes) :
    route ≠ [] := by
  induction t with
  | empty => cases h
  | entry name below beside _ ih =>
    rcases mem_routes_entry.mp h with rfl | ⟨rest, -, rfl⟩ | h
    · simp
    · simp
    · exact ih h

/-! ## Dotted paths -/

theorem pathsFrom_eq (t : SymbolTree) (start : String) :
    t.pathsFrom start = t.routes.map (extend start) := by
  induction t generalizing start with
  | empty => rfl
  | entry name below beside ihb ihs =>
    simp only [pathsFrom, routes, ihb, ihs, List.cons_append, List.map_cons, List.map_append,
      List.map_map]
    rfl

/-- **The paths of a tree are its routes, joined.** -/
theorem paths_eq {t : SymbolTree} (h : t.Named) : t.paths = t.routes.map SymbolPath.join := by
  rw [paths, pathsFrom_eq]
  exact List.map_congr_left fun route hroute => SymbolPath.extend_empty (h route hroute)

/-! ## The first level -/

theorem singleton_mem_routes {t : SymbolTree} {name : String} :
    [name] ∈ t.routes ↔ name ∈ t.names := by
  induction t with
  | empty => simp [routes, names]
  | entry n below beside _ ih =>
    rw [mem_routes_entry, ih, names, List.mem_cons]
    simp only [List.cons.injEq, and_true]
    constructor
    · rintro (rfl | ⟨rest, hrest, -, rfl⟩ | h)
      · exact .inl rfl
      · exact absurd rfl (ne_nil_of_mem_routes hrest)
      · exact .inr h
    · rintro (rfl | h)
      · exact .inl rfl
      · exact .inr (.inr h)

theorem isSome_get?_iff {t : SymbolTree} {name : String} :
    (t.get? name).isSome = true ↔ name ∈ t.names := by
  induction t with
  | empty => simp [names]
  | entry n below beside _ ih =>
    rw [get?, names, List.mem_cons]
    by_cases h : n = name
    · simp [h]
    · have hne : ¬ name = n := fun e => h e.symm
      rw [if_neg h, ih]
      simp [hne]

/-! ## Adding a route -/

@[simp] theorem ensure_nil (t : SymbolTree) : t.ensure [] = t := rfl

theorem ensure_empty (name : String) (path : List String) :
    empty.ensure (name :: path) = entry name (empty.ensure path) empty := rfl

theorem ensure_entry (n : String) (below beside : SymbolTree) (name : String)
    (path : List String) :
    (entry n below beside).ensure (name :: path) =
      if n = name then entry n (below.ensure path) beside
      else entry n below (beside.ensure (name :: path)) := by
  unfold ensure
  rw [alter, alter, get?, SymbolTree.insert]
  by_cases h : n = name
  · rw [if_pos h, if_pos h, if_pos h, Option.getD_some]
  · rw [if_neg h, if_neg h, if_neg h]

/-- The beginnings of a route that starts with a name. -/
theorem prefix_cons_iff {name : String} {path route : List String} :
    route ≠ [] ∧ route <+: name :: path ↔
      route = [name] ∨ ∃ rest, (rest ≠ [] ∧ rest <+: path) ∧ route = name :: rest := by
  constructor
  · rintro ⟨hne, hp⟩
    obtain ⟨first, rest, rfl⟩ := List.exists_cons_of_ne_nil hne
    obtain ⟨rfl, hrest⟩ := List.cons_prefix_cons.mp hp
    by_cases hnil : rest = []
    · exact .inl (by rw [hnil])
    · exact .inr ⟨rest, ⟨hnil, hrest⟩, rfl⟩
  · rintro (rfl | ⟨rest, ⟨-, hrest⟩, rfl⟩)
    · exact ⟨by simp, by simp⟩
    · exact ⟨by simp, List.cons_prefix_cons.mpr ⟨rfl, hrest⟩⟩

/-- **`ensure` adds the beginnings of one route**, and nothing else. -/
theorem mem_routes_ensure {t : SymbolTree} {path route : List String} :
    route ∈ (t.ensure path).routes ↔ route ∈ t.routes ∨ (route ≠ [] ∧ route <+: path) := by
  induction path generalizing t route with
  | nil =>
    rw [ensure_nil, List.prefix_nil]
    simp
  | cons name path ihp =>
    rw [prefix_cons_iff]
    induction t generalizing route with
    | empty =>
      rw [ensure_empty, mem_routes_entry]
      simp [ihp, routes]
    | entry n below beside _ ih =>
      rw [ensure_entry]
      split
      · next h =>
        subst h
        simp only [mem_routes_entry, ihp]
        grind
      · simp only [mem_routes_entry, ih]
        grind

theorem mem_names_ensure {t : SymbolTree} {path : List String} {name : String} :
    name ∈ (t.ensure path).names ↔ name ∈ t.names ∨ path.head? = some name := by
  rw [← singleton_mem_routes, mem_routes_ensure, singleton_mem_routes]
  cases path with
  | nil => simp
  | cons first path => simp [eq_comm]

/-- `ensure` adds no name of the first level a second time. -/
theorem nodup_names_ensure {t : SymbolTree} (h : t.names.Nodup) (path : List String) :
    (t.ensure path).names.Nodup := by
  cases path with
  | nil => exact h
  | cons name path =>
    rw [ensure, alter, names_insert]
    split
    · exact h
    · next hname =>
      refine List.nodup_append.mpr ⟨h, by simp, fun a ha b hb heq => hname ?_⟩
      rw [List.mem_singleton] at hb
      exact hb ▸ heq ▸ ha

theorem nodup_names_foldl_ensure {t : SymbolTree} (h : t.names.Nodup) (paths : List (List String)) :
    (paths.foldl ensure t).names.Nodup := by
  induction paths generalizing t with
  | nil => exact h
  | cons path paths ih => exact ih (nodup_names_ensure h path)

/-- Adding one route after the other. -/
theorem mem_routes_foldl_ensure {t : SymbolTree} {paths : List (List String)}
    {route : List String} :
    route ∈ (paths.foldl ensure t).routes ↔
      route ∈ t.routes ∨ (route ≠ [] ∧ ∃ path ∈ paths, route <+: path) := by
  induction paths generalizing t with
  | nil => simp
  | cons path paths ih =>
    rw [List.foldl_cons, ih, mem_routes_ensure, or_assoc, ← and_or_left]
    simp

end IntentCode.SymbolTree
