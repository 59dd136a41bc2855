import IntentCode.Proofs.Symbol.Visible

/-!
# What a view contains

References ask two things of a view: what its keys are, and which names stand at the end of a path of its
tree. Both are sets that every dependency adds to, whatever has been merged before it
(`mem_keys_mergeDependency`, `reaches_mergeDependency`), so the order in which dependencies are merged,
and whether one is merged twice, makes no difference to them (`agrees_visible`). It does make a difference
to the order of the entries and, where two dependencies describe one entry, to the description.
-/

set_option autoImplicit false

namespace IntentCode

/-! ## The paths of a tree -/

namespace SymbolTree

/-- A path along which there is something in the tree. Of several entries with one name only the first
is looked at, as by all look-ups. -/
def Reaches (t : SymbolTree) (path : List String) : Prop := (t.getPath? path).isSome = true

@[simp] theorem reaches_nil (t : SymbolTree) : t.Reaches [] := rfl

theorem reaches_cons {t : SymbolTree} {name : String} {path : List String} :
    t.Reaches (name :: path) ↔ ∃ below, t.get? name = some below ∧ below.Reaches path := by
  rw [Reaches, getPath?]
  cases t.get? name with
  | none => simp
  | some below => simp [Reaches]

theorem not_reaches_empty {name : String} {path : List String} : ¬ empty.Reaches (name :: path) := by
  rw [reaches_cons]
  simp

theorem reaches_insert {t : SymbolTree} {name first : String} {below : SymbolTree}
    {path : List String} :
    (t.insert name below).Reaches (first :: path) ↔
      if name = first then below.Reaches path else t.Reaches (first :: path) := by
  rw [reaches_cons, get?_insert]
  split
  · simp
  · exact reaches_cons.symm

/-- **`ensure` adds one path and all that it begins with**, and nothing else. -/
theorem reaches_ensure {t : SymbolTree} {added path : List String} :
    (t.ensure added).Reaches path ↔ t.Reaches path ∨ path <+: added := by
  induction added generalizing t path with
  | nil =>
    rw [ensure_nil, List.prefix_nil]
    constructor
    · exact .inl
    · rintro (h | rfl)
      · exact h
      · exact reaches_nil t
  | cons name added ih =>
    cases path with
    | nil => simp
    | cons first path =>
      have hstep : t.ensure (name :: added) =
          t.insert name (((t.get? name).getD empty).ensure added) := rfl
      rw [hstep, reaches_insert, List.cons_prefix_cons]
      split
      · next h =>
        subst h
        rw [ih, reaches_cons]
        cases hget : t.get? name with
        | some below => simp
        | none =>
          -- only the first name of the path is new to the empty tree, and it begins every path
          cases path with
          | nil => simp
          | cons second path => simp [not_reaches_empty]
      · next h =>
        have hne : first ≠ name := fun e => h e.symm
        simp [hne]

theorem reaches_foldl_ensure {t : SymbolTree} {added : List (List String)} {path : List String} :
    (added.foldl ensure t).Reaches path ↔ t.Reaches path ∨ ∃ more ∈ added, path <+: more := by
  induction added generalizing t with
  | nil => simp
  | cons first added ih =>
    rw [List.foldl_cons, ih, reaches_ensure, or_assoc]
    simp

theorem reaches_concat {t : SymbolTree} {path : List String} {name : String} :
    t.Reaches (path ++ [name]) ↔ ∃ below, t.getPath? path = some below ∧ name ∈ below.names := by
  induction path generalizing t with
  | nil =>
    rw [List.nil_append, reaches_cons]
    simp [getPath?, ← isSome_get?_iff, Option.isSome_iff_exists]
  | cons first path ih =>
    rw [List.cons_append, reaches_cons, getPath?]
    cases t.get? first with
    | none => simp
    | some below => simpa using ih

end SymbolTree

namespace SymbolTable

open SymbolTree (Reaches reaches_cons reaches_insert)

/-! ## What a dependency adds -/

/-- The paths that a dependency adds to the tree of a view. -/
def addedRoutes (load : String → Option SymbolTable) (dependency : String) : List (List String) :=
  let segments := FilePath.segments dependency
  if segments.isEmpty then []
  else match load dependency with
    | none => []
    | some table =>
      segments ::
        (table.tree.exports table.metadata segments "" (SymbolPath.join segments)).map Export.names

/-- The keys that a dependency adds to a view. -/
def addedKeys (load : String → Option SymbolTable) (dependency : String) : List String :=
  let segments := FilePath.segments dependency
  if segments.isEmpty then []
  else match load dependency with
    | none => []
    | some table =>
      folderPaths segments ++ SymbolPath.join segments ::
        (table.tree.exports table.metadata segments "" (SymbolPath.join segments)).filterMap
          fun e => e.metadata.map fun _ => e.path

section

variable (load : String → Option SymbolTable) (layout : Option Project.Layout)

theorem reaches_mergeDependency (v : SymbolTable) (dependency : String) {path : List String} :
    (mergeDependency load layout v dependency).tree.Reaches path ↔
      v.tree.Reaches path ∨ ∃ more ∈ addedRoutes load dependency, path <+: more := by
  unfold mergeDependency addedRoutes
  simp only
  split
  · simp
  · cases load dependency with
    | none => simp
    | some table =>
      simp only
      rw [mergeFile, foldl_addExport, SymbolTree.reaches_foldl_ensure, SymbolTree.reaches_ensure,
        or_assoc]
      simp

theorem mem_keys_mergeDependency (v : SymbolTable) (dependency : String) {key : String} :
    key ∈ (mergeDependency load layout v dependency).metadata.keys ↔
      key ∈ v.metadata.keys ∨ key ∈ addedKeys load dependency := by
  unfold mergeDependency addedKeys
  simp only
  split
  · simp
  · cases load dependency with
    | none => simp
    | some table =>
      have hpaths : ∀ e : Export, (e.metadata.map fun m => (e.path, m)).map Prod.fst =
          e.metadata.map fun _ => e.path := by
        intro e
        rw [Option.map_map]
        rfl
      simp only
      rw [mergeFile, foldl_addExport]
      simp only
      rw [OrderedMap.mem_keys_insertAll, OrderedMap.mem_keys_insert, mem_keys_foldl_insertNew,
        List.map_filterMap, List.mem_append, List.mem_cons]
      simp only [hpaths]
      grind

/-- What every dependency adds to, all of them add to. -/
theorem foldl_mergeDependency_iff {P : SymbolTable → Prop} {added : String → Prop}
    (hstep : ∀ v d, P (mergeDependency load layout v d) ↔ P v ∨ added d) (v : SymbolTable)
    (dependencies : List String) :
    P (dependencies.foldl (mergeDependency load layout) v) ↔
      P v ∨ ∃ d ∈ dependencies, added d := by
  induction dependencies generalizing v with
  | nil => simp
  | cons d dependencies ih =>
    rw [List.foldl_cons, ih, hstep, or_assoc]
    simp

end

/-! ## Views with the same contents -/

/-- The same paths and the same keys, in any order. -/
structure Agrees (v w : SymbolTable) : Prop where
  tree : ∀ path, v.tree.Reaches path ↔ w.tree.Reaches path
  keys : ∀ key, key ∈ v.metadata.keys ↔ key ∈ w.metadata.keys

theorem Agrees.override {v w : SymbolTable} (h : Agrees v w) (name : String)
    (below : SymbolTree) : Agrees (v.override name below) (w.override name below) where
  tree := by
    intro path
    cases path with
    | nil => simp
    | cons first path =>
      unfold SymbolTable.override
      simp only [reaches_insert, h.tree]
  keys := by
    intro key
    have hcontains : v.tree.contains name = w.tree.contains name := by
      rw [Bool.eq_iff_iff]
      have hname := h.tree [name]
      simp only [reaches_cons, SymbolTree.reaches_nil, and_true, ← Option.isSome_iff_exists] at hname
      exact hname
    unfold SymbolTable.override
    simp only [hcontains]
    split
    · rw [OrderedMap.keys_filterKeys, OrderedMap.keys_filterKeys, List.mem_filter, List.mem_filter,
        h.keys]
    · exact h.keys key

theorem Agrees.mergeLocal {v w : SymbolTable} (h : Agrees v w) (file : String)
    (own : SymbolTable) : Agrees (v.mergeLocal file own) (w.mergeLocal file own) := by
  have hfold : ∀ (es : List (String × SymbolTree)) (v w : SymbolTable), Agrees v w →
      Agrees (es.foldl (fun v e => v.override e.1 e.2) v)
        (es.foldl (fun v e => v.override e.1 e.2) w) := by
    intro es
    induction es with
    | nil => exact fun v w h => h
    | cons e es ih => exact fun v w h => ih _ _ (h.override e.1 e.2)
  have htop := hfold own.tree.toList v w h
  have hkeys : ∀ (u : SymbolTable) (key : String), key ∈ (u.mergeLocal file own).metadata.keys ↔
      key ∈ own.metadata.keys ∨
        key ∈ (own.tree.toList.foldl (fun v e => v.override e.1 e.2) u).metadata.keys := by
    intro u key
    rw [← OrderedMap.isSome_get?_iff, ← OrderedMap.isSome_get?_iff, ← OrderedMap.isSome_get?_iff,
      get?_mergeLocal, Option.isSome_or, Option.isSome_map, Bool.or_eq_true]
  exact ⟨htop.tree, fun key => by rw [hkeys, hkeys, htop.keys]⟩

/-! ## The own part of a view -/

theorem lookup_toList (t : SymbolTree) (name : String) : t.toList.lookup name = t.get? name := by
  induction t with
  | empty => rfl
  | entry n below beside _ ih =>
    rw [SymbolTree.toList, List.lookup_cons, SymbolTree.get?, ih]
    by_cases h : n = name
    · simp [h]
    · rw [if_neg h, beq_false_of_ne (Ne.symm h)]

/-- What is put under a name that no later entry has stays there. -/
theorem get?_tree_foldl_override {own : List (String × SymbolTree)}
    (hown : (own.map Prod.fst).Nodup) (v : SymbolTable) (name : String) :
    (own.foldl (fun v e => v.override e.1 e.2) v).tree.get? name =
      (own.lookup name).or (v.tree.get? name) := by
  induction own generalizing v with
  | nil => rfl
  | cons e own ih =>
    obtain ⟨hnew, hrest⟩ := List.nodup_cons.mp hown
    have hget : (v.override e.1 e.2).tree.get? name =
        if e.1 = name then some e.2 else v.tree.get? name := SymbolTree.get?_insert ..
    rw [List.foldl_cons, ih hrest, hget, List.lookup_cons]
    by_cases h : e.1 = name
    · have hnone : own.lookup name = none := by
        rw [List.lookup_eq_none_iff]
        intro other hother
        rw [← h, bne_iff_ne]
        exact fun heq => hnew (heq ▸ List.mem_map_of_mem hother)
      simp [h, hnone]
    · rw [if_neg h, beq_false_of_ne (Ne.symm h)]

/-- **Below an own name a view holds what the file declares there**, and nothing else. -/
theorem reaches_visible_own {own : SymbolTable} (hown : own.tree.names.Nodup) {name : String}
    (hname : name ∈ own.tree.names) (load : String → Option SymbolTable)
    (layout : Option Project.Layout) (file : String) (dependencies : List String)
    {path : List String} :
    (visible load layout file dependencies own).tree.Reaches (name :: path) ↔
      own.tree.Reaches (name :: path) := by
  have htop : (own.tree.toList.map Prod.fst).Nodup := by
    rw [map_fst_toList]
    exact hown
  have hsome := SymbolTree.isSome_get?_iff.mpr hname
  rw [reaches_cons, reaches_cons, visible, mergeLocal, get?_tree_foldl_override htop, lookup_toList,
    Option.or_of_isSome hsome]

/-- **The contents of a view depend on which dependencies there are**, and neither on their order nor on
how often they occur. -/
theorem agrees_visible {dependencies others : List String}
    (h : ∀ d, d ∈ dependencies ↔ d ∈ others) (load : String → Option SymbolTable)
    (layout : Option Project.Layout) (file : String) (own : SymbolTable) :
    Agrees (visible load layout file dependencies own) (visible load layout file others own) := by
  apply Agrees.mergeLocal
  constructor
  · intro path
    have hmerged := foldl_mergeDependency_iff (P := fun v => v.tree.Reaches path) load layout
      (fun v d => reaches_mergeDependency load layout v d) .empty
    simp only [hmerged, h]
  · intro key
    have hmerged := foldl_mergeDependency_iff (P := fun v => key ∈ v.metadata.keys) load layout
      (fun v d => mem_keys_mergeDependency load layout v d) .empty
    simp only [hmerged, h]

end SymbolTable

end IntentCode
