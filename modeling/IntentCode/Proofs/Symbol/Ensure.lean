import IntentCode.Proofs.Symbol.Contents

/-!
# Adding a path to a tree

`ensure` goes down a path and adds what is missing of it. On the way every tree becomes what `ensure` makes
of it with the rest of the path (`getPath?_ensure_append`), and off the way nothing happens
(`getPath?_ensure_elsewhere`). What a node gets is therefore at most the next name of the path, behind
the names that it has, and where the path is there already nothing changes (`ensure_of_reaches`).

The dotted paths of a tree are those along which there is something, as long as no level has a name twice
(`mem_routes_iff`). Each is listed once, and no path is listed behind one that it begins
(`pairwise_routes`).
-/

set_option autoImplicit false

namespace IntentCode.SymbolTree

/-! ## What is on the way, and what is not -/

theorem getPath?_cons (t : SymbolTree) (name : String) (path : List String) :
    t.getPath? (name :: path) = (t.get? name).bind fun below => below.getPath? path := by
  rw [getPath?]
  cases t.get? name <;> rfl

theorem ensure_cons (t : SymbolTree) (name : String) (path : List String) :
    t.ensure (name :: path) = t.insert name (((t.get? name).getD empty).ensure path) := rfl

/-- **A tree on the way becomes what the rest of the path makes of it.** One that is missing is made from
the empty tree. -/
theorem getPath?_ensure_append (t : SymbolTree) (path rest : List String) :
    (t.ensure (path ++ rest)).getPath? path = some (((t.getPath? path).getD empty).ensure rest) := by
  induction path generalizing t with
  | nil => rfl
  | cons name path ih =>
    rw [List.cons_append, ensure_cons, getPath?_cons, get?_insert, if_pos rfl, Option.bind_some, ih,
      getPath?_cons]
    cases t.get? name with
    | some below => rfl
    | none => cases path <;> rfl

/-- **Off the way nothing changes.** -/
theorem getPath?_ensure_elsewhere (t : SymbolTree) {added path : List String}
    (h : ¬ path <+: added) : (t.ensure added).getPath? path = t.getPath? path := by
  induction path generalizing t added with
  | nil => exact absurd List.nil_prefix h
  | cons name path ih =>
    cases added with
    | nil => rw [ensure_nil]
    | cons first added =>
      rw [ensure_cons, getPath?_cons, getPath?_cons, get?_insert]
      split
      · next heq =>
        subst heq
        have hrest : ¬ path <+: added := fun hp => h (List.cons_prefix_cons.mpr ⟨rfl, hp⟩)
        rw [Option.bind_some, ih _ hrest]
        cases t.get? first with
        | some below => rfl
        | none =>
          -- below an entry that was missing the path leads nowhere
          cases path with
          | nil => exact absurd List.nil_prefix hrest
          | cons second path => rfl
      · rfl

/-! ## The names of one node -/

/-- One node gets the first name of the path, if that is new to it. -/
theorem names_ensure (t : SymbolTree) (path : List String) :
    (t.ensure path).names = t.names ∨
      ∃ name, [name] <+: path ∧ name ∉ t.names ∧ (t.ensure path).names = t.names ++ [name] := by
  cases path with
  | nil => exact .inl rfl
  | cons name path =>
    rw [ensure_cons, names_insert]
    split
    · exact .inl rfl
    · next hname => exact .inr ⟨name, ⟨path, rfl⟩, hname, rfl⟩

/-- **A node keeps its names in their order and gets at most one**, the last, which is the next name of the
path. A node that was not there before starts without any. -/
theorem names_of_getPath?_ensure {t below : SymbolTree} {added path : List String}
    (h : (t.ensure added).getPath? path = some below) :
    below.names = ((t.getPath? path).getD empty).names ∨
      ∃ name, path ++ [name] <+: added ∧ name ∉ ((t.getPath? path).getD empty).names ∧
        below.names = ((t.getPath? path).getD empty).names ++ [name] := by
  by_cases hp : path <+: added
  · obtain ⟨rest, rfl⟩ := hp
    rw [getPath?_ensure_append, Option.some.injEq] at h
    subst h
    obtain hsame | ⟨name, hname, hnew, hnames⟩ := names_ensure ((t.getPath? path).getD empty) rest
    · exact .inl hsame
    · exact .inr ⟨name, (List.prefix_append_right_inj path).mpr hname, hnew, hnames⟩
  · rw [getPath?_ensure_elsewhere t hp] at h
    rw [h]
    exact .inl rfl

/-! ## A path that is there -/

/-- Writing what is there already changes nothing. -/
theorem insert_of_get? {t : SymbolTree} {name : String} {below : SymbolTree}
    (h : t.get? name = some below) : t.insert name below = t := by
  induction t with
  | empty => cases h
  | entry n old beside _ ih =>
    rw [get?] at h
    rw [SymbolTree.insert]
    split at h
    · next heq => rw [if_pos heq, Option.some.inj h]
    · next hne => rw [if_neg hne, ih h]

theorem ensure_of_reaches {t : SymbolTree} {path : List String} (h : t.Reaches path) :
    t.ensure path = t := by
  induction path generalizing t with
  | nil => rfl
  | cons name path ih =>
    obtain ⟨below, hget, hbelow⟩ := reaches_cons.mp h
    rw [ensure_cons, hget, Option.getD_some, ih hbelow, insert_of_get? hget]

theorem ensure_ensure (t : SymbolTree) (path : List String) :
    (t.ensure path).ensure path = t.ensure path :=
  ensure_of_reaches (reaches_ensure.mpr (.inr (List.prefix_refl path)))

/-! ## The paths of a tree -/

theorem Distinct.get?_eq_none {name : String} {below beside : SymbolTree}
    (h : (entry name below beside).Distinct) : beside.get? name = none := by
  rw [← Option.not_isSome_iff_eq_none, isSome_get?_iff]
  exact h.1

/-- **Routes lead to what a look-up finds**, and nowhere else, where no level has a name twice. -/
theorem mem_routes_iff {t : SymbolTree} (h : t.Distinct) {path : List String} :
    path ∈ t.routes ↔ path ≠ [] ∧ t.Reaches path := by
  induction t generalizing path with
  | empty =>
    cases path with
    | nil => simp [routes]
    | cons name path => simp [routes, not_reaches_empty]
  | entry n below beside ihbelow ihbeside =>
    obtain ⟨-, hbelow, hbeside⟩ := id h
    rw [mem_routes_entry, ihbeside hbeside]
    cases path with
    | nil => simp
    | cons name path =>
      rw [reaches_cons, reaches_cons, get?]
      by_cases heq : n = name
      · subst heq
        rw [if_pos rfl, h.get?_eq_none]
        cases path with
        | nil => simp
        | cons second path => simp [ihbelow hbelow]
      · have hne : ¬ name = n := fun e => heq e.symm
        simp [heq, hne]

/-- A route begins with a name of the first level. -/
theorem exists_head_of_mem_routes {t : SymbolTree} {route : List String} (h : route ∈ t.routes) :
    ∃ name ∈ t.names, ∃ rest, route = name :: rest := by
  induction t with
  | empty => cases h
  | entry n below beside _ ih =>
    rcases mem_routes_entry.mp h with rfl | ⟨rest, -, rfl⟩ | h
    · exact ⟨n, List.mem_cons_self, [], rfl⟩
    · exact ⟨n, List.mem_cons_self, rest, rfl⟩
    · obtain ⟨name, hname, rest, rfl⟩ := ih h
      exact ⟨name, List.mem_cons_of_mem n hname, rest, rfl⟩

/-- **No route is listed behind one that it begins**, so each is listed once and parents come first. -/
theorem pairwise_routes {t : SymbolTree} (h : t.Distinct) :
    t.routes.Pairwise fun earlier later => ¬ later <+: earlier := by
  induction t with
  | empty => exact .nil
  | entry n below beside ihbelow ihbeside =>
    obtain ⟨hname, hbelow, hbeside⟩ := h
    rw [routes, List.cons_append, List.pairwise_cons, List.pairwise_append, List.pairwise_map]
    -- what begins with another name is not a beginning of what begins with this one
    have hother : ∀ rest, ∀ later ∈ beside.routes, ¬ later <+: n :: rest := by
      intro rest later hlater hp
      obtain ⟨name, hmem, more, rfl⟩ := exists_head_of_mem_routes hlater
      obtain ⟨rfl, -⟩ := List.cons_prefix_cons.mp hp
      exact hname hmem
    refine ⟨fun later hlater => ?_, ?_, ihbeside hbeside, fun earlier hearlier => ?_⟩
    · rcases List.mem_append.mp hlater with hlater | hlater
      · obtain ⟨rest, hrest, rfl⟩ := List.mem_map.mp hlater
        intro hp
        exact ne_nil_of_mem_routes hrest (List.prefix_nil.mp (List.cons_prefix_cons.mp hp).2)
      · exact hother [] later hlater
    · exact (ihbelow hbelow).imp fun hno hp => hno (List.cons_prefix_cons.mp hp).2
    · obtain ⟨rest, -, rfl⟩ := List.mem_map.mp hearlier
      exact hother rest

theorem nodup_routes {t : SymbolTree} (h : t.Distinct) : t.routes.Nodup :=
  (pairwise_routes h).imp fun {earlier later} hno (heq : earlier = later) => hno (heq ▸ List.prefix_refl _)

/-- **`ensure` adds one path and leaves everything else alone.** Afterwards there is something along the
path, all that it begins with and what there was before; a tree off the way is the same; a node keeps its
names in their order and gets at most one, behind them; and the second time nothing happens. What is there
can be read off `paths`: it joins the paths along which there is something, each once and no parent
behind what is below it. -/
theorem ensure_frame (t : SymbolTree) (added : List String) :
    (∀ path, ((t.ensure added).getPath? path).isSome = true ↔
        path <+: added ∨ (t.getPath? path).isSome = true) ∧
      (∀ path, ¬ path <+: added → (t.ensure added).getPath? path = t.getPath? path) ∧
      (∀ path below, (t.ensure added).getPath? path = some below →
        below.names = ((t.getPath? path).getD empty).names ∨
          ∃ name, path ++ [name] <+: added ∧ name ∉ ((t.getPath? path).getD empty).names ∧
            below.names = ((t.getPath? path).getD empty).names ++ [name]) ∧
      (t.ensure added).ensure added = t.ensure added ∧
      (t.Distinct → t.Named →
        t.paths = t.routes.map SymbolPath.join ∧ t.routes.Nodup ∧
          (∀ path, path ∈ t.routes ↔ path ≠ [] ∧ (t.getPath? path).isSome = true) ∧
          t.routes.Pairwise fun earlier later => ¬ later <+: earlier) :=
  ⟨fun _ => reaches_ensure.trans Or.comm, fun _ => getPath?_ensure_elsewhere t,
    fun _ _ => names_of_getPath?_ensure, ensure_ensure t added, fun hdistinct hnamed =>
      ⟨paths_eq hnamed, nodup_routes hdistinct, fun _ => mem_routes_iff hdistinct,
        pairwise_routes hdistinct⟩⟩

/-- Two files, one of them with a class, in two directories. -/
def twoFiles : SymbolTree :=
  .entry "src" (.entry "ball" (.entry "Ball" .empty .empty) .empty) (.entry "lib" .empty .empty)

theorem ensure_frame_twoFiles :
    let t := twoFiles.ensure ["src", "utils", "math"]
    (twoFiles.Distinct ∧ twoFiles.Named ∧
        twoFiles.paths = ["src", "src.ball", "src.ball.Ball", "lib"] ∧
        twoFiles.paths = twoFiles.routes.map SymbolPath.join ∧
        (["src", "utils"] ∈ twoFiles.routes ↔ (twoFiles.getPath? ["src", "utils"]).isSome = true)) ∧
      (t.getPath? ["src", "utils"]).isSome = true ∧
      (¬ ["src", "ball"] <+: ["src", "utils", "math"] ∧
        t.getPath? ["src", "ball"] = some (.entry "Ball" .empty .empty)) ∧
      (∃ below name, t.getPath? ["src"] = some below ∧ below.names = ["ball"] ++ [name]) ∧
      t.ensure ["src", "utils", "math"] = t := by
  intro t
  obtain ⟨hreaches, hoff, hnames, hagain, hpaths⟩ := ensure_frame twoFiles ["src", "utils", "math"]
  have hdistinct : twoFiles.Distinct := by simp [twoFiles, Distinct, names]
  obtain ⟨hjoined, -, hroutes, -⟩ := hpaths hdistinct (by decide)
  have hball : ¬ ["src", "ball"] <+: ["src", "utils", "math"] := by decide
  obtain ⟨below, hbelow⟩ := Option.isSome_iff_exists.mp ((hreaches ["src"]).mpr (.inl (by decide)))
  refine ⟨⟨hdistinct, by decide, by decide, hjoined, ?_⟩,
    (hreaches ["src", "utils"]).mpr (.inl (by decide)), ⟨hball, hoff _ hball⟩, ?_, hagain⟩
  · rw [hroutes]
    simp
  · obtain hsame | ⟨name, -, -, hmore⟩ := hnames ["src"] below hbelow
    · rw [Option.some.inj (hbelow.symm.trans rfl)] at hsame
      exact absurd hsame (by decide)
    · exact ⟨below, name, hbelow, hmore⟩

end IntentCode.SymbolTree
