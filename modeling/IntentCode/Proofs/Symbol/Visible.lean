import IntentCode.Proofs.OrderedMap
import IntentCode.Proofs.Symbol.Routes
import IntentCode.Symbol.Visible
import Mathlib.Data.List.Infix

/-!
# What a file can see, key by key

The view of a file is made by merging one dependency after the other and then putting the file's own
symbols on top. What has been merged at any point is an invariant of the first loop (`Merged`): the keys
are those that some dependency provides, the first level holds the first names of the dependencies, and
nothing is hidden. An own name then takes away what stands under it, but only if some dependency begins
with it, and the own entries are written last (`isView_visible`).
-/

set_option autoImplicit false

namespace IntentCode

open SymbolPath (extend child)

/-! ## What a table exports -/

/-- Nothing hidden is met on the way from `source` to the end of a route. -/
def Unhidden (metadata : OrderedMap Metadata) (source : String) (route : List String) : Prop :=
  ∀ start, start <+: route → start ≠ [] →
    ∀ m, metadata.get? (extend source start) = some m → m.isHidden = false

theorem unhidden_nil (metadata : OrderedMap Metadata) (source : String) :
    Unhidden metadata source [] :=
  fun _ hstart hne => absurd (List.prefix_nil.mp hstart) hne

theorem unhidden_cons {metadata : OrderedMap Metadata} {source name : String}
    {rest : List String} :
    Unhidden metadata source (name :: rest) ↔
      (∀ m, metadata.get? (child source name) = some m → m.isHidden = false) ∧
        Unhidden metadata (child source name) rest := by
  constructor
  · intro h
    refine ⟨h [name] (by simp) (by simp), fun start hstart _ => ?_⟩
    exact h (name :: start) (List.cons_prefix_cons.mpr ⟨rfl, hstart⟩) (by simp)
  · rintro ⟨hname, hrest⟩ start hstart hne
    obtain ⟨first, start, rfl⟩ := List.exists_cons_of_ne_nil hne
    obtain ⟨rfl, hp⟩ := List.cons_prefix_cons.mp hstart
    by_cases hnil : start = []
    · rw [hnil]
      exact hname
    · exact hrest start hp hnil

theorem not_hidden_iff {o : Option Metadata} :
    (o.map Metadata.isHidden).getD false = false ↔ ∀ m, o = some m → m.isHidden = false := by
  cases o <;> simp

namespace SymbolTree

/-- **What is exported are the entries to which an unhidden route leads.** -/
theorem mem_exports {t : SymbolTree} {metadata : OrderedMap Metadata} {names : List String}
    {source target : String} {e : Export} :
    e ∈ t.exports metadata names source target ↔
      ∃ route ∈ t.routes, Unhidden metadata source route ∧
        e = ⟨names ++ route, extend target route, metadata.get? (extend source route)⟩ := by
  induction t generalizing names source target with
  | empty => simp [exports, routes]
  | entry name below beside ihb ihs =>
    have hsplit : ∀ P : List String → Prop, (∃ route ∈ (entry name below beside).routes, P route) ↔
        (P [name] ∨ ∃ rest ∈ below.routes, P (name :: rest)) ∨ ∃ route ∈ beside.routes, P route := by
      intro P
      simp only [mem_routes_entry]
      grind
    rw [exports, List.mem_append, ihs, hsplit]
    refine or_congr ?_ Iff.rfl
    split
    · next hhidden =>
      -- nothing hidden leads anywhere
      have hno : ∀ rest, ¬ Unhidden metadata source (name :: rest) := by
        intro rest hroute
        rw [not_hidden_iff.mpr (unhidden_cons.mp hroute).1] at hhidden
        cases hhidden
      simp [hno]
    · next hhidden =>
      have hopen := not_hidden_iff.mp (Bool.not_eq_true _ ▸ hhidden)
      simp only [List.mem_cons, ihb, unhidden_cons, and_iff_right hopen, unhidden_nil, true_and,
        List.append_assoc, List.singleton_append, SymbolPath.extend_cons, SymbolPath.extend_nil]

end SymbolTree

namespace SymbolTable

/-- An entry that files which depend on this one see: it stands for something, and nothing on the way
to it is hidden. -/
structure Exports (s : SymbolTable) (route : List String) : Prop where
  entry : route ∈ s.tree.routes
  described : SymbolPath.join route ∈ s.metadata.keys
  unhidden : ∀ start, start <+: route → start ≠ [] →
    ∀ m, s.metadata.get? (SymbolPath.join start) = some m → m.isHidden = false

instance (s : SymbolTable) (route : List String) : Decidable (s.Exports route) :=
  decidable_of_iff
    (route ∈ s.tree.routes ∧ SymbolPath.join route ∈ s.metadata.keys ∧
      ∀ start ∈ route.inits, start ≠ [] →
        ∀ m ∈ s.metadata.get? (SymbolPath.join start), m.isHidden = false)
    ⟨fun ⟨entry, described, unhidden⟩ =>
      ⟨entry, described, fun start hstart => unhidden start ((List.mem_inits _ _).mpr hstart)⟩,
    fun h => ⟨h.entry, h.described,
      fun start hstart => h.unhidden start ((List.mem_inits _ _).mp hstart)⟩⟩

/-- The keys that a file at a path of names adds to a view. -/
inductive Provides (segments : List String) (s : SymbolTable) : String → Prop
  | folder {start : List String} (before : start <+: segments) (ne : start ≠ [])
    (proper : start ≠ segments) : Provides segments s (SymbolPath.join start)
  | file : Provides segments s (SymbolPath.join segments)
  | symbol {route : List String} (exported : s.Exports route) :
    Provides segments s (SymbolPath.join segments ++ "." ++ SymbolPath.join route)

/-! ## One file -/

theorem foldl_addExport (es : List Export) (v : SymbolTable) :
    es.foldl addExport v =
      ⟨(es.map Export.names).foldl SymbolTree.ensure v.tree,
        v.metadata.insertAll (es.filterMap fun e => e.metadata.map fun m => (e.path, m))⟩ := by
  induction es generalizing v with
  | nil => rfl
  | cons e es ih =>
    rw [List.foldl_cons, ih, List.map_cons, List.foldl_cons, List.filterMap_cons]
    cases hm : e.metadata <;> simp [addExport, hm, OrderedMap.insertAll]

theorem mem_folderPaths {segments : List String} {path : String} :
    path ∈ folderPaths segments ↔
      ∃ start, start <+: segments ∧ start ≠ [] ∧ start ≠ segments ∧ path = SymbolPath.join start := by
  simp only [folderPaths, List.mem_map, List.mem_range]
  constructor
  · rintro ⟨i, hi, rfl⟩
    refine ⟨segments.take (i + 1), List.take_prefix _ _, ?_, ?_, rfl⟩
    · intro hnil
      have hlength := congrArg List.length hnil
      rw [List.length_take, List.length_nil] at hlength
      omega
    · intro hall
      have hlength := congrArg List.length hall
      rw [List.length_take] at hlength
      omega
  · rintro ⟨start, hp, hne, hproper, rfl⟩
    have hpos := List.length_pos_iff.mpr hne
    have hlt : start.length < segments.length := by
      refine Nat.lt_of_le_of_ne hp.length_le fun heq => hproper (hp.eq_of_length heq)
    refine ⟨start.length - 1, by omega, ?_⟩
    rw [show start.length - 1 + 1 = start.length by omega, ← List.prefix_iff_eq_take.mp hp]

theorem mem_keys_foldl_insertNew {value : Metadata} {paths : List String}
    {m : OrderedMap Metadata} {k : String} :
    k ∈ (paths.foldl (fun m p => m.insertNew p value) m).keys ↔ k ∈ paths ∨ k ∈ m.keys := by
  induction paths generalizing m with
  | nil => simp
  | cons p paths ih =>
    rw [List.foldl_cons, ih, OrderedMap.insertNew, List.mem_cons]
    split
    · next h =>
      have hmem := OrderedMap.contains_eq_true.mp h
      grind
    · rw [OrderedMap.mem_keys_insert]
      grind

theorem get?_foldl_insertNew {value : Metadata} {paths : List String} {m : OrderedMap Metadata}
    {k : String} {x : Metadata}
    (h : (paths.foldl (fun m p => m.insertNew p value) m).get? k = some x) :
    x = value ∨ m.get? k = some x := by
  induction paths generalizing m with
  | nil => exact .inr h
  | cons p paths ih =>
    rw [List.foldl_cons] at h
    rcases ih h with hx | hx
    · exact .inl hx
    · rw [OrderedMap.insertNew] at hx
      split at hx
      · exact .inr hx
      · rw [OrderedMap.get?_insert] at hx
        split at hx
        · exact .inl (Option.some.inj hx).symm
        · exact .inr hx

section

variable {v T : SymbolTable} {segments : List String} (hT : T.tree.Named) (hne : segments ≠ [])
  (hsegments : "" ∉ segments)

include hT hne hsegments

theorem mem_exports_file {e : Export} :
    e ∈ T.tree.exports T.metadata segments "" (SymbolPath.join segments) ↔
      ∃ route ∈ T.tree.routes,
        (∀ start, start <+: route → start ≠ [] →
          ∀ m, T.metadata.get? (SymbolPath.join start) = some m → m.isHidden = false) ∧
        e = ⟨segments ++ route, SymbolPath.join segments ++ "." ++ SymbolPath.join route,
          T.metadata.get? (SymbolPath.join route)⟩ := by
  rw [SymbolTree.mem_exports]
  refine exists_congr fun route => and_congr_right fun hroute => ?_
  have hempty := hT route hroute
  have hpath := SymbolPath.extend_of_ne (SymbolPath.join_ne_empty hne hsegments)
    (SymbolTree.ne_nil_of_mem_routes hroute)
  have hstart : ∀ start, start <+: route → extend "" start = SymbolPath.join start :=
    fun start hp => SymbolPath.extend_empty fun h => hempty (hp.subset h)
  rw [hpath, SymbolPath.extend_empty hempty]
  refine and_congr_left fun _ => ?_
  unfold Unhidden
  refine forall_congr' fun start => forall_congr' fun hp => ?_
  rw [hstart start hp]

theorem mem_keys_mergeFile (description : Option String) {k : String} :
    k ∈ (v.mergeFile segments description T).metadata.keys ↔
      k ∈ v.metadata.keys ∨ Provides segments T k := by
  rw [mergeFile, foldl_addExport]
  simp only
  rw [OrderedMap.mem_keys_insertAll, OrderedMap.mem_keys_insert, mem_keys_foldl_insertNew,
    mem_folderPaths]
  constructor
  · rintro (h | rfl | ⟨start, hp, hnil, hproper, rfl⟩ | h)
    · obtain ⟨⟨k', m⟩, hmem, rfl⟩ := List.mem_map.mp h
      obtain ⟨e, he, hem⟩ := List.mem_filterMap.mp hmem
      obtain ⟨route, hroute, hun, rfl⟩ := (mem_exports_file hT hne hsegments).mp he
      obtain ⟨m', hm', heq⟩ := Option.map_eq_some_iff.mp hem
      obtain ⟨rfl, rfl⟩ := Prod.mk.inj heq
      exact .inr (.symbol ⟨hroute, OrderedMap.mem_keys_of_get? hm', hun⟩)
    · exact .inr .file
    · exact .inr (.folder hp hnil hproper)
    · exact .inl h
  · rintro (h | h)
    · exact .inr (.inr (.inr h))
    · cases h with
      | folder hp hnil hproper => exact .inr (.inr (.inl ⟨_, hp, hnil, hproper, rfl⟩))
      | file => exact .inr (.inl rfl)
      | @symbol route hexports =>
        obtain ⟨m, hm⟩ := Option.isSome_iff_exists.mp
          (OrderedMap.isSome_get?_iff.mpr hexports.described)
        refine .inl (List.mem_map.mpr ⟨(_, m), List.mem_filterMap.mpr ⟨_,
          (mem_exports_file hT hne hsegments).mpr ⟨route, hexports.entry, hexports.unhidden, rfl⟩,
          ?_⟩, rfl⟩)
        simp [hm]

theorem mem_names_mergeFile (description : Option String) {name : String} :
    name ∈ (v.mergeFile segments description T).tree.names ↔
      name ∈ v.tree.names ∨ segments.head? = some name := by
  rw [mergeFile, foldl_addExport, ← SymbolTree.singleton_mem_routes]
  simp only
  rw [SymbolTree.mem_routes_foldl_ensure, SymbolTree.singleton_mem_routes,
    SymbolTree.mem_names_ensure]
  refine or_iff_left_of_imp ?_
  rintro ⟨-, path, hpath, hp⟩
  obtain ⟨e, he, rfl⟩ := List.mem_map.mp hpath
  obtain ⟨route, -, -, rfl⟩ := (mem_exports_file hT hne hsegments).mp he
  obtain ⟨first, more, rfl⟩ := List.exists_cons_of_ne_nil hne
  obtain ⟨rfl, -⟩ := List.cons_prefix_cons.mp hp
  exact .inr rfl

/-- Merging a file brings in nothing hidden. -/
theorem unhidden_mergeFile (description : Option String)
    (hv : ∀ k m, v.metadata.get? k = some m → m.isHidden = false) {k : String} {m : Metadata}
    (hm : (v.mergeFile segments description T).metadata.get? k = some m) : m.isHidden = false := by
  rw [mergeFile, foldl_addExport] at hm
  simp only at hm
  rw [OrderedMap.get?_insertAll] at hm
  rcases Option.or_eq_some_iff.mp hm with hm | ⟨-, hm⟩
  · -- an exported entry, which is on the route to itself
    obtain ⟨before, after, hlist, -⟩ := List.lookup_eq_some_iff.mp hm
    have hmem : (k, m) ∈ (T.tree.exports T.metadata segments "" (SymbolPath.join segments)).filterMap
        fun e => e.metadata.map fun m => (e.path, m) := by
      rw [← List.mem_reverse, hlist]
      simp
    obtain ⟨e, he, hem⟩ := List.mem_filterMap.mp hmem
    obtain ⟨route, hroute, hun, rfl⟩ := (mem_exports_file hT hne hsegments).mp he
    obtain ⟨m', hm', heq⟩ := Option.map_eq_some_iff.mp hem
    obtain ⟨rfl, rfl⟩ := Prod.mk.inj heq
    exact hun route (List.prefix_refl route) (SymbolTree.ne_nil_of_mem_routes hroute) m' hm'
  · rw [OrderedMap.get?_insert] at hm
    split at hm
    · rw [← Option.some.inj hm]
      rfl
    · rcases get?_foldl_insertNew hm with rfl | hm
      · rfl
      · exact hv k m hm

end

/-! ## All dependencies -/

section

variable (load : String → Option SymbolTable)

/-- A dependency that has a name and a table. -/
def Loaded (dependencies : List String) (segments : List String) (s : SymbolTable) : Prop :=
  segments ≠ [] ∧ ∃ d ∈ dependencies, FilePath.segments d = segments ∧ load d = some s

/-- The keys that the dependencies add to a view. -/
def Provided (dependencies : List String) (key : String) : Prop :=
  ∃ segments s, Loaded load dependencies segments s ∧ Provides segments s key

/-- Where the merging of dependencies is. -/
structure Merged (dependencies : List String) (v : SymbolTable) : Prop where
  keys : ∀ key, key ∈ v.metadata.keys ↔ Provided load dependencies key
  names : ∀ name, name ∈ v.tree.names ↔
    ∃ segments s, Loaded load dependencies segments s ∧ segments.head? = some name
  unhidden : ∀ key m, v.metadata.get? key = some m → m.isHidden = false

variable {load}

theorem empty_notMem_segments (path : String) : "" ∉ FilePath.segments path := by
  simp [FilePath.segments]

theorem loaded_concat {before : List String} {d : String} {segments : List String}
    {s : SymbolTable} :
    Loaded load (before ++ [d]) segments s ↔
      Loaded load before segments s ∨
        (segments ≠ [] ∧ FilePath.segments d = segments ∧ load d = some s) := by
  simp only [Loaded, List.mem_append, List.mem_singleton, or_and_right, exists_or, exists_eq_left,
    and_or_left]

/-- A dependency without a name or without a table adds nothing. -/
theorem Merged.pass {before : List String} {v : SymbolTable} (h : Merged load before v) {d : String}
    (hd : FilePath.segments d = [] ∨ load d = none) : Merged load (before ++ [d]) v := by
  have hsame : ∀ segments s, Loaded load (before ++ [d]) segments s ↔ Loaded load before segments s := by
    intro segments s
    rw [loaded_concat]
    refine or_iff_left ?_
    rintro ⟨hne, rfl, hload⟩
    rcases hd with hd | hd
    · exact hne hd
    · rw [hd] at hload
      cases hload
  refine ⟨fun key => ?_, fun name => ?_, h.unhidden⟩
  · simp only [Provided, hsame]
    exact h.keys key
  · simp only [hsame]
    exact h.names name

theorem Merged.merge {before : List String} {v : SymbolTable} (h : Merged load before v) {d : String}
    {s : SymbolTable} (hne : FilePath.segments d ≠ []) (hload : load d = some s)
    (hs : s.tree.Named) (description : Option String) :
    Merged load (before ++ [d]) (v.mergeFile (FilePath.segments d) description s) := by
  have hempty := empty_notMem_segments d
  have hmore : ∀ P : List String → SymbolTable → Prop,
      (∃ segments s, Loaded load (before ++ [d]) segments s ∧ P segments s) ↔
        (∃ segments s, Loaded load before segments s ∧ P segments s) ∨ P (FilePath.segments d) s := by
    intro P
    simp only [loaded_concat, or_and_right, exists_or]
    refine or_congr_right ⟨?_, fun hP => ⟨_, s, ⟨hne, rfl, hload⟩, hP⟩⟩
    rintro ⟨segments, s', ⟨-, rfl, hs'⟩, hP⟩
    rw [hload, Option.some.injEq] at hs'
    exact hs' ▸ hP
  refine ⟨fun key => ?_, fun name => ?_, fun key m hm => ?_⟩
  · rw [mem_keys_mergeFile hs hne hempty, h.keys, Provided, Provided,
      hmore fun segments s => Provides segments s key]
  · rw [mem_names_mergeFile hs hne hempty, h.names, hmore fun segments s => segments.head? = some name]
  · exact unhidden_mergeFile hs hne hempty description h.unhidden hm

/-- **What has been merged is what the dependencies provide.** -/
theorem Merged.foldl {before dependencies : List String} {v : SymbolTable} (h : Merged load before v)
    (hnamed : ∀ d ∈ dependencies, ∀ s, load d = some s → s.tree.Named)
    (layout : Option Project.Layout) :
    Merged load (before ++ dependencies) (dependencies.foldl (mergeDependency load layout) v) := by
  induction dependencies generalizing before v with
  | nil => simpa using h
  | cons d dependencies ih =>
    have hstep : Merged load (before ++ [d]) (mergeDependency load layout v d) := by
      unfold mergeDependency
      simp only
      split
      · next hnil => exact h.pass (.inl (List.isEmpty_iff.mp hnil))
      · next hne =>
        cases hload : load d with
        | none => exact h.pass (.inr hload)
        | some s =>
          exact h.merge (fun hnil => hne (by rw [hnil]; rfl)) hload
            (hnamed d List.mem_cons_self s hload) _
    have hrest := ih hstep fun d hd => hnamed d (List.mem_cons_of_mem _ hd)
    rw [List.append_assoc, List.singleton_append] at hrest
    rw [List.foldl_cons]
    exact hrest

theorem merged_empty : Merged load [] .empty := by
  have hnone : ∀ segments s, ¬ Loaded load [] segments s := by
    rintro segments s ⟨-, d, hd, -⟩
    cases hd
  refine ⟨fun key => ?_, fun name => ?_, fun key m hm => by cases hm⟩
  · simp [Provided, hnone, empty]
  · simp [hnone, empty, SymbolTree.names]

theorem merged_dependencies {dependencies : List String}
    (hnamed : ∀ d ∈ dependencies, ∀ s, load d = some s → s.tree.Named)
    (layout : Option Project.Layout) :
    Merged load dependencies (dependencies.foldl (mergeDependency load layout) .empty) := by
  have hmerged := merged_empty.foldl hnamed layout
  rw [List.nil_append] at hmerged
  exact hmerged

end

/-! ## Own symbols -/

/-- What an own name takes away: itself, and what stands below it. -/
def Under (name key : String) : Prop := key = name ∨ ∃ rest, key = name ++ "." ++ rest

theorem startsWith_iff {s start : String} :
    Text.startsWith s start = true ↔ ∃ rest, s = start ++ rest := by
  unfold Text.startsWith
  rw [List.isPrefixOf_iff_prefix]
  constructor
  · rintro ⟨rest, hrest⟩
    refine ⟨.ofList rest, String.toList_injective ?_⟩
    rw [String.toList_append, String.toList_ofList, hrest]
  · rintro ⟨rest, rfl⟩
    rw [String.toList_append]
    exact List.prefix_append _ _

theorem contains_iff {t : SymbolTree} {name : String} : t.contains name = true ↔ name ∈ t.names :=
  SymbolTree.isSome_get?_iff

theorem get?_override (v : SymbolTable) (name : String) (below : SymbolTree) {key : String}
    {m : Metadata} :
    (v.override name below).metadata.get? key = some m ↔
      v.metadata.get? key = some m ∧ ¬ (name ∈ v.tree.names ∧ Under name key) := by
  have hkept : (key != name && !Text.startsWith key (name ++ ".")) = true ↔ ¬ Under name key := by
    rw [Under, not_or, ← startsWith_iff]
    simp
  unfold override
  simp only
  split
  · next h =>
    rw [OrderedMap.get?_filterKeys]
    split
    · next hk => simp [hkept.mp hk]
    · next hk =>
      have hunder : Under name key :=
        Classical.byContradiction fun hno => hk (hkept.mpr hno)
      simp [contains_iff.mp h, hunder]
  · next h =>
    have hno : name ∉ v.tree.names := fun hmem => h (contains_iff.mpr hmem)
    simp [hno]

/-- **The own names take away what stands under them**, if a dependency begins with them. -/
theorem get?_foldl_override {own : List (String × SymbolTree)} (hown : (own.map Prod.fst).Nodup)
    (v : SymbolTable) {key : String} {m : Metadata} :
    (own.foldl (fun v e => v.override e.1 e.2) v).metadata.get? key = some m ↔
      v.metadata.get? key = some m ∧
        ¬ ∃ name ∈ own.map Prod.fst, name ∈ v.tree.names ∧ Under name key := by
  induction own generalizing v with
  | nil => simp
  | cons e own ih =>
    rw [List.map_cons, List.nodup_cons] at hown
    -- the first name is none of the others
    have hnames : ∀ name ∈ own.map Prod.fst,
        (name ∈ (v.override e.1 e.2).tree.names ↔ name ∈ v.tree.names) := by
      intro name hname
      have hne : name ≠ e.1 := fun heq => hown.1 (heq ▸ hname)
      rw [override, SymbolTree.names_insert]
      split
      · rfl
      · simp [hne]
    have hlater : (∃ name ∈ own.map Prod.fst, name ∈ (v.override e.1 e.2).tree.names ∧ Under name key) ↔
        ∃ name ∈ own.map Prod.fst, name ∈ v.tree.names ∧ Under name key :=
      exists_congr fun name => and_congr_right fun hname => and_congr_left fun _ => hnames name hname
    rw [List.foldl_cons, ih hown.2, get?_override, hlater, List.map_cons, and_assoc, ← not_or]
    simp only [List.mem_cons, exists_eq_or_imp]

/-- An entry of the file itself: a symbol is tagged with the file, a folder or a file is not. -/
inductive Tagged (file : String) : Metadata → Metadata → Prop
  | folder (description : Option String) : Tagged file (.folder description) (.folder description)
  | file (description : Option String) : Tagged file (.file description) (.file description)
  | ofClass (info : SymbolInfo) (params : OrderedMap String) :
    Tagged file (.ofClass info params) (.ofClass { info with origin := ⟨true, some file⟩ } params)
  | ofFunction (info : SymbolInfo) (params : OrderedMap String) :
    Tagged file (.ofFunction info params)
      (.ofFunction { info with origin := ⟨true, some file⟩ } params)
  | ofVariable (info : SymbolInfo) (scope : VariableScope) :
    Tagged file (.ofVariable info scope) (.ofVariable { info with origin := ⟨true, some file⟩ } scope)

theorem tagged_markLocal (file : String) (m : Metadata) : Tagged file m (m.markLocal file) := by
  cases m <;> constructor

theorem get?_mergeLocal (v : SymbolTable) (file : String) (own : SymbolTable) (key : String) :
    (v.mergeLocal file own).metadata.get? key =
      ((own.metadata.get? key).map (Metadata.markLocal file)).or
        ((own.tree.toList.foldl (fun v e => v.override e.1 e.2) v).metadata.get? key) := by
  have hfold : ∀ m : OrderedMap Metadata,
      own.metadata.toList.foldl (fun m e => m.insert e.1 (e.2.markLocal file)) m =
        m.insertAll (own.metadata.mapValues (Metadata.markLocal file)).toList := by
    intro m
    rw [OrderedMap.insertAll, OrderedMap.mapValues, List.foldl_map]
  rw [mergeLocal]
  simp only
  rw [hfold, OrderedMap.get?_insertAll_toList, OrderedMap.get?_mapValues]

theorem map_fst_toList (t : SymbolTree) : t.toList.map Prod.fst = t.names := by
  induction t with
  | empty => rfl
  | entry name below beside _ ih => rw [SymbolTree.toList, List.map_cons, ih, SymbolTree.names]

section

variable {load : String → Option SymbolTable} {dependencies : List String} {own : SymbolTable}

/-- An own top-level name with which a dependency begins takes the key away. -/
def Overridden (load : String → Option SymbolTable) (dependencies : List String) (own : SymbolTable)
    (key : String) : Prop :=
  ∃ name ∈ own.tree.names,
    (∃ segments s, Loaded load dependencies segments s ∧ segments.head? = some name) ∧ Under name key

/-- What a view holds, key by key. -/
structure IsView (load : String → Option SymbolTable) (dependencies : List String) (file : String)
    (own view : SymbolTable) : Prop where
  keys : ∀ key, key ∈ view.metadata.keys ↔
    (Provided load dependencies key ∧ ¬ Overridden load dependencies own key) ∨
      key ∈ own.metadata.keys
  tagged : ∀ key m, own.metadata.get? key = some m →
    ∃ tagged, view.metadata.get? key = some tagged ∧ Tagged (FilePath.normalize file) m tagged
  /-- Nothing hidden comes from elsewhere. -/
  others : ∀ key m, view.metadata.get? key = some m → key ∉ own.metadata.keys → m.isHidden = false

-- a level of a symbol tree is a map, so `hown` holds of every table; of the list behind it it has to
-- be said, because a second entry of a name would be taken for that of a dependency
variable (hnamed : ∀ d ∈ dependencies, ∀ s, load d = some s → s.tree.Named)
  (hown : own.tree.names.Nodup) (layout : Option Project.Layout) (file : String)

include hnamed hown

/-- **What is at a key of a view**: the own entry, else that of a dependency. -/
theorem get?_visible (key : String) (m : Metadata) :
    (visible load layout file dependencies own).metadata.get? key = some m ↔
      (own.metadata.get? key).map (Metadata.markLocal (FilePath.normalize file)) = some m ∨
        (key ∉ own.metadata.keys ∧
          (dependencies.foldl (mergeDependency load layout) .empty).metadata.get? key = some m ∧
          ¬ Overridden load dependencies own key) := by
  have hmerged := merged_dependencies hnamed layout
  have htop : (own.tree.toList.map Prod.fst).Nodup := by
    rw [map_fst_toList]
    exact hown
  rw [visible, get?_mergeLocal, Option.or_eq_some_iff, get?_foldl_override htop, map_fst_toList,
    Option.map_eq_none_iff, OrderedMap.get?_eq_none_iff]
  simp only [hmerged.names, Overridden]

theorem mem_keys_visible (key : String) :
    key ∈ (visible load layout file dependencies own).metadata.keys ↔
      (Provided load dependencies key ∧ ¬ Overridden load dependencies own key) ∨
        key ∈ own.metadata.keys := by
  have hmerged := merged_dependencies hnamed layout
  have hmine : key ∈ own.metadata.keys →
      ∃ m, (own.metadata.get? key).map (Metadata.markLocal (FilePath.normalize file)) = some m := by
    intro hk
    obtain ⟨m, hm⟩ := Option.isSome_iff_exists.mp (OrderedMap.isSome_get?_iff.mpr hk)
    exact ⟨_, by rw [hm, Option.map_some]⟩
  rw [← OrderedMap.isSome_get?_iff, Option.isSome_iff_exists, ← hmerged.keys]
  simp only [get?_visible hnamed hown layout file]
  constructor
  · rintro ⟨m, hm | ⟨-, hm, hkept⟩⟩
    · obtain ⟨entry, hentry, -⟩ := Option.map_eq_some_iff.mp hm
      exact .inr (OrderedMap.mem_keys_of_get? hentry)
    · exact .inl ⟨OrderedMap.mem_keys_of_get? hm, hkept⟩
  · rintro (⟨hk, hkept⟩ | hk)
    · by_cases hown : key ∈ own.metadata.keys
      · obtain ⟨m, hm⟩ := hmine hown
        exact ⟨m, .inl hm⟩
      · obtain ⟨m, hm⟩ := Option.isSome_iff_exists.mp (OrderedMap.isSome_get?_iff.mpr hk)
        exact ⟨m, .inr ⟨hown, hm, hkept⟩⟩
    · obtain ⟨m, hm⟩ := hmine hk
      exact ⟨m, .inl hm⟩

/-- **The view of a file is exact.** It has the keys that the dependencies provide, less those that an
own name takes away, and the own keys; the own entries are the file's, and what comes from elsewhere is
not hidden. -/
theorem isView_visible :
    IsView load dependencies file own (visible load layout file dependencies own) where
  keys := mem_keys_visible hnamed hown layout file
  tagged := by
    intro key m hm
    refine ⟨_, (get?_visible hnamed hown layout file key _).mpr (.inl ?_), tagged_markLocal _ m⟩
    rw [hm, Option.map_some]
  others := by
    intro key m hm hno
    rcases (get?_visible hnamed hown layout file key m).mp hm with hmine | ⟨-, hm, -⟩
    · obtain ⟨entry, hentry, -⟩ := Option.map_eq_some_iff.mp hmine
      exact absurd (OrderedMap.mem_keys_of_get? hentry) hno
    · exact (merged_dependencies hnamed layout).unhidden key m hm

end

/-- A class with a member that is hidden, and a variable. -/
def ballSymbols : SymbolTable where
  tree := .entry "Ball" (.entry "__spin" .empty (.entry "x" .empty .empty)) (.entry "g" .empty .empty)
  metadata := .ofList
    [("Ball", .ofClass ⟨.exposed, "round", "", .foreign⟩ .empty),
      ("Ball.__spin", .ofVariable ⟨.hidden, "", "", .foreign⟩ .field),
      ("Ball.x", .ofVariable ⟨.exposed, "", "", .foreign⟩ .field),
      ("g", .ofVariable ⟨.exposed, "", "", .foreign⟩ .topLevel)]

/-- A file that declares a name with which the path of one dependency begins. -/
def mainSymbols : SymbolTable where
  tree := .entry "src" .empty .empty
  metadata := .ofList [("src", .ofFunction ⟨.exposed, "", "", .foreign⟩ .empty)]

theorem isView_main :
    let load := fun path => if path = "none" then none else some ballSymbols
    (visible load none "./main.ibc" ["src/ball", "lib/ball", "none"] mainSymbols).metadata.keys =
        ["lib", "lib.ball", "lib.ball.Ball", "lib.ball.Ball.x", "lib.ball.g", "src"] ∧
      IsView load ["src/ball", "lib/ball", "none"] "./main.ibc" mainSymbols
        (visible load none "./main.ibc" ["src/ball", "lib/ball", "none"] mainSymbols) := by
  intro load
  have hnamed : ∀ d ∈ ["src/ball", "lib/ball", "none"], ∀ s, load d = some s → s.tree.Named := by
    intro d _ s hs
    simp only [load] at hs
    split at hs
    · cases hs
    · rw [← Option.some.inj hs]
      decide
  exact ⟨by decide +kernel, isView_visible hnamed (by decide) none "./main.ibc"⟩

end SymbolTable

end IntentCode
