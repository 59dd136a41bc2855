import IntentCode.Proofs.Check.Limits
import IntentCode.Proofs.Constructor
import IntentCode.Proofs.Reference.Imported
import IntentCode.Proofs.Reference.Legible
import IntentCode.Proofs.Symbol.Contents
import IntentCode.Proofs.Text.Ranking

/-!
# Suggestions that are followed

What is suggested is a name of the tree or the end of a key, and whoever follows a suggestion has it read
again. A suggestion for a member is looked up under the first name that is read from it, one for a symbol
of an import under all of them (`check_member_iff`, `check_symbol_iff`). So a name is found again if it is
read as it is written and, for a member, if it is one name (`suggestions_resolve`). A declared name may
hold a dot, and then what is suggested for a member leads back to the same report
(`suggested_again`).
-/

set_option autoImplicit false

namespace IntentCode

open Ast

/-! ## Tables of sources -/

/-- No name in the tree holds the character. -/
def SymbolTree.Lacks (t : SymbolTree) (c : Char) : Prop :=
  ∀ route ∈ t.routes, ∀ name ∈ route, c ∉ name.toList

instance (t : SymbolTree) (c : Char) : Decidable (t.Lacks c) := List.decidableBAll _ _

/-- A symbol table that has been made from a source. -/
def Check.Compiled (T : SymbolTable) : Prop :=
  ∃ source scanned parsed initializer, Lexer.tokenize source = .ok scanned ∧
    Parser.parse scanned.tokens = .ok parsed ∧ T = (symbols initializer parsed.table).1

/-- Its tree and its keys agree, and they are made of names that can be declared. -/
structure SymbolTable.Sourced (T : SymbolTable) : Prop where
  nodup : T.tree.names.Nodup
  isName : ∀ route ∈ T.tree.routes, ∀ name ∈ route, Parser.IsName name
  reaches : ∀ path ≠ [], T.tree.Reaches path ↔ path ∈ T.tree.routes
  keys : ∀ key, key ∈ T.metadata.keys ↔ ∃ route ∈ T.tree.routes, SymbolPath.join route = key

theorem SymbolTable.Sourced.named {T : SymbolTable} (h : T.Sourced) : T.tree.Named :=
  fun route hroute hempty => (h.isName route hroute "" hempty).ne_empty rfl

theorem SymbolTable.reaches_ofAst (t : Table) {path : List String} (hne : path ≠ []) :
    (ofAst t).tree.Reaches path ↔ path ∈ (ofAst t).tree.routes := by
  obtain ⟨name, more, rfl⟩ := List.exists_cons_of_ne_nil hne
  have hempty : name :: more ∉ SymbolTree.empty.routes := List.not_mem_nil
  rw [ofAst_tree, SymbolTree.reaches_foldl_ensure, SymbolTree.mem_routes_foldl_ensure,
    or_iff_right SymbolTree.not_reaches_empty, and_iff_right hne, or_iff_right hempty]

theorem Check.Compiled.sourced {T : SymbolTable} (h : Compiled T) : T.Sourced := by
  obtain ⟨source, scanned, parsed, initializer, hlex, hparse, rfl⟩ := h
  obtain ⟨rows, htable, hlaw, hw⟩ := Parser.exists_rows_of_parse hlex hparse
  rw [htable]
  exact
    { nodup := SymbolTable.nodup_names_ofAst _
      isName := fun _ hroute _ hname => SymbolTable.isName_of_mem_routes hlaw hw hroute hname
      reaches := fun _ hne => SymbolTable.reaches_ofAst _ hne
      keys := fun key => by
        rw [keys_symbols]
        exact SymbolTable.mem_keys_ofAst_iff_route hlaw }

/-! ## Names that are read as they are written -/

namespace Reference

open SymbolPath (join names)

/-- In a name that is declared a bracket is all that stops the reading. -/
theorem legible_of_isName {name : String} (h : Parser.IsName name) (hbracket : '[' ∉ name.toList) :
    Legible name where
  unbracketed := by
    intro c hc
    rw [readable, Bool.and_eq_true, decide_eq_true_iff, decide_eq_true_iff]
    refine ⟨?_, fun he => hbracket (he ▸ hc)⟩
    rintro rfl
    exact absurd (h.word.unmarked _ hc).1 (by decide)
  names_trimmed := by
    intro piece hpiece
    obtain ⟨cs, hcs, rfl⟩ := List.mem_map.mp hpiece
    have hunbroken : ∀ c ∈ cs, Text.isBlank c = false := fun c hc => by
      simpa using List.any_eq_false.mp h.unbroken c ((Text.of_mem_cutAt hcs).2 c hc)
    rw [Text.trimmed, String.toList_ofList, Text.trim_of_trimmed
      ⟨fun c hc => hunbroken c (List.mem_of_head? hc),
        fun c hc => hunbroken c (List.mem_of_getLast? hc)⟩]

theorem legible_of_route {T : SymbolTable} (h : T.Sourced) (hbracket : T.tree.Lacks '[')
    {route : List String} (hroute : route ∈ T.tree.routes) : Legible (join route) :=
  legible_join (SymbolTree.ne_nil_of_mem_routes hroute) fun name hname =>
    legible_of_isName (h.isName route hroute name hname) (hbracket route hroute name hname)

section

variable {load : String → Option SymbolTable} {dependencies : List String} {own : SymbolTable}
  (hown : own.Sourced)
  (hdeps : ∀ d ∈ dependencies, ∀ T, load d = some T → T.Sourced)

include hown hdeps

/-- **Every key of a view is read as it is written** if no bracket stands in a name, nor in the path of a
dependency, where no name may begin or end with a blank. -/
theorem legible_of_mem_keys (hbracket : own.tree.Lacks '[')
    (hbrackets : ∀ d ∈ dependencies, ∀ T, load d = some T → T.tree.Lacks '[')
    (hpaths : ∀ d ∈ dependencies, ∀ name ∈ FilePath.segments d, Legible name)
    {layout : Option Project.Layout} {file key : String}
    (hkey : key ∈ (SymbolTable.visible load layout file dependencies own).metadata.keys) :
    Legible key := by
  have hnamed : ∀ d ∈ dependencies, ∀ T, load d = some T → T.tree.Named :=
    fun d hd T hT => (hdeps d hd T hT).named
  rcases (SymbolTable.mem_keys_visible hnamed hown.nodup layout file key).mp hkey with
    ⟨⟨segments, T, ⟨hne, d, hd, rfl, hT⟩, hprovides⟩, -⟩ | hkey
  · have hlegible := hpaths d hd
    cases hprovides with
    | folder before ne => exact legible_join ne fun name hname => hlegible name (before.subset hname)
    | file => exact legible_join hne hlegible
    | symbol exported =>
      exact legible_joined_iff.mpr ⟨legible_join hne hlegible,
        legible_of_route (hdeps d hd T hT) (hbrackets d hd T hT) exported.entry⟩
  · obtain ⟨route, hroute, rfl⟩ := (hown.keys key).mp hkey
    exact legible_of_route hown hbracket hroute

omit hdeps in
/-- **Below an own path of names without dots a view has own names only.** -/
theorem mem_routes_of_reaches (hdot : own.tree.Lacks '.') {route : List String}
    (hroute : route ∈ own.tree.routes) {layout : Option Project.Layout} {file name : String}
    (hreaches : (SymbolTable.visible load layout file dependencies own).tree.Reaches
      (names (join route) ++ [name])) :
    route ++ [name] ∈ own.tree.routes := by
  have hne := SymbolTree.ne_nil_of_mem_routes hroute
  rw [SymbolPath.names_join hne (hdot route hroute)] at hreaches
  have hfirst := (hown.reaches route hne).mpr hroute
  obtain ⟨first, more, rfl⟩ := List.exists_cons_of_ne_nil hne
  obtain ⟨below, hbelow, -⟩ := SymbolTree.reaches_cons.mp hfirst
  have hname : first ∈ own.tree.names :=
    SymbolTree.isSome_get?_iff.mp (Option.isSome_of_mem hbelow)
  exact (hown.reaches _ (by simp)).mp
    ((SymbolTable.reaches_visible_own hown.nodup hname load layout file dependencies).mp hreaches)

end

/-! ## What a candidate is made from -/

section

variable {config : Config} {t : Table} {scope : Scope} {uid : Nat} {raw : String}

theorem exists_of_mem_memberSuggestions {path member : String} {g : Diagnostic.Suggestion}
    (hg : g ∈ memberSuggestions config scope path member) :
    ∃ name, g.candidate = "self." ++ name ∧
      scope.view.tree.Reaches (names path ++ [name]) := by
  obtain ⟨name, hname, rfl⟩ := List.mem_map.mp hg
  have hmem := (Text.of_mem_rank hname).1
  refine ⟨name, rfl, SymbolTree.reaches_concat.mpr ?_⟩
  cases hget : scope.view.tree.getPath? (names path) with
  | none => simp [hget] at hmem
  | some below => exact ⟨below, rfl, by simpa [hget] using hmem⟩

theorem exists_of_mem_symbolSuggestions {first path wanted : String} {g : Diagnostic.Suggestion}
    (hg : g ∈ symbolSuggestions config scope first path wanted) :
    ∃ name, g.candidate = first ++ "." ++ name ∧
      path ++ "." ++ name ∈ scope.view.metadata.keys := by
  obtain ⟨name, hname, rfl⟩ := List.mem_map.mp hg
  have hmem := (Text.of_mem_rank hname).1
  obtain ⟨key, hkey, hafter⟩ := List.mem_filterMap.mp hmem
  exact ⟨name, rfl, Text.afterStart?_eq_some_iff.mp hafter ▸ hkey⟩

/-- What is like an unknown member is suggested, if there is room for all members. -/
theorem candidate_mem_memberSuggestions {path member name : String} {members : List String}
    (hmembers : ((scope.view.tree.getPath? (names path)).map SymbolTree.names).getD [] = members)
    (hroom : members.length ≤ config.maxSuggestions) (hname : name ∈ members) (hne : member ≠ "")
    (hlike : Text.ordinal config.minSimilarity ≤ Text.score member name) :
    "self." ++ name ∈
      (memberSuggestions config scope path member).map Diagnostic.Suggestion.candidate := by
  rw [memberSuggestions, hmembers, List.map_map]
  exact List.mem_map.mpr ⟨name, Text.mem_rank_of_length_le hne hroom hname hlike, rfl⟩

theorem candidate_mem_symbolSuggestions {first path wanted name : String} {symbols : List String}
    (hsymbols : (scope.view.metadata.keys.filterMap fun p => Text.afterStart? p (path ++ ".")) = symbols)
    (hroom : symbols.length ≤ config.maxSuggestions) (hname : name ∈ symbols) (hne : wanted ≠ "")
    (hlike : Text.ordinal config.minSimilarity ≤ Text.score wanted name) :
    first ++ "." ++ name ∈
      (symbolSuggestions config scope first path wanted).map Diagnostic.Suggestion.candidate := by
  rw [symbolSuggestions, hsymbols, List.map_map]
  exact List.mem_map.mpr ⟨name, Text.mem_rank_of_length_le hne hroom hname hlike, rfl⟩

/-! ## What is reported -/

variable (config t scope uid raw) in
/-- An issue with what has been looked up for it. -/
inductive Reported : Issue → Prop
  | unscoped : Reported ⟨.unscoped raw, []⟩
  | selfOutsideClass : Reported ⟨.selfOutsideClass raw, []⟩
  | unknownMember {c : Node} {path member : String} (isClass : t.enclosingClass? uid = some c)
    (isPath : t.symbolPath? c.uid = some path) :
    Reported ⟨.unknownMember path member raw, memberSuggestions config scope path member⟩
  | unknownSymbol {first wanted : String} {i : Import} (isRead : (segments raw).head? = some first)
    (notSelf : first ≠ "self") (isImport : scope.imports.get? first = some i)
    (checked : scope.isExternal i.package = false) :
    Reported
      ⟨.unknownSymbol i.path wanted raw, symbolSuggestions config scope first i.path wanted⟩
  | unknownModule (first : String) :
    Reported ⟨.unknownModule first raw, moduleSuggestions config scope first⟩

theorem reported_of_check {issue : Issue} (h : check config t scope uid raw = some issue) :
    Reported config t scope uid raw issue := by
  unfold check at h
  split at h
  · unfold checkSelf at h
    split at h
    · exact Option.some.inj h ▸ .selfOutsideClass
    · next c hclass =>
      simp only [Option.bind_eq_bind, Option.bind_eq_some_iff] at h
      obtain ⟨member, -, path, hpath, h⟩ := h
      split at h
      · cases h
      · exact Option.some.inj h ▸ .unknownMember hclass hpath
  · exact Option.some.inj h ▸ .unscoped
  · exact Option.some.inj h ▸ .unscoped
  · next first rest hself _ hraw =>
    split at h
    · next i hi =>
      unfold checkImport at h
      dsimp only at h
      split at h
      · cases h
      · next hrefused =>
        rw [Bool.or_eq_true, not_or, Bool.not_eq_true] at hrefused
        have hread : (segments raw).head? = some first := by rw [hraw, List.head?_cons]
        exact Option.some.inj h ▸ .unknownSymbol hread hself hi hrefused.1
    · unfold checkPath at h
      split at h
      · cases h
      · exact Option.some.inj h ▸ .unknownModule first

theorem suggestions_of_unknownMember {issue : Issue}
    (h : check config t scope uid raw = some issue) {path member : String}
    (hfault : issue.fault = .unknownMember path member raw) :
    issue.suggestions = memberSuggestions config scope path member := by
  cases reported_of_check h with
  | unknownMember hclass hpath =>
    obtain ⟨rfl, rfl, -⟩ := Fault.unknownMember.inj hfault
    rfl
  | unscoped | selfOutsideClass | unknownSymbol | unknownModule => cases hfault

theorem suggestions_of_unknownSymbol {issue : Issue}
    (h : check config t scope uid raw = some issue) {path wanted : String}
    (hfault : issue.fault = .unknownSymbol path wanted raw) {first : String}
    (hfirst : (segments raw).head? = some first) :
    issue.suggestions = symbolSuggestions config scope first path wanted := by
  cases reported_of_check h with
  | unknownSymbol hread =>
    obtain ⟨rfl, rfl, -⟩ := Fault.unknownSymbol.inj hfault
    obtain rfl := Option.some.inj (hread.symm.trans hfirst)
    rfl
  | unscoped | selfOutsideClass | unknownMember | unknownModule => cases hfault

/-! ## What a candidate is read as -/

/-- **A member is looked up under the first name that is read.** -/
theorem check_member_iff {c : Node} {path : String} (hclass : t.enclosingClass? uid = some c)
    (hpath : t.symbolPath? c.uid = some path) (name : String) :
    check config t scope uid ("self." ++ name) = none ↔
      scope.has (path ++ "." ++ (segments name).headD "") = true := by
  have hself : Unbracketed "self" := by decide
  have hread : segments ("self." ++ name) = "self" :: segments name := segments_joined hself name
  obtain ⟨first, more, hname⟩ := List.exists_cons_of_ne_nil (segments_ne_nil name)
  rw [check, hread, hname]
  simp only [checkSelf, hclass, hpath, List.head?_cons, Option.bind_eq_bind, Option.bind_some,
    List.headD_cons]
  split
  · next hfound => exact iff_of_true rfl hfound
  · next hmissing => exact iff_of_false (Option.some_ne_none _) hmissing

/-- **A symbol of an import is looked up under all names that are read.** -/
theorem check_symbol_iff {first : String} {i : Import} (hfirst : first ∈ segments raw)
    (hself : first ≠ "self") (hi : scope.imports.get? first = some i)
    (hchecked : scope.isExternal i.package = false) (name : String) :
    check config t scope uid (first ++ "." ++ name) = none ↔
      scope.has (i.path ++ "." ++ join (segments name)) = true := by
  obtain ⟨hdot, hlegible⟩ := of_mem_segments hfirst
  have hread : segments (first ++ "." ++ name) = first :: segments name := by
    rw [segments_joined hlegible.unbracketed, hlegible.segments_eq,
      SymbolPath.names_of_notMem hdot]
    rfl
  rw [check_of_alias hi hself hread (segments_ne_nil name), checkImport]
  simp only [hchecked, Bool.false_or]
  split
  · next hfound => exact iff_of_true rfl hfound
  · next hmissing => exact iff_of_false (Option.some_ne_none _) hmissing

variable (config t scope uid) in
/-- A suggestion of a member. If it is followed, the first name that is read from it is looked up. -/
def SuggestsMember (candidate : String) : Prop :=
  ∃ c path name, t.enclosingClass? uid = some c ∧ t.symbolPath? c.uid = some path ∧
    candidate = "self." ++ name ∧ scope.view.tree.Reaches (names path ++ [name]) ∧
    (check config t scope uid candidate = none ↔
      scope.has (path ++ "." ++ (segments name).headD "") = true)

variable (config t scope uid) in
/-- A suggestion of a symbol of an import, which is visible. If it is followed, all names that are read
from it are looked up. -/
def SuggestsSymbol (candidate : String) : Prop :=
  ∃ first i name, scope.imports.get? first = some i ∧ candidate = first ++ "." ++ name ∧
    scope.has (i.path ++ "." ++ name) = true ∧
    (check config t scope uid candidate = none ↔
      scope.has (i.path ++ "." ++ join (segments name)) = true)

/-- Every suggestion for a member or for a symbol of an import is of its kind. -/
theorem suggests_of_check {issue : Issue} (h : check config t scope uid raw = some issue)
    {g : Diagnostic.Suggestion} (hg : g ∈ issue.suggestions) :
    (issue.fault.code = .unknownMember → SuggestsMember config t scope uid g.candidate) ∧
      (issue.fault.code = .unknownSymbol → SuggestsSymbol config t scope uid g.candidate) := by
  cases reported_of_check h with
  | unscoped | selfOutsideClass => cases hg
  | unknownModule first => exact ⟨Diagnostic.Code.noConfusion, Diagnostic.Code.noConfusion⟩
  | unknownMember hclass hpath =>
    refine ⟨fun _ => ?_, Diagnostic.Code.noConfusion⟩
    obtain ⟨name, hname, hreaches⟩ := exists_of_mem_memberSuggestions hg
    rw [hname]
    exact ⟨_, _, name, hclass, hpath, rfl, hreaches, check_member_iff hclass hpath name⟩
  | unknownSymbol hfirst hself hi hchecked =>
    refine ⟨Diagnostic.Code.noConfusion, fun _ => ?_⟩
    obtain ⟨name, hname, hkey⟩ := exists_of_mem_symbolSuggestions hg
    rw [hname]
    exact ⟨_, _, name, hi, rfl, OrderedMap.contains_eq_true.mpr hkey,
      check_symbol_iff (List.mem_of_head? hfirst) hself hi hchecked name⟩

end

end Reference

/-! ## Following a suggestion -/

namespace Check

open Reference (Legible check issueAt? segments sites)
open SymbolPath (join)

/-- The phases before the last one report nothing about references. -/
theorem code_of_mem_early {initializer : String} {scanned : Lexer.Scanned} {parsed : Parser.Parsed}
    {d : Diagnostic} (h : d ∈ early initializer scanned parsed) :
    d.code ≠ .unknownMember ∧ d.code ≠ .unknownSymbol := by
  rcases List.mem_append.mp h with h | h
  · rcases List.mem_append.mp h with h | h
    · obtain ⟨w, -, rfl⟩ := List.mem_map.mp h
      exact ⟨Diagnostic.Code.noConfusion, Diagnostic.Code.noConfusion⟩
    · obtain ⟨⟨complaint, line, content⟩, -, rfl⟩ := List.mem_map.mp h
      cases complaint <;> exact ⟨Diagnostic.Code.noConfusion, Diagnostic.Code.noConfusion⟩
  · rw [symbols, Constructor.validate_eq] at h
    obtain ⟨n, -, h⟩ := List.mem_filterMap.mp h
    obtain ⟨c, -, -, rfl⟩ := Constructor.report?_eq_some_iff.mp h
    exact ⟨Diagnostic.Code.noConfusion, Diagnostic.Code.noConfusion⟩

/-- A path that a node of a source has is one of the tree. -/
theorem exists_route_of_symbolPath? {source : String} {scanned : Lexer.Scanned}
    {parsed : Parser.Parsed} (hlex : Lexer.tokenize source = .ok scanned)
    (hparse : Parser.parse scanned.tokens = .ok parsed) (initializer : String) {uid : Nat}
    {path : String} (h : parsed.table.symbolPath? uid = some path) :
    ∃ route ∈ (symbols initializer parsed.table).1.tree.routes, join route = path := by
  have hsourced : (symbols initializer parsed.table).1.Sourced :=
    Compiled.sourced ⟨source, scanned, parsed, initializer, hlex, hparse, rfl⟩
  obtain ⟨rows, htable, hlaw, -⟩ := Parser.exists_rows_of_parse hlex hparse
  rw [← hsourced.keys, keys_symbols, htable, SymbolTable.mem_keys_ofAst hlaw, ← htable]
  exact ⟨uid, h⟩

section

variable {s : Session} {path : String} {scanned : Lexer.Scanned} {parsed : Parser.Parsed}
  {dependencies : List String}

/-- Every issue that a check gives is found. -/
theorem mem_found_of_check {site : Node × String} (hsite : site ∈ sites parsed.table)
    {issue : Reference.Issue}
    (hcheck : check s.config.reference parsed.table
      (s.scope path parsed.table (symbols s.config.reference.initializer parsed.table).1 dependencies)
      site.1.uid site.2 = some issue) :
    issue.diagnostic parsed.table site.1 ∈ found s path scanned parsed dependencies := by
  refine List.mem_append_right _ ?_
  rw [Reference.resolve_eq]
  exact List.mem_filterMap.mpr ⟨site, hsite, Option.map_eq_some_iff.mpr ⟨issue, hcheck, rfl⟩⟩

/-- What is reported for a member or a symbol is the issue of a reference, however little the queue
holds. -/
theorem exists_site_of_mem {d : Diagnostic}
    (h : d ∈ Diagnostic.sortByLine ((Diagnostic.Queue.new s.config.queue).recordAll
      (found s path scanned parsed dependencies)).held)
    (hcode : d.code = .unknownMember ∨ d.code = .unknownSymbol) :
    ∃ site ∈ sites parsed.table,
      issueAt? s.config.reference parsed.table
        (s.scope path parsed.table (symbols s.config.reference.initializer parsed.table).1 dependencies)
        site = some d := by
  have hfound : d ∈ found s path scanned parsed dependencies :=
    ((Diagnostic.Queue.collected_new s.config.queue).recordAll _).held.subset
      ((Diagnostic.sortByLine_perm _).mem_iff.mp h)
  rcases List.mem_append.mp hfound with hearly | hresolve
  · exact absurd hcode (not_or.mpr (code_of_mem_early hearly))
  · rw [Reference.resolve_eq] at hresolve
    exact List.mem_filterMap.mp hresolve

end

section

variable {s : Session} {dependencies : List String} {own : SymbolTable} (hown : own.Sourced)
  (hdeps : ∀ d ∈ dependencies, ∀ T, s.load d = some T → T.Sourced) {t : Table} {path : String}
  {uid : Nat} {candidate : String}

include hown hdeps

theorem member_resolves (hdot : own.tree.Lacks '.') (hbracket : own.tree.Lacks '[')
    (hpaths : ∀ uid path, t.symbolPath? uid = some path → ∃ route ∈ own.tree.routes, join route = path)
    (h : Reference.SuggestsMember s.config.reference t (s.scope path t own dependencies) uid candidate) :
    check s.config.reference t (s.scope path t own dependencies) uid candidate = none := by
  obtain ⟨c, classPath, name, -, hclass, -, hreaches, hiff⟩ := h
  obtain ⟨route, hroute, rfl⟩ := hpaths _ _ hclass
  have hmember := Reference.mem_routes_of_reaches hown hdot hroute hreaches
  have hname : name ∈ route ++ [name] := List.mem_append_right _ List.mem_cons_self
  have hlegible : Legible name :=
    Reference.legible_of_isName (hown.isName _ hmember name hname) (hbracket _ hmember name hname)
  -- the name is read as it is written, and it is one name
  have hread : segments name = [name] := by
    rw [hlegible.segments_eq, SymbolPath.names_of_notMem (hdot _ hmember name hname)]
  have hkey : join route ++ "." ++ name ∈ own.metadata.keys :=
    (hown.keys _).mpr ⟨route ++ [name], hmember, by
      rw [SymbolPath.join_append (SymbolTree.ne_nil_of_mem_routes hroute) (by simp),
        SymbolPath.join_singleton]⟩
  rw [hiff, hread, Reference.Scope.has, OrderedMap.contains_eq_true]
  exact (SymbolTable.mem_keys_visible (fun d hd T hT => (hdeps d hd T hT).named) hown.nodup s.layout
    path _).mpr (.inr hkey)

theorem symbol_resolves (hbracket : own.tree.Lacks '[')
    (hbrackets : ∀ d ∈ dependencies, ∀ T, s.load d = some T → T.tree.Lacks '[')
    (hpaths : ∀ d ∈ dependencies, ∀ name ∈ FilePath.segments d, Legible name)
    (h : Reference.SuggestsSymbol s.config.reference t (s.scope path t own dependencies) uid candidate) :
    check s.config.reference t (s.scope path t own dependencies) uid candidate = none := by
  obtain ⟨first, i, name, -, -, hvisible, hiff⟩ := h
  have hkey := Reference.legible_of_mem_keys hown hdeps hbracket hbrackets hpaths
    (OrderedMap.contains_eq_true.mp hvisible)
  rw [hiff, (Reference.legible_joined_iff.mp hkey).2.join_segments]
  exact hvisible

end

/-- **What suggestions lead to.** Whatever the queue is set to, a suggestion in a report for an unknown
member or an unknown symbol of an import is accepted, in place of the reference, exactly if what is read
from it is visible: the first name alone for a member, all names for a symbol. So it is accepted if no
name is cut: a member, if the names of the file hold no dot and no bracket; a symbol, if the names of the
file and of its dependencies hold no bracket, and the paths of the dependencies neither a bracket nor a
name with a blank at an end. -/
theorem suggestions_resolve (path : String) {source : String} {scanned : Lexer.Scanned}
    {parsed : Parser.Parsed} {s : Session} {dependencies : List String}
    (hlex : Lexer.tokenize source = .ok scanned)
    (hparse : Parser.parse scanned.tokens = .ok parsed)
    (hdeps : ∀ d ∈ dependencies, ∀ T, s.load d = some T → Compiled T) :
    ∃ report scope, file s path source dependencies = .ok report ∧
      scope = s.scope path report.tree report.symbols dependencies ∧
      ∀ d ∈ report.diagnostics, d.code = .unknownMember ∨ d.code = .unknownSymbol →
        ∃ site ∈ sites report.tree,
          issueAt? s.config.reference report.tree scope site = some d ∧
          ∀ g ∈ d.suggestions,
            (d.code = .unknownMember →
              Reference.SuggestsMember s.config.reference report.tree scope site.1.uid g.candidate ∧
              (report.symbols.tree.Lacks '.' → report.symbols.tree.Lacks '[' →
                issueAt? s.config.reference report.tree scope (site.1, g.candidate) = none)) ∧
            (d.code = .unknownSymbol →
              Reference.SuggestsSymbol s.config.reference report.tree scope site.1.uid g.candidate ∧
              (report.symbols.tree.Lacks '[' →
                (∀ d ∈ dependencies, ∀ T, s.load d = some T → T.tree.Lacks '[') →
                (∀ d ∈ dependencies, ∀ name ∈ FilePath.segments d, Legible name) →
                issueAt? s.config.reference report.tree scope (site.1, g.candidate) = none)) := by
  have hsourced : ∀ d ∈ dependencies, ∀ T, s.load d = some T → T.Sourced :=
    fun d hd T hT => (hdeps d hd T hT).sourced
  have hown : (symbols s.config.reference.initializer parsed.table).1.Sourced :=
    Compiled.sourced ⟨source, scanned, parsed, _, hlex, hparse, rfl⟩
  refine ⟨_, _, file_eq_found hlex hparse s path dependencies, rfl, fun d hd hcode => ?_⟩
  obtain ⟨site, hsite, hissue⟩ := exists_site_of_mem hd hcode
  refine ⟨site, hsite, hissue, fun g hg => ?_⟩
  obtain ⟨issue, hcheck, rfl⟩ := Option.map_eq_some_iff.mp hissue
  obtain ⟨hmember, hsymbol⟩ := Reference.suggests_of_check hcheck hg
  refine ⟨fun hcode => ⟨hmember hcode, fun hdot hbracket => ?_⟩,
    fun hcode => ⟨hsymbol hcode, fun hbracket hbrackets hsegments => ?_⟩⟩
  · exact Option.map_eq_none_iff.mpr (member_resolves hown hsourced hdot hbracket
      (fun _ _ hpath => exists_route_of_symbolPath? hlex hparse _ hpath) (hmember hcode))
  · exact Option.map_eq_none_iff.mpr
      (symbol_resolves hown hsourced hbracket hbrackets hsegments (hsymbol hcode))

/-- A file that misspells a member and a symbol of an import. -/
def typos : String :=
  "module lib.ball\nclass A:\n    var speed\n    func f:\n        go $self.seed$, $ball.seed$\n"

/-- The symbol table of a source that can be read. -/
def tableOf? (source : String) : Option SymbolTable :=
  (Parser.read? source).map fun t => (symbols "__init__" t).1

theorem compiled_of_tableOf? {source : String} {T : SymbolTable} (h : tableOf? source = some T) :
    Compiled T := by
  obtain ⟨t, ht, rfl⟩ := Option.map_eq_some_iff.mp h
  obtain ⟨scanned, parsed, hlex, hparse, rfl⟩ := Parser.exists_of_read? ht
  exact ⟨source, scanned, parsed, "__init__", hlex, hparse, rfl⟩

def speedFile : String := "var speed\nvar mass\n"

/-- Every other file is that one, and names are alike if they are as close as `seed` and `speed`. -/
def typoSession : Session where
  load := fun _ => tableOf? speedFile
  layout := none
  config := ⟨.unlimited, 3, Text.similarity "seed" "speed", "__init__"⟩

theorem suggestions_resolve_typos :
    ∃ scanned parsed report, Lexer.tokenize typos = .ok scanned ∧
      Parser.parse scanned.tokens = .ok parsed ∧
      (∀ d ∈ ["lib/ball.ibc"], ∀ T, typoSession.load d = some T → Compiled T) ∧
      file typoSession "main" typos ["lib/ball.ibc"] = .ok report ∧
      (∃ d ∈ report.diagnostics, d.code = .unknownMember ∧
        "self.speed" ∈ d.suggestions.map Diagnostic.Suggestion.candidate) ∧
      (∃ d ∈ report.diagnostics, d.code = .unknownSymbol ∧
        "ball.speed" ∈ d.suggestions.map Diagnostic.Suggestion.candidate) ∧
      ∀ d ∈ report.diagnostics, d.code = .unknownMember ∨ d.code = .unknownSymbol →
        ∃ site ∈ sites report.tree, ∀ g ∈ d.suggestions,
          issueAt? typoSession.config.reference report.tree
            (typoSession.scope "main" report.tree report.symbols ["lib/ball.ibc"])
            (site.1, g.candidate) = none := by
  have hread : ∃ t ∈ Parser.read? typos,
      (symbols "__init__" t).1.tree.Lacks '.' ∧ (symbols "__init__" t).1.tree.Lacks '[' ∧
      (sites t).map Prod.snd = ["self.seed", "ball.seed"] ∧
      let scope := typoSession.scope "main" t (symbols "__init__" t).1 ["lib/ball.ibc"]
      (sites t).map (fun site =>
        (check typoSession.config.reference t scope site.1.uid site.2).map Reference.Issue.fault) =
          [some (.unknownMember "A" "seed" "self.seed"),
            some (.unknownSymbol "lib.ball" "seed" "ball.seed")] ∧
      ((scope.view.tree.getPath? (SymbolPath.names "A")).map SymbolTree.names).getD [] =
        ["speed", "f"] ∧
      (scope.view.metadata.keys.filterMap fun p => Text.afterStart? p ("lib.ball" ++ ".")) =
        ["speed", "mass"] := by
    decide +kernel
  obtain ⟨t, ht, hdot, hbracket, hraws, hfaults, hmembers, hsymbols⟩ := hread
  obtain ⟨scanned, parsed, hlex, hparse, rfl⟩ := Parser.exists_of_read? ht
  have hdeps : ∀ d ∈ ["lib/ball.ibc"], ∀ T, typoSession.load d = some T → Compiled T :=
    fun _ _ T hT => compiled_of_tableOf? (show tableOf? speedFile = some T from hT)
  have hnames : ∀ d ∈ ["lib/ball.ibc"], ∀ T, typoSession.load d = some T → T.tree.Lacks '[' := by
    have hload : ∀ T ∈ typoSession.load "lib/ball.ibc", T.tree.Lacks '[' := by decide +kernel
    exact fun _ _ T hT => hload T hT
  have hlegible : ∀ d ∈ ["lib/ball.ibc"], ∀ name ∈ FilePath.segments d, Legible name := by
    decide +kernel
  obtain ⟨report, scope, hfile, rfl, hall⟩ := suggestions_resolve "main" hlex hparse hdeps
  have hreport := hfile.symm.trans
    (file_unlimited_eq hlex hparse rfl "main" ["lib/ball.ibc"])
  obtain rfl := Except.ok.inj hreport
  have hreported : ∀ {d}, d ∈ Check.found typoSession "main" scanned parsed ["lib/ball.ibc"] →
      d ∈ Diagnostic.sortByLine (Check.found typoSession "main" scanned parsed ["lib/ball.ibc"]) :=
    (Diagnostic.sortByLine_perm _).mem_iff.mpr
  obtain ⟨⟨n, _⟩, rest, hsites, rfl, hrest⟩ := List.map_eq_cons_iff.mp hraws
  obtain ⟨⟨m, _⟩, rest, rfl, rfl, hnil⟩ := List.map_eq_cons_iff.mp hrest
  obtain rfl := List.map_eq_nil_iff.mp hnil
  rw [hsites] at hfaults
  obtain ⟨hself, hball⟩ := List.cons.inj hfaults
  refine ⟨scanned, parsed, _, hlex, hparse, hdeps, hfile, ?_, ?_, fun d hd hcode => ?_⟩
  · obtain ⟨issue, hissue, hfault⟩ := Option.map_eq_some_iff.mp hself
    refine ⟨_, hreported (mem_found_of_check (by simp [hsites]) hissue),
      congrArg Reference.Fault.code hfault, ?_⟩
    change "self." ++ "speed" ∈ issue.suggestions.map Diagnostic.Suggestion.candidate
    rw [Reference.suggestions_of_unknownMember hissue hfault]
    exact Reference.candidate_mem_memberSuggestions hmembers (by decide) (by decide) (by decide)
      (Int.le_refl _)
  · obtain ⟨issue, hissue, hfault⟩ := Option.map_eq_some_iff.mp (List.cons.inj hball).1
    refine ⟨_, hreported (mem_found_of_check (by simp [hsites]) hissue),
      congrArg Reference.Fault.code hfault, ?_⟩
    change "ball" ++ "." ++ "speed" ∈ issue.suggestions.map Diagnostic.Suggestion.candidate
    have hfirst : (segments "ball.seed").head? = some "ball" := by decide +kernel
    rw [Reference.suggestions_of_unknownSymbol hissue hfault hfirst]
    exact Reference.candidate_mem_symbolSuggestions hsymbols (by decide) (by decide) (by decide)
      (Int.le_refl _)
  · obtain ⟨site, hsite, -, hfollow⟩ := hall d hd hcode
    refine ⟨site, hsite, fun g hg => ?_⟩
    rcases hcode with hcode | hcode
    · exact ((hfollow g hg).1 hcode).2 hdot hbracket
    · exact ((hfollow g hg).2 hcode).2 hbracket hnames hlegible

/-- A method that uses the member `speed.x` of its class. -/
def dottedMember : String := "class A:\n    var speed.x\n    func f:\n        go $self.speed.x$\n"

/-- A file without dependencies, where names are alike if they are as close as `speed` and `speed.x`. -/
def aloneSession : Session :=
  ⟨fun _ => none, none, ⟨.unlimited, 3, Text.similarity "speed" "speed.x", "__init__"⟩⟩

/-- **Following a suggestion may lead back to it.** The source is read without a diagnostic, what is
reported is that there is no member `speed`, and what is suggested is the reference itself. -/
theorem suggested_again :
    ∃ t report n d, parse "main" dottedMember = .ok (t, []) ∧
      file aloneSession "main" dottedMember [] = .ok report ∧
      sites t = [(n, "self.speed.x")] ∧ report.diagnostics = [d] ∧ d.code = .unknownMember ∧
      issueAt? aloneSession.config.reference t (aloneSession.scope "main" t report.symbols [])
        (n, "self.speed.x") = some d ∧
      "self.speed.x" ∈ d.suggestions.map Diagnostic.Suggestion.candidate := by
  have hread : ∃ p ∈ (parse "main" dottedMember).toOption, p.2 = [] ∧
      (symbols "__init__" p.1).2 = [] ∧ (sites p.1).map Prod.snd = ["self.speed.x"] ∧
      (∀ site ∈ sites p.1,
        (check aloneSession.config.reference p.1
          (aloneSession.scope "main" p.1 (symbols "__init__" p.1).1 []) site.1.uid site.2).map
            Reference.Issue.fault = some (.unknownMember "A" "speed" "self.speed.x")) ∧
      (((aloneSession.scope "main" p.1 (symbols "__init__" p.1).1 []).view.tree.getPath?
        (SymbolPath.names "A")).map SymbolTree.names).getD [] = ["speed.x", "f"] := by
    decide +kernel
  obtain ⟨⟨t, found⟩, hp, rfl, hissues, hsites, hchecks, hmembers⟩ := hread
  obtain ⟨scanned, parsed, hlex, hparse⟩ | ⟨e, he, -⟩ := exists_of_parse "main" dottedMember
  · rw [parse_eq hlex hparse] at hp
    obtain ⟨rfl, hclean⟩ := Prod.mk.inj (Option.some.inj hp)
    obtain ⟨⟨n, _⟩, hsite, rfl⟩ := List.map_eq_singleton_iff.mp hsites
    obtain ⟨issue, hcheck, hfault⟩ :=
      Option.map_eq_some_iff.mp (hchecks (n, "self.speed.x") (hsite ▸ List.mem_singleton_self _))
    have hissue : issueAt? aloneSession.config.reference parsed.table
        (aloneSession.scope "main" parsed.table (symbols "__init__" parsed.table).1 [])
        (n, "self.speed.x") = some (issue.diagnostic parsed.table n) := by
      rw [issueAt?, hcheck, Option.map_some]
    have hfound : Check.found aloneSession "main" scanned parsed [] =
        [issue.diagnostic parsed.table n] := by
      have hearly : early "__init__" scanned parsed = [] := by rw [early, hclean, hissues]; rfl
      have hresolve := Reference.resolve_eq aloneSession.config.reference parsed.table
        (aloneSession.scope "main" parsed.table (symbols "__init__" parsed.table).1 [])
      rw [hsite, List.filterMap_cons_some hissue] at hresolve
      exact congrArg₂ (· ++ ·) hearly hresolve
    refine ⟨parsed.table, _, n, issue.diagnostic parsed.table n, ?_,
      file_unlimited_eq hlex hparse rfl "main" [], hsite, ?_, ?_, hissue, ?_⟩
    · rw [parse_eq hlex hparse, hclean]
    · rw [hfound]
      exact List.mergeSort_singleton _
    · exact congrArg Reference.Fault.code hfault
    · change "self." ++ "speed.x" ∈ issue.suggestions.map Diagnostic.Suggestion.candidate
      rw [Reference.suggestions_of_unknownMember hcheck hfault]
      exact Reference.candidate_mem_memberSuggestions hmembers (by decide) (by decide) (by decide)
        (Int.le_refl _)
  · rw [he] at hp
    cases hp

end Check

end IntentCode
