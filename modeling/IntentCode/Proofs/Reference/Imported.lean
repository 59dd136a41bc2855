import IntentCode.Proofs.Check
import IntentCode.Proofs.Symbol.Declared
import IntentCode.Proofs.Symbol.Visible

/-!
# References through an import

A reference through the alias of an import is looked up at the path of the imported file. What the
view holds there are the exports of the file (`mem_keys_visible_below`), unless the importing file
claims the path for itself. So the reference is resolved exactly if the file exports what it asks for,
and reported otherwise (`references_through_import`).
-/

set_option autoImplicit false

namespace IntentCode

open Ast

/-! ## The imports of a file -/

/-- The import that a line makes. -/
def Ast.Node.import? (n : Node) : Option Import :=
  match n.body with
  | .moduleImport m => some ⟨m.path, m.content, n.line⟩
  | .root | .classDecl _ | .funcDecl _ | .varDecl _ | .step _ => none

/-- An import of a file that no later line with the same alias replaces. -/
def Import.Stays (i : Import) (t : Table) : Prop :=
  ∃ n ∈ t.toList, n.import? = some i ∧
    ∀ k ∈ t.toList, n.uid < k.uid → ∀ other, k.import? = some other → other.aliasName ≠ i.aliasName

namespace Imports

theorem byAlias_ofAst (t : Table) :
    (ofAst t).byAlias =
      .ofList (t.toList.filterMap fun n => n.import?.map fun i => (i.aliasName, i)) := by
  have hstep : ofAst t = t.toList.foldl (fun s n => n.import?.elim s s.insert) empty := by
    unfold ofAst
    congr
    funext s n
    unfold Node.import?
    cases n.body <;> rfl
  have hfold : ∀ (ns : List Node) (s : Imports),
      (ns.foldl (fun s n => n.import?.elim s s.insert) s).byAlias =
        s.byAlias.insertAll (ns.filterMap fun n => n.import?.map fun i => (i.aliasName, i)) := by
    intro ns
    induction ns with
    | nil => exact fun s => rfl
    | cons n ns ih =>
      intro s
      rw [List.foldl_cons, ih, List.filterMap_cons]
      cases n.import? <;> rfl
  rw [hstep]
  exact hfold t.toList empty

/-- **An alias stands for the last import with it.** -/
theorem get?_ofAst {t : Table} (h : t.Linked) {i : Import} (hi : i.Stays t) :
    (ofAst t).get? i.aliasName = some i := by
  obtain ⟨n, hn, himport, hlast⟩ := hi
  obtain ⟨before, after, hsplit⟩ := List.append_of_mem hn
  rw [get?, byAlias_ofAst, OrderedMap.ofList, OrderedMap.get?_insertAll, OrderedMap.get?_empty,
    Option.or_none, hsplit]
  refine OrderedMap.lookup_of_last_writer (by rw [himport]; rfl) fun k hk other hwrite => ?_
  obtain ⟨j, hj, hpair⟩ := Option.map_eq_some_iff.mp hwrite
  have hmem : k ∈ t.toList := hsplit ▸ List.mem_append_right _ (List.mem_cons_of_mem _ hk)
  exact hlast k hmem (h.uid_lt_of_append hsplit hk) j hj (Prod.mk.inj hpair).1

end Imports

/-! ## What the view holds below a file -/

namespace SymbolTable

theorem ne_below (path rest : String) : path ≠ path ++ "." ++ rest := by
  intro heq
  have hlength := congrArg String.length heq
  rw [String.length_append, String.length_append, show ".".length = 1 from rfl] at hlength
  omega

/-- A path stands under the first of its names. -/
theorem under_head {segments : List String} {name : String} (h : segments.head? = some name) :
    Under name (SymbolPath.join segments) := by
  obtain ⟨more, rfl⟩ := List.head?_eq_some_iff.mp h
  by_cases hm : more = []
  · rw [hm, SymbolPath.join_singleton]
    exact .inl rfl
  · exact .inr ⟨_, SymbolPath.join_cons name hm⟩

/-- **Below its path a file provides what it exports.** -/
theorem provides_below_iff {segments : List String} {T : SymbolTable} {rest : String} :
    Provides segments T (SymbolPath.join segments ++ "." ++ rest) ↔
      ∃ route, T.Exports route ∧ SymbolPath.join route = rest := by
  constructor
  · generalize hkey : SymbolPath.join segments ++ "." ++ rest = key
    intro h
    cases h with
    | @folder start before ne proper =>
      -- a folder has a shorter path than the file in it
      obtain ⟨more, rfl⟩ := before
      have hmore : more ≠ [] := by
        rintro rfl
        exact proper (List.append_nil _).symm
      rw [SymbolPath.join_append ne hmore] at hkey
      simp only [String.append_assoc] at hkey
      exact absurd hkey.symm (by simpa only [String.append_assoc] using ne_below _ _)
    | file => exact absurd hkey.symm (ne_below _ _)
    | @symbol route exported =>
      exact ⟨route, exported, ((String.append_right_inj _).mp hkey).symm⟩
  · rintro ⟨route, exported, rfl⟩
    exact .symbol exported

section

variable {load : String → Option SymbolTable} {d : String} {own T : SymbolTable}

theorem loaded_singleton {segments : List String} {s : SymbolTable} (hload : load d = some T)
    (h : Loaded load [d] segments s) : FilePath.segments d = segments ∧ s = T := by
  obtain ⟨-, e, he, rfl, hs⟩ := h
  obtain rfl := List.mem_singleton.mp he
  rw [hload, Option.some.injEq] at hs
  exact ⟨rfl, hs.symm⟩

/-- **A file sees what the other file exports**, if no own name and no own key is in the way. -/
theorem mem_keys_visible_below (hload : load d = some T) (hnamed : T.tree.Named)
    (hne : FilePath.segments d ≠ []) (hown : own.tree.names.Nodup)
    (hnames : ∀ name ∈ own.tree.names, ¬ Under name (SymbolPath.join (FilePath.segments d)))
    (hkeys : ∀ rest, SymbolPath.join (FilePath.segments d) ++ "." ++ rest ∉ own.metadata.keys)
    (layout : Option Project.Layout) (file rest : String) :
    SymbolPath.join (FilePath.segments d) ++ "." ++ rest ∈
        (visible load layout file [d] own).metadata.keys ↔
      ∃ route, T.Exports route ∧ SymbolPath.join route = rest := by
  have hall : ∀ e ∈ [d], ∀ s, load e = some s → s.tree.Named := by
    intro e he s hs
    rw [List.mem_singleton.mp he, hload, Option.some.injEq] at hs
    exact hs ▸ hnamed
  have hkept : ¬ Overridden load [d] own (SymbolPath.join (FilePath.segments d) ++ "." ++ rest) := by
    rintro ⟨name, hname, ⟨segments, s, hloaded, hhead⟩, -⟩
    rw [← (loaded_singleton hload hloaded).1] at hhead
    exact hnames name hname (under_head hhead)
  have hprovided : Provided load [d] (SymbolPath.join (FilePath.segments d) ++ "." ++ rest) ↔
      Provides (FilePath.segments d) T (SymbolPath.join (FilePath.segments d) ++ "." ++ rest) := by
    constructor
    · rintro ⟨segments, s, hloaded, hprovides⟩
      obtain ⟨rfl, rfl⟩ := loaded_singleton hload hloaded
      exact hprovides
    · exact fun hprovides => ⟨_, T, ⟨hne, d, by simp, rfl, hload⟩, hprovides⟩
  rw [mem_keys_visible hall hown, hprovided, provides_below_iff, and_iff_left hkept,
    or_iff_left (hkeys rest)]

end

end SymbolTable

/-! ## References -/

namespace Reference

/-- The places where references are written, in order. -/
def sites (t : Table) : List (Node × String) :=
  t.toList.flatMap fun n => n.body.references.map fun raw => (n, raw)

/-- What is reported at one of them. -/
def issueAt? (config : Config) (t : Table) (scope : Scope) (site : Node × String) :
    Option Diagnostic :=
  (check config t scope site.1.uid site.2).map (Issue.diagnostic t site.1)

theorem resolve_eq (config : Config) (t : Table) (scope : Scope) :
    resolve config t scope = (sites t).filterMap (issueAt? config t scope) := by
  rw [resolve, sites, List.filterMap_flatMap]
  simp only [List.filterMap_map]
  rfl

/-- A reference through the alias of an import is checked against the imported file. -/
theorem check_of_alias {scope : Scope} {first : String} {i : Import}
    (hi : scope.imports.get? first = some i) (hself : first ≠ "self") {raw : String}
    {rest : List String} (hraw : segments raw = first :: rest) (hrest : rest ≠ []) (config : Config)
    (t : Table) (uid : Nat) :
    check config t scope uid raw = checkImport config scope raw first i rest := by
  unfold check
  rw [hraw]
  split
  · next heq => exact absurd (List.cons.inj heq).1 hself
  · next heq => cases heq
  · next heq => exact absurd (List.cons.inj heq).2 hrest
  · next first more _ _ heq =>
    obtain ⟨rfl, rfl⟩ := List.cons.inj heq
    rw [hi]

end Reference

/-! ## Through the import of a file -/

/-- The import `i` of a file stands for the file at `d`, and what it is asked for is looked up
there. -/
structure Import.Reaches (i : Import) (t : Table) (external : List String) (d : String) : Prop where
  stays : i.Stays t
  path : i.path = SymbolPath.join (FilePath.segments d)
  notSelf : i.aliasName ≠ "self"
  checked : i.package ∉ external
  /-- No name that the file declares is the beginning of the path. -/
  names : ∀ n ∈ t.toList, n.parent = some 0 → ∀ name, n.body.declaredName? = some name →
    ¬ SymbolTable.Under name i.path
  /-- The file has no symbol below the path. -/
  keys : ∀ rest, i.path ++ "." ++ rest ∉ (SymbolTable.ofAst t).metadata.keys

namespace Import.Reaches

variable {rows : List Row} {i : Import} {external : List String} {d : String}

/-- A file that is imported has a name. -/
theorem segments_ne_nil (hi : i.Reaches (.ofRows rows) external d)
    (hw : ∀ r ∈ rows, Parser.Writable r.body) : FilePath.segments d ≠ [] := by
  intro hnil
  obtain ⟨n, hn, himport, -⟩ := hi.stays
  have hbody : n.body ≠ .root := by
    intro hroot
    rw [Node.import?, hroot] at himport
    cases himport
  obtain ⟨r, hr, hsame⟩ :=
    Table.exists_row_of_ne_root ((Table.linked_ofRows rows).get?_of_mem hn) hbody
  have hlegal := (hw r hr).legal
  rw [hsame] at hlegal
  unfold Node.import? at himport
  cases hb : n.body with
  | moduleImport m =>
    rw [hb] at himport hlegal
    rw [← Option.some.inj himport] at hi
    exact hlegal.path_ne_empty (hi.path.trans (by rw [hnil]; rfl))
  | root | classDecl | funcDecl | varDecl | step =>
    rw [hb] at himport
    cases himport

/-- **Through its alias a file is asked for what it exports.** -/
theorem has_iff (hi : i.Reaches (.ofRows rows) external d) (h : Lawful rows)
    (hw : ∀ r ∈ rows, Parser.Writable r.body) {s : Check.Session} {T : SymbolTable}
    (hload : s.load d = some T) (hnamed : T.tree.Named) (own : SymbolTable)
    (htree : own.tree = (SymbolTable.ofAst (.ofRows rows)).tree)
    (hkeys : own.metadata.keys = (SymbolTable.ofAst (.ofRows rows)).metadata.keys)
    (path rest : String) :
    (s.scope path (.ofRows rows) own [d]).has (i.path ++ "." ++ rest) = true ↔
      ∃ route, T.Exports route ∧ SymbolPath.join route = rest := by
  have hown : own.tree.names.Nodup := by
    rw [htree]
    exact SymbolTable.nodup_names_ofAst _
  have hnames : ∀ name ∈ own.tree.names,
      ¬ SymbolTable.Under name (SymbolPath.join (FilePath.segments d)) := by
    intro name hname
    rw [htree] at hname
    obtain ⟨n, hn, hparent, hdeclared⟩ := SymbolTable.exists_of_mem_names_ofAst h hname
    rw [← hi.path]
    exact hi.names n hn hparent name hdeclared
  rw [Reference.Scope.has, OrderedMap.contains_eq_true, hi.path]
  refine SymbolTable.mem_keys_visible_below hload hnamed (hi.segments_ne_nil hw) hown hnames
    (fun rest => ?_) s.layout path rest
  rw [hkeys, ← hi.path]
  exact hi.keys rest

end Import.Reaches

namespace Check

/-- **References through an import are resolved exactly.** Everything else in the report comes from
the earlier phases or from another place. -/
theorem references_through_import (path : String) {source d : String} {scanned : Lexer.Scanned}
    {parsed : Parser.Parsed} {s : Session} {T : SymbolTable} {i : Import}
    (hlex : Lexer.tokenize source = .ok scanned)
    (hparse : Parser.parse scanned.tokens = .ok parsed) (hqueue : s.config.queue = .unlimited)
    (hload : s.load d = some T) (hnamed : T.tree.Named)
    (hi : i.Reaches parsed.table ((s.layout.map Project.Layout.externalLibraries).getD []) d) :
    ∃ report, file s path source [d] = .ok report ∧ report.tree = parsed.table ∧
      report.diagnostics.Perm
        (early s.config.reference.initializer scanned parsed ++
          (Reference.sites parsed.table).filterMap
            (Reference.issueAt? s.config.reference parsed.table
              (s.scope path parsed.table report.symbols [d]))) ∧
      ∀ site ∈ Reference.sites parsed.table, ∀ rest ≠ [],
        Reference.segments site.2 = i.aliasName :: rest →
          ((∃ route, T.Exports route ∧ SymbolPath.join route = SymbolPath.join rest) →
            Reference.issueAt? s.config.reference parsed.table
              (s.scope path parsed.table report.symbols [d]) site = none) ∧
          ((¬ ∃ route, T.Exports route ∧ SymbolPath.join route = SymbolPath.join rest) →
            ∃ issue, Reference.issueAt? s.config.reference parsed.table
                (s.scope path parsed.table report.symbols [d]) site = some issue ∧
              issue.code = .unknownSymbol ∧ issue.line = site.1.line) := by
  obtain ⟨rows, htable, hlaw, hw⟩ := Parser.exists_rows_of_parse hlex hparse
  obtain ⟨report, hreport, htree, hsymbols, hperm⟩ := exists_report hlex hparse hqueue [d]
  refine ⟨report, hreport, htree, by rw [← Reference.resolve_eq]; exact hperm, ?_⟩
  rw [htable] at hi
  intro site _ rest hrest hraw
  have hhas := hi.has_iff hlaw hw hload hnamed report.symbols
    (by rw [hsymbols, symbols_tree, htable]) (by rw [hsymbols, keys_symbols, htable]) path
    (SymbolPath.join rest)
  have halias : (s.scope path parsed.table report.symbols [d]).imports.get? i.aliasName = some i := by
    rw [htable]
    exact Imports.get?_ofAst (Table.linked_ofRows rows) hi.stays
  have hexternal : (s.scope path parsed.table report.symbols [d]).isExternal i.package = false := by
    rw [Reference.Scope.isExternal, Bool.eq_false_iff, ne_eq, List.contains_iff_mem]
    exact hi.checked
  rw [← htable] at hhas
  rw [Reference.issueAt?, Reference.check_of_alias halias hi.notSelf hraw hrest,
    Reference.checkImport]
  simp only [hexternal, Bool.false_or]
  refine ⟨fun hexported => ?_, fun hno => ?_⟩
  · rw [if_pos (hhas.mpr hexported)]
    rfl
  · rw [if_neg fun hfound => hno (hhas.mp hfound)]
    exact ⟨_, rfl, rfl, rfl⟩

/-- A file that asks for a member of a class that is exported and for one that is hidden. -/
def ballGame : String :=
  "module src.ball\nfunc f:\n    roll $ball.Ball.x$\n    roll $ball.Ball.__spin$\n"

/-- Every file has a class with those members. -/
def ballSession : Session := ⟨fun _ => some SymbolTable.ballSymbols, none, .default⟩

theorem references_to_ball :
    ∃ scanned parsed report shown hidden,
      Lexer.tokenize ballGame = .ok scanned ∧ Parser.parse scanned.tokens = .ok parsed ∧
      file ballSession "main" ballGame ["./src/ball.ibc"] = .ok report ∧
      Reference.sites parsed.table = [shown, hidden] ∧
      shown.2 = "ball.Ball.x" ∧ hidden.2 = "ball.Ball.__spin" ∧
      Reference.issueAt? .default parsed.table
        (ballSession.scope "main" parsed.table report.symbols ["./src/ball.ibc"]) shown = none ∧
      ∃ issue, Reference.issueAt? .default parsed.table
          (ballSession.scope "main" parsed.table report.symbols ["./src/ball.ibc"]) hidden =
            some issue ∧
        issue.code = .unknownSymbol ∧ issue.line = hidden.1.line := by
  have hread : ∃ t ∈ Parser.read? ballGame,
      (∃ n ∈ t.toList, n.import? = some ⟨"src.ball", "", 1⟩ ∧
        ∀ k ∈ t.toList, n.uid < k.uid → k.import? = none) ∧
      (∀ n ∈ t.toList, ∀ name ∈ n.body.declaredName?, name = "f") ∧
      (SymbolTable.ofAst t).metadata.keys = ["f"] ∧
      (Reference.sites t).map Prod.snd = ["ball.Ball.x", "ball.Ball.__spin"] := by
    decide +kernel
  obtain ⟨t, ht, ⟨n, hn, himport, hlast⟩, hnames, hkeys, hsites⟩ := hread
  obtain ⟨scanned, parsed, hlex, hparse, rfl⟩ := Parser.exists_of_read? ht
  have hi : Import.Reaches ⟨"src.ball", "", 1⟩ parsed.table [] "./src/ball.ibc" :=
    { stays := ⟨n, hn, himport, fun k hk hlt other hother => by
        rw [hlast k hk hlt] at hother
        cases hother⟩
      path := by decide +kernel
      notSelf := by decide +kernel
      checked := by simp
      names := by
        intro k hk _ name hname hunder
        rw [hnames k hk name hname] at hunder
        rcases hunder with heq | hrest
        · exact absurd heq (by decide)
        · exact absurd (SymbolTable.startsWith_iff.mpr hrest) (by decide +kernel)
      keys := by
        intro rest hmem
        rw [hkeys, List.mem_singleton] at hmem
        exact absurd (SymbolTable.startsWith_iff.mpr ⟨rest, hmem.symm⟩) (by decide +kernel) }
  obtain ⟨report, hreport, -, -, hresolved⟩ :=
    references_through_import "main" (s := ballSession) hlex hparse rfl rfl (by decide) hi
  obtain ⟨shown, _, hlist, hshown, hrest⟩ := List.map_eq_cons_iff.mp hsites
  obtain ⟨hidden, _, rfl, hhidden, hnil⟩ := List.map_eq_cons_iff.mp hrest
  rw [List.map_eq_nil_iff.mp hnil] at hlist
  refine ⟨scanned, parsed, report, shown, hidden, hlex, hparse, hreport, hlist, hshown, hhidden, ?_⟩
  constructor
  · refine (hresolved shown (by simp [hlist]) ["Ball", "x"] (by simp) ?_).1
      ⟨["Ball", "x"], by decide +kernel, rfl⟩
    rw [hshown]
    decide +kernel
  · refine (hresolved hidden (by simp [hlist]) ["Ball", "__spin"] (by simp) ?_).2 ?_
    · rw [hhidden]
      decide +kernel
    · rintro ⟨route, hexports, hjoin⟩
      have hnone : ∀ route ∈ SymbolTable.ballSymbols.tree.routes,
          SymbolTable.ballSymbols.Exports route → SymbolPath.join route ≠ "Ball.__spin" := by
        decide +kernel
      exact hnone route hexports.entry hexports hjoin

end Check

end IntentCode
