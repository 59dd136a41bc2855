import IntentCode.Check
import IntentCode.Proofs.Json.Record
import IntentCode.Proofs.Symbol.Declared
import IntentCode.Symbol.Interchange

/-!
# Reading a symbol table that was written

A table is read as it was written (`read_written`): the tree with its entries in their order, every
description and name character by character, the tags of every symbol, the parameters in their
order. Two things are asked of it. Its tree has no name twice at one level, which is what makes it a
map from names to trees; and it is not nested too deep for the reader.

Only the tree can be. Metadata nest four containers whatever they hold, and the tree nests as many as
its longest route has names, and one (`depth_le_iff`). In a table of a source no route is longer than
three, because classes hold functions, functions hold variables and variables hold nothing
(`length_le_of_qualifiedName?`), so such a table is always read back.

What is left out in writing is a question of keys. A tag that is not set has no member under its key,
and a key that occurs nowhere reads as the tag that is not set; so a field is settled by saying which
members have its key, and nothing depends on where they stand (`symbolInfo?_of_fields`).
-/

set_option autoImplicit false

namespace IntentCode

open Json (Record.field? Record.required Record.withDefault Record.nullable Record.field?_of_iff
  Record.required_of_mem Record.withDefault_of_mem Value MembersFit membersDepth)

/-! ## Trees -/

namespace SymbolTree

/-- The entries of one tree and after them those of the other. -/
def append : SymbolTree → SymbolTree → SymbolTree
  | empty, u => u
  | entry name below beside, u => entry name below (beside.append u)

theorem append_assoc (t u v : SymbolTree) : (t.append u).append v = t.append (u.append v) := by
  induction t with
  | empty => rfl
  | entry name below beside _ ih => simp only [append, ih]

@[simp] theorem names_append (t u : SymbolTree) : (t.append u).names = t.names ++ u.names := by
  induction t with
  | empty => rfl
  | entry name below beside _ ih => simp only [append, names, ih, List.cons_append]

/-- A new name is entered at the end. -/
theorem insert_of_notMem {t : SymbolTree} {name : String} (h : name ∉ t.names)
    (subtree : SymbolTree) : t.insert name subtree = t.append (entry name subtree empty) := by
  induction t with
  | empty => rfl
  | entry n below beside _ ih =>
    rw [names, List.mem_cons, not_or] at h
    rw [SymbolTree.insert, if_neg (Ne.symm h.1), ih h.2, append]

/-- **Members are entered behind what is there**, in their order. -/
theorem symbolMembers?_jsonMembers {t : SymbolTree} (ht : t.Distinct) {before : SymbolTree}
    (hnew : ∀ name ∈ t.names, name ∉ before.names) :
    symbolMembers? before t.jsonMembers = some (before.append t) := by
  induction t generalizing before with
  | empty =>
    have hnil (s : SymbolTree) : s.append empty = s := by
      induction s with
      | empty => rfl
      | entry name below beside _ ih => rw [append, ih]
    rw [hnil]
    rfl
  | entry name below beside ihbelow ihbeside =>
    obtain ⟨hname, hbelow, hbeside⟩ := ht
    have hread : symbolMember? (name, .object below.jsonMembers) = some (name, below) := by
      rw [symbolMember?, symbolTree?, ihbelow hbelow fun _ _ h => by cases h]
      rfl
    have hold : name ∉ before.names := hnew name List.mem_cons_self
    -- the members that follow are entered into a tree that has this name too
    have hrest : ∀ m ∈ beside.names, m ∉ (before.insert name below).names := by
      intro m hm hmem
      rw [insert_of_notMem hold, names_append, List.mem_append] at hmem
      rcases hmem with hmem | hmem
      · exact hnew m (List.mem_cons_of_mem name hm) hmem
      · obtain rfl := List.mem_singleton.mp hmem
        exact hname hm
    simp only [jsonMembers, symbolMembers?, hread]
    rw [ihbeside hbeside hrest, insert_of_notMem hold, append_assoc]
    rfl

theorem symbolTree?_toJson {t : SymbolTree} (h : t.Distinct) : symbolTree? t.toJson = some t := by
  rw [toJson, symbolTree?]
  exact symbolMembers?_jsonMembers h fun _ _ hmem => by cases hmem

theorem membersFit_jsonMembers {t : SymbolTree} {budget : Nat}
    (h : membersDepth t.jsonMembers ≤ budget) : MembersFit budget t.jsonMembers := by
  induction t generalizing budget with
  | empty => trivial
  | entry name below beside ihbelow ihbeside =>
    have hmax : max (membersDepth below.jsonMembers + 1) (membersDepth beside.jsonMembers) ≤
        budget := h
    exact ⟨⟨by omega, ihbelow (by omega)⟩, ihbeside (by omega)⟩

/-- **A tree nests as deep as its longest route.** -/
theorem depth_le_iff {t : SymbolTree} {bound : Nat} :
    membersDepth t.jsonMembers ≤ bound ↔ ∀ route ∈ t.routes, route.length ≤ bound := by
  induction t generalizing bound with
  | empty => exact ⟨fun _ _ h => by (cases h), fun _ => Nat.zero_le bound⟩
  | entry name below beside ihbelow ihbeside =>
    have hmax : membersDepth (entry name below beside).jsonMembers =
        max (membersDepth below.jsonMembers + 1) (membersDepth beside.jsonMembers) := rfl
    rw [hmax, Nat.max_le, ihbeside]
    constructor
    · rintro ⟨hbelow, hbeside⟩ route hroute
      rcases mem_routes_entry.mp hroute with rfl | ⟨rest, hrest, rfl⟩ | hroute
      · rw [List.length_singleton]
        omega
      · have := ihbelow.mp (Nat.le_sub_one_of_lt hbelow) rest hrest
        rw [List.length_cons]
        omega
      · exact hbeside route hroute
    · intro h
      have hfirst := h [name] (mem_routes_entry.mpr (.inl rfl))
      rw [List.length_singleton] at hfirst
      refine ⟨?_, fun route hroute => h route (mem_routes_entry.mpr (.inr (.inr hroute)))⟩
      have hbelow : membersDepth below.jsonMembers ≤ bound - 1 := ihbelow.mpr fun rest hrest => by
        have := h (name :: rest) (mem_routes_entry.mpr (.inr (.inl ⟨rest, hrest, rfl⟩)))
        rw [List.length_cons] at this
        omega
      omega

/-! ### Trees that are built route by route -/

theorem Distinct.ensure {t : SymbolTree} (h : t.Distinct) (path : List String) :
    (t.ensure path).Distinct := by
  induction path generalizing t with
  | nil => exact h
  | cons name path ihp =>
    induction t with
    | empty =>
      rw [ensure_empty]
      exact ⟨List.not_mem_nil, ihp trivial, trivial⟩
    | entry n below beside _ ih =>
      obtain ⟨hname, hbelow, hbeside⟩ := h
      rw [ensure_entry]
      split
      · exact ⟨hname, ihp hbelow, hbeside⟩
      · next hne =>
        refine ⟨fun hmem => ?_, hbelow, ih hbeside⟩
        rcases mem_names_ensure.mp hmem with hmem | hhead
        · exact hname hmem
        · exact hne (Option.some.inj hhead).symm

theorem distinct_foldl_ensure {t : SymbolTree} (h : t.Distinct) (paths : List (List String)) :
    (paths.foldl ensure t).Distinct := by
  induction paths generalizing t with
  | nil => exact h
  | cons path paths ih => exact ih (h.ensure path)

end SymbolTree

/-! ## Metadata -/

theorem fits_parameterFields (params : OrderedMap String) (budget : Nat) :
    (parameterFields params).Fits (budget + 1) := by
  refine ⟨Nat.succ_pos budget, Json.membersFit_iff.mpr fun m hm => ?_⟩
  obtain ⟨e, -, rfl⟩ := List.mem_map.mp hm
  trivial

theorem parameters?_parameterFields (params : OrderedMap String) :
    parameters? (parameterFields params) = some params := by
  have hpairs : (parameterFields params).stringPairs? = some params.toList :=
    Json.mapM_map_eq_some fun _ _ => rfl
  rw [parameters?, hpairs, Option.map_some, OrderedMap.ofList_toList]

namespace SymbolInfo

/-- The keys of what all declarations have in common. -/
def keys : List String :=
  ["visibility", "description", "normalized_name", "__is_local__", "__local_file__"]

theorem fits_fields (info : SymbolInfo) {own : String} {v : Value} {budget : Nat}
    (hv : v.Fits budget) : ∀ e ∈ info.fields [(own, v)], e.2.Fits budget := by
  have htext : ∀ text : String, (Value.string text).Fits budget := fun _ => trivial
  have hmark : (Value.bool true).Fits budget := trivial
  obtain ⟨visibility, description, name, isLocal, file⟩ := info
  cases isLocal <;> cases file <;> simp [fields, Origin.fields, htext, hmark, hv]

theorem nodup_fields (info : SymbolInfo) {own : String} (v : Value)
    (hown : own ∈ ["init_parameters", "parameters", "scope"]) :
    ((("type", v) :: info.fields [(own, v)]).map Prod.fst).Nodup := by
  obtain ⟨visibility, description, name, isLocal, file⟩ := info
  simp only [List.mem_cons, List.not_mem_nil, or_false] at hown
  rcases hown with rfl | rfl | rfl <;> cases isLocal <;> cases file <;>
    simp [fields, Origin.fields]

/-- **What declarations have in common is read off the members with its keys**, whatever other
members there are. -/
theorem symbolInfo?_of_fields {members : List (String × Value)} {info : SymbolInfo}
    (hkeys : (members.map Prod.fst).Nodup)
    (h : ∀ key ∈ keys, ∀ v, (key, v) ∈ members ↔ (key, v) ∈ info.fields []) :
    symbolInfo? members = some info := by
  obtain ⟨visibility, description, name, isLocal, file⟩ := info
  have hvisibility : ("visibility", Value.string visibility.text) ∈ members :=
    (h _ (by simp [keys]) _).mpr (by simp [fields])
  have hdescription : ("description", Value.string description) ∈ members :=
    (h _ (by simp [keys]) _).mpr (by simp [fields])
  have hname : ("normalized_name", Value.string name) ∈ members :=
    (h _ (by simp [keys]) _).mpr (by simp [fields])
  have hlocal : Record.withDefault members "__is_local__" Value.bool? false = some isLocal := by
    have hstored : Record.field? members "__is_local__" =
        some (if isLocal then some (.bool true) else none) :=
      Record.field?_of_iff hkeys fun v => (h _ (by simp [keys]) v).trans
        (by cases isLocal <;> simp [fields, Origin.fields, eq_comm])
    rw [Record.withDefault, hstored]
    cases isLocal <;> rfl
  have hfile : Record.nullable members "__local_file__" Value.string? = some file := by
    have hstored : Record.field? members "__local_file__" = some (file.map Value.string) :=
      Record.field?_of_iff hkeys fun v => (h _ (by simp [keys]) v).trans
        (by cases isLocal <;> cases file <;> simp [fields, Origin.fields, eq_comm])
    rw [Record.nullable, hstored]
    cases file <;> rfl
  rw [symbolInfo?, Record.withDefault_of_mem hkeys hvisibility,
    Record.withDefault_of_mem hkeys hdescription, Record.withDefault_of_mem hkeys hname, hlocal,
    hfile]
  simp [word?, Visibility.ofText?_text, Value.string?]

end SymbolInfo

namespace Metadata

/-- The members of a record. -/
def members (m : Metadata) : List (String × Value) := ("type", .string m.kindWord) :: m.fields

theorem fits_toJson (m : Metadata) (budget : Nat) : m.toJson.Fits (budget + 2) := by
  refine ⟨Nat.succ_pos _, Json.membersFit_iff.mpr fun e he => ?_⟩
  rcases List.mem_cons.mp he with rfl | he
  · trivial
  · cases m with
    | folder description | file description =>
      obtain ⟨text, -, rfl⟩ := List.mem_map.mp he
      trivial
    | ofClass info params | ofFunction info params =>
      exact info.fits_fields (fits_parameterFields params budget) e he
    | ofVariable info scope =>
      have hscope : (Value.string scope.text).Fits (budget + 1) := trivial
      exact info.fits_fields hscope e he

theorem nodup_keys (m : Metadata) : (m.members.map Prod.fst).Nodup := by
  cases m with
  | folder description | file description => cases description <;> simp [members, fields]
  | ofClass info params => exact info.nodup_fields (parameterFields params) (by simp)
  | ofFunction info params => exact info.nodup_fields (parameterFields params) (by simp)
  | ofVariable info scope => exact info.nodup_fields (.string scope.text) (by simp)

/-- The field of its own that a declaration has does not get in the way. -/
theorem symbolInfo?_members (m : Metadata) {info : SymbolInfo} {own : String} {v : Value}
    (hm : m.fields = info.fields [(own, v)]) (hown : own ∉ SymbolInfo.keys) :
    symbolInfo? m.members = some info := by
  refine SymbolInfo.symbolInfo?_of_fields m.nodup_keys fun key hkey w => ?_
  have htype : key ≠ "type" := by
    rintro rfl
    exact absurd hkey (by decide)
  have hne : key ≠ own := by
    rintro rfl
    exact hown hkey
  rw [members, hm]
  simp [SymbolInfo.fields, htype, hne]

/-- **The record of a symbol is read as it was written.** -/
theorem metadata?_toJson (m : Metadata) : metadata? m.toJson = some m := by
  have hkeys := m.nodup_keys
  have htype : ("type", Value.string m.kindWord) ∈ m.members := List.mem_cons_self
  have hkind : metadata? m.toJson = metadataOf? m.members m.kindWord := by
    rw [metadata?, Json.held?_of_fits (m.fits_toJson 0)]
    show (do metadataOf? m.members (← Record.required m.members "type" Value.string?)) = _
    rw [Record.required_of_mem hkeys htype]
    rfl
  rw [hkind]
  cases m with
  | folder description | file description =>
    have hstored : Record.field? _ "description" = some (description.map Value.string) :=
      Record.field?_of_iff hkeys fun v => by
        cases description <;> simp [members, fields, eq_comm]
    simp only [kindWord, metadataOf?, Record.nullable, hstored]
    cases description <;> rfl
  | ofClass info params =>
    have hinfo := symbolInfo?_members (ofClass info params) rfl (by decide)
    have hparams : ("init_parameters", parameterFields params) ∈ (ofClass info params).members := by
      simp [members, fields, SymbolInfo.fields]
    simp only [kindWord, metadataOf?, Record.withDefault_of_mem hkeys hparams,
      parameters?_parameterFields, hinfo]
    rfl
  | ofFunction info params =>
    have hinfo := symbolInfo?_members (ofFunction info params) rfl (by decide)
    have hparams : ("parameters", parameterFields params) ∈ (ofFunction info params).members := by
      simp [members, fields, SymbolInfo.fields]
    simp only [kindWord, metadataOf?, Record.withDefault_of_mem hkeys hparams,
      parameters?_parameterFields, hinfo]
    rfl
  | ofVariable info scope =>
    have hinfo := symbolInfo?_members (ofVariable info scope) rfl (by decide)
    have hscope : ("scope", Value.string scope.text) ∈ (ofVariable info scope).members := by
      simp [members, fields, SymbolInfo.fields]
    simp only [kindWord, metadataOf?, Record.required_of_mem hkeys hscope, hinfo]
    simp [word?, VariableScope.ofText?_text]

end Metadata

/-! ## Tables -/

namespace SymbolTable

/-- Only the tree may be too deep. -/
theorem fits_toJson {s : SymbolTable} (h : membersDepth s.tree.jsonMembers ≤ 125) :
    s.toJson.Fits Json.maxDepth := by
  have hmetadata : MembersFit 125 (s.metadata.toList.map fun e => (e.1, e.2.toJson)) := by
    refine Json.membersFit_iff.mpr fun m hm => ?_
    obtain ⟨e, -, rfl⟩ := List.mem_map.mp hm
    exact e.2.fits_toJson 123
  have htree : MembersFit 125 s.tree.jsonMembers := SymbolTree.membersFit_jsonMembers h
  exact ⟨by decide, ⟨by decide, htree⟩, ⟨by decide, hmetadata⟩, trivial⟩

theorem metadataMap?_toJson (metadata : OrderedMap Metadata) :
    metadataMap? (.object (metadata.toList.map fun e => (e.1, e.2.toJson))) = some metadata := by
  have hmembers : (metadata.toList.map fun e => (e.1, e.2.toJson)).mapM
      (fun m => (metadata? m.2).map fun d => (m.1, d)) = some metadata.toList := by
    refine Json.mapM_map_eq_some fun e _ => ?_
    rw [e.2.metadata?_toJson]
    rfl
  simp only [metadataMap?, Value.object?, hmembers, Option.bind_eq_bind, Option.bind_some,
    OrderedMap.ofList_toList]
  rfl

theorem read_write_of_depth_le {s : SymbolTable} (htree : s.tree.Distinct)
    (h : membersDepth s.tree.jsonMembers ≤ 125) : read s.write = some s := by
  have hkeys : ([("tree", s.tree.toJson),
      ("metadata", .object (s.metadata.toList.map fun e => (e.1, e.2.toJson)))].map
        (Prod.fst : String × Value → String)).Nodup := by simp
  rw [read, write, Json.read_pretty (fits_toJson h)]
  simp only [symbolTable?, toJson, Json.Record.members?, Option.bind_eq_bind, Option.bind_some,
    Record.required_of_mem hkeys List.mem_cons_self,
    Record.required_of_mem hkeys (List.mem_cons_of_mem _ List.mem_cons_self),
    SymbolTree.symbolTree?_toJson htree, metadataMap?_toJson]
  rfl

end SymbolTable

/-! ## Tables of sources -/

namespace Ast

/-- How many names the path of a declaration of this type can have. -/
def NodeType.rank : NodeType → Nat
  | .classDecl => 1
  | .funcDecl => 2
  | .varDecl => 3
  | .root | .moduleImport | .step => 0

theorem NodeType.rank_pos {type : NodeType} (h : type.isDeclaration = true) : 0 < type.rank := by
  cases type with
  | root | moduleImport | step => cases h
  | classDecl | funcDecl | varDecl => decide

namespace Table

/-- What is declared in a declaration is of a higher rank. -/
theorem rank_lt_of_mem_children {t : Table} (h : t.Grammatical) {i : Nat} {n p : Node}
    (hp : t.get? i = some p) (hscope : p.type.isDeclaration = true) (hchild : n.uid ∈ p.children)
    (hn : t.get? n.uid = some n) (hd : n.type.isDeclaration = true) :
    p.type.rank < n.type.rank := by
  have hmem := type_mem_childTypes hp hchild hn
  cases htype : p.type with
  | root | moduleImport | step =>
    rw [htype] at hscope
    cases hscope
  | classDecl =>
    rcases h.classDecl i p hp htype _ hmem with hfunc | hvar
    · rw [hfunc]
      decide
    · rw [hvar]
      decide
  | funcDecl =>
    rcases h.funcDecl i p hp htype _ hmem with hvar | hstep
    · rw [hvar]
      decide
    · rw [hstep] at hd
      cases hd
  | varDecl =>
    rw [h.varDecl i p hp htype] at hchild
    cases hchild

/-- **A declaration lies inside at most two others.** -/
theorem length_le_of_qualifiedName? {rows : List Row} (h : Lawful rows) {uid : Nat} {n : Node}
    {path : List String} (hn : (ofRows rows).get? uid = some n)
    (hpath : (ofRows rows).qualifiedName? uid = some path) : path.length ≤ n.type.rank := by
  have hlinked := linked_ofRows rows
  induction uid using Nat.strongRecOn generalizing n path with
  | ind uid ih =>
    obtain ⟨m, i, name, hm, hparent, hlt, hname, rfl, hscope⟩ := scope_cases h hpath
    rw [hn, Option.some.injEq] at hm
    subst hm
    have hd : n.type.isDeclaration = true := Body.isDeclaration_of_declaredName? hname
    rw [List.length_append, List.length_singleton]
    rcases hscope with ⟨-, htop⟩ | hscope
    · rw [htop]
      exact NodeType.rank_pos hd
    · obtain ⟨q, -, own, hq, -, -, hown, -⟩ := scope_cases h hscope
      obtain ⟨i', p, hi', hp, -, hchild⟩ := hlinked.listed hn (by omega)
      obtain rfl : i = i' := Option.some.inj (hparent.symm.trans hi')
      obtain rfl : p = q := Option.some.inj (hp.symm.trans hq)
      have houter := ih i hlt hp hscope
      have huid := hlinked.number hn
      have hrank := rank_lt_of_mem_children h.grammatical hp
        (Body.isDeclaration_of_declaredName? hown) (by rwa [huid]) (by rwa [huid]) hd
      omega

end Table

end Ast

namespace SymbolTable

theorem distinct_ofAst (t : Ast.Table) : (ofAst t).tree.Distinct := by
  rw [ofAst_tree]
  exact SymbolTree.distinct_foldl_ensure (t := .empty) trivial _

theorem depth_ofAst {rows : List Ast.Row} (h : Ast.Lawful rows) :
    membersDepth (ofAst (.ofRows rows)).tree.jsonMembers ≤ 3 := by
  rw [SymbolTree.depth_le_iff]
  intro route hroute
  obtain ⟨uid, huid⟩ := (mem_routes_ofAst h).mp hroute
  obtain ⟨n, hn, -⟩ := Option.bind_eq_some_iff.mp huid
  refine (Ast.Table.length_le_of_qualifiedName? h hn huid).trans ?_
  cases n.type <;> decide

/-- **A symbol table is read as it was written**, unless it nests more containers than the reader
opens. The table of a source never does, with or without the constructors of its classes. -/
theorem read_written :
    (∀ s : SymbolTable, s.tree.Distinct → s.toJson.depth < 128 → read s.write = some s) ∧
    ∀ source scanned parsed, Lexer.tokenize source = .ok scanned →
      Parser.parse scanned.tokens = .ok parsed →
      read (ofAst parsed.table).write = some (ofAst parsed.table) ∧
      ∀ initializer, read (Check.symbols initializer parsed.table).1.write =
        some (Check.symbols initializer parsed.table).1 := by
  constructor
  · intro s htree hdepth
    -- the object of the table and that of the tree are two of the containers
    have hmax : max (membersDepth s.tree.jsonMembers + 1) _ + 1 < 128 := hdepth
    exact read_write_of_depth_le htree (by omega)
  · intro source scanned parsed hlex hparse
    obtain ⟨rows, htable, hlaw, -⟩ := Parser.exists_rows_of_parse hlex hparse
    have hdepth : membersDepth (ofAst parsed.table).tree.jsonMembers ≤ 125 := by
      rw [htable]
      exact (depth_ofAst hlaw).trans (by decide)
    have htree := distinct_ofAst parsed.table
    exact ⟨read_write_of_depth_le htree hdepth, fun initializer =>
      read_write_of_depth_le (s := (Check.symbols initializer parsed.table).1) htree hdepth⟩

/-- A table with metadata of all kinds, tags that are set and tags that are not, and texts that need
escapes. -/
def oddTable : SymbolTable where
  tree := .entry "b" (.entry "a" .empty (.entry "\"\\" (.entry "" .empty .empty) .empty))
    (.entry "a" .empty .empty)
  metadata := .ofList
    [("src", .folder none), ("src.b", .file (some "\n\tß")),
      ("b", .ofClass ⟨.guarded, "", "B", ⟨true, some "src/b.ibc"⟩⟩
        (.ofList [("q", "$a$"), ("p", "")])),
      ("b.a", .ofFunction ⟨.unstated, "\x01", "", ⟨false, some ""⟩⟩ .empty),
      ("a", .ofVariable ⟨.hidden, "😀", "", ⟨true, none⟩⟩ .inFunction), ("", .folder (some ""))]

theorem read_written_odd :
    (oddTable.tree.Distinct ∧ oddTable.toJson.depth < 128 ∧
      read oddTable.write = some oddTable) ∧
    ∃ scanned parsed,
      Lexer.tokenize "class A:\n    func __init__(a):\n        var b\n" = .ok scanned ∧
      Parser.parse scanned.tokens = .ok parsed ∧
      read (ofAst parsed.table).write = some (ofAst parsed.table) ∧
      read (Check.symbols "__init__" parsed.table).1.write =
        some (Check.symbols "__init__" parsed.table).1 := by
  have htree : oddTable.tree.Distinct := by simp [oddTable, SymbolTree.Distinct, SymbolTree.names]
  have hdepth : oddTable.toJson.depth < 128 := by decide +kernel
  have hsome : (Parser.read? "class A:\n    func __init__(a):\n        var b\n").isSome = true := by
    decide +kernel
  obtain ⟨t, ht⟩ := Option.isSome_iff_exists.mp hsome
  obtain ⟨scanned, parsed, hscanned, hparsed, -⟩ := Parser.exists_of_read? ht
  obtain ⟨hofAst, hsymbols⟩ := read_written.2 _ scanned parsed hscanned hparsed
  exact ⟨⟨htree, hdepth, read_written.1 oddTable htree hdepth⟩,
    scanned, parsed, hscanned, hparsed, hofAst, hsymbols "__init__"⟩

end SymbolTable

end IntentCode
