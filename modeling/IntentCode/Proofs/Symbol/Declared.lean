import IntentCode.Proofs.Ast.Copy
import IntentCode.Proofs.OrderedMap
import IntentCode.Proofs.Parser.RoundTrip
import IntentCode.Proofs.Symbol.Routes
import IntentCode.Proofs.Symbol.Scopes

/-!
# The symbols of a file, node by node

The declarations of a file are collected by going down its forest with the names of the scopes on the
way. In a tree that the grammar allows that is the same as asking every node in turn what it
declares (`declarations_eq`), because nothing is declared below a step and nothing at all stands below a
variable or an import.
-/

set_option autoImplicit false

namespace IntentCode.Ast

namespace Table

/-- What a node declares: its qualified name, and what that stands for. -/
def declaration? (t : Table) (n : Node) : Option (List String × Metadata) := do
  let name ← n.body.declaredName?
  let m ← n.body.metadata? (t.typeAt (n.parent.getD 0))
  pure (t.scopeNames n.uid ++ [name], m)

end Table

theorem Forest.Fits.steps {f : Forest} {last : Option NodeType} (h : f.Fits .step last) :
    ∀ n ∈ f.nodes, n.type = .step := by
  induction f generalizing last with
  | nil => exact fun n hn => by cases hn
  | cons m below beside ihb ihs =>
    obtain ⟨hallows, -, hbelow, hbeside⟩ := h
    have hstep : m.type = .step := by
      rw [allowedAfter_of_ne_root (by decide)] at hallows
      exact expectedChild_step hallows
    intro n hn
    rw [nodes] at hn
    rcases List.mem_append.mp hn with hn | hn
    · rcases List.mem_cons.mp hn with rfl | hn
      · exact hstep
      · exact ihb (hstep ▸ hbelow) n hn
    · exact ihs hbeside n hn

theorem declaredName?_of_step {n : Node} (h : n.type = .step) : n.body.declaredName? = none := by
  have hno : n.body.isDeclaration = false := by
    rw [Body.isDeclaration, show n.body.type = .step from h]
    rfl
  rw [Body.declaredName?, hno]
  rfl

namespace Table

/-- Going down a forest below a node that may hold declarations. -/
theorem Draws.declarations_eq {t : Table} (hl : t.Linked) {uids : List Nat} {f : Forest}
    (h : t.Draws uids f) {i : Nat} {p : Node} (hp : t.get? i = some p)
    (hlisted : ∀ uid ∈ uids, uid ∈ p.children) {last : Option NodeType}
    (hfits : f.Fits p.type last) (hscope : p.type ≠ .step) :
    f.declarations t.typeAt (t.scopeNames i ++ p.body.scopeName?.toList) p.type =
      f.nodes.filterMap t.declaration? := by
  induction h generalizing i p last with
  | nil => rfl
  | @cons uid n uids below beside get number hbelow hbeside ihb ihs =>
    obtain ⟨hallows, hopens, hfb, hfs⟩ := hfits
    obtain ⟨n', hn', hparent, -⟩ := hl.child hp uid (hlisted uid List.mem_cons_self)
    rw [get, Option.some.injEq] at hn'
    subst hn' number
    have hnames := hl.scopeNames_of_parent get hparent hp
    have hsiblings := ihs hp (fun c hc => hlisted c (List.mem_cons_of_mem _ hc)) hfs hscope
    have htype : t.typeAt (n.parent.getD 0) = p.type := by simp [typeAt, hparent, hp]
    have hown : t.typeAt n.uid = n.type := by simp [typeAt, get]
    have hempty : n.body.opensBlock = false → below = .nil := by
      intro hno
      by_contra hne
      rw [hopens hne] at hno
      cases hno
    -- what is declared in a class or a function
    have hinner : ∀ name, n.body.scopeName? = some name →
        below.declarations t.typeAt (t.scopeNames i ++ p.body.scopeName?.toList ++ [name]) n.type =
          below.nodes.filterMap t.declaration? := by
      intro name hname
      have hblock : n.type ≠ .step := by
        intro hstep
        unfold Node.type at hstep
        cases hb : n.body <;> simp_all [Body.scopeName?, Body.type]
      have hbelow := ihb get (fun c hc => hc) hfb hblock
      rw [hnames, hname] at hbelow
      exact hbelow
    rw [Forest.declarations, Forest.nodes, List.filterMap_append, List.filterMap_cons, ← hsiblings,
      declaration?, htype, hnames, hown]
    cases hb : n.body with
    | root =>
      have hroot : n.type = .root := by rw [Node.type, hb]; rfl
      rw [hroot] at hallows
      cases hallows
    | moduleImport m =>
      rw [hempty (by rw [hb]; rfl)]
      rfl
    | varDecl v =>
      rw [hempty (by rw [hb]; rfl)]
      rfl
    | step s =>
      have hstep : n.type = .step := by rw [Node.type, hb]; rfl
      have hnone : below.nodes.filterMap t.declaration? = [] := by
        rw [List.filterMap_eq_nil_iff]
        intro m hm
        rw [declaration?, declaredName?_of_step ((hstep ▸ hfb).steps m hm)]
        rfl
      rw [hnone]
      rfl
    | classDecl c =>
      dsimp only
      rw [hinner c.name (by rw [hb]; rfl)]
      rfl
    | funcDecl d =>
      dsimp only
      rw [hinner d.name (by rw [hb]; rfl)]
      rfl

theorem declarations_ofRows {rows : List Row} (h : Lawful rows) :
    (ofRows rows).declarations = (ofRows rows).toList.filterMap (ofRows rows).declaration? := by
  obtain ⟨root, hroot, hlist⟩ := toList_eq_nodes h.climbing
  obtain ⟨children, hroot', hdraws, -⟩ := numbered_forest h.climbing
  rw [hroot, Option.some.injEq] at hroot'
  have hfits : (ofRows rows).forest.Fits root.type none := by
    have hfollows := h.grammatical.follows_root
    rw [childTypes_eq hroot, hroot'] at hfollows
    rw [hroot']
    exact hdraws.fits h.grammatical hfollows
  have hdown := hdraws.declarations_eq (linked_ofRows rows) hroot
    (by rw [hroot']; exact fun uid huid => huid) hfits (by rw [hroot']; exact NodeType.noConfusion)
  have hnone : (ofRows rows).declaration? root = none := by
    rw [hroot']
    rfl
  rw [hlist, List.filterMap_cons, hnone]
  rw [(linked_ofRows rows).scopeNames_root, hroot'] at hdown
  unfold declarations
  rw [show (ofRows rows).typeAt 0 = .root by simp [typeAt, hroot, hroot', Node.type, Body.type]]
  exact hdown

end Table

end IntentCode.Ast

namespace IntentCode

open Ast

/-! ## Declarations and qualified names -/

namespace Ast.Table

variable {t : Table} {n : Node} {path : List String} {m : Metadata}

theorem qualifiedName?_of_declaration? (hn : t.get? n.uid = some n)
    (h : t.declaration? n = some (path, m)) : t.qualifiedName? n.uid = some path := by
  obtain ⟨name, hname, h⟩ := Option.bind_eq_some_iff.mp h
  obtain ⟨_, -, h⟩ := Option.bind_eq_some_iff.mp h
  simp only [pure, Option.some.injEq, Prod.mk.injEq] at h
  rw [← h.1]
  simp [qualifiedName?, hn, hname]

/-- Every declaration stands for something. -/
theorem exists_declaration? {uid : Nat} (hnumber : ∀ i n, t.get? i = some n → n.uid = i)
    (h : t.qualifiedName? uid = some path) :
    ∃ n m, t.get? uid = some n ∧ n.uid = uid ∧ t.declaration? n = some (path, m) := by
  obtain ⟨n, hn, h⟩ := Option.bind_eq_some_iff.mp h
  obtain ⟨name, hname, h⟩ := Option.bind_eq_some_iff.mp h
  obtain rfl := Option.some.inj h
  have huid := hnumber uid n hn
  have hdeclares : ∀ {b : Body} (parent : NodeType), b.declaredName? = some name →
      ∃ m, b.metadata? parent = some m := by
    intro b parent hb
    cases b <;> first | exact ⟨_, rfl⟩ | cases hb
  obtain ⟨m, hm⟩ := hdeclares (t.typeAt (n.parent.getD 0)) hname
  refine ⟨n, m, hn, huid, ?_⟩
  simp [declaration?, hname, hm, huid]

theorem mem_declarations {rows : List Row} (h : Lawful rows) :
    (path, m) ∈ (ofRows rows).declarations ↔
      ∃ n, (ofRows rows).get? n.uid = some n ∧ (ofRows rows).declaration? n = some (path, m) := by
  rw [declarations_ofRows h, List.mem_filterMap]
  constructor
  · rintro ⟨n, hn, hd⟩
    exact ⟨n, (linked_ofRows rows).get?_of_mem hn, hd⟩
  · rintro ⟨n, hn, hd⟩
    exact ⟨n, mem_toList hn, hd⟩

end Ast.Table

/-! ## What a declaration stands for -/

namespace Ast

/-- Which scope a variable belongs to, by the node around it. -/
inductive Stands : NodeType → VariableScope → Prop
  | root : Stands .root .topLevel
  | classDecl : Stands .classDecl .field
  | funcDecl : Stands .funcDecl .inFunction

/-- What the symbol of a declaration says, given the type of the node around it. -/
inductive Describes : Body → NodeType → Metadata → Prop
  | classDecl (c : ClassDecl) (parent : NodeType) :
    Describes (.classDecl c) parent
      (.ofClass ⟨.infer c.name none, c.notes.description, "", .foreign⟩ .empty)
  | funcDecl (f : FuncDecl) (parent : NodeType) :
    Describes (.funcDecl f) parent
      (.ofFunction ⟨.infer f.name none, f.notes.description, "", .foreign⟩ f.params)
  | varDecl (v : VarDecl) {parent : NodeType} {scope : VariableScope} (stands : Stands parent scope) :
    Describes (.varDecl v) parent
      (.ofVariable ⟨.infer v.name (some scope), v.notes.description, "", .foreign⟩ scope)

theorem Body.isDeclaration_of_declaredName? {b : Body} {name : String}
    (h : b.declaredName? = some name) : b.isDeclaration = true := by
  by_contra hno
  rw [declaredName?, if_neg hno] at h
  cases h

theorem Body.eq_root_of_type {b : Body} (h : b.type = .root) : b = .root := by
  cases b <;> first | rfl | cases h

theorem Body.exists_scopeName? {b : Body} (h : b.type = .classDecl ∨ b.type = .funcDecl) :
    ∃ name, b.scopeName? = some name := by
  cases b with
  | classDecl c => exact ⟨c.name, rfl⟩
  | funcDecl f => exact ⟨f.name, rfl⟩
  | root | moduleImport | varDecl | step => rcases h with h | h <;> cases h

namespace Table

variable {rows : List Row}

theorem exists_row_of_ne_root {i : Nat} {n : Node} (hn : (ofRows rows).get? i = some n)
    (hbody : n.body ≠ .root) : ∃ r ∈ rows, r.body = n.body := by
  obtain ⟨after, r, before, rfl, rfl⟩ := exists_row hn (pos_of_ne_root hn hbody)
  obtain ⟨children, hget⟩ := get?_ofRows after r before
  rw [hget, Option.some.injEq] at hn
  exact ⟨r, by simp, by rw [← hn]⟩

/-- No other node is a root. -/
theorem eq_zero_of_root (h : Lawful rows) {i : Nat} {n : Node}
    (hn : (ofRows rows).get? i = some n) (hbody : n.body = .root) : i = 0 := by
  by_contra hne
  obtain ⟨after, r, before, rfl, rfl⟩ := exists_row hn (by omega)
  obtain ⟨children, hget⟩ := get?_ofRows after r before
  rw [hn, Option.some.injEq] at hget
  rw [hget] at hbody
  exact h.ne_root r (by simp) hbody

/-- A declaration stands at the top level, in a class or in a function. -/
theorem scope_of_declaration (h : Lawful rows) {n p : Node} {i : Nat}
    (hi : (ofRows rows).get? i = some p) (hchild : n.uid ∈ p.children)
    (hn : (ofRows rows).get? n.uid = some n) (hd : n.body.isDeclaration = true) :
    p.type = .root ∨ p.type = .classDecl ∨ p.type = .funcDecl := by
  have hmem := type_mem_childTypes hi hchild hn
  have hgrammar := h.grammatical
  cases hp : p.type with
  | root => exact .inl rfl
  | classDecl => exact .inr (.inl rfl)
  | funcDecl => exact .inr (.inr rfl)
  | moduleImport =>
    rw [hgrammar.moduleImport i p hi hp] at hchild
    cases hchild
  | varDecl =>
    rw [hgrammar.varDecl i p hi hp] at hchild
    cases hchild
  | step =>
    have hstep : n.body.type = .step := hgrammar.step i p hi hp _ hmem
    rw [Body.isDeclaration, hstep] at hd
    cases hd

/-- The scope of a declaration is the root, or it is declared itself. -/
theorem scope_cases (h : Lawful rows) {uid : Nat} {path : List String}
    (hpath : (ofRows rows).qualifiedName? uid = some path) :
    ∃ n i name, (ofRows rows).get? uid = some n ∧ n.parent = some i ∧ i < uid ∧
      n.body.declaredName? = some name ∧ path = (ofRows rows).scopeNames uid ++ [name] ∧
      (i = 0 ∧ (ofRows rows).scopeNames uid = [] ∨
        (ofRows rows).qualifiedName? i = some ((ofRows rows).scopeNames uid)) := by
  have hlinked := linked_ofRows rows
  obtain ⟨n, hn, hrest⟩ := Option.bind_eq_some_iff.mp hpath
  obtain ⟨name, hname, hrest⟩ := Option.bind_eq_some_iff.mp hrest
  obtain rfl := Option.some.inj hrest
  have hpos := pos_of_ne_root hn (Body.ne_root_of_declaredName? hname)
  obtain ⟨i, p, hparent, hp, hlt, hchild⟩ := hlinked.listed hn hpos
  refine ⟨n, i, name, hn, hparent, hlt, hname, rfl, ?_⟩
  have hnames := hlinked.scopeNames_of_parent hn hparent hp
  have huid := hlinked.number hn
  have hd := Body.isDeclaration_of_declaredName? hname
  rcases scope_of_declaration h hp (by rw [huid]; exact hchild) (by rw [huid]; exact hn) hd with
    hroot | hblock
  · have hbody := Body.eq_root_of_type hroot
    have hzero := eq_zero_of_root h hp hbody
    refine .inl ⟨hzero, ?_⟩
    rw [hnames, hzero, hlinked.scopeNames_root, hbody]
    rfl
  · obtain ⟨scope, hscope⟩ := Body.exists_scopeName? hblock
    rw [hnames, hscope]
    simp [qualifiedName?, hp, Body.declaredName?_of_scopeName? hscope]

theorem describes_of_declaration? (h : Lawful rows) {n : Node}
    {path : List String} {m : Metadata} (hn : (ofRows rows).get? n.uid = some n)
    (hd : (ofRows rows).declaration? n = some (path, m)) :
    ∃ i p, n.parent = some i ∧ (ofRows rows).get? i = some p ∧ Describes n.body p.type m := by
  have hlinked := linked_ofRows rows
  obtain ⟨name, hname, hd⟩ := Option.bind_eq_some_iff.mp hd
  have hpos := pos_of_ne_root hn (Body.ne_root_of_declaredName? hname)
  obtain ⟨i, p, hparent, hp, -, hchild⟩ := hlinked.listed hn hpos
  have htype : (ofRows rows).typeAt (n.parent.getD 0) = p.type := by simp [typeAt, hparent, hp]
  refine ⟨i, p, hparent, hp, ?_⟩
  obtain ⟨m', hm, hd⟩ := Option.bind_eq_some_iff.mp hd
  obtain rfl : m' = m := (Prod.mk.inj (Option.some.inj hd)).2
  rw [htype] at hm
  cases hb : n.body with
  | root => rw [hb] at hm; cases hm
  | moduleImport c => rw [hb] at hm; cases hm
  | step s => rw [hb] at hm; cases hm
  | classDecl c =>
    rw [hb] at hm
    obtain rfl := Option.some.inj hm
    exact .classDecl c p.type
  | funcDecl f =>
    rw [hb] at hm
    obtain rfl := Option.some.inj hm
    exact .funcDecl f p.type
  | varDecl v =>
    rw [hb] at hm
    obtain rfl := Option.some.inj hm
    have hscope := scope_of_declaration h hp hchild hn (by rw [hb]; rfl)
    refine .varDecl v ?_
    rcases hscope with hscope | hscope | hscope <;> rw [hscope] <;> constructor

end Table

end Ast

/-! ## The table of the declarations -/

namespace SymbolTable

theorem ofAst_tree (t : Table) :
    (ofAst t).tree = (t.declarations.map Prod.fst).foldl SymbolTree.ensure .empty := by
  have hfold : ∀ (ds : List (List String × Metadata)) (s : SymbolTable),
      (ds.foldl (fun s d => s.declare d.1 d.2) s).tree =
        (ds.map Prod.fst).foldl SymbolTree.ensure s.tree := by
    intro ds
    induction ds with
    | nil => exact fun s => rfl
    | cons d ds ih => exact fun s => ih (s.declare d.1 d.2)
  exact hfold t.declarations .empty

theorem ofAst_metadata (t : Table) :
    (ofAst t).metadata =
      OrderedMap.ofList (t.declarations.map fun d => (SymbolPath.join d.1, d.2)) := by
  have hfold : ∀ (ds : List (List String × Metadata)) (s : SymbolTable),
      (ds.foldl (fun s d => s.declare d.1 d.2) s).metadata =
        s.metadata.insertAll (ds.map fun d => (SymbolPath.join d.1, d.2)) := by
    intro ds
    induction ds with
    | nil => exact fun s => rfl
    | cons d ds ih => exact fun s => ih (s.declare d.1 d.2)
  exact hfold t.declarations .empty

theorem nodup_names_ofAst (t : Table) : (ofAst t).tree.names.Nodup := by
  rw [ofAst_tree]
  exact SymbolTree.nodup_names_foldl_ensure (t := .empty) List.nodup_nil _

section

variable {rows : List Row} (h : Lawful rows)

include h

/-- **The routes of the tree are the qualified names of the declarations.** -/
theorem mem_routes_ofAst {route : List String} :
    route ∈ (ofAst (.ofRows rows)).tree.routes ↔
      ∃ uid, (Table.ofRows rows).qualifiedName? uid = some route := by
  have hlinked := Table.linked_ofRows rows
  rw [ofAst_tree, SymbolTree.mem_routes_foldl_ensure]
  constructor
  · rintro (hroute | ⟨hne, path, hpath, hp⟩)
    · cases hroute
    · obtain ⟨⟨path, m⟩, hd, rfl⟩ := List.mem_map.mp hpath
      obtain ⟨n, hn, hd⟩ := (Table.mem_declarations h).mp hd
      exact hlinked.exists_of_prefix (Table.qualifiedName?_of_declaration? hn hd) hne hp
  · rintro ⟨uid, huid⟩
    obtain ⟨n, m, hn, hnumber, hd⟩ := Table.exists_declaration? hlinked.numbered.index huid
    have hmem := (Table.mem_declarations h).mpr ⟨n, hnumber ▸ hn, hd⟩
    refine .inr ⟨?_, route, List.mem_map_of_mem (f := Prod.fst) hmem, List.prefix_refl route⟩
    obtain ⟨k, -, hk⟩ := Option.bind_eq_some_iff.mp huid
    obtain ⟨name, -, hk⟩ := Option.bind_eq_some_iff.mp hk
    simp [← Option.some.inj hk]

/-- The first level holds what is declared at the top level. -/
theorem exists_of_mem_names_ofAst {name : String}
    (hname : name ∈ (ofAst (.ofRows rows)).tree.names) :
    ∃ n ∈ (Table.ofRows rows).toList, n.parent = some 0 ∧ n.body.declaredName? = some name := by
  obtain ⟨uid, huid⟩ := (mem_routes_ofAst h).mp (SymbolTree.singleton_mem_routes.mpr hname)
  obtain ⟨n, i, own, hn, hparent, -, hown, hpath, hscope⟩ := Table.scope_cases h huid
  rw [← List.nil_append [name]] at hpath
  obtain ⟨hnil, hlast⟩ := List.append_inj' hpath rfl
  obtain rfl := (List.cons.inj hlast).1
  refine ⟨n, Table.mem_toList hn, ?_, hown⟩
  rcases hscope with ⟨rfl, -⟩ | hscope
  · exact hparent
  · rw [← hnil] at hscope
    obtain ⟨-, -, own, -, -, -, -, hempty, -⟩ := Table.scope_cases h hscope
    exact absurd hempty (by simp)

/-- **The keys of the metadata are the symbol paths of the declarations.** -/
theorem mem_keys_ofAst {path : String} :
    path ∈ (ofAst (.ofRows rows)).metadata.keys ↔
      ∃ uid, (Table.ofRows rows).symbolPath? uid = some path := by
  simp only [Table.symbolPath?_eq, Option.map_eq_some_iff]
  rw [ofAst_metadata, OrderedMap.ofList, OrderedMap.mem_keys_insertAll, OrderedMap.keys_empty,
    List.map_map, List.mem_map]
  constructor
  · rintro (⟨⟨path, m⟩, hd, rfl⟩ | hnil)
    · obtain ⟨n, hn, hd⟩ := (Table.mem_declarations h).mp hd
      exact ⟨n.uid, path, Table.qualifiedName?_of_declaration? hn hd, rfl⟩
    · cases hnil
  · rintro ⟨uid, path, huid, rfl⟩
    obtain ⟨n, m, hn, hnumber, hd⟩ :=
      Table.exists_declaration? (Table.linked_ofRows rows).numbered.index huid
    exact .inl ⟨(path, m), (Table.mem_declarations h).mpr ⟨n, hnumber ▸ hn, hd⟩, rfl⟩

/-- Tree and keys agree. -/
theorem mem_keys_ofAst_iff_route {path : String} :
    path ∈ (ofAst (.ofRows rows)).metadata.keys ↔
      ∃ route ∈ (ofAst (.ofRows rows)).tree.routes, SymbolPath.join route = path := by
  rw [mem_keys_ofAst h]
  simp only [mem_routes_ofAst h, Table.symbolPath?_eq, Option.map_eq_some_iff]
  constructor
  · rintro ⟨uid, route, huid, hjoin⟩
    exact ⟨route, ⟨uid, huid⟩, hjoin⟩
  · rintro ⟨route, ⟨uid, huid⟩, hjoin⟩
    exact ⟨uid, route, huid, hjoin⟩

/-- **Of the declarations with one symbol path the last one is described.** -/
theorem get?_ofAst {path : String} {m : Metadata}
    (hm : (ofAst (.ofRows rows)).metadata.get? path = some m) :
    ∃ n i p, (Table.ofRows rows).get? n.uid = some n ∧
      (Table.ofRows rows).symbolPath? n.uid = some path ∧
      (∀ uid, (Table.ofRows rows).symbolPath? uid = some path → uid ≤ n.uid) ∧
      n.parent = some i ∧ (Table.ofRows rows).get? i = some p ∧ Describes n.body p.type m := by
  have hlinked := Table.linked_ofRows rows
  rw [ofAst_metadata, OrderedMap.ofList, OrderedMap.get?_insertAll, OrderedMap.get?_empty,
    Option.or_none, Table.declarations_ofRows h, List.map_filterMap] at hm
  obtain ⟨before, n, after, hsplit, hwrite, hlast⟩ := OrderedMap.exists_last_writer hm
  obtain ⟨⟨names, m'⟩, hd, hpair⟩ := Option.map_eq_some_iff.mp hwrite
  obtain ⟨rfl, rfl⟩ := Prod.mk.inj hpair
  -- nodes are listed in the order of their numbers
  have hn : (Table.ofRows rows).get? before.length = some n := by
    rw [← Table.getElem?_toList, hsplit]
    simp
  have huid := hlinked.number hn
  rw [← huid] at hn
  obtain ⟨i, p, hparent, hp, hdescribes⟩ := Table.describes_of_declaration? h hn hd
  refine ⟨n, i, p, hn, ?_, ?_, hparent, hp, hdescribes⟩
  · rw [Table.symbolPath?_eq, Table.qualifiedName?_of_declaration? hn hd]
    rfl
  · intro uid hpath
    by_contra hlt
    rw [Table.symbolPath?_eq] at hpath
    obtain ⟨names', hnames', hjoin⟩ := Option.map_eq_some_iff.mp hpath
    obtain ⟨k, m', hk, -, hdk⟩ := Table.exists_declaration? hlinked.numbered.index hnames'
    have hmem : k ∈ after := by
      rw [← Table.getElem?_toList, hsplit, List.getElem?_append_right (by omega)] at hk
      obtain ⟨j, hj⟩ : ∃ j, uid - before.length = j + 1 := ⟨uid - before.length - 1, by omega⟩
      rw [hj, List.getElem?_cons_succ] at hk
      exact List.mem_of_getElem? hk
    exact hlast k hmem m' (by rw [hdk, Option.map_some, hjoin])

end

/-! ## Tables of sources -/

/-- A symbol table that says of the declarations of a tree what there is to say. -/
structure Mirrors (s : SymbolTable) (t : Table) : Prop where
  /-- Every class, function and variable has a symbol path. -/
  named : ∀ uid n, t.get? uid = some n → n.body.isDeclaration = true →
    ∃ path, t.symbolPath? uid = some path
  paths : ∀ path, path ∈ s.tree.paths ↔ path ∈ s.metadata.keys
  keys : ∀ path, path ∈ s.metadata.keys ↔
    ∃ uid n, t.get? uid = some n ∧ n.body.isDeclaration = true ∧ t.symbolPath? uid = some path
  /-- Of the declarations with one path the one with the largest number is described. -/
  described : ∀ path m, s.metadata.get? path = some m →
    ∃ n i p, t.get? n.uid = some n ∧ n.body.isDeclaration = true ∧
      t.symbolPath? n.uid = some path ∧ (∀ uid, t.symbolPath? uid = some path → uid ≤ n.uid) ∧
      n.parent = some i ∧ t.get? i = some p ∧ Describes n.body p.type m

/-- Nodes with a symbol path are declarations. -/
theorem exists_declaration_of_symbolPath? {t : Table} {uid : Nat} {path : String}
    (h : t.symbolPath? uid = some path) :
    ∃ n, t.get? uid = some n ∧ n.body.isDeclaration = true := by
  obtain ⟨n, hn, h⟩ := Option.bind_eq_some_iff.mp h
  obtain ⟨name, hname, -⟩ := Option.bind_eq_some_iff.mp h
  exact ⟨n, hn, Body.isDeclaration_of_declaredName? hname⟩

theorem exists_symbolPath? {t : Table} {uid : Nat} {n : Node} (hn : t.get? uid = some n)
    (hd : n.body.isDeclaration = true) : ∃ path, t.symbolPath? uid = some path := by
  have hname : ∃ name, n.body.declaredName? = some name := by
    cases hb : n.body <;> first | exact ⟨_, rfl⟩ | (rw [hb] at hd; cases hd)
  obtain ⟨name, hname⟩ := hname
  rw [Table.symbolPath?_eq, Table.qualifiedName?]
  simp [hn, hname]

theorem mirrors_ofRows {rows : List Row} (h : Lawful rows)
    (hnamed : (ofAst (.ofRows rows)).tree.Named) :
    Mirrors (ofAst (.ofRows rows)) (.ofRows rows) where
  named := fun uid n hn hd => exists_symbolPath? hn hd
  paths := by
    intro path
    rw [SymbolTree.paths_eq hnamed, List.mem_map, mem_keys_ofAst_iff_route h]
  keys := by
    intro path
    rw [mem_keys_ofAst h]
    constructor
    · rintro ⟨uid, hpath⟩
      obtain ⟨n, hn, hd⟩ := exists_declaration_of_symbolPath? hpath
      exact ⟨uid, n, hn, hd, hpath⟩
    · rintro ⟨uid, n, -, -, hpath⟩
      exact ⟨uid, hpath⟩
  described := by
    intro path m hm
    obtain ⟨n, i, p, hn, hpath, hlast, hparent, hp, hdescribes⟩ := get?_ofAst h hm
    obtain ⟨k, hk, hd⟩ := exists_declaration_of_symbolPath? hpath
    rw [hn, Option.some.injEq] at hk
    exact ⟨n, i, p, hn, hk ▸ hd, hpath, hlast, hparent, hp, hdescribes⟩

/-- The names in the tree are names that have been read. -/
theorem isName_of_mem_routes {rows : List Row} (h : Lawful rows)
    (hw : ∀ r ∈ rows, Parser.Writable r.body) {route : List String}
    (hroute : route ∈ (ofAst (.ofRows rows)).tree.routes) {name : String} (hname : name ∈ route) :
    Parser.IsName name := by
  obtain ⟨uid, huid⟩ := (mem_routes_ofAst h).mp hroute
  obtain ⟨i, n, hn, hdeclared⟩ := Table.exists_of_mem_qualifiedName huid hname
  obtain ⟨r, hr, hbody⟩ :=
    Table.exists_row_of_ne_root hn (Body.ne_root_of_declaredName? hdeclared)
  have hlegal := (hw r hr).legal
  rw [hbody] at hlegal
  exact hlegal.isName hdeclared

theorem named_ofAst {rows : List Row} (h : Lawful rows)
    (hw : ∀ r ∈ rows, Parser.Writable r.body) : (ofAst (.ofRows rows)).tree.Named :=
  fun _ hroute hempty => (isName_of_mem_routes h hw hroute hempty).ne_empty rfl

/-- **The symbol table of a source mirrors its declarations**: its paths and its keys are the symbol
paths of the classes, functions and variables, and of the declarations with one path the last one is
described. -/
theorem mirrors_of_parse {source : String} {scanned : Lexer.Scanned} {parsed : Parser.Parsed}
    (hlex : Lexer.tokenize source = .ok scanned)
    (hparse : Parser.parse scanned.tokens = .ok parsed) :
    Mirrors (ofAst parsed.table) parsed.table := by
  obtain ⟨rows, htable, hlaw, hw⟩ := Parser.exists_rows_of_parse hlex hparse
  rw [htable]
  exact mirrors_ofRows hlaw (named_ofAst hlaw hw)

/-- A class that is declared twice and a variable of the same path as a member of it. -/
theorem mirrors_redeclared :
    ∃ scanned parsed,
      Lexer.tokenize "class A:\n    var b\nvar A.b\nclass A:\n    func __b:\n        go\n" =
        .ok scanned ∧
      Parser.parse scanned.tokens = .ok parsed ∧
      (ofAst parsed.table).metadata.keys = ["A", "A.b", "A.__b"] ∧
      Mirrors (ofAst parsed.table) parsed.table := by
  have hread : (Parser.read?
      "class A:\n    var b\nvar A.b\nclass A:\n    func __b:\n        go\n").map
        (fun t => (ofAst t).metadata.keys) = some ["A", "A.b", "A.__b"] := by
    decide +kernel
  obtain ⟨t, ht, hkeys⟩ := Option.map_eq_some_iff.mp hread
  obtain ⟨scanned, parsed, hscanned, hparsed, rfl⟩ := Parser.exists_of_read? ht
  exact ⟨scanned, parsed, hscanned, hparsed, hkeys, mirrors_of_parse hscanned hparsed⟩

end SymbolTable

end IntentCode
