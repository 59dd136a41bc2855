import IntentCode.Proofs.Parser.Namesakes
import IntentCode.Proofs.Symbol.Declared
import Mathlib.Data.Finset.Card

/-!
# Declarations with a path of their own

If no name is declared twice in a scope, no two declarations have one qualified name
(`qualifiedName?_inj`). Their symbol paths are another matter: a name may hold a dot, so `b` in a class
`A` and `A.b` at the top level share a path, and the later of them takes the entry of the earlier
(`overwritten_by_dotted_name`). Every declaration has an entry of its own exactly if that does not
happen (`size_metadata_of_parse`).
-/

set_option autoImplicit false

namespace IntentCode

namespace Ast.Table

variable {rows : List Row}

/-- Of two children of one node with one name the later one declares the name again. -/
theorem redeclares_of_siblings {i j : Nat} {n m : Node} {name : String}
    (hn : (ofRows rows).get? i = some n) (hm : (ofRows rows).get? j = some m)
    (hparent : n.parent = m.parent) (hname : n.body.declaredName? = some name)
    (hname' : m.body.declaredName? = some name) (hlt : i < j) :
    ∃ after r before, rows = after ++ r :: before ∧ Redeclares r before := by
  obtain ⟨after, r, before, hsplit, rfl⟩ := exists_row hm (Nat.zero_lt_of_lt hlt)
  have hnumber := (linked_ofRows rows).number hn
  have hnumber' := (linked_ofRows rows).number hm
  have hnamesake : m.HasNamesake (ofRows rows) := by
    refine ⟨Option.isSome_iff_exists.mpr ⟨name, hname'⟩, n, mem_toList hn, ?_, hparent, ?_⟩
    · rw [hnumber, hnumber']
      exact hlt
    · exact hname.trans hname'.symm
  exact ⟨after, r, before, hsplit, (hasNamesake_iff hsplit hm).mp hnamesake⟩

theorem eq_of_siblings (hnil : redeclared rows = []) {i j : Nat} {n m : Node} {name : String}
    (hn : (ofRows rows).get? i = some n) (hm : (ofRows rows).get? j = some m)
    (hparent : n.parent = m.parent) (hname : n.body.declaredName? = some name)
    (hname' : m.body.declaredName? = some name) : i = j := by
  rcases Nat.lt_trichotomy i j with hlt | heq | hgt
  · obtain ⟨after, r, before, hsplit, hr⟩ := redeclares_of_siblings hn hm hparent hname hname' hlt
    exact absurd hr (not_redeclares_of_nil hnil hsplit)
  · exact heq
  · obtain ⟨after, r, before, hsplit, hr⟩ :=
      redeclares_of_siblings hm hn hparent.symm hname' hname hgt
    exact absurd hr (not_redeclares_of_nil hnil hsplit)

/-- **Names that are new in their scopes make qualified names unique.** -/
theorem qualifiedName?_inj (h : Lawful rows) (hnil : redeclared rows = []) {i j : Nat}
    {path : List String} (hi : (ofRows rows).qualifiedName? i = some path)
    (hj : (ofRows rows).qualifiedName? j = some path) : i = j := by
  induction i using Nat.strongRecOn generalizing j path with
  | ind i ih =>
    obtain ⟨n, p, name, hn, hparent, hlt, hname, rfl, hscope⟩ := scope_cases h hi
    obtain ⟨m, q, name', hm, hparent', -, hname', hpath, hscope'⟩ := scope_cases h hj
    obtain ⟨hnames, hlast⟩ := List.append_inj' hpath rfl
    obtain rfl := (List.cons.inj hlast).1
    have hne : ∀ {uid : Nat}, (ofRows rows).qualifiedName? uid ≠ some [] := by
      intro uid hempty
      obtain ⟨-, -, own, -, -, -, -, hempty, -⟩ := scope_cases h hempty
      exact absurd hempty (by simp)
    -- the scopes are the same node
    have hpq : p = q := by
      rw [← hnames] at hscope'
      rcases hscope with ⟨hp, hnone⟩ | hp <;> rcases hscope' with ⟨hq, hnone'⟩ | hq
      · rw [hp, hq]
      · rw [hnone] at hq
        exact absurd hq hne
      · rw [hnone'] at hp
        exact absurd hp hne
      · exact ih p hlt hp hq
    exact eq_of_siblings hnil hn hm (by rw [hparent, hparent', hpq]) hname hname'

end Ast.Table

namespace SymbolTable

open Ast

/-- The numbers of the declarations. -/
def declaredUids (t : Table) : List Nat :=
  (t.toList.filter fun n => n.body.isDeclaration).map Node.uid

theorem mem_declaredUids {t : Table} (h : t.Linked) {uid : Nat} :
    uid ∈ declaredUids t ↔ ∃ path, t.symbolPath? uid = some path := by
  rw [declaredUids, List.mem_map]
  constructor
  · rintro ⟨n, hn, rfl⟩
    obtain ⟨hn, hd⟩ := List.mem_filter.mp hn
    exact exists_symbolPath? (h.get?_of_mem hn) hd
  · rintro ⟨path, hpath⟩
    obtain ⟨n, hn, hd⟩ := exists_declaration_of_symbolPath? hpath
    exact ⟨n, List.mem_filter.mpr ⟨Table.mem_toList hn, hd⟩, h.number hn⟩

theorem nodup_declaredUids {t : Table} (h : t.Linked) : (declaredUids t).Nodup := by
  refine List.Nodup.sublist (List.filter_sublist.map _) ?_
  rw [h.uids_toList]
  exact List.nodup_range

/-- **Every declaration has an entry of its own exactly if no two of them share a symbol path.** -/
theorem size_metadata_iff {rows : List Row} (h : Lawful rows) :
    (ofAst (.ofRows rows)).metadata.size =
        ((Table.ofRows rows).toList.filter fun n => n.body.isDeclaration).length ↔
      ∀ i j path, (Table.ofRows rows).symbolPath? i = some path →
        (Table.ofRows rows).symbolPath? j = some path → i = j := by
  have hlinked := Table.linked_ofRows rows
  have hdeclared : ∀ uid, uid ∈ (declaredUids (.ofRows rows)).toFinset ↔
      ∃ path, (Table.ofRows rows).symbolPath? uid = some path := by
    intro uid
    rw [List.mem_toFinset, mem_declaredUids hlinked]
  have hlength : ((Table.ofRows rows).toList.filter fun n => n.body.isDeclaration).length =
      (declaredUids (.ofRows rows)).toFinset.card := by
    rw [List.toFinset_card_of_nodup (nodup_declaredUids hlinked), declaredUids, List.length_map]
  have hsize : (ofAst (.ofRows rows)).metadata.size =
      (ofAst (.ofRows rows)).metadata.keys.toFinset.card := by
    have hcard := List.toFinset_card_of_nodup (ofAst (.ofRows rows)).metadata.nodup_keys
    rw [List.length_map] at hcard
    exact hcard.symm
  -- the keys are the image of the declarations
  have hkeys : (ofAst (.ofRows rows)).metadata.keys.toFinset =
      (declaredUids (.ofRows rows)).toFinset.image
        fun uid => ((Table.ofRows rows).symbolPath? uid).getD "" := by
    ext path
    rw [List.mem_toFinset, mem_keys_ofAst h, Finset.mem_image]
    constructor
    · rintro ⟨uid, hpath⟩
      exact ⟨uid, (hdeclared uid).mpr ⟨path, hpath⟩, by rw [hpath]; rfl⟩
    · rintro ⟨uid, huid, rfl⟩
      obtain ⟨path, hpath⟩ := (hdeclared uid).mp huid
      exact ⟨uid, by rw [hpath]; rfl⟩
  rw [hsize, hlength, hkeys, Finset.card_image_iff]
  constructor
  · intro hinj i j path hi hj
    exact hinj ((hdeclared i).mpr ⟨path, hi⟩) ((hdeclared j).mpr ⟨path, hj⟩) (by simp only [hi, hj])
  · intro hall i hi j hj heq
    obtain ⟨path, hpath⟩ := (hdeclared i).mp hi
    obtain ⟨other, hother⟩ := (hdeclared j).mp hj
    simp only [hpath, hother, Option.getD_some] at heq
    exact hall i j path hpath (heq ▸ hother)

/-- **Without a report that a name is declared already**, qualified names are unique, and every
declaration has an entry of its own exactly if no two qualified names join to one path. They do not if
no name holds a dot. -/
theorem size_metadata_of_parse {ts : List Token} {parsed : Parser.Parsed}
    (hparse : Parser.parse ts = .ok parsed)
    (hclean : ∀ d ∈ parsed.diagnostics, d.code ≠ .duplicateName) :
    (∀ i j path, parsed.table.qualifiedName? i = some path →
        parsed.table.qualifiedName? j = some path → i = j) ∧
      ((ofAst parsed.table).metadata.size =
          (parsed.table.toList.filter fun n => n.body.isDeclaration).length ↔
        ∀ i j path other, parsed.table.qualifiedName? i = some path →
          parsed.table.qualifiedName? j = some other →
          SymbolPath.join path = SymbolPath.join other → path = other) ∧
      ((∀ n ∈ parsed.table.toList, ∀ name, n.body.declaredName? = some name → '.' ∉ name.toList) →
        (ofAst parsed.table).metadata.size =
          (parsed.table.toList.filter fun n => n.body.isDeclaration).length) := by
  have hnone : ∀ f ∈ parsed.findings, f.complaint.isRedeclared = false := by
    intro f hf
    have hcode := hclean f.diagnostic (List.mem_map_of_mem hf)
    cases hc : f.complaint with
    | redeclared type name => exact absurd (by rw [Parser.Finding.diagnostic, hc]; rfl) hcode
    | notAllowed | lateModule | malformed | unexpectedIndentation | expectedBlock | detachedNote
      | repeatedEntry => rfl
  obtain ⟨rows, htable, hlaw, hnil⟩ := Parser.exists_rows_of_undoubled hparse hnone
  have hinj : ∀ i j path, (Table.ofRows rows).qualifiedName? i = some path →
      (Table.ofRows rows).qualifiedName? j = some path → i = j :=
    fun i j path hi hj => Table.qualifiedName?_inj hlaw hnil hi hj
  have hiff : (ofAst (.ofRows rows)).metadata.size =
      ((Table.ofRows rows).toList.filter fun n => n.body.isDeclaration).length ↔
        ∀ i j path other, (Table.ofRows rows).qualifiedName? i = some path →
          (Table.ofRows rows).qualifiedName? j = some other →
          SymbolPath.join path = SymbolPath.join other → path = other := by
    rw [size_metadata_iff hlaw]
    simp only [Table.symbolPath?_eq, Option.map_eq_some_iff]
    constructor
    · intro h i j path other hi hj hjoin
      obtain rfl := h i j _ ⟨path, hi, rfl⟩ ⟨other, hj, hjoin.symm⟩
      rw [hi, Option.some.injEq] at hj
      exact hj
    · rintro h i j _ ⟨path, hi, rfl⟩ ⟨other, hj, hjoin⟩
      obtain rfl := h i j path other hi hj hjoin.symm
      exact hinj i j path hi hj
  rw [htable]
  refine ⟨hinj, hiff, fun hdots => hiff.mpr ?_⟩
  have hpieces : ∀ {uid : Nat} {path : List String},
      (Table.ofRows rows).qualifiedName? uid = some path →
        path ≠ [] ∧ ∀ name ∈ path, '.' ∉ name.toList := by
    intro uid path hpath
    refine ⟨?_, fun name hname => ?_⟩
    · obtain ⟨-, -, own, -, -, -, -, rfl, -⟩ := Table.scope_cases hlaw hpath
      simp
    · obtain ⟨i, n, hn, hname⟩ := Table.exists_of_mem_qualifiedName hpath hname
      exact hdots n (Table.mem_toList hn) name hname
  intro i j path other hi hj hjoin
  exact SymbolPath.join_inj (hpieces hi).1 (hpieces hj).1 (hpieces hi).2 (hpieces hj).2 hjoin

/-- A class with a method and a variable, and a function of the name of the method. -/
def methodAndFunction : List Token :=
  [⟨.keyword, "class", 1⟩, ⟨.identifier, "A", 1⟩, .bare .colon 1, .bare .newline 1, .bare .indent 2,
   ⟨.keyword, "var", 2⟩, ⟨.identifier, "x", 2⟩, .bare .newline 2, ⟨.keyword, "func", 3⟩,
   ⟨.identifier, "f", 3⟩, .bare .newline 3, .bare .dedent 4, ⟨.keyword, "func", 4⟩,
   ⟨.identifier, "f", 4⟩, .bare .newline 4, .bare .endOfFile 5]

theorem size_metadata_methodAndFunction :
    ∃ parsed, Parser.parse methodAndFunction = .ok parsed ∧ parsed.diagnostics = [] ∧
      (ofAst parsed.table).metadata.keys = ["A", "A.x", "A.f", "f"] ∧
      (ofAst parsed.table).metadata.size =
        (parsed.table.toList.filter fun n => n.body.isDeclaration).length := by
  have hparse : Parser.parse methodAndFunction = .ok _ :=
    (Parser.parse_eq methodAndFunction).trans rfl
  refine ⟨_, hparse, rfl, by decide +kernel, ?_⟩
  refine (size_metadata_of_parse hparse fun d hd => by cases hd).2.2 ?_
  show ∀ n ∈ Table.toList _, ∀ name ∈ n.body.declaredName?, '.' ∉ name.toList
  decide +kernel

/-- A member of a class, and a variable that is named like its path. -/
theorem overwritten_by_dotted_name :
    ∃ scanned parsed, Lexer.tokenize "class A:\n    var b\nvar A.b\n" = .ok scanned ∧
      scanned.warnings = [] ∧ Parser.parse scanned.tokens = .ok parsed ∧ parsed.diagnostics = [] ∧
      (ofAst parsed.table).metadata.size = 2 ∧
      (parsed.table.toList.filter fun n => n.body.isDeclaration).length = 3 := by
  have hread : ((Lexer.tokenize "class A:\n    var b\nvar A.b\n").toOption.bind fun scanned =>
      (Parser.parse scanned.tokens).toOption.map fun parsed =>
        (scanned.warnings, parsed.diagnostics, (ofAst parsed.table).metadata.size,
          (parsed.table.toList.filter fun n => n.body.isDeclaration).length)) =
      some ([], [], 2, 3) := by
    decide +kernel
  have hok : ∀ {ε α : Type} {e : Except ε α} {a : α}, e.toOption = some a → e = .ok a := by
    intro ε α e a h
    cases e <;> simp_all [Except.toOption]
  obtain ⟨scanned, hscanned, hread⟩ := Option.bind_eq_some_iff.mp hread
  obtain ⟨parsed, hparsed, hread⟩ := Option.map_eq_some_iff.mp hread
  simp only [Prod.mk.injEq] at hread
  obtain ⟨hwarnings, hdiagnostics, hsize, hcount⟩ := hread
  exact ⟨scanned, parsed, hok hscanned, hwarnings, hok hparsed, hdiagnostics, hsize, hcount⟩

end SymbolTable

end IntentCode
