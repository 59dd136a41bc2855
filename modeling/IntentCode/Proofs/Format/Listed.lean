import IntentCode.Proofs.Parser.Canonical

/-!
# The order in which headers list names

A class lists its bases and a function its parameters, and their source has them in the order in which the
tree holds them. Structural equality compares the same entries without their order, so trees with the same
structure can have different sources (`swapped_parameters`).

That is the only difference there can be. Where corresponding headers list their names in the same order,
trees with the same structure have the same source under all settings, and canonical trees with the same
source always list their names in the same order (`sources_of_sameStructure`).
-/

set_option autoImplicit false

namespace IntentCode

open Ast

/-! ## What a header lists -/

namespace Ast

namespace Body

/-- The names that the header of a node lists, in order. -/
def listed : Body → List String
  | classDecl c => c.bases.keys
  | funcDecl f => f.params.keys
  | root | moduleImport _ | varDecl _ | step _ => []

theorem listed_settled (b : Body) : b.settled.listed = b.listed := by cases b <;> rfl

/-- What has the same content and lists its names in the same order is the same, but for the order of the
references of parameters, which are not written. -/
theorem eq_of_same {b c : Body} (h : b.same c = true) (hlisted : b.listed = c.listed) :
    b = c ∨ ∃ f refs, b = .funcDecl f ∧ c = .funcDecl { f with paramRefs := refs } := by
  cases b with
  | classDecl d =>
    cases c with
    | classDecl e =>
      simp only [same, Bool.and_eq_true, beq_iff_eq] at h
      obtain ⟨⟨hname, hnotes⟩, hbases⟩ := h
      have hmap : d.bases = e.bases := OrderedMap.eq_of_sameEntries hbases hlisted
      refine .inl (congrArg classDecl ?_)
      cases d
      cases e
      simp_all
    | _ => cases h
  | funcDecl d =>
    cases c with
    | funcDecl e =>
      simp only [same, Bool.and_eq_true, beq_iff_eq] at h
      obtain ⟨⟨⟨hname, hnotes⟩, hparams⟩, -⟩ := h
      have hmap : d.params = e.params := OrderedMap.eq_of_sameEntries hparams hlisted
      refine .inr ⟨d, e.paramRefs, rfl, congrArg funcDecl ?_⟩
      cases d
      cases e
      simp_all
    | _ => cases h
  | root => exact .inl (beq_iff_eq.mp h)
  | moduleImport m => exact .inl (beq_iff_eq.mp h)
  | varDecl v => exact .inl (beq_iff_eq.mp h)
  | step s => exact .inl (beq_iff_eq.mp h)

end Body

namespace Forest

/-- The names that the headers of a forest list, header by header. -/
def listings (f : Forest) : List (List String) := f.nodes.map fun n => n.body.listed

theorem listings_cons (n : Node) (below beside : Forest) :
    (Forest.cons n below beside).listings = n.body.listed :: (below.listings ++ beside.listings) := by
  simp [listings, nodes]

theorem Alike.length_listings {f g : Forest} (h : f.Alike g) :
    f.listings.length = g.listings.length := by
  induction h with
  | nil => rfl
  | cons body inner outer ihb ihs =>
    rw [listings_cons, listings_cons, List.length_cons, List.length_cons, List.length_append,
      List.length_append, ihb, ihs]

theorem Copies.listings_eq {f g : Forest} (h : g.Copies f) : g.listings = f.listings := by
  induction h with
  | nil => rfl
  | cons body leaf inner outer ihb ihs =>
    rw [listings_cons, listings_cons, body, Body.listed_settled, ihb, ihs]

end Forest

/-- A node has children exactly if something is drawn below it. -/
theorem Table.Draws.eq_nil_iff {t : Table} {uids : List Nat} {f : Forest} (h : t.Draws uids f) :
    uids = [] ↔ f = .nil := by
  cases h <;> simp

end Ast

/-! ## Trees with the same structure -/

namespace Format

theorem header_eq {m n : Node} (hbody : m.body.same n.body = true)
    (hlisted : m.body.listed = n.body.listed) (hleaf : m.children = [] ↔ n.children = []) :
    header m = header n ∧ m.body.notes? = n.body.notes? ∧ m.type = n.type := by
  have hempty : m.children.isEmpty = n.children.isEmpty := by
    rw [Bool.eq_iff_iff, List.isEmpty_iff, List.isEmpty_iff]
    exact hleaf
  unfold header Node.type
  rw [hempty]
  rcases Body.eq_of_same hbody hlisted with heq | ⟨f, refs, hm, hn⟩
  · rw [heq]
    exact ⟨rfl, rfl, rfl⟩
  · rw [hm, hn]
    exact ⟨rfl, rfl, rfl⟩

/-- Alike forests are written alike if their headers list names in the same order. -/
theorem writtenAlike_of_alike {t u : Table} {is js : List Nat} {f g : Forest} (h : f.Alike g)
    (hf : t.Draws is f) (hg : u.Draws js g) (hlisted : f.listings = g.listings) :
    WrittenAlike f g := by
  induction h generalizing is js with
  | nil => exact .nil
  | @cons m n below below' beside beside' body inner outer ihb ihs =>
    rw [Forest.listings_cons, Forest.listings_cons] at hlisted
    obtain ⟨hown, hrest⟩ := List.cons.inj hlisted
    obtain ⟨hbelow, hbeside⟩ := List.append_inj hrest inner.length_listings
    cases hf with
    | cons get number hunder hsiblings =>
      cases hg with
      | cons get' number' hunder' hsiblings' =>
        have hleaf : m.children = [] ↔ n.children = [] := by
          rw [hunder.eq_nil_iff, hunder'.eq_nil_iff]
          cases inner <;> simp
        obtain ⟨hline, hnotes, htype⟩ := header_eq body hown hleaf
        exact .cons hline hnotes htype (ihb hunder hunder' hbelow) (ihs hsiblings hsiblings' hbeside)

end Format

/-! ## Canonical trees -/

namespace Parser

open Lexer

/-- Canonical trees with one source list the same names in the same order, since one tree is read from it. -/
theorem listings_eq_of_canonical {t u : Table} (ht : t.Canonical) (hu : u.Canonical)
    (h : Format.canonical t = Format.canonical u) : t.forest.listings = u.forest.listings := by
  obtain ⟨scanned, parsed, hscanned, -, hparsed, -, -, hcopies⟩ := exists_read_of_canonical ht
  obtain ⟨scanned', parsed', hscanned', -, hparsed', -, -, hcopies'⟩ := exists_read_of_canonical hu
  rw [h, hscanned', Except.ok.injEq] at hscanned
  subst hscanned
  rw [hparsed', Except.ok.injEq] at hparsed
  subst hparsed
  rw [← hcopies.listings_eq, ← hcopies'.listings_eq]

/-! ## The sources of trees with the same structure -/

/-- **Trees with the same structure have the same source, up to the order in which headers list names.** If
the headers of both list their names in the same order, the sources are equal under all settings. Canonical
trees list them in the same order if the sources are equal. -/
theorem sources_of_sameStructure {t u : Table} (ht : t.validate = .ok ()) (hu : u.validate = .ok ())
    (hplaced : ∀ i n, t.get? i = some n → n.uid = i) (hplaced' : ∀ i n, u.get? i = some n → n.uid = i)
    (h : t.sameStructure u = true) :
    (t.forest.listings = u.forest.listings → ∀ config, Format.source config t = Format.source config u) ∧
      (t.Canonical → u.Canonical → Format.canonical t = Format.canonical u →
        t.forest.listings = u.forest.listings) := by
  refine ⟨fun hlisted config => ?_, listings_eq_of_canonical⟩
  obtain ⟨m, hm, -, hdraws, -⟩ := Table.draws_of_validate ht hplaced
  obtain ⟨n, hn, -, hdraws', -⟩ := Table.draws_of_validate hu hplaced'
  have halike := Table.alike_of_sameStructure hm hn hdraws hdraws' h
  exact Format.source_eq_of_writtenAlike
    (Format.writtenAlike_of_alike halike hdraws hdraws' hlisted) config

/-- A function with a block and a variable. -/
def plainTable : Table :=
  ⟨#[⟨0, none, [1, 3], 0, .root⟩,
    ⟨1, some 0, [2], 1, .funcDecl ⟨"move", ⟨"", "slow"⟩, .ofList [("by", "$v$"), ("to", "$w$")],
      .ofList [("by", "v"), ("to", "w")]⟩⟩,
    ⟨2, some 1, [], 2, .step ⟨"go", [], false⟩⟩,
    ⟨3, some 0, [], 3, .varDecl ⟨"speed", .none, "", []⟩⟩]⟩

/-- The same with other numbers and lines, and with the references the other way round. -/
def renumberedTable : Table :=
  ⟨#[⟨0, none, [3, 1], 0, .root⟩,
    ⟨1, some 0, [], 9, .varDecl ⟨"speed", .none, "", []⟩⟩,
    ⟨2, some 3, [], 5, .step ⟨"go", [], false⟩⟩,
    ⟨3, some 0, [2], 4, .funcDecl ⟨"move", ⟨"", "slow"⟩, .ofList [("by", "$v$"), ("to", "$w$")],
      .ofList [("to", "w"), ("by", "v")]⟩⟩]⟩

theorem sources_of_sameStructure_renumbered :
    plainTable.sameStructure renumberedTable = true ∧
      ∀ config, Format.source config plainTable = Format.source config renumberedTable := by
  have hsame : plainTable.sameStructure renumberedTable = true := by decide +kernel
  have hlisted : plainTable.forest.listings = renumberedTable.forest.listings := by decide +kernel
  exact ⟨hsame, (sources_of_sameStructure (by decide +kernel) (by decide +kernel)
    (Table.number_of_zipIdx (by decide)) (Table.number_of_zipIdx (by decide)) hsame).1 hlisted⟩

/-- The parameters of a function can be swapped. -/
theorem swapped_parameters :
    ∃ scanned parsed scanned' parsed', tokenize "func f(a, b)\n" = .ok scanned ∧
      parse scanned.tokens = .ok parsed ∧ tokenize "func f(b, a)\n" = .ok scanned' ∧
      parse scanned'.tokens = .ok parsed' ∧ parsed.table.validate = .ok () ∧
      parsed'.table.validate = .ok () ∧ parsed.table.sameStructure parsed'.table = true ∧
      Format.canonical parsed.table ≠ Format.canonical parsed'.table := by
  have hread : (read? "func f(a, b)\n").map (fun t => (read? "func f(b, a)\n").map fun u =>
      decide (t.validate = .ok () ∧ u.validate = .ok () ∧ t.sameStructure u = true ∧
        Format.canonical t ≠ Format.canonical u)) = some (some true) := by
    decide +kernel
  obtain ⟨t, ht, hread⟩ := Option.map_eq_some_iff.mp hread
  obtain ⟨u, hu, hdiffer⟩ := Option.map_eq_some_iff.mp hread
  obtain ⟨scanned, parsed, hscanned, hparsed, rfl⟩ := exists_of_read? ht
  obtain ⟨scanned', parsed', hscanned', hparsed', rfl⟩ := exists_of_read? hu
  exact ⟨scanned, parsed, scanned', parsed', hscanned, hparsed, hscanned', hparsed',
    of_decide_eq_true hdiffer⟩

end Parser

end IntentCode
