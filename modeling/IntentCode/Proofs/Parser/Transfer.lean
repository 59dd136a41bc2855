import IntentCode.Proofs.Ast.Copy
import IntentCode.Proofs.Parser.RoundTrip

/-!
# Writing a tree that has not been read

The statements about written source are about trees from rows, and a table from elsewhere is no such
tree. Its copy is. A tree and its copy are written the same (`canonical_of_copies`) and complained
about the same (`complaintsIn_of_copies`), because neither depends on the numbers of nodes. So what is
known of the copy goes over to the tree (`reads_accepted`).
-/

set_option autoImplicit false

namespace IntentCode.Parser

open Ast Lexer

variable {f g : Forest}

/-! ## The same source -/

theorem isEmpty_copied {m n : Node} (hleaf : m.children = [] ↔ n.children = []) :
    m.children.isEmpty = n.children.isEmpty := by
  rw [Bool.eq_iff_iff, List.isEmpty_iff, List.isEmpty_iff]
  exact hleaf

/-- The line of a node depends on its body and on whether it has children, and not on the order of
the references. -/
theorem header_copied {m n : Node} (hbody : m.body = n.body.settled)
    (hleaf : m.children = [] ↔ n.children = []) : Format.header m = Format.header n := by
  unfold Format.header
  rw [hbody, isEmpty_copied hleaf]
  cases n.body <;> rfl

theorem announces_copied {m n : Node} (hbody : m.body = n.body.settled)
    (hleaf : m.children = [] ↔ n.children = []) : announces m = announces n := by
  unfold announces
  rw [hbody, isEmpty_copied hleaf]
  cases n.body <;> rfl

theorem writtenAlike_of_copies (h : g.Copies f) : Format.WrittenAlike g f := by
  induction h with
  | nil => exact .nil
  | @cons m n below below' beside beside' body leaf inner outer ihb ihs =>
    have hnotes : m.body.notes? = n.body.notes? := by rw [body, Body.notes?_settled]
    have htype : m.type = n.type := by rw [Node.type, body, Body.type_settled, Node.type]
    exact .cons (header_copied body leaf) hnotes htype ihb ihs

/-- **A tree and its copy have one source.** -/
theorem canonical_of_copies {t u : Table} (h : u.forest.Copies t.forest) :
    Format.canonical u = Format.canonical t :=
  Format.source_eq_of_writtenAlike (writtenAlike_of_copies h) .default

theorem legible_of_copies {t u : Table} (h : u.forest.Copies t.forest) (ht : Legible t) :
    Legible u where
  alone := by
    rw [(writtenAlike_of_copies h).lines_eq]
    exact ht.alone
  free := by
    intro m hm hstep
    obtain ⟨n, hn, hbody, hleaf⟩ := h.exists_node hm
    rw [header_copied hbody hleaf]
    apply ht.free n hn
    rw [Node.type, hbody, Body.type_settled] at hstep
    exact hstep

/-! ## The same complaints -/

theorem redeclaration_settled (scope : Scope) (b : Body) :
    State.redeclaration scope b.settled = State.redeclaration scope b := by
  simp only [State.redeclaration, Body.declaredName?_settled, Body.type_settled]

/-- **A tree and its copy are complained about the same.** -/
theorem complaintsIn_of_copies (h : g.Copies f) (scope : Scope) :
    complaintsIn scope g = complaintsIn scope f := by
  induction h generalizing scope with
  | nil => rfl
  | @cons m n below below' beside beside' body leaf inner outer ihb ihs =>
    have hnil : below = .nil ↔ below' = .nil := by
      cases inner with
      | nil => exact Iff.rfl
      | cons => simp
    have hbelow : complaintsIn (.new m.uid m.type) below = complaintsIn (.new n.uid n.type) below' := by
      rw [ihb]
      exact complaintsIn_congr (by rfl) below'
    have hdeclared : (scope.extended m.uid m.body).declared =
        (scope.extended n.uid n.body).declared := by
      simp only [Scope.extended, body, Body.declaredName?_settled]
    rw [complaintsIn, complaintsIn, hbelow, ihs, complaintsIn_congr hdeclared beside', body,
      redeclaration_settled, announces_copied body leaf]
    simp only [hnil]

/-! ## Reading -/

section

variable {t : Table} (hvalid : t.validate = .ok ()) (hnumber : ∀ i n, t.get? i = some n → n.uid = i)
  (hg : t.Grammatical) (hw : ∀ n ∈ t.forest.nodes, Writable n.body.settled)

include hvalid hnumber hg hw

/-- **A legible tree is read back as its copy**, if it is accepted, the grammar allows it and its
bodies can be written. There are no warnings, and the complaints are those about the tree. -/
theorem reads_copy (h : Legible t) :
    ∃ rows scanned parsed, Lawful rows ∧ (Table.ofRows rows).forest.Copies t.forest ∧
      tokenize (Format.canonical t) = .ok scanned ∧ scanned.warnings = [] ∧
      parse scanned.tokens = .ok parsed ∧
      parsed.table.unnumbered = (Table.ofRows rows).unnumbered ∧
      parsed.findings.map Finding.complaint = complaintsIn (.new 0 .root) t.forest := by
  obtain ⟨rows, hlawful, hcopies⟩ := Table.exists_copy hvalid hnumber hg
  have hrows : ∀ r ∈ rows, Writable r.body := by
    intro r hr
    have hmem : r.body ∈ (Table.ofRows rows).forest.nodes.map Node.body := by
      rw [Table.bodies_forest hlawful.climbing, List.mem_reverse]
      exact List.mem_map_of_mem hr
    obtain ⟨m, hm, hbody⟩ := List.mem_map.mp hmem
    obtain ⟨n, hn, hsettled, -⟩ := hcopies.exists_node hm
    rw [← hbody, hsettled]
    exact hw n hn
  obtain ⟨scanned, parsed, hscanned, hwarnings, hparsed, htable, hfindings⟩ :=
    reads_written hlawful hrows (legible_of_copies hcopies h)
  rw [canonical_of_copies hcopies] at hscanned
  rw [complaintsIn_of_copies hcopies] at hfindings
  exact ⟨rows, scanned, parsed, hlawful, hcopies, hscanned, hwarnings, hparsed, htable, hfindings⟩

/-- **A legible tree is read back with its structure**, if its parameters have all the references. What
is read is a copy, so bases and parameters keep their order too. -/
theorem reads_accepted (hsettles : ∀ n ∈ t.forest.nodes, n.body.Settles) (h : Legible t) :
    ∃ scanned parsed, tokenize (Format.canonical t) = .ok scanned ∧ scanned.warnings = [] ∧
      parse scanned.tokens = .ok parsed ∧ parsed.table.sameStructure t = true ∧
      parsed.table.forest.Copies t.forest ∧
      parsed.findings.map Finding.complaint = complaintsIn (.new 0 .root) t.forest := by
  obtain ⟨rows, scanned, parsed, hlawful, hcopies, hscanned, hwarnings, hparsed, htable, hfindings⟩ :=
    reads_copy hvalid hnumber hg hw h
  have hforest : parsed.table.forest.unnumbered = (Table.ofRows rows).forest.unnumbered := by
    rw [← Table.forest_unnumbered, htable, Table.forest_unnumbered]
  exact ⟨scanned, parsed, hscanned, hwarnings, hparsed,
    Table.sameStructure_of_copies hvalid hnumber hsettles hlawful hcopies htable,
    hcopies.of_unnumbered hforest, hfindings⟩

end

end IntentCode.Parser
