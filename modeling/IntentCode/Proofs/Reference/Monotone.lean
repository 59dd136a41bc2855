import IntentCode.Proofs.Reference.Imported

/-!
# References in a larger scope

Looking up asks whether there is a key at a path and whether a package is listed. So a scope that has
more keys and lists more packages (`Within`) accepts every reference that the smaller one accepts, and
reports what is left with the same fault: only the suggestions can differ. The faults of one reference are
compared first (`fault_of_within`), then the references of a file in their order (`resolve_sublist`).
-/

set_option autoImplicit false

namespace IntentCode.Reference

open Ast

/-- The imports of `s`, with the keys and the external packages of `s` and perhaps more. -/
structure Scope.Within (s s' : Scope) : Prop where
  imports : s.imports = s'.imports
  keys : ∀ k ∈ s.view.metadata.keys, k ∈ s'.view.metadata.keys
  external : ∀ lib ∈ s.external, lib ∈ s'.external

/-! ## One reference -/

section

variable {s s' : Scope} (h : s.Within s')

include h

theorem has_of_within {path : String} (hpath : s.has path = true) : s'.has path = true := by
  rw [Scope.has, OrderedMap.contains_eq_true] at hpath ⊢
  exact h.keys path hpath

theorem isExternal_of_within {package : String} (hlisted : s.isExternal package = true) :
    s'.isExternal package = true := by
  rw [Scope.isExternal, List.contains_iff_mem] at hlisted ⊢
  exact h.external package hlisted

/-- What is accepted for its package or its path stays accepted. -/
theorem accepted_of_within {package path : String}
    (haccepted : ¬ (s'.isExternal package || s'.has path) = true) :
    ¬ (s.isExternal package || s.has path) = true := by
  rw [Bool.or_eq_true, not_or] at haccepted ⊢
  exact haccepted.imp (mt (isExternal_of_within h)) (mt (has_of_within h))

variable {config : Config} {t : Table} {uid : Nat} {raw first : String} {rest : List String}
  {fault : Fault}

theorem checkSelf_of_within
    (hfault : (checkSelf config t s' uid raw rest).map Issue.fault = some fault) :
    (checkSelf config t s uid raw rest).map Issue.fault = some fault := by
  unfold checkSelf at hfault ⊢
  cases hclass : t.enclosingClass? uid with
  | none => simpa only [hclass] using hfault
  | some c =>
    cases hmember : rest.head? with
    | none => simp [hclass, hmember] at hfault
    | some member =>
      cases hpath : t.symbolPath? c.uid with
      | none => simp [hclass, hmember, hpath] at hfault
      | some path =>
        simp only [hclass, hmember, hpath, Option.bind_eq_bind, Option.bind_some] at hfault ⊢
        split at hfault
        · cases hfault
        · next hmissing =>
          rw [if_neg (mt (has_of_within h) hmissing)]
          exact hfault

theorem checkImport_of_within {i : Import}
    (hfault : (checkImport config s' raw first i rest).map Issue.fault = some fault) :
    (checkImport config s raw first i rest).map Issue.fault = some fault := by
  unfold checkImport at hfault ⊢
  dsimp only at hfault ⊢
  split at hfault
  · cases hfault
  · next hrefused =>
    rw [if_neg (accepted_of_within h hrefused)]
    exact hfault

theorem checkPath_of_within
    (hfault : (checkPath config s' raw first rest).map Issue.fault = some fault) :
    (checkPath config s raw first rest).map Issue.fault = some fault := by
  unfold checkPath at hfault ⊢
  split at hfault
  · cases hfault
  · next hrefused =>
    rw [if_neg (accepted_of_within h hrefused)]
    exact hfault

/-- **What is wrong in the larger scope is wrong in the smaller one**, for the same reason. -/
theorem fault_of_within (hfault : (check config t s' uid raw).map Issue.fault = some fault) :
    (check config t s uid raw).map Issue.fault = some fault := by
  unfold check at hfault ⊢
  split at hfault
  · exact checkSelf_of_within h hfault
  · exact hfault
  · exact hfault
  · rw [h.imports]
    split at hfault
    · exact checkImport_of_within h hfault
    · exact checkPath_of_within h hfault

end

/-! ## All references of a file -/

/-- A filter that gives less, and nothing else, gives a sublist. -/
theorem sublist_filterMap {α β : Type} {f g : α → Option β} (h : ∀ a b, g a = some b → f a = some b)
    (as : List α) : (as.filterMap g).Sublist (as.filterMap f) := by
  induction as with
  | nil => exact .refl _
  | cons a as ih =>
    cases hg : g a with
    | none =>
      rw [List.filterMap_cons_none hg]
      exact ih.trans ((List.sublist_cons_self a as).filterMap f)
    | some b =>
      rw [List.filterMap_cons_some hg, List.filterMap_cons_some (h a b hg)]
      exact ih.cons_cons b

/-- The code, the line and the message of what is reported for a fault. -/
def Fault.key (n : Node) (fault : Fault) : Diagnostic.Key := ⟨fault.code, n.line, fault.message⟩

/-- **A larger scope reports no more, and nothing else**: more symbols and more external packages only
take away from what is reported. -/
theorem resolve_sublist {s s' : Scope} (h : s.Within s') (config : Config) (t : Table) :
    ((resolve config t s').map Diagnostic.key).Sublist
      ((resolve config t s).map Diagnostic.key) := by
  have hkeys : ∀ u : Scope, (resolve config t u).map Diagnostic.key =
      (sites t).filterMap fun site =>
        ((check config t u site.1.uid site.2).map Issue.fault).map (Fault.key site.1) := by
    intro u
    rw [resolve_eq, List.map_filterMap]
    refine List.filterMap_congr fun site _ => ?_
    simp only [issueAt?, Option.map_map]
    rfl
  rw [hkeys, hkeys]
  refine sublist_filterMap (fun site key hkey => ?_) (sites t)
  obtain ⟨fault, hfault, hsame⟩ := Option.map_eq_some_iff.mp hkey
  exact Option.map_eq_some_iff.mpr ⟨fault, fault_of_within h hfault, hsame⟩

/-- A file that asks for a name in each of four modules. -/
def fourModules : String :=
  "module d\nfunc f:\n    go $a.x$, $b.x$, $c.x$, $d.x$\n"

/-- The imports of that file and two of its modules. -/
def narrow (t : Table) : Scope where
  view := ⟨.empty, .ofList [("a.x", .folder none), ("b", .file none)]⟩
  imports := .ofAst t
  external := []
  related := ["./a.ibc"]

/-- The same imports with one more key and one package. -/
def wide (t : Table) : Scope where
  view := ⟨.empty, .ofList [("b", .folder none), ("d.x", .file none), ("a.x", .file none)]⟩
  imports := .ofAst t
  external := ["c"]
  related := []

theorem resolve_wide_sublist_narrow :
    ∃ t ∈ Parser.read? fourModules, (narrow t).Within (wide t) ∧
      ((resolve .default t (wide t)).map Diagnostic.key).map Diagnostic.Key.code =
        [.unknownModule] ∧
      ((resolve .default t (narrow t)).map Diagnostic.key).map Diagnostic.Key.code =
        [.unknownModule, .unknownModule, .unknownSymbol] ∧
      ((resolve .default t (wide t)).map Diagnostic.key).Sublist
        ((resolve .default t (narrow t)).map Diagnostic.key) := by
  have hread : ∃ t ∈ Parser.read? fourModules,
      ((resolve .default t (wide t)).map Diagnostic.key).map Diagnostic.Key.code =
        [.unknownModule] ∧
      ((resolve .default t (narrow t)).map Diagnostic.key).map Diagnostic.Key.code =
        [.unknownModule, .unknownModule, .unknownSymbol] := by
    decide +kernel
  obtain ⟨t, ht, hwide, hnarrow⟩ := hread
  have hwithin : (narrow t).Within (wide t) :=
    { imports := rfl
      keys := by
        change ∀ k ∈ ["a.x", "b"], k ∈ ["b", "d.x", "a.x"]
        decide
      external := by simp [narrow] }
  exact ⟨t, ht, hwithin, hwide, hnarrow, resolve_sublist hwithin .default t⟩

end IntentCode.Reference
