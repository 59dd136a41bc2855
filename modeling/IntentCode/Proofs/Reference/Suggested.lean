import IntentCode.Proofs.Symbol.Contents
import IntentCode.Proofs.Text.Ranking
import IntentCode.Reference
import Mathlib.Data.List.Forall2

/-!
# What is suggested

Whether a reference is reported, and what is suggested for it, follows from sets: the keys of the view,
the names at a path of its tree, and the names of the modules. Scopes that agree on those therefore report
the same (`resolve_congr`). Only what the suggestions are described by is looked up in the view, so it is
left out of the comparison (`undescribed`).
-/

set_option autoImplicit false

namespace IntentCode

/-! ## Without the descriptions -/

namespace Diagnostic

/-- The suggested name alone. -/
def Suggestion.bare (s : Suggestion) : Suggestion := { s with description := none }

/-- The same diagnostic, with suggestions that are not described. -/
def undescribed (d : Diagnostic) : Diagnostic :=
  { d with suggestions := d.suggestions.map Suggestion.bare }

/-- Diagnostics that differ at most in the descriptions of their suggestions. -/
structure Alike (d e : Diagnostic) : Prop where
  code : d.code = e.code
  severity : d.severity = e.severity
  message : d.message = e.message
  line : d.line = e.line
  content : d.content = e.content
  notes : d.notes = e.notes
  candidates : d.suggestions.map Suggestion.candidate = e.suggestions.map Suggestion.candidate

theorem alike_of_undescribed_eq {d e : Diagnostic} (h : d.undescribed = e.undescribed) :
    d.Alike e := by
  obtain ⟨code, severity, message, line, content, suggestions, notes⟩ := d
  simp only [undescribed, Diagnostic.mk.injEq] at h
  obtain ⟨hcode, hseverity, hmessage, hline, hcontent, hsuggestions, hnotes⟩ := h
  have hnames := congrArg (List.map Suggestion.candidate) hsuggestions
  rw [List.map_map, List.map_map] at hnames
  exact ⟨hcode, hseverity, hmessage, hline, hcontent, hnotes, hnames⟩

theorem forall₂_alike {ds es : List Diagnostic}
    (h : ds.map undescribed = es.map undescribed) : List.Forall₂ Alike ds es := by
  rw [← List.forall₂_eq_eq_eq, List.forall₂_map_left_iff, List.forall₂_map_right_iff] at h
  exact h.imp fun _ _ => alike_of_undescribed_eq

end Diagnostic

namespace Reference

open Ast
open Diagnostic (Suggestion)

def Issue.undescribed (i : Issue) : Issue :=
  { i with suggestions := i.suggestions.map Suggestion.bare }

theorem Issue.undescribed_diagnostic (t : Table) (n : Node) (i : Issue) :
    (i.diagnostic t n).undescribed = i.undescribed.diagnostic t n := rfl

/-! ## Scopes in which the same is found -/

/-- The same imports and external packages; the same paths and keys in the view and the same related
files, in any order. -/
structure Scope.Agrees (s t : Scope) : Prop where
  view : s.view.Agrees t.view
  imports : s.imports = t.imports
  external : s.external = t.external
  related : ∀ file, file ∈ s.related ↔ file ∈ t.related

/-- Suggestions from the same set of candidates have the same names. -/
theorem bare_rank_congr {candidates others : List String}
    (hsame : ∀ c, c ∈ candidates ↔ c ∈ others) (config : Config) (name : String)
    {f g : String → Suggestion} (hfg : ∀ c, (f c).bare = (g c).bare) :
    ((config.rank name candidates).map f).map Suggestion.bare =
      ((config.rank name others).map g).map Suggestion.bare := by
  have hrank : config.rank name candidates = config.rank name others :=
    Text.rank_congr hsame name config.minSimilarity config.maxSuggestions
  rw [hrank, List.map_map, List.map_map]
  exact List.map_congr_left fun c _ => hfg c

section

variable {s t : Scope} (h : s.Agrees t)

include h

theorem has_congr (path : String) : s.has path = t.has path := by
  unfold Scope.has
  rw [Bool.eq_iff_iff, OrderedMap.contains_eq_true, OrderedMap.contains_eq_true]
  exact h.view.keys path

theorem isExternal_congr (package : String) : s.isExternal package = t.isExternal package := by
  unfold Scope.isExternal
  rw [h.external]

/-- The names at the end of a path are the same, in any order. -/
theorem mem_names_congr (path : List String) (name : String) :
    name ∈ ((s.view.tree.getPath? path).map SymbolTree.names).getD [] ↔
      name ∈ ((t.view.tree.getPath? path).map SymbolTree.names).getD [] := by
  have hmem : ∀ u : SymbolTree, name ∈ ((u.getPath? path).map SymbolTree.names).getD [] ↔
      u.Reaches (path ++ [name]) := by
    intro u
    rw [SymbolTree.reaches_concat]
    cases u.getPath? path <;> simp
  rw [hmem, hmem, h.view.tree]

theorem mem_modules_congr (name : String) :
    name ∈ s.modules.map Prod.fst ↔ name ∈ t.modules.map Prod.fst := by
  have hrelated : ∀ (u : Scope), name ∈ u.modules.map Prod.fst ↔
      name ∈ u.imports.byAlias.keys ∨ name ∈ u.external ∨
        ∃ file ∈ u.related, (FilePath.segments file).getLast? = some name := by
    intro u
    simp [Scope.modules, OrderedMap.keys, List.mem_map, List.mem_filterMap]
  rw [hrelated, hrelated, h.imports, h.external]
  simp only [h.related]

/-! ## What is suggested -/

theorem memberSuggestions_congr (config : Config) (path member : String) :
    (memberSuggestions config s path member).map Suggestion.bare =
      (memberSuggestions config t path member).map Suggestion.bare := by
  unfold memberSuggestions
  exact bare_rank_congr (mem_names_congr h (SymbolPath.names path)) config member fun _ => rfl

theorem symbolSuggestions_congr (config : Config) (first path wanted : String) :
    (symbolSuggestions config s first path wanted).map Suggestion.bare =
      (symbolSuggestions config t first path wanted).map Suggestion.bare := by
  unfold symbolSuggestions
  refine bare_rank_congr (fun name => ?_) config wanted fun _ => rfl
  simp only [List.mem_filterMap, h.view.keys]

theorem moduleSuggestions_congr (config : Config) (first : String) :
    (moduleSuggestions config s first).map Suggestion.bare =
      (moduleSuggestions config t first).map Suggestion.bare := by
  unfold moduleSuggestions
  exact bare_rank_congr (mem_modules_congr h) config first fun _ => rfl

/-! ## What is reported -/

theorem checkSelf_congr (config : Config) (table : Table) (uid : Nat) (raw : String)
    (rest : List String) :
    (checkSelf config table s uid raw rest).map Issue.undescribed =
      (checkSelf config table t uid raw rest).map Issue.undescribed := by
  unfold checkSelf
  cases table.enclosingClass? uid with
  | none => rfl
  | some c =>
    cases rest with
    | nil => rfl
    | cons member rest =>
      cases hpath : table.symbolPath? c.uid with
      | none => simp only [hpath, Option.bind_eq_bind, Option.bind_none, Option.bind_fun_none]
      | some path =>
        simp only [hpath, List.head?_cons, Option.bind_eq_bind, Option.bind_some, has_congr h]
        split
        · rfl
        · simp only [Option.map_some, Issue.undescribed, memberSuggestions_congr h]

theorem checkImport_congr (config : Config) (raw first : String) (i : Import)
    (rest : List String) :
    (checkImport config s raw first i rest).map Issue.undescribed =
      (checkImport config t raw first i rest).map Issue.undescribed := by
  unfold checkImport
  simp only [has_congr h, isExternal_congr h]
  split
  · rfl
  · simp only [Option.map_some, Issue.undescribed, symbolSuggestions_congr h]

theorem checkPath_congr (config : Config) (raw first : String) (rest : List String) :
    (checkPath config s raw first rest).map Issue.undescribed =
      (checkPath config t raw first rest).map Issue.undescribed := by
  unfold checkPath
  simp only [has_congr h, isExternal_congr h]
  split
  · rfl
  · simp only [Option.map_some, Issue.undescribed, moduleSuggestions_congr h]

theorem check_congr (config : Config) (table : Table) (uid : Nat) (raw : String) :
    (check config table s uid raw).map Issue.undescribed =
      (check config table t uid raw).map Issue.undescribed := by
  unfold check
  split
  · exact checkSelf_congr h config table uid raw _
  · rfl
  · rfl
  · rw [h.imports]
    split
    · exact checkImport_congr h config raw _ _ _
    · exact checkPath_congr h config raw _ _

/-- **Scopes that agree report the same**, up to the descriptions of what is suggested. -/
theorem resolve_congr (config : Config) (table : Table) :
    (resolve config table s).map Diagnostic.undescribed =
      (resolve config table t).map Diagnostic.undescribed := by
  have hsite : ∀ (u : Scope) (n : Node) (raw : String),
      ((check config table u n.uid raw).map (Issue.diagnostic table n)).map
          Diagnostic.undescribed =
        ((check config table u n.uid raw).map Issue.undescribed).map
          (Issue.diagnostic table n) := by
    intro u n raw
    rw [Option.map_map, Option.map_map]
    exact Option.map_congr fun i _ => i.undescribed_diagnostic table n
  unfold resolve
  simp only [List.map_flatMap, List.map_filterMap, hsite, check_congr h]

end

end Reference

end IntentCode
