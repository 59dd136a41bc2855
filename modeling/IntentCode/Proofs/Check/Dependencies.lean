import IntentCode.Proofs.Check.Limits
import IntentCode.Proofs.Reference.Suggested

/-!
# The order of the dependencies

Dependencies are merged one after the other, and a later one may write over an earlier one. A report shows
that in one place only: where two dependencies describe a symbol that is suggested, it is the later that
describes it. All else is the same for every list of the same dependencies (`file_anyOrder`).

The queue is no obstacle. Whether it refuses a diagnostic depends on its code, line and message, so the
descriptions can be left out before or after it (`undescribed_recordAll`).
-/

set_option autoImplicit false

namespace IntentCode

open Diagnostic (sortByLine)

/-! ## The queue -/

namespace Diagnostic

theorem sortByLine_undescribed (ds : List Diagnostic) :
    sortByLine (ds.map undescribed) = (sortByLine ds).map undescribed := by
  refine (List.map_mergeSort fun a _ b _ => ?_).symm
  rfl

namespace Queue

def undescribed (q : Queue) : Queue := { q with held := q.held.map Diagnostic.undescribed }

theorem undescribed_record (q : Queue) (d : Diagnostic) :
    (q.record d).undescribed = q.undescribed.record d.undescribed := by
  have herror : d.undescribed.isError = d.isError := rfl
  have hlimit : q.undescribed.limitReached = q.limitReached := rfl
  have hkey : d.undescribed.key = d.key := rfl
  have hconfig : q.undescribed.config = q.config := rfl
  have hseen : q.undescribed.seen = q.seen := rfl
  unfold record add
  rw [herror, hlimit, hkey, hconfig, hseen]
  split
  · rfl
  · split
    · rfl
    · simp only [undescribed, List.map_append, List.map_cons, List.map_nil]

theorem undescribed_recordAll (q : Queue) (ds : List Diagnostic) :
    (q.recordAll ds).undescribed = q.undescribed.recordAll (ds.map Diagnostic.undescribed) := by
  induction ds generalizing q with
  | nil => rfl
  | cons d ds ih => rw [List.map_cons, recordAll_cons, recordAll_cons, ih, undescribed_record]

end Queue

end Diagnostic

/-! ## One file -/

namespace Check

open Diagnostic (Queue)

theorem Session.agrees_scope {dependencies others : List String}
    (h : ∀ d, d ∈ dependencies ↔ d ∈ others) (s : Session) (path : String) (tree : Ast.Table)
    (own : SymbolTable) :
    (s.scope path tree own dependencies).Agrees (s.scope path tree own others) where
  view := SymbolTable.agrees_visible h s.load s.layout path own
  imports := rfl
  external := rfl
  related := h

/-- **The order of the dependencies does not matter**, nor does it matter whether one is repeated. The file
fails in the same way, or its tree and its symbols are the same, and its diagnostics are the same one by
one except for the descriptions of what they suggest. -/
theorem file_anyOrder {dependencies others : List String}
    (h : ∀ d, d ∈ dependencies ↔ d ∈ others) (s : Session) (path source : String) :
    (∃ e, parse path source = .error e ∧ file s path source dependencies = .error e ∧
        file s path source others = .error e) ∨
      ∃ (report : Report) (diagnostics : List Diagnostic),
        file s path source dependencies = .ok report ∧
        file s path source others = .ok { report with diagnostics } ∧
        List.Forall₂ Diagnostic.Alike report.diagnostics diagnostics := by
  obtain ⟨scanned, parsed, hlex, hparse⟩ | ⟨e, hread, -⟩ := exists_of_parse path source
  · right
    have hfound : (found s path scanned parsed dependencies).map Diagnostic.undescribed =
        (found s path scanned parsed others).map Diagnostic.undescribed := by
      rw [found, found, List.map_append, List.map_append,
        Reference.resolve_congr (s.agrees_scope h path parsed.table _)]
    have hheld : ((Queue.new s.config.queue).recordAll
          (found s path scanned parsed dependencies)).undescribed =
        ((Queue.new s.config.queue).recordAll (found s path scanned parsed others)).undescribed := by
      rw [Queue.undescribed_recordAll, Queue.undescribed_recordAll, hfound]
    refine ⟨_, _, file_eq_found hlex hparse s path dependencies,
      file_eq_found hlex hparse s path others, Diagnostic.forall₂_alike ?_⟩
    rw [← Diagnostic.sortByLine_undescribed, ← Diagnostic.sortByLine_undescribed]
    exact congrArg (fun q => sortByLine q.held) hheld
  · exact .inl ⟨e, hread, file_eq_error hread s dependencies, file_eq_error hread s others⟩

/-- A class that is described by the path under which it is looked up. -/
def spelledBall (path : String) : SymbolTable where
  tree := .entry "Ball" .empty .empty
  metadata := .ofList [("Ball", .ofClass ⟨.exposed, path, "", .foreign⟩ .empty)]

def spellingSession : Session := ⟨fun path => some (spelledBall path), none, .default⟩

/-- A file that asks for a class by a name that is close to that of the class. -/
def ballMisspelled : String := "module src.ball\nfunc f:\n    roll $ball.Bal$\n"

theorem anyOrder_spellings :
    (∀ d, d ∈ ["src/ball", "./src/ball"] ↔ d ∈ ["./src/ball", "./src/ball", "src/ball"]) ∧
      (SymbolTable.visible spellingSession.load none "main" ["src/ball", "./src/ball"]
          .empty).metadata.get? "src.ball.Ball" ≠
        (SymbolTable.visible spellingSession.load none "main" ["./src/ball", "./src/ball", "src/ball"]
          .empty).metadata.get? "src.ball.Ball" ∧
      ∃ (report : Report) (diagnostics : List Diagnostic),
        file spellingSession "main" ballMisspelled ["src/ball", "./src/ball"] = .ok report ∧
        file spellingSession "main" ballMisspelled ["./src/ball", "./src/ball", "src/ball"] =
          .ok { report with diagnostics } ∧
        report.diagnostics.map Diagnostic.code = [.unknownSymbol] ∧
        List.Forall₂ Diagnostic.Alike report.diagnostics diagnostics := by
  have hsame : ∀ d,
      d ∈ ["src/ball", "./src/ball"] ↔ d ∈ ["./src/ball", "./src/ball", "src/ball"] := by
    intro d
    simp only [List.mem_cons, List.not_mem_nil, or_false]
    constructor
    · rintro (h | h)
      · exact .inr (.inr h)
      · exact .inl h
    · rintro (h | h | h)
      · exact .inr h
      · exact .inr h
      · exact .inl h
  have hcodes : (file spellingSession "main" ballMisspelled ["src/ball", "./src/ball"]).toOption.map
      (fun r => r.diagnostics.map Diagnostic.code) = some [.unknownSymbol] := by
    decide +kernel
  refine ⟨hsame, by decide +kernel, ?_⟩
  obtain ⟨e, -, herror, -⟩ | ⟨report, diagnostics, hreport, hother, halike⟩ :=
    file_anyOrder hsame spellingSession "main" ballMisspelled
  · rw [herror] at hcodes
    cases hcodes
  · rw [hreport] at hcodes
    exact ⟨report, diagnostics, hreport, hother, Option.some.inj hcodes, halike⟩

end Check

end IntentCode
