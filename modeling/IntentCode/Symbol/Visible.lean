import IntentCode.Project.Layout
import IntentCode.Symbol.Metadata

/-!
# What a file can see

A file sees what the files it depends on export, each symbol under the path of its file, and all of
its own symbols at the root:

```
dependency src/utils/math ──► src ─ utils ─ math ─ what it exports
dependency src/ball        ──► src ─ ball ─ what it exports
the file itself            ──► everything it declares
```

A hidden symbol is not exported, and nothing below it is. The directories and the file itself get
entries of their own. An own symbol replaces everything that a dependency put under the same name.

`exports` lists what a table exports before anything is merged, so that what is exported and where
it ends up can be stated apart.
-/

set_option autoImplicit false

namespace IntentCode

open Project (Layout)

/-! ## What a file exports -/

/-- An exported entry of a file: the names on the way to it, its path in the view, and what it
stands for, if that is recorded. -/
structure Export where
  names : List String
  path : String
  metadata : Option Metadata
deriving DecidableEq, Inhabited

/-- The exports among the entries below `names`. `source` is the path of those entries in the table
of the file, `target` their path in the view. -/
def SymbolTree.exports (metadata : OrderedMap Metadata) (names : List String)
    (source target : String) : SymbolTree → List Export
  | .empty => []
  | .entry name below beside =>
    let sourcePath := SymbolPath.child source name
    let targetPath := SymbolPath.child target name
    let m := metadata.get? sourcePath
    (if (m.map Metadata.isHidden).getD false then []
     else
      ⟨names ++ [name], targetPath, m⟩ ::
        below.exports metadata (names ++ [name]) sourcePath targetPath) ++
      beside.exports metadata names source target

namespace SymbolTable

/-- Adds an exported entry. -/
def addExport (v : SymbolTable) (e : Export) : SymbolTable :=
  { tree := v.tree.ensure e.names
    metadata :=
      match e.metadata with
      | some m => v.metadata.insert e.path m
      | none => v.metadata }

/-! ## Merging -/

/-- The paths of the directories around a file. -/
def folderPaths (segments : List String) : List String :=
  (List.range (segments.length - 1)).map fun i => SymbolPath.join (segments.take (i + 1))

/-- Adds a file that the view depends on. -/
def mergeFile (v : SymbolTable) (segments : List String) (description : Option String)
    (table : SymbolTable) : SymbolTable :=
  let path := SymbolPath.join segments
  let folders := (folderPaths segments).foldl (fun m p => m.insertNew p (.folder none)) v.metadata
  let v : SymbolTable := ⟨v.tree.ensure segments, folders.insert path (.file description)⟩
  (table.tree.exports table.metadata segments "" path).foldl addExport v

/-- Adds a dependency; one without a name or without a table is passed over. -/
def mergeDependency (load : String → Option SymbolTable) (layout : Option Layout)
    (v : SymbolTable) (dependency : String) : SymbolTable :=
  let segments := FilePath.segments dependency
  if segments.isEmpty then v
  else match load dependency with
    | none => v
    | some table => v.mergeFile segments (layout.bind (·.fileDescription? dependency)) table

/-- Puts an own name at the root, in place of whatever is there. -/
def override (v : SymbolTable) (name : String) (below : SymbolTree) : SymbolTable :=
  { tree := v.tree.insert name below
    metadata :=
      if v.tree.contains name then
        v.metadata.filterKeys fun path => path != name && !Text.startsWith path (name ++ ".")
      else v.metadata }

/-- Adds the own symbols of `file`. -/
def mergeLocal (v : SymbolTable) (file : String) (own : SymbolTable) : SymbolTable :=
  let v := own.tree.toList.foldl (fun v e => v.override e.1 e.2) v
  { v with
    metadata :=
      own.metadata.toList.foldl (fun m e => m.insert e.1 (e.2.markLocal file)) v.metadata }

/-- What `file` sees, given its dependencies and its own symbols. -/
def visible (load : String → Option SymbolTable) (layout : Option Layout) (file : String)
    (dependencies : List String) (own : SymbolTable) : SymbolTable :=
  (dependencies.foldl (mergeDependency load layout) .empty).mergeLocal (FilePath.normalize file) own

end SymbolTable

end IntentCode
