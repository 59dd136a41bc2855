import IntentCode.Command.Options
import IntentCode.Proofs.Text.Pieces

/-!
# The file that a project path names

A path names a file by the way to it. Read without looking at the disk, `.` stays where it is and `..` goes
back over the name before it (`place`), so a path that is joined to a directory is read on from there
(`place_join`).

The project path of a file keeps the names behind the root and drops every `..` among them. Joined to the
root it names the same file exactly if none of those would have gone back over a name, which is if there is
none or if the root is that of the disk (`place_projectPath_iff`).
-/

set_option autoImplicit false

namespace IntentCode

namespace UnixPath

/-! ## Reading a path -/

/-- Where a component leads from the end of a list of names. At the root of the disk `..` stays there. -/
def enter (names : List String) : Component → List String
  | .root => []
  | .here => names
  | .up => names.dropLast
  | .name text => names ++ [text]

/-- The names on the way from the root of the disk to what an absolute path names. -/
def place (path : String) : List String := (components path).foldl enter []

theorem foldl_enter_names (names more : List String) :
    (more.map Component.name).foldl enter names = names ++ more := by
  induction more generalizing names with
  | nil => simp
  | cons name more ih => simp [enter, ih]

/-- The pieces of a path that lead somewhere. -/
def inner (path : String) : List Component := (Text.pieces '/' path).filterMap inner?

theorem components_of_absolute {path : String} (h : isAbsolute path = true) :
    components path = .root :: inner path := by
  rw [components, if_pos h, inner]

/-- A piece that is read as a name is that name, and has no slash in it. -/
theorem of_mem_inner {path : String} {c : Component} (h : c ∈ inner path) :
    c = .up ∨ ∃ text, c = .name text ∧ inner? text = some (.name text) ∧ '/' ∉ text.toList := by
  obtain ⟨piece, hpiece, hinner⟩ := List.mem_filterMap.mp h
  unfold inner? at hinner
  split at hinner
  · cases hinner
  · cases hinner
  · exact .inl (Option.some.inj hinner).symm
  · next hempty hdot hup =>
    obtain ⟨cs, hcs, rfl⟩ := List.mem_map.mp hpiece
    refine .inr ⟨.ofList cs, (Option.some.inj hinner).symm, ?_, ?_⟩
    · rw [inner?]
      exacts [hempty, hdot, hup]
    · rw [String.toList_ofList]
      exact (Text.of_mem_cutAt hcs).1

/-! ## Joined paths -/

theorem inner_slash (base path : String) : inner (base ++ "/" ++ path) = inner base ++ inner path := by
  have hpieces := Text.pieces_joined '/' base path
  rw [inner, show "/" = String.ofList ['/'] from rfl, hpieces, List.filterMap_append, inner, inner]

theorem isAbsolute_join {base : String} (h : isAbsolute base = true) (path : String) :
    isAbsolute (join base path) = true := by
  have hhead : base.toList.head? = some '/' := of_decide_eq_true h
  unfold join
  split
  · assumption
  · split <;> simp [isAbsolute, List.head?_append, hhead]

theorem inner_join {base path : String} (h : isAbsolute base = true) (hpath : isAbsolute path = false) :
    inner (join base path) = inner base ++ inner path := by
  have hempty : base.isEmpty = false := by
    rw [Bool.eq_false_iff, ne_eq, String.isEmpty_iff]
    rintro rfl
    cases h
  rw [join, if_neg (by simp [hpath])]
  by_cases hlast : base.toList.getLast? = some '/'
  · -- the slash that is there already leaves an empty piece, which says nothing
    obtain ⟨front, hfront⟩ := List.getLast?_eq_some_iff.mp hlast
    have hbase : base = .ofList front ++ "/" := String.toList_injective (by simp [hfront])
    have hsame : inner base = inner (.ofList front) := by
      have := inner_slash (.ofList front) ""
      simpa [← hbase, inner, Text.pieces, Text.cutAt, inner?] using this
    rw [if_pos (by simp [hlast]), hbase, inner_slash, ← hsame, hbase]
  · rw [if_neg (by simp [hempty, hlast]), inner_slash]

/-- **A path is read on from the directory to which it is joined.** -/
theorem place_join {base path : String} (h : isAbsolute base = true) (hpath : isAbsolute path = false) :
    place (join base path) = (inner path).foldl enter (place base) := by
  rw [place, components_of_absolute (isAbsolute_join h path), inner_join h hpath, place,
    components_of_absolute h, ← List.cons_append, List.foldl_append]

/-- Names that are read as names, joined, are read as those names. -/
theorem inner_intercalate {names : List String} (hne : names ≠ [])
    (h : ∀ name ∈ names, inner? name = some (.name name) ∧ '/' ∉ name.toList) :
    inner (String.intercalate "/" names) = names.map .name ∧
      isAbsolute (String.intercalate "/" names) = false := by
  have hpieces : Text.pieces '/' (String.intercalate "/" names) = names :=
    Text.pieces_intercalate hne fun name hname => (h name hname).2
  constructor
  · rw [inner, hpieces, List.filterMap_congr fun name hname => (h name hname).1]
    exact congrFun List.filterMap_eq_map names
  · refine decide_eq_false (Text.head?_ne_of_pieces ?_)
    rw [hpieces]
    intro hempty
    cases (h "" hempty).1

/-! ## What a `..` goes back over -/

/-- Every `..` that is met stands at the root of the disk, where it leaves nothing. -/
def LeavesNothing (names : List String) : List Component → Prop
  | [] => True
  | c :: cs => (c = .up → names = []) ∧ LeavesNothing (enter names c) cs

theorem leavesNothing_of_notMem {names : List String} {cs : List Component} (h : .up ∉ cs) :
    LeavesNothing names cs := by
  induction cs generalizing names with
  | nil => trivial
  | cons c cs ih =>
    exact ⟨fun hc => absurd (hc ▸ List.mem_cons_self) h, ih fun hmem => h (List.mem_cons_of_mem c hmem)⟩

theorem length_foldl_enter_le (names : List String) (cs : List Component) :
    (cs.foldl enter names).length ≤ names.length + (cs.filterMap Component.name?).length := by
  induction cs generalizing names with
  | nil => simp
  | cons c cs ih =>
    refine Nat.le_trans (ih (enter names c)) ?_
    cases c <;> simp [enter, Component.name?, List.filterMap_cons]
    omega

/-- **Dropping every `..` makes no difference exactly if each of them leaves nothing.** One that goes back
over a name makes the way shorter, and nothing makes up for it. -/
theorem foldl_enter_eq_iff {names : List String} {cs : List Component} (h : .root ∉ cs) :
    cs.foldl enter names = names ++ cs.filterMap Component.name? ↔ LeavesNothing names cs := by
  induction cs generalizing names with
  | nil => simp [LeavesNothing]
  | cons c cs ih =>
    have hcs : .root ∉ cs := fun hmem => h (List.mem_cons_of_mem c hmem)
    rw [List.foldl_cons, LeavesNothing, ← ih hcs]
    cases c with
    | root => exact absurd List.mem_cons_self h
    | here => simp [enter, Component.name?, List.filterMap_cons]
    | name text => simp [enter, Component.name?]
    | up =>
      cases names with
      | nil => simp [enter, Component.name?, List.filterMap_cons]
      | cons first names =>
        have hshorter := length_foldl_enter_le (first :: names).dropLast cs
        refine iff_of_false (fun heq => ?_) fun hup => List.cons_ne_nil _ _ (hup.1 rfl)
        have hlength := congrArg List.length heq
        simp only [enter, Component.name?, List.filterMap_cons, List.length_append, List.length_cons,
          List.length_dropLast] at hlength hshorter
        omega

end UnixPath

/-! ## The paths of a project -/

namespace Command.CheckOptions

open UnixPath (Component isAbsolute place inner LeavesNothing)

/-- The directory that project paths start from. -/
def rootPath (o : CheckOptions) (cwd : String) : String := UnixPath.join cwd (o.root.getD ".")

/-- What follows the root on the way to a file that is taken to be in it. There is a name in that. -/
def behindRoot? (o : CheckOptions) (cwd path : String) : Option (List Component) :=
  (UnixPath.stripStart? (UnixPath.join cwd path) (o.rootPath cwd)).filter fun behind =>
    !(behind.filterMap Component.name?).isEmpty

theorem behindRoot?_eq_some_iff {o : CheckOptions} {cwd path : String} {behind : List Component} :
    o.behindRoot? cwd path = some behind ↔
      UnixPath.components (o.rootPath cwd) ++ behind = UnixPath.components (UnixPath.join cwd path) ∧
        behind.filterMap Component.name? ≠ [] := by
  rw [behindRoot?, Option.filter_eq_some_iff, UnixPath.stripStart?,
    List.isPrefixOf?_eq_some_iff_append_eq]
  simp

/-- A file that is not taken to be behind the root keeps the path by which it was given. -/
theorem projectPath_of_none {o : CheckOptions} {cwd path : String}
    (h : o.behindRoot? cwd path = none) : o.projectPath cwd path = path := by
  have hempty := Option.filter_eq_none_iff.mp h
  unfold projectPath
  simp only
  split
  · rfl
  · next behind hbehind => rw [if_pos (by simpa using hempty behind hbehind)]

theorem projectPath_of_some {o : CheckOptions} {cwd path : String} {behind : List Component}
    (h : o.behindRoot? cwd path = some behind) :
    o.projectPath cwd path = String.intercalate "/" (behind.filterMap Component.name?) := by
  obtain ⟨hbehind, hnames⟩ := Option.filter_eq_some_iff.mp h
  rw [rootPath] at hbehind
  unfold projectPath
  simp only [hbehind]
  rw [if_neg (by simpa using hnames)]

theorem isAbsolute_rootPath {cwd : String} (hcwd : isAbsolute cwd = true) (o : CheckOptions) :
    isAbsolute (o.rootPath cwd) = true :=
  UnixPath.isAbsolute_join hcwd _

/-- What follows the root is part of what the joined path says. -/
theorem mem_inner_of_behindRoot? {o : CheckOptions} {cwd path : String} {behind : List Component}
    (hcwd : isAbsolute cwd = true) (h : o.behindRoot? cwd path = some behind) :
    ∀ c ∈ behind, c ∈ inner (UnixPath.join cwd path) := by
  intro c hc
  have hjoined := (behindRoot?_eq_some_iff.mp h).1
  rw [UnixPath.components_of_absolute (isAbsolute_rootPath hcwd o),
    UnixPath.components_of_absolute (UnixPath.isAbsolute_join hcwd path), List.cons_append,
    List.cons_inj_right] at hjoined
  rw [← hjoined]
  exact List.mem_append_right _ hc

/-- The input is read on from the root. -/
theorem place_join_of_behindRoot? {o : CheckOptions} {cwd path : String} {behind : List Component}
    (h : o.behindRoot? cwd path = some behind) :
    place (UnixPath.join cwd path) = behind.foldl UnixPath.enter (place (o.rootPath cwd)) := by
  rw [place, ← (behindRoot?_eq_some_iff.mp h).1, List.foldl_append, place]

/-- **The project path leads from the root over the names behind it.** -/
theorem place_join_projectPath {o : CheckOptions} {cwd path : String} {behind : List Component}
    (hcwd : isAbsolute cwd = true) (h : o.behindRoot? cwd path = some behind) :
    place (UnixPath.join (o.rootPath cwd) (o.projectPath cwd path)) =
      place (o.rootPath cwd) ++ behind.filterMap Component.name? := by
  have hnames : ∀ name ∈ behind.filterMap Component.name?,
      UnixPath.inner? name = some (.name name) ∧ '/' ∉ name.toList := by
    intro name hname
    obtain ⟨c, hc, hname⟩ := List.mem_filterMap.mp hname
    rcases UnixPath.of_mem_inner (mem_inner_of_behindRoot? hcwd h c hc) with rfl | ⟨text, rfl, htext⟩
    · cases hname
    · obtain rfl := Option.some.inj hname
      exact htext
  obtain ⟨hinner, hrelative⟩ :=
    UnixPath.inner_intercalate (behindRoot?_eq_some_iff.mp h).2 hnames
  rw [projectPath_of_some h, UnixPath.place_join (isAbsolute_rootPath hcwd o) hrelative, hinner,
    UnixPath.foldl_enter_names]

/-- **A project path names the file that was meant exactly if no `..` behind the root goes back over a
name.** That is so if there is none behind it, and where the root is that of the disk also if there are
some at the front. The path of a file that is not behind the root stays as it was given. -/
theorem place_projectPath_iff (o : CheckOptions) {cwd : String} (hcwd : isAbsolute cwd = true)
    (path : String) :
    (o.behindRoot? cwd path = none → o.projectPath cwd path = path) ∧
      ∀ behind, o.behindRoot? cwd path = some behind →
        (place (UnixPath.join (o.rootPath cwd) (o.projectPath cwd path)) =
            place (UnixPath.join cwd path) ↔
          LeavesNothing (place (o.rootPath cwd)) behind) ∧
        (.up ∉ behind → LeavesNothing (place (o.rootPath cwd)) behind) := by
  refine ⟨projectPath_of_none, fun behind h => ⟨?_, UnixPath.leavesNothing_of_notMem⟩⟩
  have hroot : .root ∉ behind := by
    intro hmem
    rcases UnixPath.of_mem_inner (mem_inner_of_behindRoot? hcwd h _ hmem) with hc | ⟨text, hc, -⟩ <;>
      cases hc
  rw [place_join_projectPath hcwd h, place_join_of_behindRoot? h, eq_comm,
    UnixPath.foldl_enter_eq_iff hroot]

/-- Options that set nothing but the root. -/
def rootedAt (root : Option String) : CheckOptions := ⟨"main.ibc", [], root, none, false⟩

theorem place_projectPath_shapes :
    let o := rootedAt (some "./src/")
    let cwd := "/home/../u"
    let inside := "src//shapes/./ball.ibc"
    let beside := "src/../lib/ball.ibc"
    (o.behindRoot? cwd inside = some [.name "shapes", .name "ball.ibc"] ∧
        place (UnixPath.join (o.rootPath cwd) (o.projectPath cwd inside)) =
          place (UnixPath.join cwd inside)) ∧
      (o.behindRoot? cwd beside = some [.up, .name "lib", .name "ball.ibc"] ∧
        place (UnixPath.join (o.rootPath cwd) (o.projectPath cwd beside)) ≠
          place (UnixPath.join cwd beside)) ∧
      o.behindRoot? cwd "lib/ball.ibc" = none ∧ o.projectPath cwd "lib/ball.ibc" = "lib/ball.ibc" := by
  intro o cwd inside beside
  have hcwd : isAbsolute cwd = true := by decide +kernel
  have hinside : o.behindRoot? cwd inside = some [.name "shapes", .name "ball.ibc"] := by
    decide +kernel
  have hbeside : o.behindRoot? cwd beside = some [.up, .name "lib", .name "ball.ibc"] := by
    decide +kernel
  have hlib : o.behindRoot? cwd "lib/ball.ibc" = none := by decide +kernel
  have hnames := (place_projectPath_iff o hcwd inside).2 _ hinside
  refine ⟨⟨hinside, hnames.1.mpr (hnames.2 (by decide))⟩, ⟨hbeside, fun hsame => ?_⟩, hlib,
    (place_projectPath_iff o hcwd _).1 hlib⟩
  -- the `..` stands behind the names of the root
  have hroot := (((place_projectPath_iff o hcwd beside).2 _ hbeside).1.mp hsame).1 rfl
  exact absurd hroot (by decide +kernel)

/-- A file beside the root is taken for one in it, and its project path names another file. -/
theorem beside_taken_for_behind :
    let o := rootedAt none
    o.behindRoot? "/home/u/proj" "../ball.ibc" = some [.up, .name "ball.ibc"] ∧
      o.projectPath "/home/u/proj" "../ball.ibc" = "ball.ibc" ∧
      place (UnixPath.join (o.rootPath "/home/u/proj") "ball.ibc") = ["home", "u", "proj", "ball.ibc"] ∧
      place (UnixPath.join "/home/u/proj" "../ball.ibc") = ["home", "u", "ball.ibc"] := by
  decide +kernel

end Command.CheckOptions

end IntentCode
