import IntentCode.Project.Dependencies
import IntentCode.Proofs.OrderedMap
import IntentCode.Proofs.Text.Pieces
import IntentCode.Proofs.Text.Trim
import IntentCode.Symbol.Store
import Mathlib.Data.List.DropRight

/-!
# One form for the spellings of a file path

A path that is normalized twice is not always the same as one that is normalized once: every step only takes
away, and what a later step takes away can uncover what an earlier step looks for. The normal forms that
stay as they are can be told by their ends (`normalize_normalize_iff`).

Nor is it always the same for two paths with the same segments, since empty segments and `.` are dropped
from the segments only. What two spellings agree on is `joined`, the segments put together, and a normal
form is that exactly if it is `Tidy` (`normalize_eq_joined_iff`).

So what is stored under one spelling of a path is found under those that are tidy
(`found_under_spelling_iff`). The spellings that differ in what normalizing is meant to even out, blanks
around them, the separator, `./` at the front and the extension, all are (`normalize_of_spells`).
-/

set_option autoImplicit false

namespace IntentCode

namespace FilePath

open Text (Trimmed)

/-! ## What each step takes away -/

theorem trim_isInfix (cs : List Char) : Text.trim cs <:+: cs :=
  (Text.trimRight_isPrefix _).isInfix.trans (Text.trimLeft_isSuffix cs).isInfix

theorem trim_eq_self_iff {cs : List Char} : Text.trim cs = cs ↔ Trimmed cs :=
  ⟨fun h => h ▸ Text.trimmed_trim cs, Text.trim_of_trimmed⟩

theorem dropHere_isSuffix (cs : List Char) : dropHere cs <:+ cs := by
  fun_induction dropHere cs with
  | case1 cs ih => exact ih.trans (List.suffix_append ['.', '/'] cs)
  | case2 cs h => exact List.suffix_refl cs

theorem dropHere_eq_self_iff {cs : List Char} : dropHere cs = cs ↔ ¬ ['.', '/'] <+: cs := by
  fun_cases dropHere cs with
  | case1 rest =>
    have hlength := (dropHere_isSuffix rest).length_le
    refine ⟨fun h => ?_, fun h => absurd (List.prefix_append ['.', '/'] rest) h⟩
    have := congrArg List.length h
    simp only [List.length_cons] at this
    omega
  | case2 _ h =>
    refine ⟨fun _ => ?_, fun _ => rfl⟩
    rintro ⟨rest, hrest⟩
    exact h rest hrest.symm

theorem dropHere_replicate (here : Nat) (cs : List Char) :
    dropHere ((List.replicate here ['.', '/']).flatten ++ cs) = dropHere cs := by
  induction here with
  | zero => rfl
  | succ here ih =>
    rw [List.replicate_succ, List.flatten_cons, List.append_assoc]
    exact ih

theorem dropExtension_isPrefix (cs : List Char) : dropExtension cs <+: cs := by
  unfold dropExtension
  split
  · exact List.take_prefix _ _
  · exact List.prefix_refl cs

theorem dropExtension_append (cs : List Char) : dropExtension (cs ++ extension) = cs := by
  have hsuffix : extension.isSuffixOf (cs ++ extension) = true :=
    List.isSuffixOf_iff_suffix.mpr (List.suffix_append cs extension)
  rw [dropExtension, if_pos hsuffix, List.length_append, Nat.add_sub_cancel, List.take_left]

theorem dropExtension_eq_self_iff {cs : List Char} : dropExtension cs = cs ↔ ¬ extension <:+ cs := by
  constructor
  · rintro h ⟨front, rfl⟩
    rw [dropExtension_append] at h
    have := congrArg List.length h
    simp [extension] at this
  · intro h
    rw [dropExtension, if_neg (mt List.isSuffixOf_iff_suffix.mp h)]

/-- No slash at either end. -/
def Bare (cs : List Char) : Prop := cs.head? ≠ some '/' ∧ cs.getLast? ≠ some '/'

theorem trimSlashes_eq (cs : List Char) :
    trimSlashes cs = (cs.dropWhile (· = '/')).rdropWhile (· = '/') := rfl

theorem trimSlashes_isInfix (cs : List Char) : trimSlashes cs <:+: cs :=
  (List.rdropWhile_prefix _ _).isInfix.trans (List.dropWhile_suffix _).isInfix

theorem trimSlashes_of_bare {cs : List Char} (h : Bare cs) : trimSlashes cs = cs := by
  have hleft : cs.dropWhile (· = '/') = cs := by
    cases cs with
    | nil => rfl
    | cons c cs => exact List.dropWhile_cons_of_neg (by simpa [Bare] using h.1)
  rw [trimSlashes_eq, hleft, List.rdropWhile_eq_self_iff]
  intro hne hlast
  exact h.2 (by rw [List.getLast?_eq_some_getLast hne, of_decide_eq_true hlast])

theorem bare_trimSlashes (cs : List Char) : Bare (trimSlashes cs) := by
  rw [trimSlashes_eq]
  generalize hleft : cs.dropWhile (· = '/') = left
  constructor
  · intro hhead
    obtain ⟨after, hafter⟩ := List.rdropWhile_prefix (· = '/') left
    have hfirst : left.head? = some '/' := by
      rw [← hafter, List.head?_append, hhead]
      rfl
    have hnot := List.head?_dropWhile_not (· = '/') cs
    rw [hleft, hfirst] at hnot
    simp at hnot
  · intro hlast
    have hne : left.rdropWhile (· = '/') ≠ [] := fun hnil => by simp [hnil] at hlast
    rw [List.getLast?_eq_some_getLast hne, Option.some.injEq] at hlast
    exact List.rdropWhile_last_not (· = '/') left hne (decide_eq_true hlast)

/-- The text with one separator. -/
def unify (cs : List Char) : List Char := cs.map fun c => if c = '\\' then '/' else c

theorem backslash_notMem_unify (cs : List Char) : '\\' ∉ unify cs := by
  intro h
  obtain ⟨c, -, hc⟩ := List.mem_map.mp h
  split at hc
  · cases hc
  · next hne => exact hne hc

theorem unify_eq_self {cs : List Char} (h : '\\' ∉ cs) : unify cs = cs := by
  refine (List.map_congr_left fun c hc => ?_).trans (List.map_id cs)
  have hne : c ≠ '\\' := fun heq => h (heq ▸ hc)
  rw [if_neg hne, id]

/-! ## The normal forms that stay as they are -/

/-- Nothing at either end that normalizing takes away: no blank, no `./` at the front and no extension. -/
structure Settled (path : String) : Prop where
  trimmed : Trimmed path.toList
  start : ¬ ['.', '/'] <+: path.toList
  stem : ¬ extension <:+ path.toList

instance (path : String) : Decidable (Settled path) :=
  decidable_of_iff
    (Text.trim path.toList = path.toList ∧
      ¬ ['.', '/'] <+: path.toList ∧ ¬ extension <:+ path.toList)
    ⟨fun ⟨htrim, start, stem⟩ => ⟨trim_eq_self_iff.mp htrim, start, stem⟩,
      fun h => ⟨trim_eq_self_iff.mpr h.trimmed, h.start, h.stem⟩⟩

theorem toList_normalize (path : String) :
    (normalize path).toList =
      trimSlashes (dropExtension (dropHere (unify (Text.trim path.toList)))) := String.toList_ofList

theorem backslash_notMem_normalize (path : String) : '\\' ∉ (normalize path).toList := by
  rw [toList_normalize]
  exact fun h => backslash_notMem_unify _ ((dropHere_isSuffix _).subset
    ((dropExtension_isPrefix _).subset ((trimSlashes_isInfix _).subset h)))

theorem normalize_of_settled {path : String} (h : Settled path) (hslash : '\\' ∉ path.toList)
    (hbare : Bare path.toList) : normalize path = path := by
  apply String.toList_injective
  rw [toList_normalize, Text.trim_of_trimmed h.trimmed, unify_eq_self hslash,
    dropHere_eq_self_iff.mpr h.start, dropExtension_eq_self_iff.mpr h.stem, trimSlashes_of_bare hbare]

theorem length_unify (cs : List Char) : (unify cs).length = cs.length := List.length_map _

/-- No step adds anything, so none can make up for what another takes away. -/
theorem steps_idle {cs : List Char}
    (h : trimSlashes (dropExtension (dropHere (unify (Text.trim cs)))) = cs) :
    Text.trim cs = cs ∧ dropHere cs = cs ∧ dropExtension cs = cs := by
  have htrim := trim_isInfix cs
  have hhere := dropHere_isSuffix (unify (Text.trim cs))
  have hstem := dropExtension_isPrefix (dropHere (unify (Text.trim cs)))
  have hslashes := trimSlashes_isInfix (dropExtension (dropHere (unify (Text.trim cs))))
  have hlength := congrArg List.length h
  have hunify := length_unify (Text.trim cs)
  have htrimLe := htrim.length_le
  have hhereLe := hhere.length_le
  have hstemLe := hstem.length_le
  have hslashesLe := hslashes.length_le
  have htrim := htrim.eq_of_length (by omega)
  have hhere := hhere.eq_of_length (by omega)
  have hstem := hstem.eq_of_length (by omega)
  have hslashes := hslashes.eq_of_length (by omega)
  have hsame : unify (Text.trim cs) = cs := by rw [← hhere, ← hstem, ← hslashes, h]
  rw [hsame] at hhere hstem
  rw [hhere] at hstem
  exact ⟨htrim, hhere, hstem⟩

theorem settled_of_normalize {path : String} (h : normalize path = path) : Settled path := by
  have hlist := congrArg String.toList h
  rw [toList_normalize] at hlist
  obtain ⟨htrim, hhere, hstem⟩ := steps_idle hlist
  exact ⟨trim_eq_self_iff.mp htrim, dropHere_eq_self_iff.mp hhere, dropExtension_eq_self_iff.mp hstem⟩

/-- **Normalizing twice is normalizing once exactly where a normal form has nothing left to take away.** -/
theorem normalize_normalize_iff (path : String) :
    normalize (normalize path) = normalize path ↔ Settled (normalize path) := by
  refine ⟨settled_of_normalize, fun h => normalize_of_settled h (backslash_notMem_normalize path) ?_⟩
  rw [toList_normalize]
  exact bare_trimSlashes _

/-! ## The normal forms that their segments make up -/

/-- The segments of a path, put together. -/
def joined (path : String) : String := String.intercalate "/" (segments path)

/-- No two slashes in a row and no segment `.`. -/
def Tidy (path : String) : Prop := path = "" ∨ ∀ s ∈ Text.pieces '/' path, s ≠ "" ∧ s ≠ "."

instance (path : String) : Decidable (Tidy path) :=
  inferInstanceAs (Decidable (path = "" ∨ ∀ s ∈ Text.pieces '/' path, s ≠ "" ∧ s ≠ "."))

theorem slash_notMem_segments {path s : String} (h : s ∈ segments path) : '/' ∉ s.toList := by
  obtain ⟨cs, hcs, rfl⟩ := List.mem_map.mp (List.mem_filter.mp h).1
  rw [String.toList_ofList]
  exact (Text.of_mem_cutAt hcs).1

theorem pieces_joined {path : String} (h : segments path ≠ []) :
    Text.pieces '/' (joined path) = segments path :=
  Text.pieces_intercalate h fun _ => slash_notMem_segments

/-- **A normal form is its segments put together exactly if it is tidy.** -/
theorem normalize_eq_joined_iff (path : String) :
    normalize path = joined path ↔ Tidy (normalize path) := by
  constructor
  · intro h
    by_cases hnil : segments path = []
    · exact .inl (by rw [h, joined, hnil, String.intercalate_nil])
    · right
      intro s hs
      rw [h, pieces_joined hnil] at hs
      simpa using (List.mem_filter.mp hs).2
  · rintro (hempty | htidy)
    · rw [joined, segments, hempty]
      decide
    · have hall : segments path = Text.pieces '/' (normalize path) :=
        List.filter_eq_self.mpr fun s hs => by simpa using htidy s hs
      rw [joined, hall]
      exact (Text.intercalate_pieces '/' _).symm

theorem joined_congr {path other : String} (h : segments path = segments other) :
    joined path = joined other := by
  rw [joined, h, joined]

/-- **Of the spellings with the segments of a tidy one, the tidy ones have its normal form.** -/
theorem normalize_eq_iff_tidy {path other : String} (h : segments path = segments other)
    (htidy : Tidy (normalize path)) : normalize other = normalize path ↔ Tidy (normalize other) := by
  rw [← normalize_eq_joined_iff] at htidy ⊢
  rw [htidy, joined_congr h]

/-! ## Spellings that are meant -/

/-- A path of names, written with blanks around it, with either separator, with `./` in front as often as
one likes and with or without the extension. -/
def Spells (path : String) (names : List String) : Prop :=
  ∃ here ending, (ending = [] ∨ ending = extension) ∧
    unify (Text.trim path.toList) =
      (List.replicate here ['.', '/']).flatten ++ ((String.intercalate "/" names).toList ++ ending)

/-- Names of directories and a file that can be read off a path again. -/
structure Spellable (names : List String) : Prop where
  ne : names ≠ []
  each : ∀ name ∈ names, name ≠ "" ∧ name ≠ "." ∧ '/' ∉ name.toList
  settled : Settled (String.intercalate "/" names)

theorem Spellable.pieces {names : List String} (h : Spellable names) :
    Text.pieces '/' (String.intercalate "/" names) = names :=
  Text.pieces_intercalate h.ne fun name hname => (h.each name hname).2.2

/-- An extension at the end brings no `./` to the front. -/
theorem start_append {cs ending : List Char} (h : ¬ ['.', '/'] <+: cs)
    (hending : ending = [] ∨ ending = extension) : ¬ ['.', '/'] <+: cs ++ ending := by
  rcases hending with rfl | rfl
  · rwa [List.append_nil]
  · match cs with
    | [] => decide
    | [c] => simp [extension]
    | c :: d :: cs => simpa using h

/-- **What normalizing is meant to even out it does**: every spelling of names has one normal form, which is
the names put together. -/
theorem normalize_of_spells {path : String} {names : List String} (hnames : Spellable names)
    (h : Spells path names) : normalize path = String.intercalate "/" names := by
  obtain ⟨here, ending, hending, hunified⟩ := h
  have hempty : "" ∉ Text.pieces '/' (String.intercalate "/" names) := by
    rw [hnames.pieces]
    exact fun hmem => (hnames.each "" hmem).1 rfl
  have hstem : dropExtension ((String.intercalate "/" names).toList ++ ending) =
      (String.intercalate "/" names).toList := by
    rcases hending with rfl | rfl
    · rw [List.append_nil, dropExtension_eq_self_iff.mpr hnames.settled.stem]
    · exact dropExtension_append _
  apply String.toList_injective
  rw [toList_normalize, hunified, dropHere_replicate,
    dropHere_eq_self_iff.mpr (start_append hnames.settled.start hending), hstem,
    trimSlashes_of_bare ⟨Text.head?_ne_of_pieces hempty, Text.getLast?_ne_of_pieces hempty⟩]

theorem segments_of_spells {path : String} {names : List String} (hnames : Spellable names)
    (h : Spells path names) : segments path = names := by
  rw [segments, normalize_of_spells hnames h, hnames.pieces, List.filter_eq_self]
  intro name hname
  simpa using ⟨(hnames.each name hname).1, (hnames.each name hname).2.1⟩

theorem tidy_of_spells {path : String} {names : List String} (hnames : Spellable names)
    (h : Spells path names) : Tidy (normalize path) := by
  rw [normalize_of_spells hnames h]
  right
  rw [hnames.pieces]
  exact fun name hname => ⟨(hnames.each name hname).1, (hnames.each name hname).2.1⟩

end FilePath

/-! ## What is kept by path -/

open FilePath (normalize segments Tidy Settled Spellable Spells)

namespace SymbolStore

theorem load?_insert (s : SymbolStore) (path : String) (table : SymbolTable) (other : String) :
    (s.insert path table).load? other =
      if normalize other = normalize path then some table else s.load? other :=
  OrderedMap.get?_insert _ _ _ _

theorem contains_insert (s : SymbolStore) (path : String) (table : SymbolTable) (other : String) :
    (s.insert path table).contains other = true ↔
      normalize other = normalize path ∨ s.contains other = true := by
  unfold contains SymbolStore.insert
  rw [OrderedMap.contains_eq_true, OrderedMap.contains_eq_true, OrderedMap.mem_keys_insert]

end SymbolStore

namespace Project.Dependencies

theorem of_insert (d : Dependencies) (file : String) (paths : List String) (other : String) :
    (d.insert file paths).of other =
      if normalize other = normalize file then paths else d.of other := by
  unfold of Dependencies.insert
  rw [OrderedMap.get?_insert]
  split <;> rfl

/-- Files are listed by the normal forms of the paths under which they were declared. -/
theorem normal_of_mem_files {entries : List (String × List String)} {d : Dependencies}
    (hd : ∀ file ∈ d.files, ∃ path, normalize path = file) :
    ∀ file ∈ (entries.foldl (fun d e => d.insert e.1 e.2) d).files, ∃ path, normalize path = file := by
  induction entries generalizing d with
  | nil => exact hd
  | cons e entries ih =>
    refine ih fun file hfile => ?_
    rcases OrderedMap.mem_keys_insert.mp hfile with rfl | hfile
    · exact ⟨e.1, rfl⟩
    · exact hd file hfile

/-- **A listed file is found under the name by which it is listed**, if that stays as it is. -/
theorem get?_of_mem_files {entries : List (String × List String)} {file : String}
    (h : file ∈ (ofList entries).files) (hsettled : Settled file) :
    (ofList entries).declared.get? file = some ((ofList entries).of file) := by
  obtain ⟨path, rfl⟩ := normal_of_mem_files (by simp [files, empty]) file h
  obtain ⟨paths, hpaths⟩ := Option.isSome_iff_exists.mp (OrderedMap.isSome_get?_iff.mpr h)
  rw [of, (FilePath.normalize_normalize_iff path).mpr hsettled, hpaths, Option.getD_some]

end Project.Dependencies

namespace FilePath

open Project (Dependencies)

/-- **What is kept under one spelling of a path is found under the tidy ones.** Normalizing again changes
a normal form exactly if it is not settled. Of the spellings with the segments of a tidy one exactly
those that are tidy too have its normal form, and a symbol table or a list of dependencies that is kept
under the one is found under the other exactly then. A file is found by the name that `files` lists exactly
if that is settled. All this holds of every spelling that differs in what normalizing is meant to even
out. -/
theorem found_under_spelling_iff (path : String) :
    (normalize (normalize path) = normalize path ↔ Settled (normalize path)) ∧
      (Tidy (normalize path) → ∀ other, segments path = segments other →
        (normalize other = normalize path ↔ Tidy (normalize other)) ∧
          (∀ (s : SymbolStore) (table : SymbolTable),
            (s.insert path table).load? other =
                (if Tidy (normalize other) then some table else s.load? other) ∧
              ((s.insert path table).contains other = true ↔
                Tidy (normalize other) ∨ s.contains other = true)) ∧
          ∀ (d : Dependencies) (paths : List String),
            (d.insert path paths).of other =
              if Tidy (normalize other) then paths else d.of other) ∧
      (∀ (d : Dependencies) (paths : List String),
        (d.insert path paths).of (normalize path) =
          if Settled (normalize path) then paths else d.of (normalize path)) ∧
      (∀ entries, ∀ file ∈ (Dependencies.ofList entries).files, Settled file →
        (Dependencies.ofList entries).declared.get? file =
          some ((Dependencies.ofList entries).of file)) ∧
      ∀ names, Spellable names → Spells path names →
        segments path = names ∧ Settled (normalize path) ∧ Tidy (normalize path) := by
  refine ⟨normalize_normalize_iff path, fun htidy other h => ?_, fun d paths => ?_,
    fun _ _ => Dependencies.get?_of_mem_files, fun names hnames h => ?_⟩
  · have hsame := normalize_eq_iff_tidy h htidy
    refine ⟨hsame, fun s table => ⟨?_, ?_⟩, fun d paths => ?_⟩
    · rw [SymbolStore.load?_insert]
      exact if_congr hsame rfl rfl
    · rw [SymbolStore.contains_insert, hsame]
    · rw [Dependencies.of_insert]
      exact if_congr hsame rfl rfl
  · rw [Dependencies.of_insert]
    exact if_congr (normalize_normalize_iff path) rfl rfl
  · refine ⟨segments_of_spells hnames h, ?_, tidy_of_spells hnames h⟩
    rw [normalize_of_spells hnames h]
    exact hnames.settled

theorem found_under_spelling_ball :
    let ball := ".\\src\\ball.ibc "
    let kept := Dependencies.empty.insert ball ["src/shape"]
    let listed := Dependencies.ofList [(ball, ["src/shape"])]
    (segments ball = segments "/src/ball/" ∧ kept.of "/src/ball/" = ["src/shape"]) ∧
      (segments ball = segments "src/./ball" ∧ kept.of "src/./ball" = []) ∧
      ("src/ball" ∈ listed.files ∧
        listed.declared.get? "src/ball" = some (listed.of "src/ball")) ∧
      Spellable ["src", "ball"] ∧ Spells ball ["src", "ball"] ∧ Settled (normalize ball) := by
  intro ball kept listed
  obtain ⟨-, hspellings, -, hfiles, hspells⟩ := found_under_spelling_iff ball
  have hsame : segments ball = segments "/src/ball/" := by decide +kernel
  have hdotted : segments ball = segments "src/./ball" := by decide +kernel
  have htidy : Tidy (normalize ball) := by decide +kernel
  have hlisted : "src/ball" ∈ listed.files := by decide +kernel
  have hnames : Spellable ["src", "ball"] := ⟨by decide, by decide +kernel, by decide +kernel⟩
  have hpath : Spells ball ["src", "ball"] := ⟨1, extension, .inr rfl, by decide +kernel⟩
  refine ⟨⟨hsame, ?_⟩, ⟨hdotted, ?_⟩, ⟨hlisted, hfiles _ _ hlisted (by decide +kernel)⟩,
    hnames, hpath, (hspells _ hnames hpath).2.1⟩
  · rw [(hspellings htidy _ hsame).2.2, if_pos (by decide +kernel)]
  · rw [(hspellings htidy _ hdotted).2.2, if_neg (by decide +kernel)]
    rfl

/-- A name that is listed and not found, and a spelling that leaves nothing to find. -/
theorem spelling_not_found :
    let d := (Dependencies.empty.insert "/./ball.ibc" ["src/shape"]).insert "src/ball" ["src/shape"]
    (normalize (normalize "/./ball.ibc") ≠ normalize "/./ball.ibc" ∧
        d.files = ["./ball", "src/ball"] ∧ d.of "./ball" = []) ∧
      segments "src//ball" = segments "src/ball" ∧ normalize "src//ball" ≠ normalize "src/ball" ∧
      d.of "src//ball" = [] ∧
      (SymbolStore.empty.insert "src/ball" .empty).load? "src//ball" = none := by
  decide +kernel

end FilePath

end IntentCode
