import IntentCode.Proofs.Symbol.Path
import IntentCode.Proofs.Text.Trim
import IntentCode.Reference
import Mathlib.Data.List.Induction
import Mathlib.Data.List.TakeWhile

/-!
# Paths that are read back

A reference is read up to its first opening bracket, it is cut at the dots, and every name is trimmed. The
blanks around a reference are those around its first and its last name, so trimming it as a whole adds
nothing (`segments_eq`), and the text in front of a dot is read on its own (`segments_joined`).

A path is therefore not read back as it is written if a bracket stands in it, or a blank at either end of
a name. All others are (`Legible.join_segments`); those are `Legible`.
-/

set_option autoImplicit false

namespace IntentCode.Reference

open SymbolPath (join names)
open Text (cutAt isBlank trim trimLeft trimRight trimmed)

/-! ## Reading -/

/-- A character at which the reading does not stop. -/
def readable (c : Char) : Bool := c ≠ '(' && c ≠ '['

theorem readable_of_isBlank {c : Char} (h : isBlank c = true) : readable c = true := by
  rw [readable, Bool.and_eq_true, decide_eq_true_iff, decide_eq_true_iff]
  constructor <;> rintro rfl <;> exact absurd h (by decide)

theorem ne_dot_of_isBlank {c : Char} (h : isBlank c = true) : c ≠ '.' := by
  rintro rfl
  exact absurd h (by decide)

/-- The names that are read from a text. -/
def pieces (cs : List Char) : List (List Char) := (cutAt '.' (cs.takeWhile readable)).map trim

theorem pieces_blank {c : Char} (hc : isBlank c = true) (cs : List Char) :
    pieces (c :: cs) = pieces cs := by
  unfold pieces
  rw [List.takeWhile_cons_of_pos (readable_of_isBlank hc), cutAt, if_neg (ne_dot_of_isBlank hc)]
  cases h : cutAt '.' (cs.takeWhile readable) with
  | nil => exact absurd h (Text.cutAt_ne_nil _ _)
  | cons p ps => rw [List.map_cons, List.map_cons, Text.trim_blank hc]

theorem pieces_concat_blank {c : Char} (hc : isBlank c = true) (cs : List Char) :
    pieces (cs ++ [c]) = pieces cs := by
  unfold pieces
  rw [List.takeWhile_append]
  split
  · next hall =>
    -- nothing has stopped the reading, so the blank goes to the last name
    obtain ⟨ps, p, hcs, hmore⟩ := Text.cutAt_concat (ne_dot_of_isBlank hc) cs
    rw [(List.takeWhile_prefix _).eq_of_length hall, List.takeWhile_cons_of_pos (readable_of_isBlank hc),
      List.takeWhile_nil, hmore, hcs, List.map_append, List.map_append, List.map_singleton,
      List.map_singleton, Text.trim_append_blank p hc]
  · rfl

theorem pieces_trimLeft (cs : List Char) : pieces (trimLeft cs) = pieces cs := by
  induction cs with
  | nil => rfl
  | cons c cs ih =>
    by_cases hc : isBlank c = true
    · rw [Text.trimLeft_blank hc, ih, pieces_blank hc]
    · rw [Text.trimLeft_of_head (by simpa using hc)]

theorem pieces_trimRight (cs : List Char) : pieces (trimRight cs) = pieces cs := by
  induction cs using List.reverseRecOn with
  | nil => rfl
  | append_singleton cs c ih =>
    by_cases hc : isBlank c = true
    · rw [Text.trimRight_append_blank cs hc, ih, pieces_concat_blank hc]
    · rw [Text.trimRight_of_last (by simpa using hc)]

/-- **Trimming the names is all the trimming there is.** -/
theorem segments_eq (raw : String) : segments raw = (pieces raw.toList).map String.ofList := by
  rw [← pieces_trimLeft, ← pieces_trimRight, pieces, List.map_map]
  rfl

theorem segments_ne_nil (raw : String) : segments raw ≠ [] := by
  simp [segments_eq, pieces, Text.cutAt_ne_nil]

/-- No opening bracket stands in the text. -/
def Unbracketed (s : String) : Prop := ∀ c ∈ s.toList, readable c = true

instance (s : String) : Decidable (Unbracketed s) := List.decidableBAll _ _

/-- **What stands in front of a dot is read on its own.** -/
theorem segments_joined {path : String} (h : Unbracketed path) (more : String) :
    segments (path ++ "." ++ more) = segments path ++ segments more := by
  have htext : (path ++ "." ++ more).toList = path.toList ++ '.' :: more.toList := by
    simp [String.toList_append]
  rw [segments_eq, segments_eq, segments_eq, htext, ← List.map_append]
  unfold pieces
  rw [List.takeWhile_append_of_pos h, List.takeWhile_cons_of_pos (by decide), Text.cutAt_joined,
    List.map_append, List.takeWhile_eq_self_iff.mpr h]

theorem segments_of_unbracketed {path : String} (h : Unbracketed path) :
    segments path = (names path).map trimmed := by
  rw [segments_eq, pieces, List.takeWhile_eq_self_iff.mpr h, names, Text.pieces, List.map_map,
    List.map_map]
  refine List.map_congr_left fun name _ => ?_
  rw [Function.comp_apply, Function.comp_apply, trimmed, String.toList_ofList]

/-! ## What is read as it is written -/

/-- A path that holds no opening bracket, and no blank at either end of a name. -/
structure Legible (path : String) : Prop where
  unbracketed : Unbracketed path
  names_trimmed : ∀ name ∈ names path, trimmed name = name

instance (path : String) : Decidable (Legible path) :=
  decidable_of_iff (Unbracketed path ∧ ∀ name ∈ names path, trimmed name = name)
    ⟨fun h => ⟨h.1, h.2⟩, fun h => ⟨h.unbracketed, h.names_trimmed⟩⟩

namespace Legible

variable {path : String}

theorem segments_eq (h : Legible path) : segments path = names path := by
  rw [segments_of_unbracketed h.unbracketed]
  exact (List.map_congr_left h.names_trimmed).trans (List.map_id' _)

theorem join_segments (h : Legible path) : join (segments path) = path := by
  rw [h.segments_eq, SymbolPath.join_names]

end Legible

theorem legible_joined_iff {path more : String} :
    Legible (path ++ "." ++ more) ↔ Legible path ∧ Legible more := by
  have hchars : Unbracketed (path ++ "." ++ more) ↔ Unbracketed path ∧ Unbracketed more := by
    simp [Unbracketed, String.toList_append, or_imp, forall_and, show readable '.' = true from rfl]
  have hnames : (∀ name ∈ names (path ++ "." ++ more), trimmed name = name) ↔
      (∀ name ∈ names path, trimmed name = name) ∧ ∀ name ∈ names more, trimmed name = name := by
    rw [SymbolPath.names_joined, List.forall_mem_append]
  constructor
  · rintro ⟨hunbracketed, htrimmed⟩
    exact ⟨⟨(hchars.mp hunbracketed).1, (hnames.mp htrimmed).1⟩,
      ⟨(hchars.mp hunbracketed).2, (hnames.mp htrimmed).2⟩⟩
  · rintro ⟨hpath, hmore⟩
    exact ⟨hchars.mpr ⟨hpath.unbracketed, hmore.unbracketed⟩,
      hnames.mpr ⟨hpath.names_trimmed, hmore.names_trimmed⟩⟩

theorem legible_join {path : List String} (hne : path ≠ []) (h : ∀ name ∈ path, Legible name) :
    Legible (join path) := by
  induction path with
  | nil => exact absurd rfl hne
  | cons name more ih =>
    have hname := h name List.mem_cons_self
    by_cases hm : more = []
    · rw [hm, SymbolPath.join_singleton]
      exact hname
    · rw [SymbolPath.join_cons name hm]
      exact legible_joined_iff.mpr ⟨hname, ih hm fun n hn => h n (List.mem_cons_of_mem _ hn)⟩

/-- What has been read is a name that can be read again. -/
theorem of_mem_segments {raw name : String} (h : name ∈ segments raw) :
    '.' ∉ name.toList ∧ Legible name := by
  rw [segments_eq, List.mem_map] at h
  obtain ⟨_, hpiece, rfl⟩ := h
  obtain ⟨piece, hcut, rfl⟩ := List.mem_map.mp hpiece
  obtain ⟨hdot, hchars⟩ := Text.of_mem_cutAt hcut
  have hnodot : '.' ∉ (String.ofList (trim piece)).toList := by
    rw [String.toList_ofList]
    exact fun hmem => hdot (Text.mem_of_mem_trim hmem)
  refine ⟨hnodot, fun c hc => ?_, fun other hother => ?_⟩
  · rw [String.toList_ofList] at hc
    exact List.mem_takeWhile_imp (hchars c (Text.mem_of_mem_trim hc))
  · rw [SymbolPath.names_of_notMem hnodot, List.mem_singleton] at hother
    rw [hother, trimmed, String.toList_ofList, Text.trim_of_trimmed (Text.trimmed_trim piece)]

end IntentCode.Reference
