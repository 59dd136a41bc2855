import IntentCode.Text.Distance
import Mathlib.Algebra.Order.Field.Basic
import Mathlib.Algebra.Order.Ring.Rat
import Mathlib.Order.Bounds.Defs

/-!
# The distance between two texts

An edit inserts a character, deletes one or puts another in its place (`Edit`). The distance that is read off
the table is the least number of edits that lead from one text to the other (`editDistance_isLeast`), and
what one expects of a distance follows from that: edits can be undone and done one after the other.

Between the table and the edits stands a recursion on the fronts of both texts (`distance`). It is attained by
edits (`edits_distance`), and no fewer are enough, because an edit brings a text at most one step nearer to
another (`distance_le_of_edit`). The table works on the ends of the texts instead: its row after some of the
source holds the distances from there to every beginning of the target, all read backwards (`row`). That makes
no difference, since edits do not mind the direction in which a text is read (`distance_reverse`).
-/

set_option autoImplicit false

namespace IntentCode.Text

/-! ## Edits -/

/-- A change of one character, somewhere in a text. -/
inductive Edit : List Char → List Char → Prop
  | insert (front back : List Char) (c : Char) : Edit (front ++ back) (front ++ c :: back)
  | delete (front back : List Char) (c : Char) : Edit (front ++ c :: back) (front ++ back)
  | substitute (front back : List Char) (c d : Char) :
    Edit (front ++ c :: back) (front ++ d :: back)

/-- A number of edits, one after the other. -/
inductive Edits : Nat → List Char → List Char → Prop
  | none (s : List Char) : Edits 0 s s
  | more {n : Nat} {s t u : List Char} (first : Edit s t) (rest : Edits n t u) : Edits (n + 1) s u

theorem Edit.symm {s t : List Char} (h : Edit s t) : Edit t s := by
  cases h with
  | insert front back c => exact .delete front back c
  | delete front back c => exact .insert front back c
  | substitute front back c d => exact .substitute front back d c

theorem Edit.cons {s t : List Char} (h : Edit s t) (e : Char) : Edit (e :: s) (e :: t) := by
  cases h with
  | insert front back c => exact .insert (e :: front) back c
  | delete front back c => exact .delete (e :: front) back c
  | substitute front back c d => exact .substitute (e :: front) back c d

theorem Edit.reverse {s t : List Char} (h : Edit s t) : Edit s.reverse t.reverse := by
  cases h with
  | insert front back c => simpa using Edit.insert back.reverse front.reverse c
  | delete front back c => simpa using Edit.delete back.reverse front.reverse c
  | substitute front back c d => simpa using Edit.substitute back.reverse front.reverse c d

namespace Edits

variable {m n : Nat} {s t u : List Char}

theorem trans (h : Edits m s t) (h' : Edits n t u) : Edits (m + n) s u := by
  induction h with
  | none => simpa using h'
  | @more k _ _ _ first rest ih =>
    rw [Nat.add_right_comm]
    exact .more first (ih h')

theorem single (h : Edit s t) : Edits 1 s t := .more h (.none t)

theorem symm (h : Edits n s t) : Edits n t s := by
  induction h with
  | none s => exact .none s
  | more first rest ih => exact ih.trans (single first.symm)

theorem cons (h : Edits n s t) (e : Char) : Edits n (e :: s) (e :: t) := by
  induction h with
  | none s => exact .none (e :: s)
  | more first rest ih => exact .more (first.cons e) ih

theorem reverse (h : Edits n s t) : Edits n s.reverse t.reverse := by
  induction h with
  | none s => exact .none s.reverse
  | more first rest ih => exact .more first.reverse ih

theorem eq_of_zero (h : Edits 0 s t) : s = t := by
  cases h
  rfl

protected theorem min (h : Edits m s t) (h' : Edits n s t) : Edits (min m n) s t := by
  rcases min_choice m n with hm | hn
  · rwa [hm]
  · rwa [hn]

end Edits

/-! ## The least number of edits -/

/-- The distance by recursion on the fronts. -/
def distance : List Char → List Char → Nat
  | [], t => t.length
  | s, [] => s.length
  | c :: s, d :: t =>
    min (min (distance s (d :: t) + 1) (distance (c :: s) t + 1))
      (distance s t + if c = d then 0 else 1)

theorem distance_nil (s : List Char) : distance s [] = s.length := by cases s <;> simp [distance]

theorem distance_cons_cons (c d : Char) (s t : List Char) :
    distance (c :: s) (d :: t) =
      min (min (distance s (d :: t) + 1) (distance (c :: s) t + 1))
        (distance s t + if c = d then 0 else 1) := by
  rw [distance]

theorem distance_self (s : List Char) : distance s s = 0 := by
  induction s with
  | nil => simp [distance]
  | cons c s ih => simp [distance_cons_cons, ih]

/-- The distance can be gone in edits. -/
theorem edits_distance (s t : List Char) : Edits (distance s t) s t := by
  induction s generalizing t with
  | nil =>
    rw [distance]
    induction t with
    | nil => exact .none []
    | cons d t ih => exact ih.trans (.single (.insert [] t d))
  | cons c s delete =>
    induction t with
    | nil =>
      have h := delete []
      rw [distance_nil] at h ⊢
      exact .more (.delete [] s c) h
    | cons d t insert =>
      have hdelete : Edits (distance s (d :: t) + 1) (c :: s) (d :: t) :=
        .more (.delete [] s c) (delete (d :: t))
      have hinsert : Edits (distance (c :: s) t + 1) (c :: s) (d :: t) :=
        insert.trans (.single (.insert [] t d))
      have hkeep : Edits (distance s t + if c = d then 0 else 1) (c :: s) (d :: t) := by
        split
        next hcd => exact hcd ▸ (delete t).cons c
        next => exact ((delete t).cons c).trans (.single (.substitute [] t c d))
      rw [distance_cons_cons]
      exact (hdelete.min hinsert).min hkeep

/-! ### No fewer edits are enough -/

theorem distance_cons_right_le (s t : List Char) (d : Char) :
    distance s (d :: t) ≤ distance s t + 1 := by
  cases s with
  | nil => simp [distance]
  | cons c s => rw [distance_cons_cons]; omega

theorem distance_cons_left_le (s t : List Char) (c : Char) :
    distance (c :: s) t ≤ distance s t + 1 := by
  cases t with
  | nil => simp [distance_nil]
  | cons d t => rw [distance_cons_cons]; omega

theorem distance_le_cons_left (s t : List Char) (c : Char) :
    distance s t ≤ distance (c :: s) t + 1 := by
  induction t with
  | nil => simp only [distance_nil, List.length_cons]; omega
  | cons d t ih =>
    have hlonger := distance_cons_right_le s t d
    rw [distance_cons_cons]
    omega

theorem distance_substitute_le (s t : List Char) (c d : Char) :
    distance (c :: s) t ≤ distance (d :: s) t + 1 := by
  induction t with
  | nil => simp [distance_nil]
  | cons e t ih =>
    have hce : (if c = e then 0 else 1) ≤ 1 := by split <;> simp
    rw [distance_cons_cons, distance_cons_cons]
    omega

/-- Characters in front of both texts do not make an edit count for more. -/
theorem distance_cons_le_of_le {s s' : List Char} (h : ∀ t, distance s t ≤ distance s' t + 1)
    (e : Char) (t : List Char) : distance (e :: s) t ≤ distance (e :: s') t + 1 := by
  induction t with
  | nil => simpa [distance_nil] using h []
  | cons d t ih =>
    have hdelete := h (d :: t)
    have hkeep := h t
    rw [distance_cons_cons, distance_cons_cons]
    omega

theorem distance_append_le_of_le {s s' : List Char} (h : ∀ t, distance s t ≤ distance s' t + 1)
    (front t : List Char) : distance (front ++ s) t ≤ distance (front ++ s') t + 1 := by
  induction front generalizing t with
  | nil => exact h t
  | cons e front ih => exact distance_cons_le_of_le ih e t

/-- An edit brings a text at most one step nearer to another. -/
theorem distance_le_of_edit {s s' : List Char} (h : Edit s s') (t : List Char) :
    distance s t ≤ distance s' t + 1 := by
  cases h with
  | insert front back c => exact distance_append_le_of_le (distance_le_cons_left back · c) front t
  | delete front back c => exact distance_append_le_of_le (distance_cons_left_le back · c) front t
  | substitute front back c d =>
    exact distance_append_le_of_le (distance_substitute_le back · c d) front t

theorem distance_le_of_edits {n : Nat} {s t : List Char} (h : Edits n s t) : distance s t ≤ n := by
  induction h with
  | none s => exact (distance_self s).le
  | more first rest ih => exact (distance_le_of_edit first _).trans (Nat.succ_le_succ ih)

/-- **The distance is the least number of edits** that lead from one text to the other. -/
theorem isLeast_distance (s t : List Char) : IsLeast {n | Edits n s t} (distance s t) :=
  ⟨edits_distance s t, fun _ => distance_le_of_edits⟩

/-! ### What edits say about the distance -/

theorem distance_eq_zero {s t : List Char} : distance s t = 0 ↔ s = t := by
  constructor
  · intro h
    exact (h ▸ edits_distance s t : Edits 0 s t).eq_of_zero
  · rintro rfl
    exact distance_self s

theorem distance_comm (s t : List Char) : distance s t = distance t s :=
  le_antisymm (distance_le_of_edits (edits_distance t s).symm)
    (distance_le_of_edits (edits_distance s t).symm)

theorem distance_triangle (s t u : List Char) : distance s u ≤ distance s t + distance t u :=
  distance_le_of_edits ((edits_distance s t).trans (edits_distance t u))

theorem distance_reverse (s t : List Char) : distance s.reverse t.reverse = distance s t := by
  apply le_antisymm
  · exact distance_le_of_edits (edits_distance s t).reverse
  · have h := (edits_distance s.reverse t.reverse).reverse
    rw [List.reverse_reverse, List.reverse_reverse] at h
    exact distance_le_of_edits h

/-- It is enough to substitute every character of the shorter text and to insert or delete the rest. -/
theorem distance_le_max (s t : List Char) : distance s t ≤ max s.length t.length := by
  fun_induction distance s t with
  | case1 t => simp
  | case2 s => simp
  | case3 c s d t delete insert keep =>
    have hcd : (if c = d then 0 else 1) ≤ 1 := by split <;> simp
    simp only [List.length_cons] at *
    omega

/-! ## The table -/

/-- The cells of a row to the right of the one for `done`, which is the part of the target before `ts` read
backwards. The row is the one for `s`, the part of the source that was read, backwards too. -/
def cells (s : List Char) : List Char → List Char → List Nat
  | _, [] => []
  | done, t :: ts => distance s (t :: done) :: cells s (t :: done) ts

/-- A whole row. -/
def row (s target : List Char) : List Nat := distance s [] :: cells s [] target

theorem cells_nil (done ts : List Char) :
    cells [] done ts = List.range' (done.length + 1) ts.length := by
  induction ts generalizing done with
  | nil => rfl
  | cons t ts ih => simp [cells, distance, ih, List.range'_succ]

theorem row_nil (target : List Char) : row [] target = List.range (target.length + 1) := by
  simp [row, cells_nil, distance, List.range_eq_range', List.range'_succ]

theorem nextCells_cells (c : Char) (s done ts : List Char) :
    nextCells c (distance (c :: s) done) (distance s done) ts (cells s done ts) =
      cells (c :: s) done ts := by
  induction ts generalizing done with
  | nil => rfl
  | cons t ts ih => rw [cells, nextCells, ← distance_cons_cons, ih, cells]

/-- One more character of the source turns its row into the next. -/
theorem nextRow_row (c : Char) (s target : List Char) :
    nextRow c target (row s target) = row (c :: s) target := by
  have hfirst : distance s [] + 1 = distance (c :: s) [] := by simp [distance_nil]
  rw [row, nextRow, hfirst, nextCells_cells, row]

theorem foldl_nextRow (source s target : List Char) :
    source.foldl (fun r c => nextRow c target r) (row s target) = row (source.reverse ++ s) target := by
  induction source generalizing s with
  | nil => rfl
  | cons c source ih =>
    rw [List.foldl_cons, nextRow_row, ih, List.reverse_cons, List.append_assoc, List.singleton_append]

theorem getLast?_cells (s done ts : List Char) :
    (distance s done :: cells s done ts).getLast? = some (distance s (ts.reverse ++ done)) := by
  induction ts generalizing done with
  | nil => rfl
  | cons t ts ih =>
    rw [cells, List.getLast?_cons_cons, ih, List.reverse_cons, List.append_assoc, List.singleton_append]

/-- **The table computes the distance.** -/
theorem editDistance_eq (source target : List Char) :
    editDistance source target = distance source target := by
  rw [editDistance, ← row_nil, foldl_nextRow, row, getLast?_cells, Option.getD_some, List.append_nil,
    List.append_nil, distance_reverse]

/-- **The edit distance of two texts is the least number of insertions, deletions and substitutions** of one
character that turn one into the other. It is a distance, and the share of the longer text that it is lies
between zero and one. -/
theorem editDistance_isLeast (a b : String) :
    IsLeast {n | Edits n a.toList b.toList} (editDistance a.toList b.toList) ∧
      (editDistance a.toList b.toList = 0 ↔ a = b) ∧
      editDistance a.toList b.toList = editDistance b.toList a.toList ∧
      (∀ c : String, editDistance a.toList c.toList ≤
        editDistance a.toList b.toList + editDistance b.toList c.toList) ∧
      editDistance a.toList b.toList ≤ max a.length b.length ∧
      (editDistance a.toList b.toList : ℚ) / (max a.length b.length : ℕ) ∈ Set.Icc 0 1 := by
  simp only [editDistance_eq]
  have hmax : distance a.toList b.toList ≤ max a.length b.length := by
    rw [← String.length_toList, ← String.length_toList]
    exact distance_le_max _ _
  refine ⟨isLeast_distance _ _, ?_, distance_comm _ _, fun c => distance_triangle _ _ _, hmax, ?_, ?_⟩
  · rw [distance_eq_zero, String.toList_inj]
  · exact div_nonneg (Nat.cast_nonneg _) (Nat.cast_nonneg _)
  · exact div_le_one_of_le₀ (Nat.cast_le.mpr hmax) (Nat.cast_nonneg _)

example : editDistance "kitten".toList "sitting".toList = 3 := by decide

end IntentCode.Text
