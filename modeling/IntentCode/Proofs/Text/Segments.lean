import IntentCode.Text.Lines

/-!
# Lines with their endings

Taking lines out of a text means taking their endings out with them, and a line ends in three ways:
with a line feed, with a carriage return before it, or with the text. `segments` cuts a text after
each line feed and drops nothing, so the segments put together are the text again
(`flatten_segments`), and a text put together from some of them has exactly the lines of those
(`breakLines_flatten`).
-/

set_option autoImplicit false

namespace IntentCode.Text

/-- The lines of a text, each with its ending. -/
def segments : List Char → List (List Char)
  | [] => []
  | '\n' :: cs => ['\n'] :: segments cs
  | c :: cs =>
    match segments cs with
    | [] => [[c]]
    | s :: ss => (c :: s) :: ss

theorem flatten_segments (cs : List Char) : (segments cs).flatten = cs := by
  fun_induction segments cs with
  | case1 => rfl
  | case2 cs ih => simp [ih]
  | case3 c cs hc hs ih =>
    rw [hs] at ih
    simp [← ih]
  | case4 c cs hc s ss hs ih =>
    rw [hs] at ih
    simp [← ih]

/-- A line with its ending: the only line feed is the last character. -/
def Ended (s : List Char) : Prop := ∃ body, s = body ++ ['\n'] ∧ '\n' ∉ body

/-- What may be left of a text after its last line feed. -/
def Unended (s : List Char) : Prop := s ≠ [] ∧ '\n' ∉ s

/-- Lines with endings, the last of which may lack one. -/
inductive Cut : List (List Char) → Prop
  | nil : Cut []
  | last {s : List Char} (h : Unended s) : Cut [s]
  | cons {s : List Char} {ss : List (List Char)} (h : Ended s) (rest : Cut ss) : Cut (s :: ss)

theorem cut_segments (cs : List Char) : Cut (segments cs) := by
  fun_induction segments cs with
  | case1 => exact .nil
  | case2 cs ih => exact .cons ⟨[], rfl, by simp⟩ ih
  | case3 c cs hc hs ih =>
    exact .last ⟨by simp, by simpa using fun h => hc h.symm⟩
  | case4 c cs hc s ss hs ih =>
    rw [hs] at ih
    have hne : ¬ '\n' = c := fun h => hc h.symm
    cases ih with
    | last h => exact .last ⟨by simp, by simpa [hne] using h.2⟩
    | cons h rest =>
      obtain ⟨body, rfl, hb⟩ := h
      exact .cons ⟨c :: body, rfl, by simpa [hne] using hb⟩ rest

/-- Any of the lines, in order. -/
theorem Cut.sublist {ss ts : List (List Char)} (h : Cut ts) (hs : ss.Sublist ts) : Cut ss := by
  induction h generalizing ss with
  | nil =>
    obtain rfl := List.sublist_nil.mp hs
    exact .nil
  | last h =>
    rcases List.sublist_cons_iff.mp hs with hs | ⟨ss', rfl, hs'⟩
    · obtain rfl := List.sublist_nil.mp hs
      exact .nil
    · obtain rfl := List.sublist_nil.mp hs'
      exact .last h
  | cons h rest ih =>
    rcases List.sublist_cons_iff.mp hs with hs | ⟨ss', rfl, hs'⟩
    · exact ih hs
    · exact .cons h (ih hs')

/-- The line without its ending. -/
def content (s : List Char) : List Char := (breakLines s).headD []

theorem breakLines_cons {c : Char} {cs : List Char} (hc : c ≠ '\n')
    (hcs : c = '\r' → cs.head? ≠ some '\n') :
    breakLines (c :: cs) =
      match breakLines cs with
      | [] => [[c]]
      | l :: ls => (c :: l) :: ls := by
  rw [breakLines.eq_def]
  split
  · next heq => cases heq
  · next heq =>
    cases heq
    exact absurd rfl hc
  · next heq =>
    cases heq
    exact absurd rfl (hcs rfl)
  · next heq =>
    cases heq
    rfl

theorem breakLines_ended {body : List Char} (h : '\n' ∉ body) (cs : List Char) :
    breakLines (body ++ '\n' :: cs) = content (body ++ ['\n']) :: breakLines cs := by
  induction body generalizing cs with
  | nil => simp [content, breakLines]
  | cons c body ih =>
    have hc : c ≠ '\n' := fun hc => h (by simp [hc])
    have hbody : '\n' ∉ body := fun hb => h (by simp [hb])
    by_cases hr : c = '\r' ∧ body = []
    · obtain ⟨rfl, rfl⟩ := hr
      simp [content, breakLines]
    · -- the carriage return of a line ending is not the first character
      have hhead : ∀ ds, c = '\r' → (body ++ '\n' :: ds).head? ≠ some '\n' := by
        intro ds hcr
        cases body with
        | nil => exact absurd ⟨hcr, rfl⟩ hr
        | cons d body => simpa using fun hd => hbody (by simp [hd])
      have hall : ∀ ds, breakLines (c :: (body ++ '\n' :: ds)) =
          (c :: content (body ++ ['\n'])) :: breakLines ds := by
        intro ds
        rw [breakLines_cons hc (hhead ds), ih hbody]
      have hone := hall []
      rw [List.cons_append, List.cons_append, hall]
      unfold content at hone ⊢
      rw [hone]
      rfl

theorem breakLines_unended {s : List Char} (h : Unended s) : breakLines s = [s] := by
  obtain ⟨hne, hs⟩ := h
  induction s with
  | nil => exact absurd rfl hne
  | cons c cs ih =>
    have hc : c ≠ '\n' := fun hc => hs (by simp [hc])
    have hcs : '\n' ∉ cs := fun hb => hs (by simp [hb])
    rw [breakLines_cons hc fun _ hh => hcs (List.mem_of_head? hh)]
    cases cs with
    | nil => rfl
    | cons d ds => rw [ih (by simp) hcs]

/-- **A text made of lines has those lines.** -/
theorem breakLines_flatten {ss : List (List Char)} (h : Cut ss) :
    breakLines ss.flatten = ss.map content := by
  induction h with
  | nil => rfl
  | last h => simp [breakLines_unended h, content]
  | cons h rest ih =>
    obtain ⟨body, rfl, hb⟩ := h
    rw [List.flatten_cons, List.append_assoc, List.singleton_append, breakLines_ended hb, ih]
    rfl

theorem breakLines_eq (cs : List Char) : breakLines cs = (segments cs).map content := by
  conv => lhs; rw [← flatten_segments cs]
  exact breakLines_flatten (cut_segments cs)

end IntentCode.Text
