import IntentCode.Text.Blank

/-!
# Trimmed text

Names, references and descriptions are trimmed when they are cut out of a line, and they are
written back with single blanks around them. Both directions need the same description of the
result: a text is `Trimmed` if it neither begins nor ends with a blank. Trimming makes a text so
(`trimmed_trim`) and leaves a text alone that is so already (`trim_of_trimmed`).
-/

set_option autoImplicit false

namespace IntentCode.Text

/-- Neither the first nor the last character is a blank. -/
structure Trimmed (cs : List Char) : Prop where
  head : ∀ c ∈ cs.head?, isBlank c = false
  last : ∀ c ∈ cs.getLast?, isBlank c = false

/-! ## From the left -/

theorem trimLeft_of_head {cs : List Char} (h : ∀ c ∈ cs.head?, isBlank c = false) :
    trimLeft cs = cs := by
  cases cs with
  | nil => rfl
  | cons c cs => simp [trimLeft, h c (by simp)]

theorem head_trimLeft (cs : List Char) : ∀ c ∈ (trimLeft cs).head?, isBlank c = false := by
  intro c hc
  have h := List.head?_dropWhile_not isBlank cs
  unfold trimLeft at hc
  rw [Option.mem_def.mp hc] at h
  simpa using h

theorem trimLeft_blank {c : Char} (h : isBlank c = true) (cs : List Char) :
    trimLeft (c :: cs) = trimLeft cs := by
  simp [trimLeft, h]

theorem trimLeft_isSuffix (cs : List Char) : trimLeft cs <:+ cs := List.dropWhile_suffix _

/-! ## From the right -/

theorem trimRight_of_last {cs : List Char} (h : ∀ c ∈ cs.getLast?, isBlank c = false) :
    trimRight cs = cs := by
  have hl : trimLeft cs.reverse = cs.reverse := trimLeft_of_head (by simpa using h)
  unfold trimRight
  unfold trimLeft at hl
  rw [hl, List.reverse_reverse]

theorem last_trimRight (cs : List Char) : ∀ c ∈ (trimRight cs).getLast?, isBlank c = false := by
  intro c hc
  apply head_trimLeft cs.reverse c
  simpa [trimRight, trimLeft] using hc

theorem trimRight_isPrefix (cs : List Char) : trimRight cs <+: cs := by
  have h := trimLeft_isSuffix cs.reverse
  rw [← List.reverse_prefix, List.reverse_reverse] at h
  exact h

theorem head?_trimRight {cs : List Char} (h : trimRight cs ≠ []) :
    (trimRight cs).head? = cs.head? := by
  obtain ⟨after, ha⟩ := trimRight_isPrefix cs
  conv => rhs; rw [← ha]
  rw [List.head?_append, List.head?_eq_some_head h]
  rfl

/-! ## From both sides -/

theorem trim_of_trimmed {cs : List Char} (h : Trimmed cs) : trim cs = cs := by
  unfold trim
  rw [trimLeft_of_head h.head, trimRight_of_last h.last]

theorem trimmed_trim (cs : List Char) : Trimmed (trim cs) := by
  refine ⟨fun c hc => ?_, last_trimRight _⟩
  unfold trim at hc
  by_cases hne : trimRight (trimLeft cs) = []
  · simp [hne] at hc
  · rw [head?_trimRight hne] at hc
    exact head_trimLeft cs c hc

theorem mem_of_mem_trim {c : Char} {cs : List Char} (h : c ∈ trim cs) : c ∈ cs :=
  (trimLeft_isSuffix cs).subset ((trimRight_isPrefix _).subset h)

theorem trim_blank {c : Char} (h : isBlank c = true) (cs : List Char) :
    trim (c :: cs) = trim cs := by
  unfold trim
  rw [trimLeft_blank h]

theorem trimRight_append_blank (cs : List Char) {c : Char} (h : isBlank c = true) :
    trimRight (cs ++ [c]) = trimRight cs := by
  simp [trimRight, h]

theorem trim_append_blank (cs : List Char) {c : Char} (h : isBlank c = true) :
    trim (cs ++ [c]) = trim cs := by
  unfold trim trimLeft
  rw [List.dropWhile_append]
  split
  · next he =>
    rw [List.isEmpty_iff.mp he]
    simp [trimRight, h]
  · exact trimRight_append_blank _ h

theorem trim_eq_nil_iff {cs : List Char} : trim cs = [] ↔ isBlankText cs = true := by
  constructor
  · intro h
    by_cases hne : trimLeft cs = []
    · exact trimLeft_eq_nil_iff.mp hne
    · -- what is left begins with a character that trimming on the right cannot reach
      exfalso
      obtain ⟨c, ds, hcd⟩ := List.exists_cons_of_ne_nil hne
      have hc : isBlank c = false := head_trimLeft cs c (by simp [hcd])
      have hrest : trimLeft (trimLeft cs).reverse = [] := by
        unfold trim trimRight at h
        exact List.reverse_eq_nil_iff.mp h
      have hall := trimLeft_eq_nil_iff.mp hrest
      simp [isBlankText, hcd, hc] at hall
  · intro h
    rw [trim, trimLeft_eq_nil_iff.mpr h]
    rfl

/-! ## Blanks at the end, and what stands in front -/

theorem trimRight_cons (c : Char) (cs : List Char) :
    trimRight (c :: cs) = if trimRight cs = [] ∧ isBlank c = true then [] else c :: trimRight cs := by
  unfold trimRight
  rw [List.reverse_cons, List.dropWhile_append]
  simp only [List.reverse_eq_nil_iff, List.isEmpty_iff]
  by_cases hrest : cs.reverse.dropWhile isBlank = []
  · by_cases hc : isBlank c = true
    · simp [hrest, hc]
    · simp [hrest, hc]
  · simp [hrest]

@[simp] theorem trimRight_trimRight (cs : List Char) : trimRight (trimRight cs) = trimRight cs :=
  trimRight_of_last (last_trimRight cs)

/-- Characters at the start and blanks at the end can be dropped in either order. -/
theorem dropWhile_trimRight (p : Char → Bool) (cs : List Char) :
    (trimRight cs).dropWhile p = trimRight (cs.dropWhile p) := by
  induction cs with
  | nil => rfl
  | cons c cs ih =>
    by_cases hc : p c = true
    · rw [List.dropWhile_cons_of_pos hc, ← ih, trimRight_cons]
      split
      · next hnil => rw [hnil.1]
      · rw [List.dropWhile_cons_of_pos hc]
    · rw [List.dropWhile_cons_of_neg hc, trimRight_cons]
      split
      · rfl
      · rw [List.dropWhile_cons_of_neg hc]

theorem trim_eq (cs : List Char) : trim cs = trimLeft (trimRight cs) :=
  (dropWhile_trimRight isBlank cs).symm

@[simp] theorem trim_trimRight (cs : List Char) : trim (trimRight cs) = trim cs := by
  rw [trim_eq, trim_eq, trimRight_trimRight]

section

variable {p : Char → Bool} (hp : ∀ c, p c = true → isBlank c = true)

include hp

theorem takeWhile_trimRight {cs : List Char} (h : trimRight cs ≠ []) :
    (trimRight cs).takeWhile p = cs.takeWhile p := by
  induction cs with
  | nil => exact absurd rfl h
  | cons c cs ih =>
    rw [trimRight_cons] at h ⊢
    split at h
    · exact absurd rfl h
    · next hcons =>
      rw [if_neg hcons]
      by_cases hc : p c = true
      · have hrest : trimRight cs ≠ [] := fun hnil => hcons ⟨hnil, hp c hc⟩
        rw [List.takeWhile_cons_of_pos hc, List.takeWhile_cons_of_pos hc, ih hrest]
      · rw [List.takeWhile_cons_of_neg hc, List.takeWhile_cons_of_neg hc]

theorem trim_dropWhile (cs : List Char) : trim (cs.dropWhile p) = trim cs := by
  induction cs with
  | nil => rfl
  | cons c cs ih =>
    by_cases hc : p c = true
    · rw [List.dropWhile_cons_of_pos hc, ih, trim_blank (hp c hc)]
    · rw [List.dropWhile_cons_of_neg hc]

end

theorem isBlank_of_space (c : Char) (h : decide (c = ' ') = true) : isBlank c = true := by
  obtain rfl := of_decide_eq_true h
  decide

end IntentCode.Text
