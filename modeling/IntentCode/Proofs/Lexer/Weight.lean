import IntentCode.Proofs.Lexer.Folding
import IntentCode.Proofs.Text.Trim
import Mathlib.Algebra.Order.BigOperators.Group.List
import Mathlib.Algebra.Order.Ring.Nat

/-!
# What folding takes away

Folding reads commas and backslashes, and it is the one place where a written line can be taken for
something else. Whether that happens can be told from an account. A line weighs one more than it has
commas and backslashes. No step gives out more weight than it takes in, and a line that waits has
already lost some: joining two lines makes one of them, a comment goes altogether, and of a marker
that leads nowhere the marker goes (`weight_foldFrom`). So where all of the weight comes out again,
every line has been taken by itself and as it stands (`taken_of_weight`).
-/

set_option autoImplicit false

namespace IntentCode

namespace Text

/-- How many commas and backslashes a text has. -/
def marks (cs : List Char) : Nat := cs.countP fun c => c = ',' || c = '\\'

@[simp] theorem marks_nil : marks [] = 0 := rfl

@[simp] theorem marks_append (cs ds : List Char) : marks (cs ++ ds) = marks cs + marks ds :=
  List.countP_append

theorem marks_cons (c : Char) (cs : List Char) : marks (c :: cs) = marks [c] + marks cs :=
  marks_append [c] cs

/-- A blank is neither. -/
theorem marks_of_blank {c : Char} (h : isBlank c = true) : marks [c] = 0 := by
  have hcomma : ¬ c = ',' := by
    rintro rfl
    exact absurd h (by decide)
  have hbackslash : ¬ c = '\\' := by
    rintro rfl
    exact absurd h (by decide)
  simp [marks, hcomma, hbackslash]

theorem marks_dropWhile {p : Char → Bool} (hp : ∀ c, p c = true → marks [c] = 0)
    (cs : List Char) : marks (cs.dropWhile p) = marks cs := by
  induction cs with
  | nil => rfl
  | cons c cs ih =>
    rw [List.dropWhile_cons]
    split
    · next hc => rw [ih, marks_cons c cs, hp c hc, Nat.zero_add]
    · rfl

@[simp] theorem marks_reverse (cs : List Char) : marks cs.reverse = marks cs := by
  unfold marks
  rw [List.countP_reverse]

@[simp] theorem marks_trimRight (cs : List Char) : marks (trimRight cs) = marks cs := by
  rw [trimRight, marks_reverse, marks_dropWhile (fun c => marks_of_blank), marks_reverse]

@[simp] theorem marks_trim (cs : List Char) : marks (trim cs) = marks cs := by
  rw [trim, marks_trimRight, trimLeft, marks_dropWhile fun c => marks_of_blank]

end Text

namespace SourceLine

/-- The weight of a physical line; a blank one has none. -/
def weight (l : SourceLine) : Nat :=
  if Text.isBlankText l.chars then 0 else Text.marks l.chars + 1

end SourceLine

namespace LogicalLine

open Text

def weight (l : LogicalLine) : Nat := marks l.text.toList + 1

/-- What is left of the weight of a line that waits. -/
def potential : Option Waiting → Nat
  | none => 0
  | some w => marks w.text

/-- The marker is the one that the line ends with. -/
def Marked (state : Option Waiting) : Prop := ∀ w, state = some w → ending w.text = some w.marker

/-! ## Joining and dropping -/

theorem marks_join (text next : List Char) : marks (join text next) = marks text + marks next := by
  unfold join
  split
  · exact marks_append text next
  · rw [marks_append, marks_cons, marks_of_blank (by decide), Nat.zero_add]

theorem ending_eq_some {text : List Char} {marker : Marker} (h : ending text = some marker) :
    ∃ front c, text = front ++ [c] ∧ marks [c] = 1 ∧
      (marker = .backslash ∧ c = '\\' ∨ marker = .comma ∧ c = ',') := by
  unfold ending at h
  split at h
  · next hl =>
    obtain ⟨front, rfl⟩ := List.getLast?_eq_some_iff.mp hl
    exact ⟨front, _, rfl, by decide, .inl ⟨(Option.some.inj h).symm, rfl⟩⟩
  · next hl =>
    obtain ⟨front, rfl⟩ := List.getLast?_eq_some_iff.mp hl
    exact ⟨front, _, rfl, by decide, .inr ⟨(Option.some.inj h).symm, rfl⟩⟩
  · cases h

theorem marks_dropBackslash {text : List Char} {marker : Marker} (h : ending text = some marker) :
    marks (dropBackslash text) + 1 = marks text := by
  obtain ⟨front, c, rfl, hc, -⟩ := ending_eq_some h
  simp [dropBackslash, hc]

theorem marks_dropCommas {text : List Char} (h : ending text = some .comma) :
    marks (dropCommas text) + 1 ≤ marks text := by
  obtain ⟨front, c, rfl, -, hc⟩ := ending_eq_some h
  have hsub : (dropCommas (front ++ [c])).Sublist front := by
    rcases hc with ⟨hm, -⟩ | ⟨-, rfl⟩
    · cases hm
    · unfold dropCommas
      rw [List.reverse_append, List.reverse_singleton, List.singleton_append,
        List.dropWhile_cons_of_pos (by simp), ← List.reverse_sublist, List.reverse_reverse]
      exact List.dropWhile_sublist _
  have hle : marks (dropCommas (front ++ [c])) ≤ marks front := hsub.countP_le
  have hone : marks [c] = 1 := by
    rcases hc with ⟨hm, -⟩ | ⟨-, rfl⟩
    · cases hm
    · rfl
  rw [marks_append, hone]
  omega

/-! ## The account -/

theorem weight_emit (first : SourceLine) (indent : Nat) (text : List Char) :
    ((emit first indent text).map weight).sum ≤ marks text + 1 := by
  unfold emit
  split <;> simp [weight]

/-- A line that settles gives out its weight, and one that waits keeps one less. -/
theorem weight_settle (first : SourceLine) (indent : Nat) (text : List Char) :
    (((settle first indent text).1.map weight).sum + potential (settle first indent text).2 ≤
        marks text + 1 ∧ Marked (settle first indent text).2) ∧
      ((settle first indent text).2 ≠ none →
        ((settle first indent text).1.map weight).sum + potential (settle first indent text).2 ≤
          marks text) := by
  have hemit := weight_emit first indent text
  unfold settle
  split
  · next marker hmarker =>
    refine ⟨⟨by simp [potential], ?_⟩, by simp [potential]⟩
    rintro w hw
    obtain rfl := Option.some.inj hw
    exact hmarker
  · exact ⟨⟨by simpa [potential] using hemit, fun w hw => by cases hw⟩, fun h => absurd rfl h⟩

theorem weight_of_not_skipped {l : SourceLine} (h : ¬ l.isSkipped = true) :
    l.weight = marks l.chars + 1 := by
  have hblank : isBlankText l.chars = false := by
    rw [← Bool.not_eq_true, ← trim_eq_nil_iff]
    intro htrim
    exact h (by simp [SourceLine.isSkipped, htrim])
  rw [SourceLine.weight, hblank]
  rfl

theorem marks_body (l : SourceLine) :
    marks (trimRight (l.chars.dropWhile (· = ' '))) = marks l.chars := by
  rw [marks_trimRight, marks_dropWhile]
  intro c hc
  obtain rfl : c = ' ' := by simpa using hc
  rfl

/-- A line at which none waits: it is blank or it weighs one more than its marks. -/
theorem weight_begin {l : SourceLine} {done : List LogicalLine} {state : Option Waiting}
    (h : step none l = .ok (done, state)) :
    ((done.map weight).sum + potential state ≤ l.weight ∧ Marked state) ∧
      (state ≠ none → (done.map weight).sum + potential state < l.weight) := by
  cases stepped_of_step h with
  | passed skipped comma =>
    exact ⟨⟨by simp [potential], fun w hw => by cases hw⟩, fun hne => absurd rfl hne⟩
  | noted solid note =>
    have hemit := weight_emit l (l.chars.takeWhile (· = ' ')).length
      (trimRight (l.chars.dropWhile (· = ' ')))
    rw [marks_body, ← weight_of_not_skipped solid] at hemit
    exact ⟨⟨hemit, fun w hw => by cases hw⟩, fun hne => absurd rfl hne⟩
  | begun solid settled =>
    obtain ⟨⟨hle, hmarked⟩, hwaits⟩ := weight_settle l (l.chars.takeWhile (· = ' ')).length
      (trimRight (l.chars.dropWhile (· = ' ')))
    rw [settled, marks_body] at hle hwaits
    rw [settled] at hmarked
    rw [weight_of_not_skipped solid]
    exact ⟨⟨hle, hmarked⟩, fun hne => Nat.lt_succ_of_le (hwaits hne)⟩

/-- No step gives out more than it takes in. -/
theorem weight_step {state state' : Option Waiting} {l : SourceLine} {done : List LogicalLine}
    (h : step state l = .ok (done, state')) (hm : Marked state) :
    (done.map weight).sum + potential state' ≤ potential state + l.weight ∧ Marked state' := by
  cases stepped_of_step h with
  | passed skipped comma => exact ⟨by simp, hm⟩
  | noted solid note =>
    obtain ⟨⟨hle, hmarked⟩, -⟩ := weight_begin h
    exact ⟨hle.trans (Nat.le_add_left _ _), hmarked⟩
  | begun solid settled =>
    obtain ⟨⟨hle, hmarked⟩, -⟩ := weight_begin h
    exact ⟨hle.trans (Nat.le_add_left _ _), hmarked⟩
  | @spliced w _ _ marker settled =>
    -- the backslash goes
    have hline : marks (trim l.chars) ≤ l.weight := by
      rw [SourceLine.weight]
      split
      · next hb => simp [trim_eq_nil_iff.mpr hb]
      · simp
    obtain ⟨⟨hle, hmarked⟩, -⟩ := weight_settle w.first w.indent
      (join (dropBackslash w.text) (trim l.chars))
    have hending := hm w rfl
    rw [marker] at hending
    have hdrop := marks_dropBackslash hending
    rw [settled, marks_join] at hle
    rw [settled] at hmarked
    refine ⟨?_, hmarked⟩
    simp only [potential] at hle ⊢
    omega
  | @continued w _ _ marker solid settled =>
    -- two lines become one
    obtain ⟨⟨hle, hmarked⟩, -⟩ := weight_settle w.first w.indent (join w.text (trim l.chars))
    have hweight := weight_of_not_skipped solid
    rw [← marks_trim] at hweight
    rw [settled, marks_join] at hle
    rw [settled] at hmarked
    refine ⟨?_, hmarked⟩
    simp only [potential] at hle ⊢
    omega

/-- **Folding gives out no more than it takes in.** -/
theorem weight_foldFrom {state : Option Waiting} {ls : List SourceLine} {out : List LogicalLine}
    (h : foldFrom state ls = .ok out) (hm : Marked state) :
    (out.map weight).sum ≤ potential state + (ls.map SourceLine.weight).sum := by
  induction ls generalizing state out with
  | nil =>
    rcases finish_cases h with ⟨rfl, rfl⟩ | ⟨w, rfl, hcomma, rfl⟩
    · simp
    · have hending := hm w rfl
      rw [hcomma] at hending
      -- the line that still waits ends with a comma, which goes
      have hdrop := marks_dropCommas hending
      have hemit := weight_emit w.first w.indent (dropCommas w.text)
      simp only [potential, List.map_nil, List.sum_nil]
      omega
  | cons l ls ih =>
    obtain ⟨done, state', rest, hs, hf, rfl⟩ := foldFrom_cons_ok h
    obtain ⟨hle, hmarked⟩ := weight_step hs hm
    have hrest := ih hf hmarked
    rw [List.map_append, List.sum_append, List.map_cons, List.sum_cons]
    omega

/-! ## Lines that are taken as they stand -/

/-- A physical line that gives its weight out at once. -/
def Taken (l : SourceLine) : Prop :=
  ∃ done, begin? l = .ok (done, none) ∧ l.weight ≤ (done.map weight).sum

/-- **Where all of the weight comes out again, every line is taken as it stands.** -/
theorem taken_of_weight {ls : List SourceLine} {out : List LogicalLine}
    (h : foldFrom none ls = .ok out)
    (hw : (ls.map SourceLine.weight).sum ≤ (out.map weight).sum) : ∀ l ∈ ls, Taken l := by
  induction ls generalizing out with
  | nil => exact fun l hl => absurd hl (by simp)
  | cons l ls ih =>
    obtain ⟨done, state', rest, hs, hf, rfl⟩ := foldFrom_cons_ok h
    obtain ⟨⟨hle, hmarked⟩, hwaits⟩ := weight_begin hs
    have hrest := weight_foldFrom hf hmarked
    rw [List.map_append, List.sum_append, List.map_cons, List.sum_cons] at hw
    cases state' with
    | some w =>
      -- something has been lost already
      have := hwaits (by simp)
      omega
    | none =>
      simp only [potential] at hle hrest
      intro m hm
      rcases List.mem_cons.mp hm with rfl | hm
      · exact ⟨done, hs, by omega⟩
      · exact ih hf (by omega) m hm

end LogicalLine

end IntentCode
