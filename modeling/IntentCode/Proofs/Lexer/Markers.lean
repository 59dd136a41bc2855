import IntentCode.Proofs.Lexer.Padding

/-!
# No marker is left at the end of a line

A line is given out when it ends with no continuation marker, and joining leaves no blanks at its
end behind which one could hide. So a line that is given out while the source goes on is `Finished`,
whatever was joined to make it (`finished_of_step`, and by induction `finished_of_advance`).

The end of the source is different. A line that still waits behind a comma then loses its commas and
spaces and is given out without another look, and what is left may end with a marker again: with a
backslash that stood before the comma, or with a comma that another blank than a space separates from
the rest. `finished_iff` says that this is the only way.
-/

set_option autoImplicit false

namespace IntentCode.LogicalLine

open Text

/-- A line that asks for no other: an `@` line, or one that ends with no marker, blanks aside. -/
def Finished (text : List Char) : Prop := text.head? = some '@' ∨ ending (trimRight text) = none

instance (text : List Char) : Decidable (Finished text) := inferInstanceAs (Decidable (_ ∨ _))

/-! ## What a step gives out -/

theorem ne_empty_of_emit {first : SourceLine} {indent : Nat} {text : List Char} {l : LogicalLine}
    (h : l ∈ emit first indent text) : l.text ≠ "" ∧ l.text.toList = text := by
  unfold emit at h
  split at h
  · cases h
  · next hne =>
    obtain rfl := List.mem_singleton.mp h
    exact ⟨by simpa using hne, String.toList_ofList⟩

/-- What is settled and given out is finished, if no blanks stand at its end. -/
theorem finished_of_settle {first : SourceLine} {indent : Nat} {text : List Char}
    {done : List LogicalLine} {state : Option Waiting} (htext : trimRight text = text)
    (h : settle first indent text = (done, state)) :
    ∀ l ∈ done, l.text ≠ "" ∧ Finished l.text.toList := by
  intro l hl
  obtain rfl : (settle first indent text).1 = done := congrArg Prod.fst h
  have hending := ending_of_settle hl
  unfold settle at hl
  split at hl
  · cases hl
  · obtain ⟨hne, hchars⟩ := ne_empty_of_emit hl
    refine ⟨hne, .inr ?_⟩
    rw [hchars, htext, ← hchars]
    exact hending

theorem trimRight_append_of_last (before : List Char) {text : List Char}
    (h : trimRight text = text) (hne : text ≠ []) : trimRight (before ++ text) = before ++ text := by
  apply trimRight_of_last
  intro c hc
  rw [List.getLast?_append_of_ne_nil _ hne, ← h] at hc
  exact last_trimRight text c hc

/-- Joined text ends as its parts do. -/
theorem trimRight_join {text next : List Char} (htext : trimRight text = text)
    (hnext : trimRight next = next) : trimRight (join text next) = join text next := by
  unfold join
  split
  · next hempty =>
    rw [Bool.or_eq_true, List.isEmpty_iff, List.isEmpty_iff] at hempty
    rcases hempty with rfl | rfl
    · exact hnext
    · rw [List.append_nil]
      exact htext
  · next hfull =>
    rw [Bool.or_eq_true, List.isEmpty_iff, List.isEmpty_iff, not_or] at hfull
    rw [← List.singleton_append, ← List.append_assoc]
    exact trimRight_append_of_last _ hnext hfull.2

theorem trimRight_trim (cs : List Char) : trimRight (trim cs) = trim cs := trimRight_trimRight _

/-- **Whatever is given out while the source goes on is finished.** -/
theorem finished_of_step {state state' : Option Waiting} {l : SourceLine}
    {done : List LogicalLine} (h : step state l = .ok (done, state')) :
    ∀ x ∈ done, x.text ≠ "" ∧ Finished x.text.toList := by
  cases stepped_of_step h with
  | passed skipped comma =>
    intro x hx
    cases hx
  | noted solid note =>
    intro x hx
    obtain ⟨hne, hchars⟩ := ne_empty_of_emit hx
    exact ⟨hne, .inl (by rw [hchars]; exact note)⟩
  | begun solid settled => exact finished_of_settle (trimRight_trimRight _) settled
  | spliced marker settled =>
    exact finished_of_settle (trimRight_join (trimRight_trimRight _) (trimRight_trim _)) settled
  | continued marker solid settled =>
    refine finished_of_settle ?_ settled
    -- the line is not blank, so its end is the end of what is joined
    have hnext := trim_ne_nil_of_not_skipped solid
    apply trimRight_of_last
    intro c hc
    rw [getLast?_join _ hnext] at hc
    exact last_trimRight _ c hc

theorem finished_of_advance {state state' : Option Waiting} {ls : List SourceLine}
    {done : List LogicalLine} (h : advance state ls = .ok (done, state')) :
    ∀ x ∈ done, x.text ≠ "" ∧ Finished x.text.toList := by
  induction ls generalizing state done with
  | nil =>
    obtain ⟨rfl, rfl⟩ := Prod.mk.inj (Except.ok.inj h)
    intro x hx
    cases hx
  | cons l ls ih =>
    obtain ⟨first, next, rest, hs, ha, rfl⟩ := advance_cons_ok h
    intro x hx
    rcases List.mem_append.mp hx with hx | hx
    · exact finished_of_step hs x hx
    · exact ih ha x hx

/-! ## The end of the source -/

/-- What the end of the source makes of a line that waits: nothing, or what is left of the line. -/
theorem of_finish {state : Option Waiting} {last : List LogicalLine} (h : finish state = .ok last) :
    (∀ x ∈ last, x.text ≠ "") ∧ last.length ≤ 1 ∧
      ((∀ x ∈ last, Finished x.text.toList) ↔
        ∀ w, state = some w → Finished (dropCommas w.text)) := by
  rcases finish_cases h with ⟨rfl, rfl⟩ | ⟨w, rfl, -, rfl⟩
  · simp
  · refine ⟨fun x hx => (ne_empty_of_emit hx).1, (emit_startsAt _ _ _).1, ?_⟩
    simp only [Option.some.injEq, forall_eq']
    constructor
    · intro hall
      by_cases hne : dropCommas w.text = []
      · rw [hne]
        exact .inr rfl
      · have hmem : (⟨w.first.number, w.indent, .ofList (dropCommas w.text), w.first.raw⟩ :
            LogicalLine) ∈ emit w.first w.indent (dropCommas w.text) := by
          simp [emit, hne]
        simpa using hall _ hmem
    · intro hleft x hx
      rw [(ne_empty_of_emit hx).2]
      exact hleft

/-- **Every logical line but the last is finished, and the last one is unless the source ends behind
a comma that hides another marker.** No line is empty. -/
theorem finished_iff {source : String} {lines : List LogicalLine}
    (h : ofSource source = .ok lines) :
    (∀ l ∈ lines, l.text ≠ "") ∧ (∀ l ∈ lines.dropLast, Finished l.text.toList) ∧
      ((∀ l ∈ lines, Finished l.text.toList) ↔
        ∀ done w, advance none (SourceLine.ofSource source) = .ok (done, some w) →
          Finished (dropCommas w.text)) := by
  obtain ⟨done, state, last, ha, hf, rfl⟩ := exists_advance_of_ofSource h
  have hdone := finished_of_advance ha
  obtain ⟨hne, hlen, hlast⟩ := of_finish hf
  refine ⟨?_, ?_, ?_⟩
  · intro l hl
    rcases List.mem_append.mp hl with hl | hl
    · exact (hdone l hl).1
    · exact hne l hl
  · intro l hl
    cases last with
    | nil =>
      rw [List.append_nil] at hl
      exact (hdone l (List.dropLast_subset _ hl)).2
    | cons x rest =>
      obtain rfl : rest = [] := by simpa using hlen
      rw [List.dropLast_concat] at hl
      exact (hdone l hl).2
  · constructor
    · intro hall done' w hw
      obtain ⟨-, rfl⟩ := Prod.mk.inj (Except.ok.inj (ha.symm.trans hw))
      exact hlast.mp (fun x hx => hall x (List.mem_append_right _ hx)) w rfl
    · intro hends l hl
      rcases List.mem_append.mp hl with hl | hl
      · exact (hdone l hl).2
      · exact hlast.mpr (fun w hw => hends done w (by rw [ha, hw])) l hl

theorem finished_iff_continued :
    ofSource "a \\\n\nb,\nc , ," = .ok [⟨1, 0, "a", "a \\"⟩, ⟨3, 0, "b, c", "b,"⟩] ∧
      ∀ l ∈ [(⟨1, 0, "a", "a \\"⟩ : LogicalLine), ⟨3, 0, "b, c", "b,"⟩],
        Finished l.text.toList := by
  have hlines : ofSource "a \\\n\nb,\nc , ," =
      .ok [⟨1, 0, "a", "a \\"⟩, ⟨3, 0, "b, c", "b,"⟩] := by decide +kernel
  have hends : advance none (SourceLine.ofSource "a \\\n\nb,\nc , ,") =
      .ok ([⟨1, 0, "a", "a \\"⟩], some ⟨⟨3, "b,"⟩, 0, "b, c , ,".toList, .comma⟩) := by
    decide +kernel
  refine ⟨hlines, (finished_iff hlines).2.2.mpr fun done w hw => ?_⟩
  rw [hends] at hw
  obtain ⟨-, hw⟩ := Prod.mk.inj (Except.ok.inj hw)
  obtain rfl := Option.some.inj hw
  decide +kernel

/-- A comma behind which a tab stood, and a backslash behind which a comma stood. -/
theorem marker_left_at_end :
    (ofSource "a,\t," = .ok [⟨1, 0, "a,\t", "a,\t,"⟩] ∧ ¬ Finished "a,\t".toList) ∧
      ofSource "a\\," = .ok [⟨1, 0, "a\\", "a\\,"⟩] ∧ ¬ Finished "a\\".toList := by
  decide +kernel

end IntentCode.LogicalLine
