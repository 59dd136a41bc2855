import IntentCode.LogicalLine
import IntentCode.Proofs.Text.Trim

/-!
# Which physical lines a logical line takes

Folding reports only what comes out. Seen from the source there is more to say: the physical lines
fall into groups, each of which starts where no line waits and ends where none waits again, and a
group gives one logical line or, if it is blank or joins to nothing, none (`groupsFrom`). What the
fold returns is what the groups give, one after the other.

What one step can do is said once (`Stepped`), and so is what the end of the source can do
(`finish_cases`); whatever the fold keeps is kept in each of these cases.

Because nothing waits between two groups, taking groups out does not disturb the others
(`foldFrom_of_sublist`).
-/

set_option autoImplicit false

namespace IntentCode

namespace LogicalLine

/-- Physical lines and the logical lines that they fold to, one or none. -/
structure Group where
  physical : List SourceLine
  logical : List LogicalLine
deriving DecidableEq, Inhabited

/-- The groups of the lines that follow, after the lines `taken` have led to a state. -/
def groupsFrom (state : Option Waiting) (taken : List SourceLine) :
    List SourceLine → Except LexError (List Group)
  | [] => (finish state).map fun out => [⟨taken, out⟩]
  | l :: ls =>
    match step state l with
    | .error e => .error e
    | .ok (out, none) => (groupsFrom none [] ls).map (⟨taken ++ [l], out⟩ :: ·)
    | .ok (_, some w) => groupsFrom (some w) (taken ++ [l]) ls

/-- The groups of a source. -/
def groups (source : String) : Except LexError (List Group) :=
  groupsFrom none [] (SourceLine.ofSource source)

/-! ## What a step gives -/

/-- The physical line that a logical line starts with. -/
def firstOf (state : Option Waiting) (l : SourceLine) : SourceLine :=
  match state with
  | none => l
  | some w => w.first

/-- A logical line that a physical line started. -/
def StartsAt (first : SourceLine) (l : LogicalLine) : Prop :=
  l.number = first.number ∧ l.raw = first.raw

theorem emit_startsAt (first : SourceLine) (indent : Nat) (text : List Char) :
    (emit first indent text).length ≤ 1 ∧ ∀ l ∈ emit first indent text, StartsAt first l := by
  unfold emit
  split <;> simp [StartsAt]

theorem settle_cases (first : SourceLine) (indent : Nat) (text : List Char) :
    (∃ marker, settle first indent text = ([], some ⟨first, indent, text, marker⟩)) ∨
      settle first indent text = (emit first indent text, none) := by
  unfold settle
  split
  · exact .inl ⟨_, rfl⟩
  · exact .inr rfl

/-- What a step that succeeds can do. -/
inductive Stepped (l : SourceLine) : Option Waiting → List LogicalLine → Option Waiting → Prop
  /-- A blank line or a comment is passed over, unless it stands behind a backslash. -/
  | passed {state : Option Waiting} (skipped : l.isSkipped = true)
    (comma : ∀ w, state = some w → w.marker = .comma) : Stepped l state [] state
  | noted (solid : ¬ l.isSkipped = true)
    (note : (Text.trimRight (l.chars.dropWhile (· = ' '))).head? = some '@') :
    Stepped l none (emit l (l.chars.takeWhile (· = ' ')).length
      (Text.trimRight (l.chars.dropWhile (· = ' ')))) none
  | begun {out : List LogicalLine} {next : Option Waiting} (solid : ¬ l.isSkipped = true)
    (settled : settle l (l.chars.takeWhile (· = ' ')).length
      (Text.trimRight (l.chars.dropWhile (· = ' '))) = (out, next)) : Stepped l none out next
  | spliced {w : Waiting} {out : List LogicalLine} {next : Option Waiting}
    (marker : w.marker = .backslash)
    (settled : settle w.first w.indent (join (dropBackslash w.text) (Text.trim l.chars)) =
      (out, next)) : Stepped l (some w) out next
  | continued {w : Waiting} {out : List LogicalLine} {next : Option Waiting}
    (marker : w.marker = .comma) (solid : ¬ l.isSkipped = true)
    (settled : settle w.first w.indent (join w.text (Text.trim l.chars)) = (out, next)) :
    Stepped l (some w) out next

theorem stepped_of_step {state state' : Option Waiting} {l : SourceLine} {out : List LogicalLine}
    (h : step state l = .ok (out, state')) : Stepped l state out state' := by
  cases state with
  | none =>
    simp only [step, begin?] at h
    split at h
    · next hskip =>
      obtain ⟨rfl, rfl⟩ := Prod.mk.inj (Except.ok.inj h)
      exact .passed hskip fun w hw => by cases hw
    · next hskip =>
      split at h
      · cases h
      · split at h
        · next hat =>
          obtain ⟨rfl, rfl⟩ := Prod.mk.inj (Except.ok.inj h)
          exact .noted hskip hat
        · exact .begun hskip (Except.ok.inj h)
  | some w =>
    simp only [step, resume?] at h
    split at h
    · next hmarker =>
      split at h
      · cases h
      · exact .spliced hmarker (Except.ok.inj h)
    · next hmarker =>
      split at h
      · next hskip =>
        obtain ⟨rfl, rfl⟩ := Prod.mk.inj (Except.ok.inj h)
        refine .passed hskip fun v hv => ?_
        obtain rfl := Option.some.inj hv
        exact hmarker
      · next hskip => exact .continued hmarker hskip (Except.ok.inj h)

/-- A step either waits, with nothing given, or gives at most one line. Either way what started
the line has not changed. -/
theorem step_ok {state state' : Option Waiting} {l : SourceLine} {out : List LogicalLine}
    (h : step state l = .ok (out, state')) :
    (∃ w, state' = some w ∧ w.first = firstOf state l ∧ out = []) ∨
      (state' = none ∧ out.length ≤ 1 ∧ ∀ x ∈ out, StartsAt (firstOf state l) x) := by
  -- whatever has been joined, it is settled in the name of the first line
  have hsettle : ∀ (first : SourceLine) (indent : Nat) (text : List Char),
      settle first indent text = (out, state') → first = firstOf state l →
      (∃ w, state' = some w ∧ w.first = firstOf state l ∧ out = []) ∨
        (state' = none ∧ out.length ≤ 1 ∧ ∀ x ∈ out, StartsAt (firstOf state l) x) := by
    rintro first indent text hs rfl
    rcases settle_cases (firstOf state l) indent text with ⟨marker, hm⟩ | he
    · rw [hm, Prod.mk.injEq] at hs
      obtain ⟨rfl, rfl⟩ := hs
      exact .inl ⟨_, rfl, rfl, rfl⟩
    · rw [he, Prod.mk.injEq] at hs
      obtain ⟨rfl, rfl⟩ := hs
      exact .inr ⟨rfl, emit_startsAt _ _ _⟩
  cases stepped_of_step h with
  | passed skipped comma =>
    cases state with
    | none => exact .inr ⟨rfl, by simp, by simp⟩
    | some w => exact .inl ⟨w, rfl, rfl, rfl⟩
  | noted solid note => exact .inr ⟨rfl, emit_startsAt _ _ _⟩
  | begun solid settled => exact hsettle _ _ _ settled rfl
  | spliced marker settled => exact hsettle _ _ _ settled rfl
  | continued marker solid settled => exact hsettle _ _ _ settled rfl

/-- At the end of a source that folds no line waits, or one behind a comma, which goes. -/
theorem finish_cases {state : Option Waiting} {out : List LogicalLine}
    (h : finish state = .ok out) :
    (state = none ∧ out = []) ∨ ∃ w, state = some w ∧ w.marker = .comma ∧
      out = emit w.first w.indent (dropCommas w.text) := by
  cases state with
  | none => exact .inl ⟨rfl, (Except.ok.inj h).symm⟩
  | some w =>
    simp only [finish] at h
    split at h
    · cases h
    · next hmarker => exact .inr ⟨w, rfl, hmarker, (Except.ok.inj h).symm⟩

theorem finish_ok {state : Option Waiting} {out : List LogicalLine} (h : finish state = .ok out) :
    out.length ≤ 1 ∧ ∀ x ∈ out, ∃ w, state = some w ∧ StartsAt w.first x := by
  rcases finish_cases h with ⟨rfl, rfl⟩ | ⟨w, rfl, -, rfl⟩
  · simp
  · obtain ⟨hlen, hstart⟩ := emit_startsAt w.first w.indent (dropCommas w.text)
    exact ⟨hlen, fun x hx => ⟨w, rfl, hstart x hx⟩⟩

/-! ## The fold through its groups -/

theorem foldFrom_cons (state : Option Waiting) (l : SourceLine) (ls : List SourceLine) :
    foldFrom state (l :: ls) =
      match step state l with
      | .error e => .error e
      | .ok (out, state') => (foldFrom state' ls).map (out ++ ·) := by
  simp only [foldFrom, bind, Except.bind]
  cases step state l with
  | error e => rfl
  | ok r =>
    simp only
    cases foldFrom r.2 ls <;> rfl

/-- A step that gives nothing only leads to the next state. -/
theorem foldFrom_cons_of_nil {state state' : Option Waiting} {l : SourceLine}
    (h : step state l = .ok ([], state')) (ls : List SourceLine) :
    foldFrom state (l :: ls) = foldFrom state' ls := by
  rw [foldFrom_cons, h]
  show (foldFrom state' ls).map ([] ++ ·) = _
  cases foldFrom state' ls <;> rfl

/-- What a fold has gone through that succeeds. -/
theorem foldFrom_cons_ok {state : Option Waiting} {l : SourceLine} {ls : List SourceLine}
    {out : List LogicalLine} (h : foldFrom state (l :: ls) = .ok out) :
    ∃ done state' rest, step state l = .ok (done, state') ∧ foldFrom state' ls = .ok rest ∧
      out = done ++ rest := by
  rw [foldFrom_cons] at h
  cases hs : step state l with
  | error e => rw [hs] at h; cases h
  | ok r =>
    obtain ⟨done, state'⟩ := r
    rw [hs] at h
    simp only at h
    cases hf : foldFrom state' ls with
    | error e => rw [hf] at h; cases h
    | ok rest =>
      rw [hf] at h
      cases h
      exact ⟨done, state', rest, rfl, hf, rfl⟩

/-- What has been given out after some lines, and the state that they lead to. -/
def advance (state : Option Waiting) :
    List SourceLine → Except LexError (List LogicalLine × Option Waiting)
  | [] => .ok ([], state)
  | l :: ls =>
    match step state l with
    | .error e => .error e
    | .ok (done, state') => (advance state' ls).map fun r => (done ++ r.1, r.2)

theorem advance_cons_ok {state state' : Option Waiting} {l : SourceLine} {ls : List SourceLine}
    {out : List LogicalLine} (h : advance state (l :: ls) = .ok (out, state')) :
    ∃ done next rest, step state l = .ok (done, next) ∧ advance next ls = .ok (rest, state') ∧
      out = done ++ rest := by
  rw [advance] at h
  cases hs : step state l with
  | error e => rw [hs] at h; cases h
  | ok r =>
    rw [hs] at h
    simp only at h
    cases ha : advance r.2 ls with
    | error e => rw [ha] at h; cases h
    | ok r' =>
      rw [ha] at h
      obtain ⟨rfl, rfl⟩ := Prod.mk.inj (Except.ok.inj h)
      exact ⟨r.1, r.2, r'.1, rfl, ha, rfl⟩

/-- A fold goes on from the state that the first lines lead to. -/
theorem foldFrom_append (state : Option Waiting) (ls ms : List SourceLine) :
    foldFrom state (ls ++ ms) =
      match advance state ls with
      | .error e => .error e
      | .ok (done, state') => (foldFrom state' ms).map (done ++ ·) := by
  induction ls generalizing state with
  | nil =>
    show foldFrom state ms = (foldFrom state ms).map ([] ++ ·)
    cases foldFrom state ms <;> rfl
  | cons l ls ih =>
    rw [List.cons_append, foldFrom_cons, advance]
    cases step state l with
    | error e => rfl
    | ok r =>
      simp only
      rw [ih]
      cases advance r.2 ls with
      | error e => rfl
      | ok r' =>
        simp only [Except.map]
        cases foldFrom r'.2 ms with
        | error e => rfl
        | ok rest => simp

/-- A source that folds has been gone through to its end. -/
theorem exists_advance_of_ofSource {source : String} {lines : List LogicalLine}
    (h : ofSource source = .ok lines) :
    ∃ done state last, advance none (SourceLine.ofSource source) = .ok (done, state) ∧
      finish state = .ok last ∧ lines = done ++ last := by
  unfold ofSource at h
  rw [← List.append_nil (SourceLine.ofSource source), foldFrom_append] at h
  cases ha : advance none (SourceLine.ofSource source) with
  | error e => rw [ha] at h; cases h
  | ok r =>
    rw [ha] at h
    simp only [foldFrom] at h
    cases hf : finish r.2 with
    | error e => rw [hf] at h; cases h
    | ok last =>
      rw [hf] at h
      exact ⟨r.1, r.2, last, rfl, hf, (Except.ok.inj h).symm⟩

theorem groupsFrom_nil_ok {state : Option Waiting} {taken : List SourceLine} {gs : List Group}
    (h : groupsFrom state taken [] = .ok gs) :
    ∃ out, finish state = .ok out ∧ gs = [⟨taken, out⟩] := by
  rw [groupsFrom] at h
  cases hf : finish state with
  | error e => rw [hf] at h; cases h
  | ok out =>
    rw [hf] at h
    cases h
    exact ⟨out, rfl, rfl⟩

/-- A line goes on with its group or ends it. -/
theorem groupsFrom_cons_ok {state : Option Waiting} {taken : List SourceLine} {l : SourceLine}
    {ls : List SourceLine} {gs : List Group} (h : groupsFrom state taken (l :: ls) = .ok gs) :
    (∃ w, step state l = .ok ([], some w) ∧ w.first = firstOf state l ∧
        groupsFrom (some w) (taken ++ [l]) ls = .ok gs) ∨
      ∃ out gs', step state l = .ok (out, none) ∧ groupsFrom none [] ls = .ok gs' ∧
        gs = ⟨taken ++ [l], out⟩ :: gs' := by
  rw [groupsFrom] at h
  cases hs : step state l with
  | error e => rw [hs] at h; cases h
  | ok r =>
    obtain ⟨out, state'⟩ := r
    rw [hs] at h
    rcases step_ok hs with ⟨w, rfl, hw, rfl⟩ | ⟨rfl, -, -⟩
    · exact .inl ⟨w, rfl, hw, h⟩
    · simp only at h
      cases hg : groupsFrom none [] ls with
      | error e => rw [hg] at h; cases h
      | ok gs' =>
        rw [hg] at h
        cases h
        exact .inr ⟨out, gs', rfl, rfl, rfl⟩

/-- **The fold gives what its groups give.** -/
theorem foldFrom_eq (state : Option Waiting) (taken ls : List SourceLine) :
    foldFrom state ls = (groupsFrom state taken ls).map fun gs => gs.flatMap Group.logical := by
  induction ls generalizing state taken with
  | nil =>
    rw [foldFrom, groupsFrom]
    cases finish state <;> simp [Except.map]
  | cons l ls ih =>
    rw [foldFrom_cons, groupsFrom]
    cases hs : step state l with
    | error e => rfl
    | ok r =>
      obtain ⟨out, state'⟩ := r
      cases state' with
      | none =>
        simp only
        rw [ih none []]
        cases groupsFrom none [] ls <;> simp [Except.map]
      | some w =>
        have hout : out = [] := by
          rcases step_ok hs with ⟨_, _, _, h⟩ | ⟨h, _⟩
          · exact h
          · cases h
        subst hout
        simp only
        rw [ih (some w) (taken ++ [l])]
        cases groupsFrom (some w) (taken ++ [l]) ls <;> simp [Except.map]

theorem groups_of_ofSource {source : String} {lines : List LogicalLine}
    (h : ofSource source = .ok lines) :
    ∃ gs, groups source = .ok gs ∧ gs.flatMap Group.logical = lines := by
  unfold ofSource at h
  rw [foldFrom_eq none [] _] at h
  unfold groups
  cases hg : groupsFrom none [] (SourceLine.ofSource source) with
  | error e => rw [hg] at h; cases h
  | ok gs =>
    rw [hg] at h
    exact ⟨gs, rfl, by simpa [Except.map] using h⟩

/-! ## The groups divide the source -/

theorem physical_of_groupsFrom {state : Option Waiting} {taken ls : List SourceLine}
    {gs : List Group} (h : groupsFrom state taken ls = .ok gs) :
    gs.flatMap Group.physical = taken ++ ls := by
  induction ls generalizing state taken gs with
  | nil =>
    obtain ⟨out, -, rfl⟩ := groupsFrom_nil_ok h
    simp
  | cons l ls ih =>
    rcases groupsFrom_cons_ok h with ⟨w, -, -, hg⟩ | ⟨out, gs', -, hg, rfl⟩
    · simpa using ih hg
    · simp [ih hg]

/-- The first physical line of a group is the one that its logical line starts with. -/
theorem logical_of_groupsFrom {state : Option Waiting} {taken ls : List SourceLine}
    {gs : List Group} (htaken : taken.head? = state.map Waiting.first)
    (h : groupsFrom state taken ls = .ok gs) :
    ∀ g ∈ gs, g.logical.length ≤ 1 ∧
      ∀ x ∈ g.logical, ∃ p, g.physical.head? = some p ∧ StartsAt p x := by
  induction ls generalizing state taken gs with
  | nil =>
    obtain ⟨out, hf, rfl⟩ := groupsFrom_nil_ok h
    obtain ⟨hlen, hstart⟩ := finish_ok hf
    intro g hg
    obtain rfl := List.mem_singleton.mp hg
    refine ⟨hlen, fun x hx => ?_⟩
    obtain ⟨w, rfl, hx⟩ := hstart x hx
    exact ⟨w.first, htaken, hx⟩
  | cons l ls ih =>
    have hfirst : (taken ++ [l]).head? = some (firstOf state l) := by
      rw [List.head?_append, htaken]
      cases state <;> rfl
    rcases groupsFrom_cons_ok h with ⟨w, -, hw, hg⟩ | ⟨out, gs', hs, hg, rfl⟩
    · refine ih ?_ hg
      rw [hfirst, ← hw]
      rfl
    · rcases step_ok hs with ⟨w, hw, -⟩ | ⟨-, hlen, hstart⟩
      · cases hw
      · intro g hmem
        rcases List.mem_cons.mp hmem with rfl | hmem
        · exact ⟨hlen, fun x hx => ⟨_, hfirst, hstart x hx⟩⟩
        · exact ih rfl hg g hmem

theorem numbers_sublist {gs : List Group}
    (h : ∀ g ∈ gs, g.logical.length ≤ 1 ∧
      ∀ x ∈ g.logical, ∃ p, g.physical.head? = some p ∧ StartsAt p x) :
    ((gs.flatMap Group.logical).map number).Sublist
      ((gs.flatMap Group.physical).map SourceLine.number) := by
  induction gs with
  | nil => simp
  | cons g gs ih =>
    obtain ⟨hlen, hstart⟩ := h g List.mem_cons_self
    simp only [List.flatMap_cons, List.map_append]
    refine List.Sublist.append ?_ (ih fun g' hg' => h g' (List.mem_cons_of_mem _ hg'))
    match hl : g.logical with
    | [] => simp
    | [x] =>
      obtain ⟨p, hp, hx⟩ := hstart x (by simp [hl])
      rw [List.map_singleton, List.singleton_sublist, hx.1]
      exact List.mem_map_of_mem (List.mem_of_mem_head? hp)
    | x :: y :: rest => simp [hl] at hlen

theorem number_ofSource (source : String) :
    (SourceLine.ofSource source).map SourceLine.number =
      List.range' 1 (Text.lines source).length := by
  unfold SourceLine.ofSource
  rw [List.mapIdx_eq_zipIdx_map, List.map_map, List.range'_eq_map_range]
  apply List.ext_getElem
  · simp
  · intro i hi hj
    simp [Nat.add_comm]

/-- **Logical lines are numbered in the order in which they stand**, from one on. -/
theorem numbers_of_ofSource {source : String} {lines : List LogicalLine}
    (h : ofSource source = .ok lines) : (0 :: lines.map number).Pairwise (· < ·) := by
  obtain ⟨gs, hgs, rfl⟩ := groups_of_ofSource h
  have hsub := numbers_sublist (logical_of_groupsFrom rfl hgs)
  rw [physical_of_groupsFrom hgs, List.nil_append, number_ofSource] at hsub
  have hlt : (List.range' 0 ((Text.lines source).length + 1)).Pairwise (· < ·) :=
    List.pairwise_lt_range'
  exact hlt.sublist (hsub.cons_cons 0)

/-! ## Characters -/

/-- The character is not in a line that waits. -/
def Absent (c : Char) (state : Option Waiting) : Prop := ∀ w, state = some w → c ∉ w.text

theorem absent_none (c : Char) : Absent c none := fun w hw => by cases hw

theorem absent_of_emit {c : Char} {text : List Char} (h : c ∉ text) (first : SourceLine)
    (indent : Nat) : ∀ x ∈ emit first indent text, c ∉ x.text.toList := by
  unfold emit
  split
  · simp
  · simpa using h

theorem absent_of_settle {c : Char} {first : SourceLine} {indent : Nat} {text : List Char}
    (h : c ∉ text) {done : List LogicalLine} {state : Option Waiting}
    (hs : settle first indent text = (done, state)) :
    Absent c state ∧ ∀ x ∈ done, c ∉ x.text.toList := by
  unfold settle at hs
  split at hs
  · cases hs
    refine ⟨?_, by simp⟩
    rintro w hw
    obtain rfl := Option.some.inj hw
    exact h
  · cases hs
    exact ⟨absent_none c, absent_of_emit h first indent⟩

theorem absent_join {c : Char} (hc : c ≠ ' ') {text next : List Char} (h : c ∉ text)
    (hn : c ∉ next) : c ∉ join text next := by
  unfold join
  split
  · simp [h, hn]
  · simp [h, hn, hc]

theorem absent_of_step {c : Char} (hc : c ≠ ' ') {state state' : Option Waiting} {l : SourceLine}
    {done : List LogicalLine} (h : step state l = .ok (done, state')) (hl : c ∉ l.chars)
    (hw : Absent c state) : Absent c state' ∧ ∀ x ∈ done, c ∉ x.text.toList := by
  have hright : ∀ cs : List Char, c ∉ cs → c ∉ Text.trimRight cs := fun cs hcs hm =>
    hcs ((Text.trimRight_isPrefix cs).subset hm)
  have hnext : c ∉ Text.trim l.chars := fun hm => hl (Text.mem_of_mem_trim hm)
  have hbody : c ∉ Text.trimRight (l.chars.dropWhile (· = ' ')) :=
    hright _ fun hm => hl ((List.dropWhile_sublist _).subset hm)
  cases stepped_of_step h with
  | passed skipped comma => exact ⟨hw, by simp⟩
  | noted solid note =>
    exact ⟨absent_none c, absent_of_emit hbody l _⟩
  | begun solid settled => exact absent_of_settle hbody settled
  | @spliced w _ _ marker settled =>
    have hdrop : c ∉ dropBackslash w.text :=
      hright _ fun hm => hw w rfl (List.dropLast_subset _ hm)
    exact absent_of_settle (absent_join hc hdrop hnext) settled
  | continued marker solid settled =>
    exact absent_of_settle (absent_join hc (hw _ rfl) hnext) settled

theorem absent_of_foldFrom {c : Char} (hc : c ≠ ' ') {state : Option Waiting}
    {ls : List SourceLine} {out : List LogicalLine} (h : foldFrom state ls = .ok out)
    (hls : ∀ l ∈ ls, c ∉ l.chars) (hw : Absent c state) : ∀ x ∈ out, c ∉ x.text.toList := by
  induction ls generalizing state out with
  | nil =>
    rcases finish_cases h with ⟨rfl, rfl⟩ | ⟨w, rfl, -, rfl⟩
    · simp
    · have htext : c ∉ dropCommas w.text := by
        unfold dropCommas
        rw [List.mem_reverse]
        exact fun hm => hw w rfl (List.mem_reverse.mp ((List.dropWhile_sublist _).subset hm))
      exact absent_of_emit htext w.first w.indent
  | cons l ls ih =>
    obtain ⟨done, state', rest, hs, hf, rfl⟩ := foldFrom_cons_ok h
    obtain ⟨hstate, hdone⟩ := absent_of_step hc hs (hls l List.mem_cons_self) hw
    intro x hx
    rcases List.mem_append.mp hx with hx | hx
    · exact hdone x hx
    · exact ih hf (fun m hm => hls m (List.mem_cons_of_mem _ hm)) hstate x hx

/-- **No logical line holds a line feed.** -/
theorem lineFeed_notMem_of_ofSource {source : String} {lines : List LogicalLine}
    (h : ofSource source = .ok lines) : ∀ l ∈ lines, '\n' ∉ l.text.toList := by
  refine absent_of_foldFrom (by decide) h ?_ (absent_none _)
  intro l hl
  unfold SourceLine.ofSource at hl
  obtain ⟨i, hi, rfl⟩ := List.mem_mapIdx.mp hl
  simp only [SourceLine.chars]
  have hmem : (Text.lines source)[i] ∈ Text.lines source := List.getElem_mem hi
  obtain ⟨cs, hcs, heq⟩ := List.mem_map.mp hmem
  rw [← heq, String.toList_ofList]
  exact Text.lineFeed_notMem_of_mem_breakLines _ cs hcs

/-! ## Taking groups out -/

/-- **The groups that are kept fold as before.** -/
theorem foldFrom_of_sublist {state : Option Waiting} {taken ls : List SourceLine}
    {gs kept : List Group} (htaken : ∀ rest, foldFrom none (taken ++ rest) = foldFrom state rest)
    (h : groupsFrom state taken ls = .ok gs) (hkept : kept.Sublist gs) :
    foldFrom none (kept.flatMap Group.physical) = .ok (kept.flatMap Group.logical) := by
  induction ls generalizing state taken gs kept with
  | nil =>
    obtain ⟨out, hf, rfl⟩ := groupsFrom_nil_ok h
    have hfold := htaken []
    rw [List.append_nil, foldFrom, hf] at hfold
    rcases List.sublist_cons_iff.mp hkept with hk | ⟨rest, rfl, hk⟩
    · obtain rfl := List.sublist_nil.mp hk
      rfl
    · obtain rfl := List.sublist_nil.mp hk
      simpa using hfold
  | cons l ls ih =>
    have hnext : ∀ {out : List LogicalLine} {state' : Option Waiting},
        step state l = .ok (out, state') → ∀ rest, foldFrom none (taken ++ [l] ++ rest) =
          (foldFrom state' rest).map (out ++ ·) := by
      intro out state' hs rest
      rw [List.append_assoc, htaken, List.singleton_append, foldFrom_cons, hs]
    rcases groupsFrom_cons_ok h with ⟨w, hs, -, hg⟩ | ⟨out, gs', hs, hg, rfl⟩
    · -- the group goes on
      refine ih (fun rest => ?_) hg hkept
      rw [List.append_assoc, htaken, List.singleton_append, foldFrom_cons_of_nil hs]
    · -- the group is complete, and folding starts anew behind it
      rcases List.sublist_cons_iff.mp hkept with hk | ⟨rest, rfl, hk⟩
      · exact ih (fun rest => rfl) hg hk
      · rw [List.flatMap_cons, List.flatMap_cons, hnext hs, ih (fun rest => rfl) hg hk]
        rfl

end LogicalLine

end IntentCode
