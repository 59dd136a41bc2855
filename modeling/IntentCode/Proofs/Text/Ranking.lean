import IntentCode.Text.Ranking
import Mathlib.Data.List.Nodup
import Mathlib.Data.List.Perm.Subperm

/-!
# What a ranking is

The order in which names are ranked is total and antisymmetric, so a set of names can be listed in it,
each name once, in one way only (`Ranked.unique`). A ranking is that list, cut off at the limit
(`ranked_ranking`). Hence it depends on which names there are to choose from, and neither on their order
nor on how often they occur (`rank_congr`). What the limit cuts off comes after what is kept
(`rank_lists_closest`).
-/

set_option autoImplicit false

namespace IntentCode.Text

theorem Scored.le_antisymm {a b : Scored} (hab : a.le b = true) (hba : b.le a = true) : a = b := by
  simp only [le, Bool.or_eq_true, Bool.and_eq_true, decide_eq_true_eq, beq_iff_eq] at hab hba
  have hscore : a.score = b.score := by omega
  have hname : a.name = b.name := String.le_antisymm (by grind) (by grind)
  cases a
  cases b
  rw [Scored.mk.injEq]
  exact ⟨hscore, hname⟩

/-! ## Leaving repeats out -/

theorem mem_dropRepeats {l : List String} {c : String} : c ∈ dropRepeats l ↔ c ∈ l := by
  fun_induction dropRepeats l with
  | case1 b rest ih => simp [ih]
  | case2 a b rest hne ih => rw [List.mem_cons, ih, ← List.mem_cons]
  | case3 => exact Iff.rfl

theorem dropRepeats_sublist (l : List String) : (dropRepeats l).Sublist l := by
  fun_induction dropRepeats l with
  | case1 b rest ih => exact ih.trans (List.sublist_cons_self b _)
  | case2 a b rest hne ih => exact ih.cons_cons a
  | case3 l => exact List.Sublist.refl l

/-- In a sorted list equal names are neighbours, so none is left twice. -/
theorem nodup_dropRepeats {r : String → String → Prop} (hr : ∀ a b, r a b → r b a → a = b)
    {l : List String} (h : l.Pairwise r) : (dropRepeats l).Nodup := by
  fun_induction dropRepeats l with
  | case1 b rest ih => exact ih h.of_cons
  | case2 a b rest hne ih =>
    refine List.nodup_cons.mpr ⟨fun hmem => ?_, ih h.of_cons⟩
    obtain ⟨hfirst, hrest⟩ := List.pairwise_cons.mp h
    rcases List.mem_cons.mp (mem_dropRepeats.mp hmem) with heq | hmem
    · exact hne heq
    · exact hne (hr a b (hfirst b List.mem_cons_self) ((List.pairwise_cons.mp hrest).1 a hmem))
  | case3 l hshort =>
    match l, hshort with
    | [], _ => exact List.nodup_nil
    | [a], _ => exact List.nodup_singleton a
    | a :: b :: rest, hshort => exact absurd rfl (hshort a b rest)

/-! ## The ranking -/

/-- Whether `c` is listed before `d` among the names like `name`. -/
def Closer (name c d : String) : Prop := Scored.le ⟨score name c, c⟩ ⟨score name d, d⟩ = true

/-- The more similar name comes first, and of two that are equally similar the one that is first by name. -/
theorem closer_iff {name c d : String} :
    Closer name c d ↔ score name d < score name c ∨ score name c = score name d ∧ c ≤ d := by
  simp [Closer, Scored.le]

theorem Closer.antisymm {name c d : String} (hcd : Closer name c d) (hdc : Closer name d c) : c = d :=
  congrArg Scored.name (Scored.le_antisymm hcd hdc)

/-- The candidates that are similar enough to `name`, each once, the most similar first. -/
structure Ranked (name : String) (floor : Float) (candidates ranked : List String) : Prop where
  mem : ∀ c, c ∈ ranked ↔ c ∈ candidates ∧ ordinal floor ≤ score name c
  nodup : ranked.Nodup
  ordered : ranked.Pairwise (Closer name)

/-- **There is one ranking of a set of candidates.** -/
theorem Ranked.unique {name : String} {floor : Float} {candidates others l m : List String}
    (hl : Ranked name floor candidates l) (hm : Ranked name floor others m)
    (h : ∀ c, c ∈ candidates ↔ c ∈ others) : l = m := by
  have hperm : l.Perm m := by
    rw [List.perm_ext_iff_of_nodup hl.nodup hm.nodup]
    intro c
    rw [hl.mem, hm.mem, h]
  exact hperm.eq_of_pairwise (fun _ _ _ _ hcd hdc => hcd.antisymm hdc) hl.ordered hm.ordered

/-- The ranking without a limit. -/
def ranking (name : String) (floor : Float) (candidates : List String) : List String :=
  dropRepeats (((scored name floor candidates).mergeSort Scored.le).map Scored.name)

theorem rank_eq (name : String) (floor : Float) (limit : Nat) (candidates : List String) :
    rank name floor limit candidates =
      if name.isEmpty then [] else (ranking name floor candidates).take limit := rfl

theorem mem_scored {name : String} {floor : Float} {candidates : List String} {s : Scored} :
    s ∈ scored name floor candidates ↔
      (s.name ∈ candidates ∧ ordinal floor ≤ score name s.name) ∧ s.score = score name s.name := by
  obtain ⟨n, c⟩ := s
  simp only [scored, List.mem_map, List.mem_filter, decide_eq_true_eq, Scored.mk.injEq]
  constructor
  · rintro ⟨d, hd, rfl, rfl⟩
    exact ⟨hd, rfl⟩
  · rintro ⟨hc, rfl⟩
    exact ⟨c, hc, rfl, rfl⟩

/-- **A ranking lists the candidates that are similar enough**, each once and in order. -/
theorem ranked_ranking (name : String) (floor : Float) (candidates : List String) :
    Ranked name floor candidates (ranking name floor candidates) := by
  have hsorted := List.pairwise_mergeSort Scored.le_trans Scored.le_total
    (scored name floor candidates)
  have hmem : ∀ s ∈ (scored name floor candidates).mergeSort Scored.le,
      s.score = score name s.name :=
    fun s hs => (mem_scored.mp (List.mem_mergeSort.mp hs)).2
  have hordered : (((scored name floor candidates).mergeSort Scored.le).map Scored.name).Pairwise
      (Closer name) := by
    rw [List.pairwise_map]
    refine hsorted.imp_of_mem fun {a b} ha hb hle => ?_
    rw [Closer, ← hmem a ha, ← hmem b hb]
    exact hle
  refine ⟨fun c => ?_, nodup_dropRepeats (fun _ _ => Closer.antisymm) hordered,
    hordered.sublist (dropRepeats_sublist _)⟩
  rw [ranking, mem_dropRepeats, List.mem_map]
  constructor
  · rintro ⟨s, hs, rfl⟩
    exact (mem_scored.mp (List.mem_mergeSort.mp hs)).1
  · intro hc
    exact ⟨⟨score name c, c⟩, List.mem_mergeSort.mpr (mem_scored.mpr ⟨hc, rfl⟩), rfl⟩

/-- A ranking depends on which candidates there are. -/
theorem rank_congr {candidates others : List String} (h : ∀ c, c ∈ candidates ↔ c ∈ others)
    (name : String) (floor : Float) (limit : Nat) :
    rank name floor limit candidates = rank name floor limit others := by
  have hsame : ranking name floor candidates = ranking name floor others :=
    (ranked_ranking name floor candidates).unique (ranked_ranking name floor others) h
  rw [rank_eq, rank_eq, hsame]

/-! ## The limit -/

/-- For an empty name the ranking is cut off at once. -/
theorem rank_eq_take (name : String) (floor : Float) (limit : Nat) (candidates : List String) :
    rank name floor limit candidates =
      (ranking name floor candidates).take (if name = "" then 0 else limit) := by
  rw [rank_eq]
  by_cases hname : name = "" <;> simp [hname]

section Limit

variable {name : String} {floor : Float} {candidates ranked : List String}

/-- Something is cut off only when as many names are kept as the limit allows. -/
theorem length_take_of_cut {limit : Nat} {c : String} (hc : c ∈ ranked) (hcut : c ∉ ranked.take limit) :
    (ranked.take limit).length = limit := by
  rw [List.length_take]
  refine Nat.min_eq_left (Nat.le_of_not_lt fun hshort => hcut ?_)
  rwa [List.take_of_length_le (Nat.le_of_lt hshort)]

theorem Ranked.closer_of_cut (h : Ranked name floor candidates ranked) {limit : Nat} {c d : String}
    (hd : d ∈ ranked.take limit) (hc : c ∈ ranked) (hcut : c ∉ ranked.take limit) : Closer name d c := by
  have hordered := h.ordered
  rw [← List.take_append_drop limit ranked] at hordered hc
  have hdrop : c ∈ ranked.drop limit := (List.mem_append.mp hc).resolve_left hcut
  exact (List.pairwise_append.mp hordered).2.2 d hd c hdrop

end Limit

theorem of_mem_rank {name c : String} {floor : Float} {limit : Nat} {candidates : List String}
    (h : c ∈ rank name floor limit candidates) : c ∈ candidates ∧ ordinal floor ≤ score name c := by
  rw [rank_eq_take] at h
  exact ((ranked_ranking name floor candidates).mem c).mp (List.mem_of_mem_take h)

/-- What is similar enough is kept if the limit allows for all candidates. -/
theorem mem_rank_of_length_le {name c : String} {floor : Float} {limit : Nat}
    {candidates : List String} (hname : name ≠ "") (hlimit : candidates.length ≤ limit)
    (hc : c ∈ candidates) (henough : ordinal floor ≤ score name c) :
    c ∈ rank name floor limit candidates := by
  have hranked := ranked_ranking name floor candidates
  have hsubset : ranking name floor candidates ⊆ candidates :=
    fun d hd => ((hranked.mem d).mp hd).1
  have hlength := (List.subperm_of_subset hranked.nodup hsubset).length_le
  rw [rank_eq_take, if_neg hname, List.take_of_length_le (Nat.le_trans hlength hlimit)]
  exact (hranked.mem c).mpr ⟨hc, henough⟩

/-- **The names like a given one are the closest of the candidates.** They are candidates that are similar
enough, each listed once, in order and no more than the limit. A candidate that is similar enough and is not
listed comes after all that are, and it is left out only because there are as many as the limit allows or
because nothing is like an empty name. The order of the candidates and repeats among them do not matter. -/
theorem rank_lists_closest (name : String) (floor : Float) (limit : Nat) (candidates : List String) :
    (rank name floor limit candidates).Nodup ∧
      (rank name floor limit candidates).length ≤ limit ∧
      (∀ c ∈ rank name floor limit candidates, c ∈ candidates ∧ ordinal floor ≤ score name c) ∧
      (rank name floor limit candidates).Pairwise (fun c d =>
        score name d < score name c ∨ score name c = score name d ∧ c ≤ d) ∧
      (∀ c ∈ candidates, ordinal floor ≤ score name c → c ∉ rank name floor limit candidates →
        (name ≠ "" → (rank name floor limit candidates).length = limit) ∧
          ∀ d ∈ rank name floor limit candidates,
            score name c < score name d ∨ score name d = score name c ∧ d ≤ c) ∧
      (name = "" → rank name floor limit candidates = []) ∧
      ∀ others : List String, (∀ c, c ∈ others ↔ c ∈ candidates) →
        rank name floor limit others = rank name floor limit candidates := by
  have hranked := ranked_ranking name floor candidates
  have hcongr (others : List String) (hsame : ∀ c, c ∈ others ↔ c ∈ candidates) :
      rank name floor limit others = rank name floor limit candidates :=
    rank_congr hsame name floor limit
  refine ⟨?_, ?_, ?_, ?_, ?_, fun hempty => by simp [rank_eq, hempty], hcongr⟩ <;>
    simp only [rank_eq_take, ← closer_iff]
  · exact hranked.nodup.sublist (List.take_sublist _ _)
  · refine Nat.le_trans (List.length_take_le _ _) ?_
    split <;> simp
  · exact fun c hc => (hranked.mem c).mp (List.mem_of_mem_take hc)
  · exact hranked.ordered.sublist (List.take_sublist _ _)
  · intro c hc henough hcut
    have hmem := (hranked.mem c).mpr ⟨hc, henough⟩
    refine ⟨fun hname => ?_, fun d hd => hranked.closer_of_cut hd hmem hcut⟩
    rw [length_take_of_cut hmem hcut, if_neg hname]

end IntentCode.Text
