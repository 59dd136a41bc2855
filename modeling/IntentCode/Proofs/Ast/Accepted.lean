import IntentCode.Proofs.Ast.Drawing
import IntentCode.Proofs.Ast.Validation

/-!
# What validation accepts

A table that is accepted need not have been made by `push`, and its numbers need not grow from parent
to child. What it has is an order: the walk reaches every node once, and it reaches the children of a
node when it visits that node, so a node is always reached before its children (`Visits.order`). No
branch is then longer than what was reached after it began, and unfolding the links draws the whole
tree, whatever the bound (`draws_of_validate`).
-/

set_option autoImplicit false

namespace IntentCode.Ast.Table

/-- Where a walk without a fault is. What has been reached last stands first. -/
structure Visits (t : Table) (stack reached : List Nat) : Prop where
  bound : ∀ c ∈ reached, c < t.size
  once : reached.Nodup
  waiting : stack ⊆ reached
  /-- A node that has been visited was reached before its children. -/
  order : ∀ later p earlier, reached = later ++ p :: earlier → p ∉ stack →
    ∀ n, t.get? p = some n → n.children ⊆ later

namespace Visits

variable {t : Table} {uid : Nat} {stack reached : List Nat} {n : Node}

theorem initial (h : t.get? 0 = some n) : Visits t [0] [0] where
  bound := by
    intro c hc
    obtain rfl := List.mem_singleton.mp hc
    exact get?_lt h
  once := List.nodup_singleton 0
  waiting := List.Subset.refl _
  order := by
    intro later p earlier heq hp
    have hmem : p ∈ [0] := by
      rw [heq]
      exact List.mem_append_right _ List.mem_cons_self
    exact absurd hmem hp

/-- A node is visited. -/
theorem visit (v : Visits t (uid :: stack) reached) (hn : t.get? uid = some n)
    (hc : t.reachChildren uid reached n.children = .ok (n.children.reverse ++ reached)) :
    Visits t (n.children.reverse ++ stack) (n.children.reverse ++ reached) where
  bound := lt_of_reachChildren hc v.bound
  once := nodup_of_reachChildren hc v.once
  waiting := subset_of_reachChildren hc v.waiting
  order := by
    intro later p earlier heq hp m hm
    rw [List.mem_append, not_or] at hp
    -- the node is not one of those that have just been reached
    obtain ⟨more, hlater, hold⟩ : ∃ more, later = n.children.reverse ++ more ∧
        reached = more ++ p :: earlier := by
      rcases List.append_eq_append_iff.mp heq with ⟨more, hlater, hold⟩ | ⟨more, hfront, hrest⟩
      · exact ⟨more, hlater, hold⟩
      · cases more with
        | nil => exact ⟨[], by simpa using hfront.symm, hrest.symm⟩
        | cons q more =>
          obtain rfl : p = q := (List.cons.inj hrest).1
          refine absurd ?_ hp.1
          rw [hfront]
          exact List.mem_append_right _ List.mem_cons_self
    intro c hc
    rw [hlater]
    by_cases hpu : p = uid
    · subst hpu
      obtain rfl := Option.some.inj (hn.symm.trans hm)
      exact List.mem_append_left _ (List.mem_reverse.mpr hc)
    · have hno : p ∉ uid :: stack := by
        rw [List.mem_cons, not_or]
        exact ⟨hpu, hp.2⟩
      exact List.mem_append_right _ (v.order more p earlier hold hno m hm hc)

/-- When a walk has come to its end, everything that was reached has been visited. -/
theorem finished {outcome : Except Fault (List Nat)} (v : Visits t stack reached)
    (h : t.Walks stack reached outcome) {final : List Nat} (hfinal : outcome = .ok final) :
    Visits t [] final ∧ reached ⊆ final := by
  induction h with
  | done =>
    cases hfinal
    exact ⟨v, List.Subset.refl _⟩
  | missing => cases hfinal
  | stopped => cases hfinal
  | visit get reach rest ih =>
    obtain ⟨-, -, -, rfl⟩ := reachChildren_eq_ok_iff.mp reach
    obtain ⟨hvisits, hsubset⟩ := ih (v.visit get reach) hfinal
    exact ⟨hvisits, fun c hc => hsubset (List.mem_append_right _ hc)⟩

end Visits

/-- Trees side by side. -/
theorem exists_draws {t : Table} {uids : List Nat} {bound : Nat}
    (h : ∀ c ∈ uids, ∃ n f, t.get? c = some n ∧ n.uid = c ∧ t.Draws n.children f ∧
      f.height < bound) : ∃ f, t.Draws uids f ∧ f.height ≤ bound := by
  induction uids with
  | nil => exact ⟨.nil, .nil, Nat.zero_le _⟩
  | cons c uids ih =>
    obtain ⟨n, below, hn, hnumber, hbelow, hheight⟩ := h c List.mem_cons_self
    obtain ⟨beside, hbeside, hbound⟩ := ih fun d hd => h d (List.mem_cons_of_mem _ hd)
    refine ⟨.cons n below beside, .cons hn hnumber hbelow hbeside, ?_⟩
    rw [Forest.height]
    omega

/-- What is below a node was reached after it. -/
theorem Visits.exists_draws {t : Table} {order : List Nat} (v : Visits t [] order)
    (hnumber : ∀ i n, t.get? i = some n → n.uid = i) {later earlier : List Nat} {p : Nat} {n : Node}
    (heq : order = later ++ p :: earlier) (hn : t.get? p = some n) :
    ∃ f, t.Draws n.children f ∧ f.height ≤ later.length := by
  induction hlen : later.length using Nat.strongRecOn generalizing later p earlier n with
  | ind length ih =>
    subst hlen
    apply Table.exists_draws
    intro c hc
    obtain ⟨front, back, hlater⟩ :=
      List.append_of_mem (v.order later p earlier heq List.not_mem_nil n hn hc)
    have hsplit : order = front ++ c :: (back ++ p :: earlier) := by
      rw [heq, hlater, List.append_assoc, List.cons_append]
    have hlt : front.length < later.length := by
      rw [hlater, List.length_append, List.length_cons]
      omega
    obtain ⟨m, hm⟩ := exists_get? (v.bound c (by simp [hsplit]))
    obtain ⟨f, hf, hheight⟩ := ih front.length hlt hsplit hm rfl
    exact ⟨m, f, hm, hnumber c m hm, hf, Nat.lt_of_le_of_lt hheight hlt⟩

/-- **An accepted table is drawn as a whole**, if its nodes lie at their numbers. -/
theorem draws_of_validate {t : Table} (h : t.validate = .ok ())
    (hnumber : ∀ i n, t.get? i = some n → n.uid = i) :
    ∃ n, t.get? 0 = some n ∧ n.body = .root ∧ t.Draws n.children t.forest ∧
      t.forest.height < t.size := by
  obtain ⟨⟨n, hn, -, -, hbody⟩, final, hwalk, -⟩ := validate_eq_ok_iff.mp h
  obtain ⟨v, hsubset⟩ := (Visits.initial hn).finished hwalk rfl
  obtain ⟨later, earlier, heq⟩ := List.append_of_mem (hsubset List.mem_cons_self)
  obtain ⟨f, hdraws, hheight⟩ := v.exists_draws hnumber heq hn
  have hlt : f.height < t.size := by
    have hle := length_reached_le v.bound v.once
    rw [heq, List.length_append, List.length_cons] at hle
    omega
  have hforest : t.forest = f := by
    rw [forest, forestUpTo_eq hn]
    exact hdraws.drawn_eq (Nat.le_of_lt hlt)
  rw [hforest]
  exact ⟨n, hn, hbody, hdraws, hlt⟩

/-! ## Links -/

/-- **The links of an accepted table lead to its nodes.** -/
theorem links_lt_of_validate {t : Table} (h : t.validate = .ok ()) {uid : Nat} {n : Node}
    (hn : t.get? uid = some n) :
    (∀ c ∈ n.children, c < t.size) ∧ ∀ p ∈ n.parent, p < t.size := by
  obtain ⟨hjoined, hall⟩ := joined_of_validate h
  constructor
  · intro c hc
    obtain ⟨m, hm, -⟩ := hjoined.child ⟨n, hn, hc⟩
    exact get?_lt hm
  · intro p hp
    have hzero : uid ≠ 0 := by
      rintro rfl
      obtain ⟨root, hroot, -, hnone, -⟩ := hjoined.root
      obtain rfl := Option.some.inj (hroot.symm.trans hn)
      rw [hnone] at hp
      cases hp
    -- the node that lists it is the one that it names
    obtain ⟨q, hq⟩ := lister_of_reachable (hall uid (get?_lt hn)) hzero
    obtain ⟨m, hm, hparent⟩ := hjoined.child hq
    obtain rfl := Option.some.inj (hm.symm.trans hn)
    obtain rfl : q = p := Option.some.inj (hparent.symm.trans hp)
    obtain ⟨k, hk, -⟩ := hq
    exact get?_lt hk

end IntentCode.Ast.Table
