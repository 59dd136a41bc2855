import IntentCode.Proofs.Ast.Links
import Mathlib.Data.List.Nodup
import Mathlib.Data.List.Perm.Subperm
import Mathlib.Logic.Relation

/-!
# The walk of a validation

`validate` walks from the root over the children that nodes list. Its rounds are limited, but the limit is
never met, whatever the links are: what has been reached lies in the table and was reached once, so there
are no more rounds than nodes, and the walk is the one without a limit (`walks_reachFrom`).

Where parents and children agree (`Joined`) the walk has reached only the root and children of nodes that
it has visited (`Walk.known`), and a node has one parent, so no child is met a second time. At the end
every node that was reached has been visited, so nothing that can be reached is left out.
-/

set_option autoImplicit false

namespace IntentCode.Ast.Table

/-! ## One round -/

/-- What it takes that the children of a node are reached. -/
theorem reachChildren_eq_ok_iff {t : Table} {uid : Nat} {reached final cs : List Nat} :
    t.reachChildren uid reached cs = .ok final ↔
      (∀ c ∈ cs, ∃ m, t.get? c = some m ∧ m.parent = some uid) ∧ (∀ c ∈ cs, c ∉ reached) ∧
        cs.Nodup ∧ final = cs.reverse ++ reached := by
  induction cs generalizing reached with
  | nil => simp [reachChildren, eq_comm]
  | cons c cs ih =>
    rw [reachChildren]
    cases hget : t.get? c with
    | none => simp [hget]
    | some m =>
      by_cases hparent : m.parent = some uid
      · by_cases hmem : c ∈ reached
        · simp [hparent, hmem]
        · simp only [hparent, ne_eq, not_true_eq_false, if_false, List.contains_iff_mem, hmem, ih]
          simp only [List.forall_mem_cons, hget, Option.some.injEq, exists_eq_left', hparent,
            true_and, hmem, not_false_eq_true, List.nodup_cons, List.reverse_cons,
            List.append_assoc, List.singleton_append]
          constructor
          · rintro ⟨hchildren, hnew, hnodup, rfl⟩
            exact ⟨hchildren, fun d hd hr => hnew d hd (List.mem_cons_of_mem _ hr),
              ⟨fun hc => hnew c hc List.mem_cons_self, hnodup⟩, rfl⟩
          · rintro ⟨hchildren, hnew, ⟨hc, hnodup⟩, rfl⟩
            refine ⟨hchildren, fun d hd hr => ?_, hnodup, rfl⟩
            rcases List.mem_cons.mp hr with rfl | hr
            · exact hc hd
            · exact hnew d hd hr
      · simp [hparent, hget]

/-- What has been reached lies in the table. -/
theorem lt_of_reachChildren {t : Table} {uid : Nat} {reached next cs : List Nat}
    (h : t.reachChildren uid reached cs = .ok next) (hbound : ∀ c ∈ reached, c < t.size) :
    ∀ c ∈ next, c < t.size := by
  obtain ⟨hlinks, -, -, rfl⟩ := reachChildren_eq_ok_iff.mp h
  intro c hc
  rcases List.mem_append.mp hc with hc | hc
  · obtain ⟨m, hm, -⟩ := hlinks c (List.mem_reverse.mp hc)
    exact get?_lt hm
  · exact hbound c hc

/-- What has been reached was reached once. -/
theorem nodup_of_reachChildren {t : Table} {uid : Nat} {reached next cs : List Nat}
    (h : t.reachChildren uid reached cs = .ok next) (honce : reached.Nodup) : next.Nodup := by
  obtain ⟨-, hnew, hnodup, rfl⟩ := reachChildren_eq_ok_iff.mp h
  rw [List.nodup_append]
  refine ⟨List.nodup_reverse.mpr hnodup, honce, ?_⟩
  rintro c hc d hd rfl
  exact hnew c (List.mem_reverse.mp hc) hd

/-- What waits has been reached. -/
theorem subset_of_reachChildren {t : Table} {uid : Nat} {stack reached next cs : List Nat}
    (h : t.reachChildren uid reached cs = .ok next) (hwaiting : uid :: stack ⊆ reached) :
    cs.reverse ++ stack ⊆ next := by
  obtain ⟨-, -, -, rfl⟩ := reachChildren_eq_ok_iff.mp h
  exact List.append_subset.mpr ⟨List.subset_append_left _ _,
    fun c hc => List.mem_append_right _ (hwaiting (List.mem_cons_of_mem _ hc))⟩

/-! ## The walk without a limit -/

/-- A walk from the nodes on the stack, with what it has reached so far and how it ends. -/
inductive Walks (t : Table) : List Nat → List Nat → Except Fault (List Nat) → Prop
  | done {reached : List Nat} : Walks t [] reached (.ok reached)
  | missing {uid : Nat} {stack reached : List Nat} (get : t.get? uid = none) :
    Walks t (uid :: stack) reached (.error (.missingNode uid))
  | stopped {uid : Nat} {stack reached : List Nat} {n : Node} {fault : Fault}
    (get : t.get? uid = some n) (reach : t.reachChildren uid reached n.children = .error fault) :
    Walks t (uid :: stack) reached (.error fault)
  | visit {uid : Nat} {stack reached next : List Nat} {n : Node} {outcome : Except Fault (List Nat)}
    (get : t.get? uid = some n) (reach : t.reachChildren uid reached n.children = .ok next)
    (rest : Walks t (n.children.reverse ++ stack) next outcome) :
    Walks t (uid :: stack) reached outcome

/-- A walk ends in one way. -/
theorem Walks.unique {t : Table} {stack reached : List Nat} {outcome other : Except Fault (List Nat)}
    (h : t.Walks stack reached outcome) (h' : t.Walks stack reached other) : outcome = other := by
  induction h with
  | done =>
    cases h'
    rfl
  | missing get =>
    cases h' with
    | missing => rfl
    | stopped get' => rw [get] at get'; cases get'
    | visit get' => rw [get] at get'; cases get'
  | stopped get reach =>
    cases h' with
    | missing get' => rw [get] at get'; cases get'
    | stopped get' reach' =>
      obtain rfl := Option.some.inj (get.symm.trans get')
      rw [reach] at reach'
      cases reach'
      rfl
    | visit get' reach' =>
      obtain rfl := Option.some.inj (get.symm.trans get')
      rw [reach] at reach'
      cases reach'
  | visit get reach rest ih =>
    cases h' with
    | missing get' => rw [get] at get'; cases get'
    | stopped get' reach' =>
      obtain rfl := Option.some.inj (get.symm.trans get')
      rw [reach] at reach'
      cases reach'
    | visit get' reach' rest' =>
      obtain rfl := Option.some.inj (get.symm.trans get')
      rw [reach] at reach'
      cases reach'
      exact ih rest'

/-- No more nodes are reached than there are. -/
theorem length_reached_le {t : Table} {reached : List Nat} (hbound : ∀ c ∈ reached, c < t.size)
    (honce : reached.Nodup) : reached.length ≤ t.size := by
  have hsubset : reached ⊆ List.range t.size := fun c hc => List.mem_range.mpr (hbound c hc)
  have hle := (honce.subperm hsubset).length_le
  rw [List.length_range] at hle
  exact hle

/-- **The rounds suffice**, whatever the links are: each visits a node, and a node enters the stack once. -/
theorem walks_reachFrom {t : Table} {rounds : Nat} {stack reached : List Nat}
    (hbound : ∀ c ∈ reached, c < t.size) (honce : reached.Nodup) (hwaiting : stack ⊆ reached)
    (hr : stack.length + t.size < rounds + reached.length) :
    t.Walks stack reached (t.reachFrom rounds stack reached) := by
  induction rounds generalizing stack reached with
  | zero =>
    have := length_reached_le hbound honce
    omega
  | succ rounds ih =>
    cases stack with
    | nil => exact .done
    | cons uid stack =>
      obtain ⟨n, hn⟩ := exists_get? (hbound uid (hwaiting List.mem_cons_self))
      rw [reachFrom, hn]
      simp only [bind, Except.bind]
      cases hc : t.reachChildren uid reached n.children with
      | error fault => exact .stopped hn hc
      | ok next =>
        refine .visit hn hc (ih (lt_of_reachChildren hc hbound) (nodup_of_reachChildren hc honce)
          (subset_of_reachChildren hc hwaiting) ?_)
        obtain ⟨-, -, -, rfl⟩ := reachChildren_eq_ok_iff.mp hc
        simp only [List.length_append, List.length_reverse, List.length_cons] at hr ⊢
        omega

/-- The walk of a validation is the one without a limit. -/
theorem walks_from_root (t : Table) : t.Walks [0] [0] (t.reachFrom (t.size + 1) [0] [0]) := by
  cases hn : t.get? 0 with
  | none =>
    rw [reachFrom, hn]
    exact .missing hn
  | some n =>
    refine walks_reachFrom ?_ (List.nodup_singleton 0) (List.Subset.refl _) ?_
    · intro c hc
      obtain rfl := List.mem_singleton.mp hc
      exact get?_lt hn
    · simp only [List.length_singleton]
      omega

/-- A table is accepted exactly if it has a root and the walk from there comes by all of its nodes. -/
theorem validate_eq_ok_iff {t : Table} :
    t.validate = .ok () ↔
      (∃ n, t.get? 0 = some n ∧ n.uid = 0 ∧ n.parent = none ∧ n.body = .root) ∧
        ∃ final, t.Walks [0] [0] (.ok final) ∧ ∀ uid < t.size, uid ∈ final := by
  have hall : ∀ final : List Nat, (List.range t.size).find? (fun uid => !final.contains uid) = none ↔
      ∀ uid < t.size, uid ∈ final := by
    intro final
    simp [List.find?_eq_none]
  have hwalks := t.walks_from_root
  unfold validate
  cases hn : t.get? 0 with
  | none => simp [bind, Except.bind, throw, throwThe, MonadExceptOf.throw]
  | some n =>
    simp only [bind, Except.bind, pure, Except.pure]
    by_cases hroot : n.uid ≠ 0 ∨ n.parent ≠ none ∨ n.body ≠ .root
    · rw [if_pos hroot]
      constructor
      · intro h
        cases h
      · rintro ⟨⟨m, hm, huid, hparent, hbody⟩, -⟩
        obtain rfl := Option.some.inj hm
        simp [huid, hparent, hbody] at hroot
    · rw [if_neg hroot]
      simp only [not_or, not_not] at hroot
      cases hfinal : t.reachFrom (t.size + 1) [0] [0] with
      | error fault =>
        constructor
        · intro h
          cases h
        · rintro ⟨-, final, hwalk, -⟩
          rw [hfinal] at hwalks
          cases hwalk.unique hwalks
      | ok final =>
        rw [hfinal] at hwalks
        simp only
        cases hfind : (List.range t.size).find? fun uid => !final.contains uid with
        | none => exact ⟨fun _ => ⟨⟨n, rfl, hroot⟩, final, hwalks, (hall final).mp hfind⟩, fun _ => rfl⟩
        | some uid =>
          constructor
          · intro h
            cases h
          · rintro ⟨-, other, hwalk, hmem⟩
            cases hwalk.unique hwalks
            rw [(hall final).mpr hmem] at hfind
            cases hfind

/-! ## Tables in which the links agree -/

/-- The node at position `p` lists `c` as a child. -/
def Lists (t : Table) (p c : Nat) : Prop := ∃ n, t.get? p = some n ∧ c ∈ n.children

/-- Parents and children agree, and no node lists a child twice. -/
structure Joined (t : Table) : Prop where
  root : ∃ n, t.get? 0 = some n ∧ n.uid = 0 ∧ n.parent = none ∧ n.body = .root
  child : ∀ {p c : Nat}, t.Lists p c → ∃ m, t.get? c = some m ∧ m.parent = some p
  distinct : ∀ {p : Nat} {n : Node}, t.get? p = some n → n.children.Nodup

theorem Joined.parent_eq {t : Table} (h : t.Joined) {p q c : Nat} (hp : t.Lists p c)
    (hq : t.Lists q c) : p = q := by
  obtain ⟨m, hm, hparent⟩ := h.child hp
  obtain ⟨k, hk, hparent'⟩ := h.child hq
  obtain rfl := Option.some.inj (hm.symm.trans hk)
  exact Option.some.inj (hparent.symm.trans hparent')

theorem ne_zero_of_parent {t : Table} {c p : Nat} {root n : Node} (hroot : t.get? 0 = some root)
    (hnone : root.parent = none) (hn : t.get? c = some n) (hparent : n.parent = some p) : c ≠ 0 := by
  rintro rfl
  obtain rfl := Option.some.inj (hroot.symm.trans hn)
  rw [hnone] at hparent
  cases hparent

theorem Joined.not_lists_root {t : Table} (h : t.Joined) {p : Nat} : ¬ t.Lists p 0 := by
  intro hp
  obtain ⟨n, hn, hparent⟩ := h.child hp
  obtain ⟨root, hroot, -, hnone, -⟩ := h.root
  exact ne_zero_of_parent hroot hnone hn hparent rfl

/-- Where the walk is: what it has reached, and what of that it has still to visit. -/
structure Walk (t : Table) (stack reached : List Nat) : Prop where
  bound : ∀ c ∈ reached, c < t.size
  once : reached.Nodup
  stacked : stack.Nodup
  waiting : stack ⊆ reached
  /-- Only the root and children of visited nodes have been reached. -/
  known : ∀ c ∈ reached, c = 0 ∨
    ∃ p ∈ reached, p ∉ stack ∧ ∃ n, t.get? p = some n ∧ c ∈ n.children
  /-- All children of visited nodes have been reached. -/
  closed : ∀ p ∈ reached, p ∉ stack → ∀ n, t.get? p = some n → n.children ⊆ reached

namespace Walk

variable {t : Table} {uid : Nat} {stack reached : List Nat} {n : Node}

theorem initial (h : t.get? 0 = some n) : Walk t [0] [0] where
  bound := by simpa using get?_lt h
  once := List.nodup_singleton 0
  stacked := List.nodup_singleton 0
  waiting := List.Subset.refl _
  known := fun c hc => .inl (List.mem_singleton.mp hc)
  closed := fun p hp hno => absurd hp hno

/-- Nothing that a node on the stack lists has been reached before. -/
theorem fresh (h : t.Joined) (w : Walk t (uid :: stack) reached) (hn : t.get? uid = some n) :
    ∀ c ∈ n.children, c ∉ reached := by
  intro c hc hr
  rcases w.known c hr with rfl | ⟨p, -, hp, hlists⟩
  · exact h.not_lists_root ⟨n, hn, hc⟩
  · -- its parent would have been visited, but its parent is on the stack
    exact hp (h.parent_eq hlists ⟨n, hn, hc⟩ ▸ List.mem_cons_self)

/-- The children of a node on the stack are reached without a fault. -/
theorem reach (h : t.Joined) (w : Walk t (uid :: stack) reached) (hn : t.get? uid = some n) :
    t.reachChildren uid reached n.children = .ok (n.children.reverse ++ reached) :=
  reachChildren_eq_ok_iff.mpr
    ⟨fun _ hc => h.child ⟨n, hn, hc⟩, w.fresh h hn, h.distinct hn, rfl⟩

/-- A node is visited. -/
theorem visit (h : t.Joined) (w : Walk t (uid :: stack) reached) (hn : t.get? uid = some n) :
    Walk t (n.children.reverse ++ stack) (n.children.reverse ++ reached) where
  bound := lt_of_reachChildren (w.reach h hn) w.bound
  once := nodup_of_reachChildren (w.reach h hn) w.once
  stacked := by
    rw [List.nodup_append]
    refine ⟨List.nodup_reverse.mpr (h.distinct hn), (List.nodup_cons.mp w.stacked).2, ?_⟩
    rintro c hc d hd rfl
    exact w.fresh h hn c (List.mem_reverse.mp hc) (w.waiting (List.mem_cons_of_mem _ hd))
  waiting := subset_of_reachChildren (w.reach h hn) w.waiting
  known := by
    have hnew := w.fresh h hn
    intro c hc
    rcases List.mem_append.mp hc with hc | hc
    · refine .inr ⟨uid, List.mem_append_right _ (w.waiting List.mem_cons_self), ?_, n, hn,
        List.mem_reverse.mp hc⟩
      rw [List.mem_append, not_or]
      refine ⟨fun hmem => ?_, (List.nodup_cons.mp w.stacked).1⟩
      exact hnew uid (List.mem_reverse.mp hmem) (w.waiting List.mem_cons_self)
    · rcases w.known c hc with rfl | ⟨p, hpr, hp, k, hk, hck⟩
      · exact .inl rfl
      · refine .inr ⟨p, List.mem_append_right _ hpr, ?_, k, hk, hck⟩
        rw [List.mem_append, not_or]
        exact ⟨fun hmem => hnew p (List.mem_reverse.mp hmem) hpr,
          fun hmem => hp (List.mem_cons_of_mem _ hmem)⟩
  closed := by
    intro p hp hno k hk
    rw [List.mem_append, not_or] at hno
    by_cases hpu : p = uid
    · subst hpu
      rw [hn, Option.some.injEq] at hk
      subst hk
      exact fun c hc => List.mem_append_left _ (List.mem_reverse.mpr hc)
    · have hpr : p ∈ reached := (List.mem_append.mp hp).resolve_left hno.1
      have hps : p ∉ uid :: stack := by
        rw [List.mem_cons, not_or]
        exact ⟨hpu, hno.2⟩
      exact fun c hc => List.mem_append_right _ (w.closed p hpr hps k hk hc)

/-- A walk that goes on from here meets no fault. -/
theorem finishes (h : t.Joined) (w : Walk t stack reached) {outcome : Except Fault (List Nat)}
    (hw : t.Walks stack reached outcome) :
    ∃ final, outcome = .ok final ∧ Walk t [] final ∧ reached ⊆ final := by
  induction hw with
  | @done reached => exact ⟨reached, rfl, w, List.Subset.refl _⟩
  | missing get =>
    obtain ⟨n, hn⟩ := exists_get? (w.bound _ (w.waiting List.mem_cons_self))
    rw [get] at hn
    cases hn
  | stopped get reach =>
    rw [w.reach h get] at reach
    cases reach
  | visit get reach rest ih =>
    rw [w.reach h get] at reach
    cases reach
    obtain ⟨final, hfinal, hwalk, hsubset⟩ := ih (w.visit h get)
    exact ⟨final, hfinal, hwalk, fun c hc => hsubset (List.mem_append_right _ hc)⟩

/-- When nothing waits any more, all that can be reached has been reached. -/
theorem complete (w : Walk t [] reached) (h0 : 0 ∈ reached) {i : Nat}
    (hi : Relation.ReflTransGen t.Lists 0 i) : i ∈ reached := by
  induction hi with
  | refl => exact h0
  | tail _ hlists ih =>
    obtain ⟨n, hn, hc⟩ := hlists
    exact w.closed _ ih List.not_mem_nil n hn hc

end Walk

/-- **A table is accepted if its links agree and its root leads everywhere.** -/
theorem Joined.validate_eq {t : Table} (h : t.Joined)
    (hall : ∀ i < t.size, Relation.ReflTransGen t.Lists 0 i) : t.validate = .ok () := by
  obtain ⟨n, hn, hroot⟩ := h.root
  obtain ⟨final, hfinal, hwalk, hsubset⟩ := (Walk.initial hn).finishes h t.walks_from_root
  refine validate_eq_ok_iff.mpr ⟨⟨n, hn, hroot⟩, final, hfinal ▸ t.walks_from_root, ?_⟩
  exact fun i hi => hwalk.complete (hsubset List.mem_cons_self) (hall i hi)

/-! ## What is accepted -/

/-- What a walk without a fault has found out so far. -/
structure Explored (t : Table) (stack reached : List Nat) : Prop where
  found : ∀ c ∈ reached, Relation.ReflTransGen t.Lists 0 c
  /-- The links of a node that has been visited are sound. -/
  checked : ∀ p ∈ reached, p ∉ stack → ∀ n, t.get? p = some n →
    n.children.Nodup ∧ ∀ c ∈ n.children, ∃ m, t.get? c = some m ∧ m.parent = some p

namespace Explored

variable {t : Table} {uid : Nat} {stack reached next : List Nat} {n : Node}

theorem initial : Explored t [0] [0] where
  found := by
    intro c hc
    obtain rfl := List.mem_singleton.mp hc
    exact .refl
  checked := fun p hp hno => absurd hp hno

/-- A node is visited. -/
theorem visit (e : Explored t (uid :: stack) reached) (hn : t.get? uid = some n)
    (hwaiting : uid ∈ reached) (hc : t.reachChildren uid reached n.children = .ok next) :
    Explored t (n.children.reverse ++ stack) next := by
  obtain ⟨hlinks, -, hnodup, rfl⟩ := reachChildren_eq_ok_iff.mp hc
  constructor
  · intro c hmem
    rcases List.mem_append.mp hmem with hmem | hmem
    · exact (e.found uid hwaiting).tail ⟨n, hn, List.mem_reverse.mp hmem⟩
    · exact e.found c hmem
  · intro p hp hno m hm
    rw [List.mem_append, not_or] at hno
    by_cases hpu : p = uid
    · subst hpu
      obtain rfl := Option.some.inj (hn.symm.trans hm)
      exact ⟨hnodup, hlinks⟩
    · refine e.checked p ((List.mem_append.mp hp).resolve_left hno.1) ?_ m hm
      rw [List.mem_cons, not_or]
      exact ⟨hpu, hno.2⟩

theorem finished {outcome : Except Fault (List Nat)} (e : Explored t stack reached)
    (hwaiting : stack ⊆ reached) (h : t.Walks stack reached outcome) {final : List Nat}
    (hfinal : outcome = .ok final) : Explored t [] final := by
  induction h with
  | done =>
    cases hfinal
    exact e
  | missing => cases hfinal
  | stopped => cases hfinal
  | visit get reach rest ih =>
    exact ih (e.visit get (hwaiting List.mem_cons_self) reach)
      (subset_of_reachChildren reach hwaiting) hfinal

end Explored

/-- **The links of an accepted table agree, and its root leads everywhere.** -/
theorem joined_of_validate {t : Table} (h : t.validate = .ok ()) :
    t.Joined ∧ ∀ i < t.size, Relation.ReflTransGen t.Lists 0 i := by
  obtain ⟨hroot, final, hwalk, hall⟩ := validate_eq_ok_iff.mp h
  have e := Explored.initial.finished (List.Subset.refl _) hwalk rfl
  have hchecked : ∀ {p : Nat} {n : Node}, t.get? p = some n →
      n.children.Nodup ∧ ∀ c ∈ n.children, ∃ m, t.get? c = some m ∧ m.parent = some p :=
    fun hn => e.checked _ (hall _ (get?_lt hn)) List.not_mem_nil _ hn
  refine ⟨⟨hroot, ?_, fun hn => (hchecked hn).1⟩, fun i hi => e.found i (hall i hi)⟩
  rintro p c ⟨n, hn, hc⟩
  exact (hchecked hn).2 c hc

/-- What can be reached is the root, or a node that lists it can be reached. -/
theorem lister_of_reachable {t : Table} {i : Nat} (h : Relation.ReflTransGen t.Lists 0 i)
    (hi : i ≠ 0) : ∃ p, t.Lists p i := by
  rcases h.cases_tail with rfl | ⟨p, -, hp⟩
  · exact absurd rfl hi
  · exact ⟨p, hp⟩

/-! ## Tables that grew -/

theorem Linked.joined {t : Table} (h : t.Linked) : t.Joined where
  root := by
    obtain ⟨n, hn, hparent, hbody⟩ := h.root
    exact ⟨n, hn, h.number hn, hparent, hbody⟩
  child := by
    rintro p c ⟨n, hn, hc⟩
    obtain ⟨m, hm, hparent, -⟩ := h.child hn c hc
    exact ⟨m, hm, hparent⟩
  distinct := fun hn => (h.ordered hn).imp Nat.ne_of_lt

/-- Parents have smaller numbers, so the way to a node begins at the root. -/
theorem Linked.reachable {t : Table} (h : t.Linked) {i : Nat} (hi : i < t.size) :
    Relation.ReflTransGen t.Lists 0 i := by
  induction i using Nat.strongRecOn with
  | ind i ih =>
    by_cases hz : i = 0
    · exact hz ▸ .refl
    · obtain ⟨n, hn⟩ := exists_get? hi
      obtain ⟨p, m, -, hm, hlt, hmem⟩ := h.listed hn (by omega)
      exact (ih p hlt (get?_lt hm)).tail ⟨m, hm, hmem⟩

/-- **A table that grew by `push` is accepted.** -/
theorem Linked.validate_eq {t : Table} (h : t.Linked) : t.validate = .ok () :=
  h.joined.validate_eq fun _ hi => h.reachable hi

end IntentCode.Ast.Table
