import IntentCode.Proofs.Ast.Rows
import Mathlib.Data.List.Nodup
import Mathlib.Data.List.Perm.Subperm

/-!
# Links that agree

A table that grows by `push` has links that agree (`Linked`): a node lies at its own number, it lists
its children in ascending order, and what it lists names it as its parent and comes after it. All of
that is kept by one more node, so it holds of every tree from rows (`linked_ofRows`).
-/

set_option autoImplicit false

namespace IntentCode.Ast.Table

/-- Parents and children agree, and children come after their parents. -/
structure Linked (t : Table) : Prop where
  root : ∃ n, t.get? 0 = some n ∧ n.parent = none ∧ n.body = .root
  number : ∀ {i : Nat} {n : Node}, t.get? i = some n → n.uid = i
  child : ∀ {i : Nat} {n : Node}, t.get? i = some n → ∀ c ∈ n.children,
    ∃ m, t.get? c = some m ∧ m.parent = some i ∧ i < c
  listed : ∀ {i : Nat} {n : Node}, t.get? i = some n → 0 < i →
    ∃ p m, n.parent = some p ∧ t.get? p = some m ∧ p < i ∧ i ∈ m.children
  ordered : ∀ {i : Nat} {n : Node}, t.get? i = some n → n.children.Pairwise (· < ·)

/-! ## Tables that grow -/

theorem get?_lt {t : Table} {i : Nat} {n : Node} (h : t.get? i = some n) : i < t.size :=
  (Array.getElem?_eq_some_iff.mp h).1

theorem exists_get? {t : Table} {i : Nat} (h : i < t.size) : ∃ n, t.get? i = some n :=
  ⟨_, Array.getElem?_eq_getElem h⟩

theorem mem_toList {t : Table} {i : Nat} {n : Node} (h : t.get? i = some n) : n ∈ t.toList :=
  Array.mem_toList_iff.mpr (Array.mem_of_getElem? h)

theorem getElem?_toList (t : Table) (i : Nat) : t.toList[i]? = t.get? i := Array.getElem?_toList

/-- If nodes lie at their numbers, a listed node is found at its own. -/
theorem get?_uid_of_mem {t : Table} (h : ∀ i n, t.get? i = some n → n.uid = i) {n : Node}
    (hn : n ∈ t.toList) : t.get? n.uid = some n := by
  obtain ⟨i, hi⟩ := List.mem_iff_getElem?.mp hn
  rw [getElem?_toList] at hi
  rw [h i n hi, hi]

theorem Linked.get?_of_mem {t : Table} (h : t.Linked) {n : Node} (hn : n ∈ t.toList) :
    t.get? n.uid = some n :=
  get?_uid_of_mem (fun _ _ hi => h.number hi) hn

/-- Whether nodes lie at their numbers can be seen by counting them. -/
theorem number_of_zipIdx {t : Table} (h : ∀ p ∈ t.toList.zipIdx, p.1.uid = p.2) :
    ∀ i n, t.get? i = some n → n.uid = i := by
  intro i n hn
  rw [← getElem?_toList] at hn
  exact h (n, i) (List.mem_zipIdx_iff_getElem?.mpr hn)

/-- The numbers of nodes that lie at their numbers. -/
theorem uids_eq_range {t : Table} (h : ∀ i n, t.get? i = some n → n.uid = i) :
    t.toList.map Node.uid = List.range t.size := by
  apply List.ext_getElem?
  intro i
  rw [List.getElem?_map, getElem?_toList]
  by_cases hi : i < t.size
  · obtain ⟨n, hn⟩ := exists_get? hi
    rw [hn, List.getElem?_range hi, Option.map_some, h i n hn]
  · have hnone : t.get? i = none := Array.getElem?_eq_none (Nat.le_of_not_lt hi)
    rw [hnone, List.getElem?_eq_none (by simpa using hi)]
    rfl

/-- Such nodes are listed in the order of their numbers. -/
theorem pairwise_uid_toList {t : Table} (h : ∀ i n, t.get? i = some n → n.uid = i) :
    t.toList.Pairwise fun n k => n.uid < k.uid := by
  have hsorted : (t.toList.map Node.uid).Pairwise (· < ·) := by
    rw [uids_eq_range h]
    exact List.pairwise_lt_range
  exact List.pairwise_map.mp hsorted

theorem Linked.uids_toList {t : Table} (h : t.Linked) :
    t.toList.map Node.uid = List.range t.size :=
  uids_eq_range fun _ _ hn => h.number hn

/-- What is listed after a node has a larger number. -/
theorem Linked.uid_lt_of_append {t : Table} (h : t.Linked) {before after : List Node} {n k : Node}
    (hsplit : t.toList = before ++ n :: after) (hk : k ∈ after) : n.uid < k.uid := by
  have hsorted := pairwise_uid_toList fun _ _ hi => h.number hi
  rw [hsplit, List.pairwise_append, List.pairwise_cons] at hsorted
  exact hsorted.2.1.1 k hk

theorem linked_empty : Linked .empty where
  root := ⟨rootNode, rfl, rfl, rfl⟩
  number := by
    intro i n h
    obtain rfl : i = 0 := Nat.lt_one_iff.mp (get?_lt h)
    cases h
    rfl
  child := by
    intro i n h c hc
    obtain rfl : i = 0 := Nat.lt_one_iff.mp (get?_lt h)
    cases h
    cases hc
  listed := by
    intro i n h h0
    have : i < 1 := get?_lt h
    omega
  ordered := by
    intro i n h
    obtain rfl : i = 0 := Nat.lt_one_iff.mp (get?_lt h)
    cases h
    exact .nil

/-- A node of a table with one more node is that node, or it was there before and has perhaps one
more child. -/
theorem cases_get?_push {t : Table} {parent line : Nat} {body : Body} (hp : parent < t.size)
    {i : Nat} {n : Node} (h : (t.push parent line body).get? i = some n) :
    (i = t.size ∧ n = ⟨t.size, some parent, [], line, body⟩) ∨
      ∃ m, t.get? i = some m ∧
        n = { m with children := if i = parent then m.children ++ [t.size] else m.children } := by
  rw [get?_push hp] at h
  split at h
  · next hi => exact .inl ⟨hi, (Option.some.inj h).symm⟩
  · split at h
    · next hi =>
      obtain ⟨m, hm, rfl⟩ := Option.map_eq_some_iff.mp h
      exact .inr ⟨m, hm, by rw [if_pos hi]⟩
    · next hi => exact .inr ⟨n, h, by rw [if_neg hi]⟩

/-- A node that was there is there still. -/
theorem get?_push_of_some {t : Table} {parent line : Nat} {body : Body} (hp : parent < t.size)
    {i : Nat} {m : Node} (h : t.get? i = some m) :
    (t.push parent line body).get? i =
      some { m with children := if i = parent then m.children ++ [t.size] else m.children } := by
  have hlt := get?_lt h
  rw [get?_push hp, if_neg (by omega), h]
  by_cases hi : i = parent <;> simp [hi]

namespace Linked

variable {t : Table}

theorem push (h : t.Linked) {parent : Nat} (hp : parent < t.size) (line : Nat) (body : Body) :
    (t.push parent line body).Linked where
  root := by
    obtain ⟨n, hn, hparent, hbody⟩ := h.root
    exact ⟨_, get?_push_of_some hp hn, hparent, hbody⟩
  number := by
    intro i n hn
    rcases cases_get?_push hp hn with ⟨rfl, rfl⟩ | ⟨m, hm, rfl⟩
    · rfl
    · have hnumber : m.uid = i := h.number hm
      exact hnumber
  child := by
    intro i n hn c hc
    rcases cases_get?_push hp hn with ⟨rfl, rfl⟩ | ⟨m, hm, rfl⟩
    · cases hc
    · have hold : c ∈ m.children →
          ∃ k, (t.push parent line body).get? c = some k ∧ k.parent = some i ∧ i < c := by
        intro hc
        obtain ⟨k, hk, hparent, hlt⟩ := h.child hm c hc
        exact ⟨_, get?_push_of_some hp hk, hparent, hlt⟩
      simp only at hc
      split at hc
      · next hi =>
        rcases List.mem_append.mp hc with hc | hc
        · exact hold hc
        · -- the new node
          obtain rfl := List.mem_singleton.mp hc
          refine ⟨⟨t.size, some parent, [], line, body⟩, ?_, by rw [hi], get?_lt hm⟩
          rw [get?_push hp, if_pos rfl]
      · exact hold hc
  listed := by
    intro i n hn h0
    rcases cases_get?_push hp hn with ⟨rfl, rfl⟩ | ⟨m, hm, rfl⟩
    · obtain ⟨m, hm⟩ := exists_get? hp
      exact ⟨parent, _, rfl, get?_push_of_some hp hm, hp, by simp⟩
    · obtain ⟨p, k, hparent, hk, hlt, hmem⟩ := h.listed hm h0
      refine ⟨p, _, hparent, get?_push_of_some hp hk, hlt, ?_⟩
      simp only
      split
      · exact List.mem_append_left _ hmem
      · exact hmem
  ordered := by
    intro i n hn
    rcases cases_get?_push hp hn with ⟨rfl, rfl⟩ | ⟨m, hm, rfl⟩
    · exact .nil
    · simp only
      split
      · rw [List.pairwise_append]
        refine ⟨h.ordered hm, List.pairwise_singleton _ _, ?_⟩
        intro c hc d hd
        obtain rfl := List.mem_singleton.mp hd
        obtain ⟨k, hk, -⟩ := h.child hm c hc
        exact get?_lt hk
      · exact h.ordered hm

end Linked

/-! ## The children of a node -/

theorem children_eq {t : Table} {uid : Nat} {n : Node} (h : t.get? uid = some n) :
    t.children uid = n.children.filterMap t.get? := by
  simp [children, h]

/-- Nodes that were there are what they were, but for their children. -/
theorem map_filterMap_get?_push {α : Type} {f : Node → α}
    (hf : ∀ n children, f { n with children } = f n) {t : Table} {parent line : Nat} {body : Body}
    (hp : parent < t.size) {uids : List Nat} (h : ∀ c ∈ uids, c < t.size) :
    (uids.filterMap (t.push parent line body).get?).map f = (uids.filterMap t.get?).map f := by
  induction uids with
  | nil => rfl
  | cons c uids ih =>
    obtain ⟨m, hm⟩ := exists_get? (h c List.mem_cons_self)
    rw [List.filterMap_cons_some hm, List.filterMap_cons_some (get?_push_of_some hp hm),
      List.map_cons, List.map_cons, ih fun d hd => h d (List.mem_cons_of_mem _ hd), hf]

/-- **The new node is the last child of its parent, and no one else's.** -/
theorem map_children_push {α : Type} {f : Node → α}
    (hf : ∀ n children, f { n with children } = f n) {t : Table} (h : t.Linked)
    {parent line : Nat} {body : Body} (hp : parent < t.size) (uid : Nat) :
    ((t.push parent line body).children uid).map f =
      (t.children uid).map f ++
        if uid = parent then [f ⟨t.size, some parent, [], line, body⟩] else [] := by
  cases hn : t.get? uid with
  | none =>
    have hge : t.size ≤ uid := by
      by_contra hlt
      obtain ⟨n, hn'⟩ := exists_get? (t := t) (i := uid) (by omega)
      rw [hn] at hn'
      cases hn'
    have hnil : (t.push parent line body).children uid = [] := by
      cases hm : (t.push parent line body).get? uid with
      | none => simp [children, hm]
      | some m =>
        rcases cases_get?_push hp hm with ⟨rfl, rfl⟩ | ⟨k, hk, -⟩
        · rw [children_eq hm]
          rfl
        · rw [hn] at hk
          cases hk
    rw [if_neg (by omega), hnil, children, hn]
    rfl
  | some n =>
    have hchildren : ∀ c ∈ n.children, c < t.size := by
      intro c hc
      obtain ⟨m, hm, -⟩ := h.child hn c hc
      exact get?_lt hm
    rw [children_eq (get?_push_of_some hp hn), children_eq hn]
    by_cases hu : uid = parent
    · have hnew : (t.push parent line body).get? t.size =
          some ⟨t.size, some parent, [], line, body⟩ := by
        rw [get?_push hp, if_pos rfl]
      simp only [hu, if_true, List.filterMap_append, List.map_append,
        map_filterMap_get?_push hf hp hchildren, List.filterMap_cons_some hnew, List.filterMap_nil]
      rfl
    · simp only [hu, if_false, map_filterMap_get?_push hf hp hchildren, List.append_nil]

/-- **The links of a tree from rows agree.** -/
theorem linked_ofRows (rs : List Row) : (ofRows rs).Linked := by
  induction rs with
  | nil => exact linked_empty
  | cons r before ih =>
    exact ih.push (parentOf_lt_size before r.level) r.line r.body

end IntentCode.Ast.Table
