import IntentCode.Ast.Interchange
import IntentCode.Proofs.Ast.Validation
import Mathlib.Data.List.Nodup
import Mathlib.Data.List.Count

/-!
# Tables that are trees

A table is a tree (`IsTree`) if it has a root, a node that is listed names its lister as its parent, and
every node but the root can be reached from there and is listed once in the whole table. That is what
`validate` accepts, and it comes to a verdict about every table.

In a table that was read from its exchanged form a node lies at its number as well. The way from a node to
its parent, and on to the parent of that, is then the way back to the root (`Ascends`): it ends there, and
it comes by no node twice.
-/

set_option autoImplicit false

namespace IntentCode.Ast.Table

variable {t : Table}

/-! ## Trees -/

structure IsTree (t : Table) : Prop where
  root : ∃ n, t.get? 0 = some n ∧ n.uid = 0 ∧ n.parent = none ∧ n.body = .root
  child : ∀ {p c : Nat}, t.Lists p c → ∃ m, t.get? c = some m ∧ m.parent = some p
  reachable : ∀ i < t.size, i ≠ 0 → Relation.ReflTransGen t.Lists 0 i
  /-- Over the lists of all nodes. -/
  once : ∀ i < t.size, i ≠ 0 → (t.toList.flatMap Node.children).count i = 1

/-- Where links agree, no child is listed twice in the whole table. -/
theorem Joined.nodup_children (h : t.Joined) : (t.toList.flatMap Node.children).Nodup := by
  rw [List.nodup_flatMap]
  constructor
  · intro n hn
    obtain ⟨p, hp⟩ := List.mem_iff_getElem?.mp hn
    rw [getElem?_toList] at hp
    exact h.distinct hp
  · rw [List.pairwise_iff_getElem]
    intro i j hi hj hlt c hc hc'
    have hget : ∀ {k : Nat} (hk : k < t.toList.length), t.get? k = some t.toList[k] := by
      intro k hk
      rw [← getElem?_toList, List.getElem?_eq_getElem hk]
    have heq : i = j := h.parent_eq ⟨_, hget hi, hc⟩ ⟨_, hget hj, hc'⟩
    omega

theorem Joined.isTree (h : t.Joined) (hall : ∀ i < t.size, Relation.ReflTransGen t.Lists 0 i) :
    t.IsTree where
  root := h.root
  child := h.child
  reachable := fun i hi _ => hall i hi
  once := by
    intro i hi hzero
    obtain ⟨p, n, hn, hc⟩ := lister_of_reachable (hall i hi) hzero
    exact List.count_eq_one_of_mem h.nodup_children
      (List.mem_flatMap.mpr ⟨n, mem_toList hn, hc⟩)

theorem IsTree.joined (h : t.IsTree) : t.Joined where
  root := h.root
  child := h.child
  distinct := by
    intro p n hn
    rw [List.nodup_iff_count_le_one]
    intro c
    by_cases hc : c ∈ n.children
    · obtain ⟨m, hm, hparent⟩ := h.child ⟨n, hn, hc⟩
      obtain ⟨root, hroot, -, hnone, -⟩ := h.root
      have hzero : c ≠ 0 := ne_zero_of_parent hroot hnone hm hparent
      have hsublist : n.children.Sublist (t.toList.flatMap Node.children) :=
        List.sublist_flatten_of_mem (List.mem_map_of_mem (mem_toList hn))
      exact Nat.le_trans (hsublist.count_le c) (Nat.le_of_eq (h.once c (get?_lt hm) hzero))
    · rw [List.count_eq_zero_of_not_mem hc]
      exact Nat.zero_le 1

theorem IsTree.reachable_of_lt (h : t.IsTree) {i : Nat} (hi : i < t.size) :
    Relation.ReflTransGen t.Lists 0 i := by
  by_cases hzero : i = 0
  · exact hzero ▸ .refl
  · exact h.reachable i hi hzero

/-- **What is accepted is a tree, and trees are accepted.** -/
theorem isTree_iff : t.IsTree ↔ t.validate = .ok () := by
  constructor
  · exact fun h => h.joined.validate_eq fun _ hi => h.reachable_of_lt hi
  · intro h
    obtain ⟨hjoined, hall⟩ := joined_of_validate h
    exact hjoined.isTree hall

/-! ## The way up -/

/-- What lies on the way from a node upwards, the nearest first, up to where no parent is found. -/
inductive Ascends (t : Table) : Nat → List Node → Prop
  | top {uid : Nat} (parent : t.parent? uid = none) : Ascends t uid []
  | up {uid : Nat} {n : Node} {above : List Node} (parent : t.parent? uid = some n)
    (rest : Ascends t n.uid above) : Ascends t uid (n :: above)

namespace Ascends

variable {uid : Nat} {above : List Node}

theorem unique {others : List Node} (h : t.Ascends uid above) (h' : t.Ascends uid others) :
    above = others := by
  induction h generalizing others with
  | top parent =>
    cases h' with
    | top => rfl
    | up parent' => rw [parent] at parent'; cases parent'
  | up parent rest ih =>
    cases h' with
    | top parent' => rw [parent] at parent'; cases parent'
    | up parent' rest' =>
      obtain rfl := Option.some.inj (parent.symm.trans parent')
      rw [ih rest']

/-- A limit that is high enough makes no difference. -/
theorem ancestorsUpTo_eq (h : t.Ascends uid above) {bound : Nat} (hb : above.length ≤ bound) :
    t.ancestorsUpTo bound uid = above := by
  induction h generalizing bound with
  | top parent => cases bound <;> simp [ancestorsUpTo, parent]
  | up parent rest ih =>
    cases bound with
    | zero => cases hb
    | succ bound =>
      rw [ancestorsUpTo, parent]
      simp only [ih (Nat.le_of_succ_le_succ hb)]

/-- From a node on the way it goes on as before. -/
theorem of_append (h : t.Ascends uid above) {front back : List Node} {m : Node}
    (heq : above = front ++ m :: back) : t.Ascends m.uid back := by
  induction h generalizing front with
  | top => simp at heq
  | up parent rest ih =>
    cases front with
    | nil =>
      cases heq
      exact rest
    | cons k front =>
      exact ih (List.cons.inj heq).2

/-- Nothing but nodes of the table lies on the way. -/
theorem exists_get? (h : t.Ascends uid above) {m : Node} (hm : m ∈ above) :
    ∃ i, t.get? i = some m := by
  induction h with
  | top => cases hm
  | up parent rest ih =>
    rcases List.mem_cons.mp hm with rfl | hm
    · obtain ⟨n, -, hparent⟩ := Option.bind_eq_some_iff.mp parent
      obtain ⟨i, -, hi⟩ := Option.bind_eq_some_iff.mp hparent
      exact ⟨i, hi⟩
    · exact ih hm

/-- **The way up comes by no number twice**, since it would go on from there as it did before. -/
theorem nodup (h : t.Ascends uid above) : (uid :: above.map Node.uid).Nodup := by
  induction h with
  | top => exact List.nodup_singleton _
  | @up uid n above parent rest ih =>
    refine List.nodup_cons.mpr ⟨fun hmem => ?_, ih⟩
    obtain ⟨m, hm, heq⟩ := List.mem_map.mp hmem
    obtain ⟨front, back, hsplit⟩ := List.append_of_mem hm
    have hback : t.Ascends uid back := heq ▸ (Ascends.up parent rest).of_append hsplit
    have hlength := congrArg List.length ((Ascends.up parent rest).unique hback)
    rw [hsplit, List.length_append, List.length_cons] at hlength
    omega

end Ascends

section

variable (hnumber : ∀ i n, t.get? i = some n → n.uid = i) (htree : t.IsTree)

include hnumber htree

/-- What can be reached from the root leads back to it. -/
theorem exists_ascends {i : Nat} (h : Relation.ReflTransGen t.Lists 0 i) :
    ∃ n above, t.get? i = some n ∧ t.Ascends i above ∧ (n :: above).getLast? = t.get? 0 := by
  induction h with
  | refl =>
    obtain ⟨n, hn, -, hnone, -⟩ := htree.root
    exact ⟨n, [], hn, .top (by simp [parent?, hn, hnone]), hn.symm⟩
  | @tail p c _ hlists ih =>
    obtain ⟨n, above, hn, hascends, hlast⟩ := ih
    obtain ⟨m, hm, hparent⟩ := htree.child hlists
    have hup : t.parent? c = some n := by simp [parent?, hm, hparent, hn]
    refine ⟨m, n :: above, hm, .up hup ?_, ?_⟩
    · rw [hnumber p n hn]
      exact hascends
    · rw [List.getLast?_cons_cons, hlast]

/-- **The ancestors of a node are all that lies on its way up, and the last is the root.** -/
theorem ascends_ancestors {i : Nat} {n : Node} (hn : t.get? i = some n) :
    t.Ascends i (t.ancestors i) ∧ (n :: t.ancestors i).getLast? = t.get? 0 := by
  obtain ⟨m, above, hm, hascends, hlast⟩ :=
    exists_ascends hnumber htree (htree.reachable_of_lt (get?_lt hn))
  obtain rfl := Option.some.inj (hn.symm.trans hm)
  have hbound : ∀ c ∈ above.map Node.uid, c < t.size := by
    intro c hc
    obtain ⟨k, hk, rfl⟩ := List.mem_map.mp hc
    obtain ⟨j, hj⟩ := hascends.exists_get? hk
    rw [hnumber j k hj]
    exact get?_lt hj
  have hle := length_reached_le hbound (List.nodup_cons.mp hascends.nodup).2
  rw [List.length_map] at hle
  have heq : t.ancestors i = above := hascends.ancestorsUpTo_eq hle
  rw [heq]
  exact ⟨hascends, hlast⟩

end

/-! ## Tables that were read -/

/-- The nodes of a table that was put together lie at their numbers. -/
theorem number_of_tableOf {nodes : List Node} (h : tableOf nodes = .ok t) :
    ∀ i n, t.get? i = some n → n.uid = i := by
  unfold tableOf at h
  simp only at h
  split at h
  · cases h
  · next hfind =>
    cases h
    refine number_of_zipIdx fun p hp => ?_
    have huid := List.find?_eq_none.mp hfind p hp
    simpa using huid

theorem of_read {text : String} (h : Table.read text = .ok t) :
    t.validate = .ok () ∧ ∀ i n, t.get? i = some n → n.uid = i := by
  unfold Table.read at h
  split at h
  · next v rest _ =>
    split at h
    · next members _ =>
      split at h
      · next nodes _ =>
        simp only [bind, Except.bind, pure, Except.pure] at h
        cases hkeyed : keyedNodes (.ofList nodes) with
        | error fault => rw [hkeyed] at h; cases h
        | ok keyed =>
          simp only [hkeyed] at h
          cases htable : tableOf keyed with
          | error fault => rw [htable] at h; cases h
          | ok u =>
            simp only [htable] at h
            have hvalid : u = t ∧ u.validate = .ok () := by
              split at h
              · cases h
              · cases hv : u.validate with
                | error fault => rw [hv] at h; cases h
                | ok =>
                  rw [hv] at h
                  exact ⟨Except.ok.inj h, rfl⟩
            obtain ⟨rfl, hvalid⟩ := hvalid
            exact ⟨hvalid, number_of_tableOf htable⟩
      · cases h
    · cases h
  · cases h

/-- **Validation decides whether a table is a tree.** Whatever the links are, its walk comes to an end without
the limit on its rounds, and in one way. In a table that was read, the way up from a node is finite, comes by
no node twice and ends at the root. -/
theorem validate_decides_isTree (t : Table) :
    (∀ outcome, t.Walks [0] [0] outcome ↔ outcome = t.reachFrom (t.size + 1) [0] [0]) ∧
      (t.validate = .ok () ↔ t.IsTree) ∧
      ∀ text, Table.read text = .ok t → ∀ i n, t.get? i = some n →
        t.Ascends i (t.ancestors i) ∧ (i :: (t.ancestors i).map Node.uid).Nodup ∧
          (n :: t.ancestors i).getLast? = t.get? 0 := by
  refine ⟨fun outcome => ⟨fun h => h.unique t.walks_from_root, fun h => h ▸ t.walks_from_root⟩,
    isTree_iff.symm, ?_⟩
  intro text hread i n hn
  obtain ⟨hvalid, hnumber⟩ := of_read hread
  obtain ⟨hascends, hlast⟩ := ascends_ancestors hnumber (isTree_iff.mpr hvalid) hn
  exact ⟨hascends, hascends.nodup, hlast⟩

/-- A tree in which a child has a smaller number than its parent. -/
def shuffledTable : Table :=
  ⟨#[⟨0, none, [2], 0, .root⟩, ⟨1, some 2, [], 2, .step ⟨"b", [], false⟩⟩,
    ⟨2, some 0, [1], 1, .step ⟨"a", [], true⟩⟩]⟩

/-- Two nodes that list each other beside the root. -/
def loopTable : Table :=
  ⟨#[rootNode, ⟨1, some 2, [2], 1, .step ⟨"a", [], true⟩⟩, ⟨2, some 1, [1], 2, .step ⟨"b", [], true⟩⟩]⟩

theorem validate_decides_isTree_shuffled : shuffledTable.IsTree ∧ ¬ loopTable.IsTree := by
  have htree : shuffledTable.validate = .ok () := by decide
  have hloop : loopTable.validate ≠ .ok () := by decide
  exact ⟨(validate_decides_isTree shuffledTable).2.1.mp htree,
    fun h => hloop ((validate_decides_isTree loopTable).2.1.mpr h)⟩

end IntentCode.Ast.Table
