import IntentCode.Proofs.OrderedMap
import IntentCode.Proofs.Ast.Drawing
import Mathlib.Algebra.Order.BigOperators.Group.List
import Mathlib.Algebra.Order.Ring.Nat
import Mathlib.Data.List.Nodup
import Mathlib.Data.List.Perm.Subperm

/-!
# Structural equality

`sameStructure` goes down two tables side by side, to a bound, and compares bodies without their
numbers and lines. For trees that come from rows the bound is no restriction: the children of a
node come after it, so no branch is longer than the table (`lt_of_mem_children`). Two such trees
that differ in line numbers only are therefore the same.

The other way round, trees that are the same have forests of one shape (`Draws.alike`). Whatever is
counted over the nodes comes to the same in both (`sum_of_sameStructure`).
-/

set_option autoImplicit false

namespace IntentCode

/-! ## Maps and bodies -/

namespace OrderedMap

variable {α : Type}

theorem sameEntries_self [BEq α] [LawfulBEq α] (m : OrderedMap α) : m.sameEntries m = true := by
  unfold sameEntries
  rw [Bool.and_eq_true]
  refine ⟨by simp, ?_⟩
  rw [List.all_eq_true]
  intro e he
  rw [get?, lookup_of_mem m.nodup_keys he]
  simp

/-- The same entries are the same list in another order. -/
theorem perm_of_sameEntries [BEq α] [LawfulBEq α] {m n : OrderedMap α}
    (h : m.sameEntries n = true) : m.toList.Perm n.toList := by
  unfold sameEntries at h
  rw [Bool.and_eq_true, beq_iff_eq, List.all_eq_true] at h
  obtain ⟨hsize, hall⟩ := h
  have hsubset : m.toList ⊆ n.toList := by
    intro e he
    have hlookup : n.toList.lookup e.1 = some e.2 := beq_iff_eq.mp (hall e he)
    obtain ⟨before, after, hlist, -⟩ := List.lookup_eq_some_iff.mp hlookup
    rw [hlist]
    simp
  have hnodup : m.toList.Nodup := List.Nodup.of_map Prod.fst m.nodup_keys
  exact (List.subperm_of_subset hnodup hsubset).perm_of_length_le (Nat.le_of_eq hsize.symm)

/-- The same entries in the same order are the same map. -/
theorem eq_of_sameEntries [BEq α] [LawfulBEq α] {m n : OrderedMap α} (h : m.sameEntries n = true)
    (hkeys : m.keys = n.keys) : m = n := by
  have hperm := perm_of_sameEntries h
  apply ext
  apply List.ext_getElem hperm.length_eq
  intro i hi hi'
  have hkey : (m.toList[i]).1 = (n.toList[i]).1 := by
    have hget := List.getElem_of_eq hkeys (by simpa [keys] using hi)
    simpa [keys] using hget
  -- a key leads to one entry
  exact List.inj_on_of_nodup_map n.nodup_keys (hperm.subset (List.getElem_mem hi))
    (List.getElem_mem hi') hkey

end OrderedMap

namespace Ast

theorem Body.same_self (b : Body) : b.same b = true := by
  cases b <;> simp [Body.same, OrderedMap.sameEntries_self]

namespace Table

/-- The tree without line numbers. -/
def unnumbered (t : Table) : Table := ⟨t.nodes.map fun n => { n with line := 0 }⟩

theorem get?_unnumbered (t : Table) (i : Nat) :
    t.unnumbered.get? i = (t.get? i).map fun n => { n with line := 0 } := by
  simp [unnumbered, get?]

@[simp] theorem size_unnumbered (t : Table) : t.unnumbered.size = t.size := by
  simp [unnumbered, size]

end Table

/-- The forest without line numbers. -/
def Forest.unnumbered : Forest → Forest
  | .nil => .nil
  | .cons n below beside => .cons { n with line := 0 } below.unnumbered beside.unnumbered

theorem Forest.ofTrees_unnumbered {below below' : Node → Forest} {ns : List Node}
    (h : ∀ n, below' { n with line := 0 } = (below n).unnumbered) :
    ofTrees below' (ns.map fun n => { n with line := 0 }) = (ofTrees below ns).unnumbered := by
  induction ns with
  | nil => rfl
  | cons n ns ih => rw [List.map_cons, ofTrees, ofTrees, unnumbered, h, ih]

namespace Table

theorem children_unnumbered (t : Table) (uid : Nat) :
    t.unnumbered.children uid = (t.children uid).map fun n => { n with line := 0 } := by
  unfold children
  rw [get?_unnumbered]
  cases t.get? uid with
  | none => rfl
  | some n =>
    simp only [Option.map_some, List.map_filterMap]
    exact List.filterMap_congr fun i _ => t.get?_unnumbered i

/-- Unfolding does not look at line numbers. -/
theorem forestUpTo_unnumbered (t : Table) (bound uid : Nat) :
    t.unnumbered.forestUpTo bound uid = (t.forestUpTo bound uid).unnumbered := by
  induction bound generalizing uid with
  | zero => rfl
  | succ bound ih =>
    rw [forestUpTo, forestUpTo, children_unnumbered]
    exact Forest.ofTrees_unnumbered fun n => ih n.uid

theorem forest_unnumbered (t : Table) : t.unnumbered.forest = t.forest.unnumbered := by
  rw [forest, forest, size_unnumbered, forestUpTo_unnumbered]

/-! ## Trees from rows -/

/-- Children come after their parent, and they are in the table. -/
theorem lt_of_mem_children {rs : List Row} {uid c : Nat} {n : Node}
    (h : (ofRows rs).get? uid = some n) (hc : c ∈ n.children) :
    uid < c ∧ c < (ofRows rs).size := by
  induction rs generalizing n with
  | nil =>
    rcases uid with _ | uid
    · cases h
      cases hc
    · cases h
  | cons r before ih =>
    have hlt := parentOf_lt_size before r.level
    rw [ofRows, get?_push hlt] at h
    rw [ofRows, size_push]
    split at h
    · cases h
      cases hc
    · split at h
      · next hu =>
        obtain ⟨m, hm, rfl⟩ := Option.map_eq_some_iff.mp h
        rcases List.mem_append.mp hc with hc | hc
        · have := ih hm hc
          omega
        · obtain rfl := List.mem_singleton.mp hc
          omega
      · have := ih h hc
        omega

/-- A tree from rows is the same as itself, and the numbers of lines do not matter. -/
theorem sameUpTo_of_unnumbered {rs : List Row} {u : Table}
    (hu : u.unnumbered = (ofRows rs).unnumbered) :
    ∀ {bound i : Nat}, i < (ofRows rs).size → (ofRows rs).size < bound + i →
      u.sameUpTo (ofRows rs) bound i i = true := by
  intro bound
  induction bound with
  | zero => exact fun hi hb => absurd hb (by omega)
  | succ bound ih =>
    intro i hi hb
    have hget : u.unnumbered.get? i = (ofRows rs).unnumbered.get? i := by rw [hu]
    rw [get?_unnumbered, get?_unnumbered] at hget
    obtain ⟨n, hn⟩ : ∃ n, (ofRows rs).get? i = some n :=
      ⟨_, Array.getElem?_eq_getElem hi⟩
    rw [hn] at hget
    obtain ⟨m, hm, hmn⟩ := Option.map_eq_some_iff.mp hget
    simp only [Node.mk.injEq] at hmn
    obtain ⟨-, -, hchildren, -, hbody⟩ := hmn
    rw [sameUpTo, hn, hm]
    simp only [hbody, hchildren, Body.same_self, beq_self_eq_true, Bool.true_and,
      List.all_eq_true]
    intro p hp
    have hpp : p.1 ∈ n.children ∧ p.2 = p.1 := by
      have hz : ∀ (l : List Nat) (p : Nat × Nat), p ∈ l.zip l → p.1 ∈ l ∧ p.2 = p.1 := by
        intro l
        induction l with
        | nil => exact fun p hp => absurd hp (by simp)
        | cons a l ihl =>
          intro p hp
          rw [List.zip_cons_cons] at hp
          rcases List.mem_cons.mp hp with rfl | hp
          · exact ⟨List.mem_cons_self, rfl⟩
          · exact ⟨List.mem_cons_of_mem _ (ihl p hp).1, (ihl p hp).2⟩
      exact hz _ _ hp
    obtain ⟨hlt, hsize⟩ := lt_of_mem_children hn hpp.1
    rw [hpp.2]
    exact ih hsize (by omega)

/-- **Trees that differ in line numbers only have the same structure.** -/
theorem sameStructure_of_unnumbered {rs : List Row} {u : Table}
    (hu : u.unnumbered = (ofRows rs).unnumbered) : u.sameStructure (ofRows rs) = true := by
  have hsize : u.size = (ofRows rs).size := by
    rw [← size_unnumbered, hu, size_unnumbered]
  have hpos : 0 < (ofRows rs).size := by
    rw [size_ofRows]
    omega
  exact sameUpTo_of_unnumbered hu hpos (by omega)

end Table

/-! ## Forests that are alike -/

/-- Forests of one shape, with the same bodies in the same places. -/
inductive Forest.Alike : Forest → Forest → Prop
  | nil : Alike .nil .nil
  | cons {m n : Node} {below below' beside beside' : Forest} (body : m.body.same n.body = true)
    (inner : Alike below below') (outer : Alike beside beside') :
    Alike (.cons m below beside) (.cons n below' beside')

/-- What is counted over the bodies of alike forests comes to the same. -/
theorem Forest.Alike.sum_eq {f g : Forest} (h : f.Alike g) {w : Body → Nat}
    (hw : ∀ b c, b.same c = true → w b = w c) (level : Nat) :
    ((f.numbered level).map fun e => w e.2.body).sum =
      ((g.numbered level).map fun e => w e.2.body).sum := by
  induction h generalizing level with
  | nil => rfl
  | cons body inner outer ihb ihs =>
    simp only [numbered, List.cons_append, List.map_cons, List.map_append, List.sum_cons,
      List.sum_append]
    rw [hw _ _ body, ihb, ihs]

namespace Table

/-- **Unfolding what is the same gives alike forests.** -/
theorem Draws.alike {t u : Table} {is js : List Nat} {f g : Forest} (hf : t.Draws is f)
    (hg : u.Draws js g) (hlen : is.length = js.length)
    (hs : ∀ p ∈ is.zip js, ∃ bound, t.sameUpTo u bound p.1 p.2 = true) : f.Alike g := by
  induction hf generalizing js g with
  | nil =>
    obtain rfl : js = [] := List.length_eq_zero_iff.mp hlen.symm
    cases hg
    exact .nil
  | @cons i m is below beside get number hbelow hbeside ihb ihs =>
    cases hg with
    | nil => cases hlen
    | @cons j n js below' beside' get' number' hbelow' hbeside' =>
      -- the bound of a pair is its own, since it shrinks on the way down
      have hrest := ihs hbeside' (Nat.succ.inj hlen) fun p hp => hs p (List.mem_cons_of_mem _ hp)
      obtain ⟨bound, hsame⟩ := hs (i, j) List.mem_cons_self
      cases bound with
      | zero => cases hsame
      | succ bound =>
        rw [sameUpTo, get, get'] at hsame
        simp only [Bool.and_eq_true, beq_iff_eq, List.all_eq_true] at hsame
        obtain ⟨⟨hbody, hchildren⟩, hall⟩ := hsame
        exact .cons hbody (ihb hbelow' hchildren fun p hp => ⟨bound, hall p hp⟩) hrest

/-- Trees that are the same have forests that are alike. -/
theorem alike_of_sameStructure {t u : Table} {m n : Node} {f g : Forest} (hm : t.get? 0 = some m)
    (hn : u.get? 0 = some n) (hf : t.Draws m.children f) (hg : u.Draws n.children g)
    (h : t.sameStructure u = true) : f.Alike g := by
  unfold sameStructure at h
  cases hbound : t.size + u.size with
  | zero =>
    rw [hbound] at h
    cases h
  | succ bound =>
    rw [hbound, sameUpTo, hm, hn] at h
    simp only [Bool.and_eq_true, beq_iff_eq, List.all_eq_true] at h
    obtain ⟨⟨-, hlen⟩, hall⟩ := h
    exact hf.alike hg hlen fun p hp => ⟨bound, hall p hp⟩

/-- What is counted over the rows of trees that are the same comes to the same. -/
theorem sum_of_sameStructure {rs qs : List Row} (hr : Climbing rs) (hq : Climbing qs)
    (h : (ofRows rs).sameStructure (ofRows qs) = true) {w : Body → Nat}
    (hw : ∀ b c, b.same c = true → w b = w c) :
    (rs.map fun r => w r.body).sum = (qs.map fun r => w r.body).sum := by
  obtain ⟨children, hroot, hdraws, hrows⟩ := numbered_forest hr
  obtain ⟨children', hroot', hdraws', hrows'⟩ := numbered_forest hq
  have hsum : ∀ {ps : List Row} {f : Forest}, (f.numbered 0).map Prod.snd = ps.reverse →
      (ps.map fun r => w r.body).sum = ((f.numbered 0).map fun e => w e.2.body).sum := by
    intro ps f hf
    have hmap : ((f.numbered 0).map fun e => w e.2.body) = ps.reverse.map fun r => w r.body := by
      rw [← hf, List.map_map]
      rfl
    rw [hmap, List.map_reverse, List.sum_reverse]
  have halike := alike_of_sameStructure hroot hroot' hdraws hdraws' h
  rw [hsum hrows, hsum hrows', halike.sum_eq hw]

end Table

end Ast

end IntentCode
