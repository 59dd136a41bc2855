import IntentCode.Ast.Forest
import IntentCode.Proofs.Ast.Rows

/-!
# The forest of a tree from rows

`Table.forest` unfolds the links of a table. For a tree from rows there is a shorter way to say what
comes out: the rows again, in the order of the source, each at its level (`drawing_forest`).

A row that is added goes to the end of the rightmost branch (`Forest.hang`), and the numbers on
that branch (`Forest.spine`) are the parents that the next row may have. So the forest of a table
grows with its rows, and the bound on the unfolding is never met: a branch is no longer than the
forest has nodes.
-/

set_option autoImplicit false

namespace IntentCode.Ast

namespace Forest

/-- Each node with its number and its row, in order, the siblings standing at `level`. -/
def numbered (level : Nat) : Forest → List (Nat × Row)
  | .nil => []
  | .cons n below beside =>
    (n.uid, ⟨level, n.line, n.body⟩) :: numbered (level + 1) below ++ numbered level beside

/-- The numbers on the rightmost branch, from the top. -/
def spine : Forest → List Nat
  | .nil => []
  | .cons n below .nil => n.uid :: below.spine
  | .cons _ _ (.cons m below beside) => (Forest.cons m below beside).spine

/-- Adds a node at the end of the rightmost branch, `depth` levels down. -/
def hang (leaf : Node) : Nat → Forest → Forest
  | 0, .nil => .cons leaf .nil .nil
  | 0, .cons n below beside => .cons n below (hang leaf 0 beside)
  | _ + 1, .nil => .nil
  | 1, .cons n below .nil =>
    .cons { n with children := n.children ++ [leaf.uid] } (hang leaf 0 below) .nil
  | depth + 2, .cons n below .nil => .cons n (hang leaf (depth + 1) below) .nil
  | depth + 1, .cons n below (.cons m below' beside) =>
    .cons n below (hang leaf (depth + 1) (.cons m below' beside))

/-- The length of the longest branch. -/
def height : Forest → Nat
  | .nil => 0
  | .cons _ below beside => max (below.height + 1) beside.height

theorem height_le (level : Nat) (f : Forest) : f.height ≤ (f.numbered level).length := by
  induction f generalizing level with
  | nil => exact Nat.le_refl 0
  | cons n below beside ihb ihs =>
    have hb := ihb (level + 1)
    have hs := ihs level
    simp only [height, numbered, List.length_append, List.length_cons]
    omega

theorem bodies_numbered (level : Nat) (f : Forest) :
    ((f.numbered level).map fun e => e.2.body) = f.nodes.map Node.body := by
  induction f generalizing level with
  | nil => rfl
  | cons n below beside ihb ihs =>
    simp only [numbered, nodes, List.cons_append, List.map_cons, List.map_append, ihb, ihs]

theorem uids_numbered (level : Nat) (f : Forest) :
    (f.numbered level).map Prod.fst = f.nodes.map Node.uid := by
  induction f generalizing level with
  | nil => rfl
  | cons n below beside ihb ihs =>
    simp only [numbered, nodes, List.cons_append, List.map_cons, List.map_append, ihb, ihs]

/-- No row of a forest stands above its level. -/
theorem level_numbered {f : Forest} {level : Nat} : ∀ e ∈ f.numbered level, level ≤ e.2.level := by
  induction f generalizing level with
  | nil => exact fun e he => by cases he
  | cons n below beside ihb ihs =>
    intro e he
    rcases List.mem_append.mp he with he | he
    · rcases List.mem_cons.mp he with rfl | he
      · exact Nat.le_refl _
      · have := ihb e he
        omega
    · exact ihs e he

/-! ## Adding a node -/

theorem numbered_hang (leaf : Node) {depth : Nat} {f : Forest} (h : depth ≤ f.spine.length)
    (level : Nat) :
    (f.hang leaf depth).numbered level =
      f.numbered level ++ [(leaf.uid, ⟨level + depth, leaf.line, leaf.body⟩)] := by
  fun_induction hang leaf depth f generalizing level with
  | case1 => rfl
  | case2 n below beside ih =>
    rw [numbered, numbered, ih (Nat.zero_le _)]
    simp
  | case3 => simp [spine] at h
  | case4 n below ih =>
    rw [numbered, numbered, ih (Nat.zero_le _)]
    simp [numbered]
  | case5 depth n below ih =>
    rw [spine, List.length_cons] at h
    rw [numbered, numbered, ih (by omega)]
    have hlevel : level + 1 + (depth + 1) = level + (depth + 2) := by omega
    simp [numbered, hlevel]
  | case6 depth n below m below' beside ih =>
    rw [spine] at h
    rw [numbered, numbered, ih h]
    simp

theorem spine_hang (leaf : Node) {depth : Nat} {f : Forest} (h : depth ≤ f.spine.length) :
    (f.hang leaf depth).spine = f.spine.take depth ++ [leaf.uid] := by
  fun_induction hang leaf depth f with
  | case1 => rfl
  | case2 n below beside ih =>
    have hbeside := ih (Nat.zero_le _)
    cases beside with
    | nil => simp [hang, spine]
    | cons m below' beside => exact hbeside
  | case3 => simp [spine] at h
  | case4 n below ih => simp [spine, ih (Nat.zero_le _)]
  | case5 depth n below ih =>
    rw [spine, List.length_cons] at h
    simp [spine, ih (by omega)]
  | case6 depth n below m below' beside ih =>
    rw [spine] at h ⊢
    have hmore := ih h
    revert hmore
    cases hang leaf (depth + 1) (.cons m below' beside) with
    | nil => exact fun hmore => absurd hmore (by simp [spine])
    | cons m' x y => exact fun hmore => hmore

end Forest

/-! ## Links -/

/-- The forest is what unfolding the links from some nodes on gives. -/
inductive Table.Draws (t : Table) : List Nat → Forest → Prop
  | nil : Draws t [] .nil
  | cons {uid : Nat} {n : Node} {uids : List Nat} {below beside : Forest}
    (get : t.get? uid = some n) (number : n.uid = uid) (children : Draws t n.children below)
    (siblings : Draws t uids beside) : Draws t (uid :: uids) (.cons n below beside)

namespace Table

/-- The unfolding of several nodes to a bound. -/
def drawn (t : Table) (bound : Nat) (uids : List Nat) : Forest :=
  match bound with
  | 0 => .nil
  | bound + 1 => .ofTrees (fun n => t.forestUpTo bound n.uid) (uids.filterMap t.get?)

theorem forestUpTo_eq {t : Table} {uid : Nat} {n : Node} (h : t.get? uid = some n) (bound : Nat) :
    t.forestUpTo bound uid = t.drawn bound n.children := by
  cases bound with
  | zero => rfl
  | succ bound => rw [forestUpTo, drawn, children, h]

/-- A bound that is high enough makes no difference. -/
theorem Draws.drawn_eq {t : Table} {uids : List Nat} {f : Forest} (h : t.Draws uids f)
    {bound : Nat} (hb : f.height ≤ bound) : t.drawn bound uids = f := by
  induction h generalizing bound with
  | nil => cases bound <;> rfl
  | @cons uid n uids below beside get number hbelow hbeside ihb ihs =>
    rw [Forest.height] at hb
    cases bound with
    | zero => omega
    | succ bound =>
      have hdeep : t.drawn bound n.children = below := ihb (by omega)
      have hwide : t.drawn (bound + 1) uids = beside := ihs (by omega)
      rw [drawn] at hwide ⊢
      rw [List.filterMap_cons, get]
      simp only [Forest.ofTrees]
      rw [hwide, number, forestUpTo_eq get, hdeep]

theorem Draws.get?_of_mem {t : Table} {uids : List Nat} {f : Forest} (h : t.Draws uids f) {n : Node}
    (hn : n ∈ f.nodes) : t.get? n.uid = some n := by
  induction h with
  | nil => cases hn
  | cons get number hbelow hbeside ihb ihs =>
    rw [Forest.nodes] at hn
    rcases List.mem_append.mp hn with hn | hn
    · rcases List.mem_cons.mp hn with rfl | hn
      · rw [number]
        exact get
      · exact ihb hn
    · exact ihs hn

/-- A new node changes only what lies above it. -/
theorem Draws.push {t : Table} {uids : List Nat} {f : Forest} (h : t.Draws uids f) (level : Nat)
    {parent : Nat} (hp : parent < t.size)
    (hf : ∀ e ∈ f.numbered level, e.1 ≠ parent ∧ e.1 < t.size) (line : Nat) (body : Body) :
    (t.push parent line body).Draws uids f := by
  induction h generalizing level with
  | nil => exact .nil
  | @cons uid n uids below beside get number hbelow hbeside ihb ihs =>
    have hn := hf _ List.mem_cons_self
    refine .cons ?_ number (ihb (level + 1) ?_) (ihs level ?_)
    · rw [← number] at get ⊢
      rw [get?_push hp, if_neg (Nat.ne_of_lt hn.2), if_neg hn.1, get]
    · exact fun e he => hf e (List.mem_cons_of_mem _ (List.mem_append_left _ he))
    · exact fun e he => hf e (List.mem_cons_of_mem _ (List.mem_append_right _ he))

/-- A leaf goes beside the others. -/
theorem Draws.append {t : Table} {uids : List Nat} {f : Forest} (h : t.Draws uids f) {leaf : Node}
    (get : t.get? leaf.uid = some leaf) (hleaf : leaf.children = []) :
    t.Draws (uids ++ [leaf.uid]) (f.hang leaf 0) := by
  induction h with
  | nil => exact .cons get rfl (hleaf ▸ .nil) .nil
  | cons get' number hbelow hbeside ihb ihs => exact .cons get' number hbelow ihs

theorem mem_of_spine {f : Forest} {uid : Nat} (h : uid ∈ f.spine) (level : Nat) :
    uid ∈ (f.numbered level).map Prod.fst := by
  fun_induction Forest.spine f generalizing level with
  | case1 => cases h
  | case2 n below ih =>
    rw [Forest.numbered, List.cons_append, List.map_cons, List.map_append]
    rcases List.mem_cons.mp h with rfl | h
    · exact List.mem_cons_self
    · exact List.mem_cons_of_mem _ (List.mem_append_left _ (ih h (level + 1)))
  | case3 n below m below' beside ih =>
    rw [Forest.numbered, List.cons_append, List.map_cons, List.map_append]
    exact List.mem_cons_of_mem _ (List.mem_append_right _ (ih h level))

/-- **Pushing a node under one on the rightmost branch hangs it there.** -/
theorem Draws.hang {t : Table} {uids : List Nat} {f : Forest} (h : t.Draws uids f) {level : Nat}
    (hnodup : ((f.numbered level).map Prod.fst).Nodup)
    (hsize : ∀ e ∈ f.numbered level, e.1 < t.size) {depth parent : Nat}
    (hp : f.spine[depth]? = some parent) (line : Nat) (body : Body) :
    (t.push parent line body).Draws uids
      (f.hang ⟨t.size, some parent, [], line, body⟩ (depth + 1)) := by
  have hmem : parent ∈ (f.numbered level).map Prod.fst :=
    mem_of_spine (List.mem_of_getElem? hp) level
  have hlt : parent < t.size := by
    obtain ⟨e, he, rfl⟩ := List.mem_map.mp hmem
    exact hsize e he
  have hnew : (t.push parent line body).get? t.size = some ⟨t.size, some parent, [], line, body⟩ := by
    rw [get?_push hlt, if_pos rfl]
  induction h generalizing level depth with
  | nil => simp [Forest.spine] at hp
  | @cons uid n uids below beside get number hbelow hbeside ihb ihs =>
    subst number
    have hself : n.uid < t.size := hsize _ List.mem_cons_self
    rw [Forest.numbered, List.cons_append, List.map_cons, List.map_append] at hnodup
    obtain ⟨hn, hboth⟩ := List.nodup_cons.mp hnodup
    obtain ⟨hnb, hns, hapart⟩ := List.nodup_append.mp hboth
    have hsb : ∀ e ∈ below.numbered (level + 1), e.1 < t.size := fun e he =>
      hsize e (List.mem_cons_of_mem _ (List.mem_append_left _ he))
    have hss : ∀ e ∈ beside.numbered level, e.1 < t.size := fun e he =>
      hsize e (List.mem_cons_of_mem _ (List.mem_append_right _ he))
    have hget : n.uid ≠ parent → (t.push parent line body).get? n.uid = some n := by
      intro hne
      rw [get?_push hlt, if_neg (Nat.ne_of_lt hself), if_neg hne, get]
    cases beside with
    | cons m below' beside =>
      -- the branch goes through a later sibling
      have hmore : parent ∈ ((Forest.cons m below' beside).numbered level).map Prod.fst :=
        mem_of_spine (f := .cons m below' beside) (List.mem_of_getElem? hp) level
      have hapart' : ∀ e ∈ below.numbered (level + 1), e.1 ≠ parent := fun e he =>
        hapart _ (List.mem_map_of_mem he) _ hmore
      rw [Forest.hang]
      refine .cons (hget ?_) rfl ?_ (ihs hns hss hp hmore)
      · rintro rfl
        exact hn (List.mem_append_right _ hmore)
      · exact hbelow.push (level + 1) hlt (fun e he => ⟨hapart' e he, hsb e he⟩) line body
    | nil =>
      cases hbeside
      cases depth with
      | zero =>
        -- the node itself is the parent
        obtain rfl : n.uid = parent := Option.some.inj hp
        have hapart' : ∀ e ∈ below.numbered (level + 1), e.1 ≠ n.uid := by
          intro e he heq
          have hmem := List.mem_map_of_mem (f := Prod.fst) he
          rw [heq] at hmem
          exact hn (List.mem_append_left _ hmem)
        rw [Forest.hang]
        refine .cons ?_ rfl ?_ .nil
        · rw [get?_push hlt, if_neg (Nat.ne_of_lt hself), if_pos rfl, get]
          rfl
        · have hframe := hbelow.push (level + 1) hlt (fun e he => ⟨hapart' e he, hsb e he⟩) line body
          exact hframe.append hnew rfl
      | succ depth =>
        rw [Forest.spine] at hp
        have hmore : parent ∈ (below.numbered (level + 1)).map Prod.fst :=
          mem_of_spine (List.mem_of_getElem? hp) (level + 1)
        rw [Forest.hang]
        refine .cons (hget ?_) rfl (ihb hnb hsb hp hmore) .nil
        rintro rfl
        exact hn (List.mem_append_left _ hmore)

/-! ## Trees from rows -/

/-- The node that a row adds to the rows before it. -/
def leafOf (before : List Row) (r : Row) : Node :=
  ⟨(ofRows before).size, some (parentOf before r.level), [], r.line, r.body⟩

/-- The forest of a tree from rows: the rows in order, with the next parents on its spine. -/
structure Drawing (rs : List Row) (children : List Nat) (f : Forest) : Prop where
  root : (ofRows rs).get? 0 = some ⟨0, none, children, 0, .root⟩
  draws : (ofRows rs).Draws children f
  numbers : (f.numbered 0).map Prod.fst = List.range' 1 rs.length
  rows : (f.numbered 0).map Prod.snd = rs.reverse
  spine : f.spine = (List.range (topLevel rs)).map fun d => parentOf rs (d + 1)

namespace Drawing

variable {before : List Row} {children : List Nat} {f : Forest}

theorem level_le (h : Drawing before children f) {r : Row} (hr : r.level ≤ topLevel before) :
    r.level ≤ f.spine.length := by
  rw [h.spine, List.length_map, List.length_range]
  exact hr

theorem number_lt (h : Drawing before children f) :
    ∀ e ∈ f.numbered 0, 0 < e.1 ∧ e.1 < (ofRows before).size := by
  intro e he
  have hmem := List.mem_map_of_mem (f := Prod.fst) he
  rw [h.numbers, List.mem_range'_1] at hmem
  rw [size_ofRows]
  omega

/-- The new node goes to the root, or to the end of the rightmost branch. -/
theorem draws_cons (h : Drawing before children f) {r : Row} (hr : r.level ≤ topLevel before) :
    ∃ children', (ofRows (r :: before)).get? 0 = some ⟨0, none, children', 0, .root⟩ ∧
      (ofRows (r :: before)).Draws children' (f.hang (leafOf before r) r.level) := by
  have hp := parentOf_lt_size before r.level
  have hnew : (ofRows (r :: before)).get? (leafOf before r).uid = some (leafOf before r) := by
    rw [ofRows, get?_push hp, leafOf, if_pos rfl]
  cases hl : r.level with
  | zero =>
    refine ⟨children ++ [(leafOf before r).uid], ?_, Draws.append ?_ hnew rfl⟩
    · rw [ofRows, get?_push hp, if_neg (by simp), hl, parentOf, if_pos rfl, h.root]
      rfl
    · refine h.draws.push 0 hp (fun e he => ⟨?_, (h.number_lt e he).2⟩) r.line r.body
      rw [hl, parentOf]
      exact Nat.ne_of_gt (h.number_lt e he).1
  | succ depth =>
    have hnodup : ((f.numbered 0).map Prod.fst).Nodup := by
      rw [h.numbers]
      exact List.nodup_range'
    have hparent : f.spine[depth]? = some (parentOf before r.level) := by
      rw [h.spine, List.getElem?_map, List.getElem?_range (by omega), hl]
      rfl
    have hmem : parentOf before r.level ∈ (f.numbered 0).map Prod.fst :=
      mem_of_spine (List.mem_of_getElem? hparent) 0
    obtain ⟨e, he, heq⟩ := List.mem_map.mp hmem
    have hpos := (h.number_lt e he).1
    refine ⟨children, ?_, ?_⟩
    · rw [ofRows, get?_push hp, if_neg (by simp), if_neg (by omega), h.root]
    · exact h.draws.hang hnodup (fun e he => (h.number_lt e he).2) hparent r.line r.body

theorem cons (h : Drawing before children f) {r : Row} (hr : r.level ≤ topLevel before) :
    ∃ children', Drawing (r :: before) children' (f.hang (leafOf before r) r.level) := by
  obtain ⟨children', hroot, hdraws⟩ := h.draws_cons hr
  have hle := h.level_le hr
  have hnumbered := Forest.numbered_hang (leafOf before r) hle 0
  refine ⟨children', hroot, hdraws, ?_, ?_, ?_⟩
  · rw [hnumbered, List.map_append, h.numbers]
    simp [leafOf, List.range'_concat, Nat.add_comm]
  · rw [hnumbered, List.map_append, h.rows]
    simp [leafOf]
  · have huid : (leafOf before r).uid = before.length + 1 := size_ofRows before
    rw [Forest.spine_hang _ hle, h.spine, huid, topLevel, List.range_succ, List.map_append,
      ← List.map_take, List.take_range, Nat.min_eq_left hr]
    congr 1
    · apply List.map_congr_left
      intro d hd
      rw [List.mem_range] at hd
      rw [parentOf, if_neg (by omega)]
    · simp [parentOf]

end Drawing

theorem exists_drawing {rs : List Row} (h : Climbing rs) :
    ∃ children f, Drawing rs children f := by
  induction rs with
  | nil => exact ⟨[], .nil, rfl, .nil, rfl, rfl, rfl⟩
  | cons r before ih =>
    obtain ⟨children, f, hdrawing⟩ := ih h.2
    obtain ⟨children', hdrawing'⟩ := hdrawing.cons h.1
    exact ⟨children', _, hdrawing'⟩

/-- **Unfolding a tree from rows gives the rows again**, in the order of the source. -/
theorem drawing_forest {rs : List Row} (h : Climbing rs) :
    ∃ children, Drawing rs children (ofRows rs).forest := by
  obtain ⟨children, f, hdrawing⟩ := exists_drawing h
  have hheight : f.height ≤ (ofRows rs).size := by
    have hle := f.height_le 0
    have hlen := congrArg List.length hdrawing.rows
    rw [List.length_map, List.length_reverse] at hlen
    rw [size_ofRows]
    omega
  have hforest : (ofRows rs).forest = f := by
    rw [forest, forestUpTo_eq hdrawing.root]
    exact hdrawing.draws.drawn_eq hheight
  exact ⟨children, hforest ▸ hdrawing⟩

theorem numbered_forest {rs : List Row} (h : Climbing rs) :
    ∃ children, (ofRows rs).get? 0 = some ⟨0, none, children, 0, .root⟩ ∧
      (ofRows rs).Draws children (ofRows rs).forest ∧
      ((ofRows rs).forest.numbered 0).map Prod.snd = rs.reverse := by
  obtain ⟨children, hdrawing⟩ := drawing_forest h
  exact ⟨children, hdrawing.root, hdrawing.draws, hdrawing.rows⟩

/-- **The nodes of a tree from rows are numbered in the order of its forest.** -/
theorem toList_eq_nodes {rs : List Row} (h : Climbing rs) :
    ∃ root, (ofRows rs).get? 0 = some root ∧
      (ofRows rs).toList = root :: (ofRows rs).forest.nodes := by
  obtain ⟨children, hdrawing⟩ := drawing_forest h
  have huids := hdrawing.numbers
  rw [Forest.uids_numbered] at huids
  refine ⟨_, hdrawing.root, ?_⟩
  apply List.ext_getElem?
  intro i
  have hget : (ofRows rs).toList[i]? = (ofRows rs).get? i := Array.getElem?_toList
  rw [hget]
  cases i with
  | zero => rw [hdrawing.root, List.getElem?_cons_zero]
  | succ i =>
    rw [List.getElem?_cons_succ]
    have hi := congrArg (fun l => l[i]?) huids
    rw [List.getElem?_map] at hi
    cases hn : (ofRows rs).forest.nodes[i]? with
    | none =>
      have hlength := congrArg List.length huids
      have hge := List.getElem?_eq_none_iff.mp hn
      rw [List.length_map, List.length_range'] at hlength
      exact Array.getElem?_eq_none (by have := size_ofRows rs; unfold size at this; omega)
    | some n =>
      have hmem := hdrawing.draws.get?_of_mem (List.mem_of_getElem? hn)
      rw [hn, Option.map_some] at hi
      obtain ⟨hlt, hnumber⟩ := List.getElem?_eq_some_iff.mp hi.symm
      rw [List.getElem_range'] at hnumber
      have huid : n.uid = i + 1 := by omega
      rw [← huid]
      exact hmem

/-- The bodies of the nodes, in the order of the source. -/
theorem bodies_forest {rs : List Row} (h : Climbing rs) :
    (ofRows rs).forest.nodes.map Node.body = (rs.map Row.body).reverse := by
  obtain ⟨-, -, -, hrows⟩ := numbered_forest h
  rw [← Forest.bodies_numbered 0, ← List.map_reverse, ← hrows, List.map_map]
  rfl

end Table

end IntentCode.Ast
