import IntentCode.Ast.Table

/-!
# A tree as a list of levels

A parser that reads indented lines never holds a tree in its hands. What it has seen is a list of
rows, each a body with the level at which it stands, and where a row belongs is a matter of
the rows before it: under the latest one that stands one level up (`parentOf`). The table is a
function of that list (`Table.ofRows`), and so is what the grammar asks of an open scope: its own
type and the type of its last child.

The lists here have the latest row first, because that is the end at which they grow. The number
of a row is its place counted from the other end.

`Climbing` says that no row stands more than one level below the one before. In such a list every
level has a row to hang from, so a node lies as deep in the tree as its row says
(`depth_ofRows`).

Notes come and go without moving anything. A row is `bare` without them, and where rows belong
is a matter of the bare ones alone.
-/

set_option autoImplicit false

namespace IntentCode.Ast

structure Row where
  level : Nat
  line : Nat
  body : Body
deriving DecidableEq

/-- The number of the node under which a row at a level goes: the latest one level up. -/
def parentOf : List Row → Nat → Nat
  | _, 0 => 0
  | [], _ + 1 => 0
  | r :: before, level + 1 =>
    if r.level = level then before.length + 1 else parentOf before (level + 1)

/-- The tree of some rows, the latest first. -/
def Table.ofRows : List Row → Table
  | [] => .empty
  | r :: before => (ofRows before).push (parentOf before r.level) r.line r.body

/-- The deepest level at which the next row may stand. -/
def topLevel : List Row → Nat
  | [] => 0
  | r :: _ => r.level + 1

/-- No row is more than one level below the one before. -/
def Climbing : List Row → Prop
  | [] => True
  | r :: before => r.level ≤ topLevel before ∧ Climbing before

/-! ## What an open scope knows -/

/-- The type of the scope that is open at a level. -/
def scopeType : List Row → Nat → NodeType
  | _, 0 => .root
  | [], _ + 1 => .root
  | r :: before, level + 1 => if r.level = level then r.body.type else scopeType before (level + 1)

/-- The type of the last child in the scope at a level. -/
def lastAt : List Row → Nat → Option NodeType
  | [], _ => none
  | r :: before, level =>
    if r.level < level then none
    else if r.level = level then some r.body.type
    else lastAt before level

/-- What may be added to the scope at a level. -/
def allowedAt (rs : List Row) (level : Nat) : NodeSet :=
  match lastAt rs level with
  | none => expectedChild (scopeType rs level)
  | some previous => expectedNext (scopeType rs level) previous

/-! ## A row and the scopes around it -/

theorem parentOf_cons_of_le {r : Row} {level : Nat} (h : level ≤ r.level) (before : List Row) :
    parentOf (r :: before) level = parentOf before level := by
  cases level with
  | zero => simp [parentOf]
  | succ level => rw [parentOf, if_neg (by omega)]

theorem scopeType_cons_of_le {r : Row} {level : Nat} (h : level ≤ r.level) (before : List Row) :
    scopeType (r :: before) level = scopeType before level := by
  cases level with
  | zero => simp [scopeType]
  | succ level => rw [scopeType, if_neg (by omega)]

/-! ## Without notes -/

namespace Body

/-- The body without its notes. -/
def bare (b : Body) : Body := b.mapNotes fun _ => .none

@[simp] theorem bare_mapNotes (f : Notes → Notes) (b : Body) : (b.mapNotes f).bare = b.bare := by
  cases b <;> rfl

@[simp] theorem bare_bare (b : Body) : b.bare.bare = b.bare := bare_mapNotes _ b

@[simp] theorem type_bare (b : Body) : b.bare.type = b.type := by cases b <;> rfl

@[simp] theorem opensBlock_bare (b : Body) : b.bare.opensBlock = b.opensBlock := by cases b <;> rfl

@[simp] theorem declaredName?_bare (b : Body) : b.bare.declaredName? = b.declaredName? := by
  cases b <;> rfl

theorem ne_root_of_declaredName? {b : Body} {name : String} (h : b.declaredName? = some name) :
    b ≠ .root := by
  rintro rfl
  cases h

end Body

/-- The row without its notes. -/
def Row.bare (r : Row) : Row := { r with body := r.body.bare }

theorem parentOf_map_bare (rs : List Row) (level : Nat) :
    parentOf (rs.map .bare) level = parentOf rs level := by
  fun_induction parentOf rs level with
  | case1 => simp [parentOf]
  | case2 => rfl
  | case3 r before => simp [parentOf, Row.bare]
  | case4 r before level h ih => simp [parentOf, Row.bare, h, ih]

theorem topLevel_map_bare (rs : List Row) : topLevel (rs.map .bare) = topLevel rs := by
  cases rs <;> rfl

theorem climbing_map_bare {rs : List Row} : Climbing (rs.map .bare) ↔ Climbing rs := by
  induction rs with
  | nil => rfl
  | cons r before ih =>
    rw [List.map_cons, Climbing, Climbing, ih, topLevel_map_bare]
    rfl

theorem scopeType_map_bare (rs : List Row) (level : Nat) :
    scopeType (rs.map .bare) level = scopeType rs level := by
  fun_induction scopeType rs level with
  | case1 => simp [scopeType]
  | case2 => rfl
  | case3 r before => simp [scopeType, Row.bare]
  | case4 r before level h ih => simp [scopeType, Row.bare, h, ih]

theorem lastAt_map_bare (rs : List Row) (level : Nat) :
    lastAt (rs.map .bare) level = lastAt rs level := by
  induction rs with
  | nil => rfl
  | cons r before ih => simp [lastAt, Row.bare, ih]

theorem allowedAt_map_bare (rs : List Row) (level : Nat) :
    allowedAt (rs.map .bare) level = allowedAt rs level := by
  unfold allowedAt
  rw [lastAt_map_bare, scopeType_map_bare]

/-- A tree that the grammar allows: every row has a place, the scope there takes it, and it hangs
from one that may have a block. -/
def Lawful : List Row → Prop
  | [] => True
  | r :: before =>
    r.level ≤ topLevel before ∧
      (allowedAt before r.level).allows r.body.type = true ∧
      (∀ level < r.level, ∃ p, before.find? (fun q => q.level = level) = some p ∧
        p.body.opensBlock = true) ∧
      Lawful before

instance decidableLawful : (rows : List Row) → Decidable (Lawful rows)
  | [] => .isTrue trivial
  | r :: before =>
    have := decidableLawful before
    decidable_of_iff
      (r.level ≤ topLevel before ∧ (allowedAt before r.level).allows r.body.type = true ∧
        (∀ level < r.level, ∃ p ∈ before.find? (fun q : Row => q.level = level),
          p.body.opensBlock = true) ∧ Lawful before) Iff.rfl

theorem Lawful.of_append {after before : List Row} (h : Lawful (after ++ before)) :
    Lawful before := by
  induction after with
  | nil => exact h
  | cons r after ih => exact ih h.2.2.2

theorem Lawful.climbing {rs : List Row} (h : Lawful rs) : Climbing rs := by
  induction rs with
  | nil => trivial
  | cons r before ih => exact ⟨h.1, ih h.2.2.2⟩

/-- No scope takes a root. -/
theorem Lawful.ne_root {rs : List Row} (h : Lawful rs) : ∀ r ∈ rs, r.body ≠ .root := by
  induction rs with
  | nil => exact fun r hr => by cases hr
  | cons r before ih =>
    intro q hq
    rcases List.mem_cons.mp hq with rfl | hq
    · intro hroot
      have hallows := h.2.1
      rw [hroot] at hallows
      cases hallows
    · exact ih h.2.2.2 q hq

/-- Notes are not a matter of the grammar. -/
theorem lawful_map_bare {rs : List Row} : Lawful (rs.map .bare) ↔ Lawful rs := by
  induction rs with
  | nil => rfl
  | cons r before ih =>
    have hhangs : ∀ level, (∃ p, (before.map Row.bare).find? (fun q => q.level = level) = some p ∧
        p.body.opensBlock = true) ↔
          ∃ p, before.find? (fun q => q.level = level) = some p ∧ p.body.opensBlock = true := by
      intro level
      have hfind : (before.map Row.bare).find? (fun q => q.level = level) =
          (before.find? fun q => q.level = level).map Row.bare := List.find?_map
      rw [hfind]
      cases before.find? fun q => q.level = level <;> simp [Row.bare]
    have hlevel : r.bare.level = r.level := rfl
    have htype : r.bare.body.type = r.body.type := Body.type_bare r.body
    simp only [List.map_cons, Lawful, topLevel_map_bare, allowedAt_map_bare, hhangs, hlevel, htype,
      ih]

/-- Changes the notes of the node with a given number. -/
def noteAt (uid : Nat) (f : Notes → Notes) : List Row → List Row
  | [] => []
  | r :: before =>
    if uid = before.length + 1 then { r with body := r.body.mapNotes f } :: before
    else r :: noteAt uid f before

@[simp] theorem map_bare_noteAt (uid : Nat) (f : Notes → Notes) (rs : List Row) :
    (noteAt uid f rs).map Row.bare = rs.map Row.bare := by
  induction rs with
  | nil => rfl
  | cons r before ih =>
    rw [noteAt]
    split
    · simp [Row.bare]
    · simp [ih]

theorem parentOf_noteAt (uid : Nat) (f : Notes → Notes) (rs : List Row) (level : Nat) :
    parentOf (noteAt uid f rs) level = parentOf rs level := by
  rw [← parentOf_map_bare, map_bare_noteAt, parentOf_map_bare]

/-- The row of the node with a given number. -/
theorem noteAt_append (after before : List Row) (r : Row) (f : Notes → Notes) :
    noteAt (before.length + 1) f (after ++ r :: before) =
      after ++ { r with body := r.body.mapNotes f } :: before := by
  induction after with
  | nil => simp [noteAt]
  | cons a after ih =>
    rw [List.cons_append, noteAt, if_neg, ih, List.cons_append]
    simp only [List.length_append, List.length_cons]
    omega

/-! ## Numbers -/

theorem parentOf_le (rs : List Row) (level : Nat) : parentOf rs level ≤ rs.length := by
  fun_induction parentOf rs level with
  | case1 => exact Nat.zero_le _
  | case2 => exact Nat.zero_le _
  | case3 r before => simp
  | case4 r before level h ih =>
    rw [List.length_cons]
    omega

namespace Table

@[simp] theorem size_ofRows (rs : List Row) : (ofRows rs).size = rs.length + 1 := by
  induction rs with
  | nil => rfl
  | cons r before ih => simp [ofRows, ih]

/-- What a row goes under is there before it. -/
theorem parentOf_lt_size (rs : List Row) (level : Nat) : parentOf rs level < (ofRows rs).size := by
  rw [size_ofRows]
  exact Nat.lt_succ_of_le (parentOf_le rs level)

/-! ## Look-ups in a table that grows -/

@[simp] theorem get?_size (t : Table) : t.get? t.size = none :=
  Array.getElem?_eq_none (Nat.le_refl _)

theorem get?_modify (t : Table) (uid i : Nat) (f : Node → Node) :
    (t.modify uid f).get? i = if i = uid then (t.get? i).map f else t.get? i := by
  simp only [modify, get?, Array.getElem?_modify]
  by_cases h : i = uid
  · simp [h]
  · simp [h, Ne.symm h]

theorem get?_push {t : Table} {parent line : Nat} {body : Body} (hp : parent < t.size) (i : Nat) :
    (t.push parent line body).get? i =
      if i = t.size then some ⟨t.size, some parent, [], line, body⟩
      else if i = parent then (t.get? i).map fun n => { n with children := n.children ++ [t.size] }
      else t.get? i := by
  unfold push
  rw [get?_modify]
  by_cases hi : i = t.size
  · have hne : ¬ i = parent := by omega
    rw [if_neg hne, if_pos hi, hi]
    simp [get?, size]
  · have hget : (Table.mk (t.nodes.push ⟨t.size, some parent, [], line, body⟩)).get? i = t.get? i := by
      simp only [get?, Array.getElem?_push]
      exact if_neg hi
    rw [if_neg hi, hget]

theorem ext_get? {t u : Table} (h : ∀ i, t.get? i = u.get? i) : t = u := by
  cases t; cases u
  exact congrArg Table.mk (Array.ext_getElem? h)

/-- Changing the notes of a node is changing them in its row. -/
theorem modify_ofRows (uid : Nat) (f : Notes → Notes) (rs : List Row) :
    ((ofRows rs).modify uid fun n => { n with body := n.body.mapNotes f }) =
      ofRows (noteAt uid f rs) := by
  induction rs with
  | nil =>
    apply ext_get?
    intro i
    rw [get?_modify]
    split
    · rcases i with _ | i <;> rfl
    · rfl
  | cons r before ih =>
    have hp := parentOf_le before r.level
    have hlt := parentOf_lt_size before r.level
    apply ext_get?
    intro i
    rw [get?_modify, ofRows, get?_push hlt, noteAt]
    by_cases hu : uid = before.length + 1
    · -- the node that was added last
      rw [if_pos hu, hu, ofRows, get?_push hlt, size_ofRows]
      by_cases hi : i = before.length + 1
      · simp [hi]
      · simp [hi]
    · rw [if_neg hu, ofRows, parentOf_noteAt, ← ih, get?_push (by simpa using hlt), get?_modify]
      by_cases hi : i = before.length + 1
      · have hne : ¬ before.length + 1 = uid := fun h => hu h.symm
        simp [hi, hne]
      · by_cases hiu : i = uid
        · by_cases hip : i = parentOf before r.level
          · simp [hi, ← hiu, ← hip, Option.map_map, Function.comp_def]
          · simp [hi, ← hiu, hip]
        · simp [hi, hiu]

theorem map_modify {α : Type} {f : Node → α} {g : Node → Node} {h : α → α}
    (hg : ∀ n, f (g n) = h (f n)) (t : Table) (uid : Nat) :
    (t.modify uid g).toList.map f = (t.toList.map f).modify uid h := by
  simp only [modify, toList, Array.toList_modify]
  apply List.ext_getElem?
  intro i
  rw [List.getElem?_map, List.getElem?_modify, List.getElem?_modify, List.getElem?_map]
  cases t.nodes.toList[i]? with
  | none => rfl
  | some n =>
    simp only [Option.map_some, Option.map_eq_map]
    split <;> simp [hg]

/-- A new node comes last, and nothing else changes but what children its parent has. -/
theorem map_push {α : Type} {f : Node → α} (hf : ∀ n children, f { n with children } = f n)
    (t : Table) (parent line : Nat) (body : Body) :
    (t.push parent line body).toList.map f =
      t.toList.map f ++ [f ⟨t.size, some parent, [], line, body⟩] := by
  have hid : ∀ (l : List α) (i : Nat), l.modify i id = l := by
    intro l i
    apply List.ext_getElem?
    intro j
    rw [List.getElem?_modify]
    cases l[j]? <;> simp
  rw [push, map_modify (h := id) fun n => hf n _, hid]
  simp [toList]

/-- The nodes are listed in the order of the rows. -/
theorem lines_ofRows (rs : List Row) :
    (ofRows rs).toList.map Node.line = 0 :: (rs.map Row.line).reverse := by
  induction rs with
  | nil => rfl
  | cons r before ih =>
    rw [ofRows, map_push fun _ _ => rfl, ih]
    simp

/-- The bodies of the nodes, in the order of their numbers. -/
def bodies (t : Table) : List Body := t.toList.map Node.body

theorem bodies_ofRows (rs : List Row) :
    (ofRows rs).bodies = .root :: (rs.map Row.body).reverse := by
  unfold bodies
  induction rs with
  | nil => rfl
  | cons r before ih =>
    rw [ofRows, map_push fun _ _ => rfl, ih]
    simp

theorem root_ofRows (rs : List Row) :
    ∃ children, (ofRows rs).get? 0 = some ⟨0, none, children, 0, .root⟩ := by
  induction rs with
  | nil => exact ⟨[], rfl⟩
  | cons r before ih =>
    obtain ⟨children, hc⟩ := ih
    rw [ofRows, get?_push (parentOf_lt_size before r.level), if_neg (by simp), hc]
    split
    · exact ⟨_, rfl⟩
    · exact ⟨children, rfl⟩

/-- The first node is a root. -/
theorem pos_of_ne_root {rs : List Row} {i : Nat} {n : Node} (hn : (ofRows rs).get? i = some n)
    (hbody : n.body ≠ .root) : 0 < i := by
  rcases Nat.eq_zero_or_pos i with rfl | hpos
  · obtain ⟨children, hroot⟩ := root_ofRows rs
    rw [hroot, Option.some.injEq] at hn
    rw [← hn] at hbody
    exact absurd rfl hbody
  · exact hpos

/-- The node of a row. -/
theorem get?_ofRows (after : List Row) (r : Row) (before : List Row) :
    ∃ children, (ofRows (after ++ r :: before)).get? (before.length + 1) =
      some ⟨before.length + 1, some (parentOf before r.level), children, r.line, r.body⟩ := by
  induction after with
  | nil =>
    rw [List.nil_append, ofRows, get?_push (parentOf_lt_size before r.level), if_pos (by simp)]
    exact ⟨[], by simp⟩
  | cons a after ih =>
    obtain ⟨children, hc⟩ := ih
    rw [List.cons_append, ofRows, get?_push (parentOf_lt_size _ a.level), if_neg (by simp; omega), hc]
    split
    · exact ⟨_, rfl⟩
    · exact ⟨children, rfl⟩

/-- Every node but the root is that of a row. -/
theorem exists_row {rs : List Row} {uid : Nat} {n : Node}
    (h : (ofRows rs).get? uid = some n) (h0 : 0 < uid) :
    ∃ after r before, rs = after ++ r :: before ∧ uid = before.length + 1 := by
  have hlt : uid < rs.length + 1 := by
    rw [← size_ofRows]
    simp only [get?] at h
    exact (Array.getElem?_eq_some_iff.mp h).1
  have hi : rs.length - uid < rs.length := by omega
  refine ⟨rs.take (rs.length - uid), rs[rs.length - uid], rs.drop (rs.length - uid + 1), ?_, ?_⟩
  · rw [← List.drop_eq_getElem_cons hi, List.take_append_drop]
  · rw [List.length_drop]
    omega

end Table

/-- The node under which the next row of a level goes is that of the latest row there. -/
theorem parentOf_of_find? {rs : List Row} {level : Nat} {r : Row}
    (h : rs.find? (fun r => r.level = level) = some r) :
    ∃ after before, rs = after ++ r :: before ∧ parentOf rs (level + 1) = before.length + 1 := by
  induction rs with
  | nil => cases h
  | cons r' before ih =>
    by_cases hr : r'.level = level
    · rw [List.find?_cons_of_pos (by simpa using hr), Option.some.injEq] at h
      subst h
      exact ⟨[], before, rfl, by rw [parentOf, if_pos hr]⟩
    · rw [List.find?_cons_of_neg (by simpa using hr)] at h
      obtain ⟨after, before', rfl, hp⟩ := ih h
      exact ⟨r' :: after, before', rfl, by rw [parentOf, if_neg hr, hp]⟩

/-! ## Depth -/

theorem exists_level {rs : List Row} (h : Climbing rs) {k : Nat} (hk : k < topLevel rs) :
    ∃ after r before, rs = after ++ r :: before ∧ r.level = k ∧
      parentOf rs (k + 1) = before.length + 1 := by
  induction rs with
  | nil => simp [topLevel] at hk
  | cons r before ih =>
    by_cases he : r.level = k
    · exact ⟨[], r, before, rfl, he, by simp [parentOf, he]⟩
    · have hk' : k < topLevel before := by
        have := h.1
        simp only [topLevel] at hk
        omega
      obtain ⟨after, r', before', rfl, hl, hp⟩ := ih h.2 hk'
      exact ⟨r :: after, r', before', rfl, hl, by rw [parentOf, if_neg he, hp]⟩

theorem climbing_of_append {after before : List Row} (h : Climbing (after ++ before)) :
    Climbing before := by
  induction after with
  | nil => exact h
  | cons a after ih => exact ih h.2

theorem topLevel_le (rs : List Row) (h : Climbing rs) : topLevel rs ≤ rs.length := by
  induction rs with
  | nil => exact Nat.le_refl 0
  | cons r before ih =>
    have := ih h.2
    have := h.1
    simp only [topLevel, List.length_cons]
    omega

namespace Table

theorem parent?_row (after : List Row) (r : Row) (before : List Row) :
    (ofRows (after ++ r :: before)).parent? (before.length + 1) =
      (ofRows (after ++ r :: before)).get? (parentOf before r.level) := by
  obtain ⟨children, hc⟩ := get?_ofRows after r before
  simp [parent?, hc]

theorem length_ancestorsUpTo {rs : List Row} (h : Climbing rs) :
    ∀ {bound : Nat} {after : List Row} {r : Row} {before : List Row},
      rs = after ++ r :: before → r.level < bound →
      ((ofRows rs).ancestorsUpTo bound (before.length + 1)).length = r.level + 1 := by
  intro bound
  induction bound with
  | zero => exact fun _ hb => absurd hb (by omega)
  | succ bound ih =>
    rintro after r before rfl hb
    rw [ancestorsUpTo, parent?_row]
    cases hl : r.level with
    | zero =>
      obtain ⟨children, hroot⟩ := root_ofRows (after ++ r :: before)
      rw [parentOf, hroot]
      cases bound with
      | zero => rfl
      | succ bound => simp [ancestorsUpTo, parent?, hroot]
    | succ level =>
      have hclimb : Climbing (r :: before) := climbing_of_append h
      obtain ⟨mid, p, before', rfl, hp, hpar⟩ :=
        exists_level hclimb.2 (k := level) (by have := hclimb.1; omega)
      have hsplit : after ++ r :: (mid ++ p :: before') = (after ++ r :: mid) ++ p :: before' := by
        simp
      obtain ⟨children, hc⟩ := get?_ofRows (after ++ r :: mid) p before'
      rw [hpar, hsplit, hc]
      simp only [List.length_cons]
      rw [← hsplit, ih hsplit (by omega), hp]

/-- **A node lies as deep as its row says.** -/
theorem depth_ofRows {after : List Row} {r : Row} {before : List Row}
    (h : Climbing (after ++ r :: before)) :
    (ofRows (after ++ r :: before)).depth (before.length + 1) = r.level := by
  have hclimb : Climbing (r :: before) := climbing_of_append h
  have hle : topLevel before ≤ before.length := topLevel_le before hclimb.2
  unfold depth ancestors
  rw [length_ancestorsUpTo h rfl (by have := hclimb.1; simp; omega)]
  omega

end Table

end IntentCode.Ast
