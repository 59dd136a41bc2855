import IntentCode.OrderedMap
import Mathlib.Data.List.Nodup

/-!
# Looking up in an ordered map

What a map holds at a key after each of the ways to write to it. Entries that are written one after
the other are looked up from the end: of two with the same key the later one stays
(`get?_insertAll`).
-/

set_option autoImplicit false

namespace IntentCode.OrderedMap

variable {α : Type}

/-! ## Entries and look-ups -/

theorem lookup_of_mem {l : List (String × α)} (h : (l.map Prod.fst).Nodup) {e : String × α}
    (he : e ∈ l) : l.lookup e.1 = some e.2 := by
  induction l with
  | nil => cases he
  | cons a l ih =>
    rw [List.map_cons, List.nodup_cons] at h
    rcases List.mem_cons.mp he with rfl | he
    · rw [List.lookup_cons_self]
    · have hne : (e.1 == a.1) = false :=
        beq_eq_false_iff_ne.mpr fun heq => h.1 (heq ▸ List.mem_map_of_mem he)
      rw [List.lookup_cons, hne]
      exact ih h.2 he

theorem isSome_get?_iff {m : OrderedMap α} {key : String} :
    (m.get? key).isSome = true ↔ key ∈ m.keys := by
  constructor
  · intro h
    obtain ⟨v, hv⟩ := Option.isSome_iff_exists.mp h
    obtain ⟨before, after, hlist, -⟩ := List.lookup_eq_some_iff.mp hv
    rw [keys, hlist]
    simp
  · intro h
    obtain ⟨e, he, rfl⟩ := List.mem_map.mp h
    rw [get?, lookup_of_mem m.nodup_keys he]
    rfl

theorem mem_keys_of_get? {m : OrderedMap α} {key : String} {value : α}
    (h : m.get? key = some value) : key ∈ m.keys := by
  rw [← isSome_get?_iff, h]
  rfl

theorem get?_eq_none_iff {m : OrderedMap α} {key : String} : m.get? key = none ↔ key ∉ m.keys := by
  rw [← isSome_get?_iff, Bool.not_eq_true, Option.isSome_eq_false_iff, Option.isNone_iff_eq_none]

/-! ## Look-ups after a change -/

@[simp] theorem get?_empty (k : String) : (empty : OrderedMap α).get? k = none := rfl

theorem lookup_cons_eq (e : String × α) (l : List (String × α)) (k : String) :
    (e :: l).lookup k = if k = e.1 then some e.2 else l.lookup k := by
  rw [List.lookup_cons]
  by_cases h : k = e.1
  · simp [h]
  · rw [beq_eq_false_iff_ne.mpr h, if_neg h]

theorem lookup_put (key : String) (value : α) (l : List (String × α)) (k : String) :
    (put key value l).lookup k = if k = key then some value else l.lookup k := by
  fun_induction put key value l with
  | case1 => simp [lookup_cons_eq]
  | case2 v rest => by_cases h : k = key <;> simp [lookup_cons_eq, h]
  | case3 a v rest ha ih =>
    rw [lookup_cons_eq, lookup_cons_eq, ih]
    by_cases hk : k = a
    · have hne : ¬ k = key := fun e => ha (hk ▸ e)
      rw [if_pos hk, if_pos hk, if_neg hne]
    · rw [if_neg hk, if_neg hk]

theorem get?_insert (m : OrderedMap α) (key : String) (value : α) (k : String) :
    (m.insert key value).get? k = if k = key then some value else m.get? k :=
  lookup_put key value m.toList k

/-- **Of the values written at a key the last one stays**; if there is none, what was there. -/
theorem get?_insertAll (m : OrderedMap α) (pairs : List (String × α)) (k : String) :
    (m.insertAll pairs).get? k = (pairs.reverse.lookup k).or (m.get? k) := by
  induction pairs generalizing m with
  | nil => rfl
  | cons p pairs ih =>
    have hstep : m.insertAll (p :: pairs) = (m.insert p.1 p.2).insertAll pairs := rfl
    have hlast : [p].lookup k = if k = p.1 then some p.2 else none := lookup_cons_eq p [] k
    rw [hstep, ih, get?_insert, List.reverse_cons, List.lookup_append, hlast, Option.or_assoc]
    split <;> rfl

/-- The value that a list of writes leaves at a key is that of the last writer of the key. -/
theorem exists_last_writer {β : Type} {write : β → Option (String × α)} {l : List β} {k : String}
    {value : α} (h : (l.filterMap write).reverse.lookup k = some value) :
    ∃ before b after, l = before ++ b :: after ∧ write b = some (k, value) ∧
      ∀ c ∈ after, ∀ other, write c ≠ some (k, other) := by
  induction l with
  | nil => cases h
  | cons b l ih =>
    have hsplit : ((b :: l).filterMap write).reverse.lookup k =
        ((l.filterMap write).reverse.lookup k).or ((write b).toList.lookup k) := by
      rw [← List.lookup_append]
      cases hb : write b <;> simp [hb]
    rw [hsplit] at h
    cases hlater : (l.filterMap write).reverse.lookup k with
    | some other =>
      rw [hlater, Option.some_or, Option.some.injEq] at h
      obtain ⟨before, c, after, rfl, hc, hafter⟩ := ih (hlater.trans (congrArg some h))
      exact ⟨b :: before, c, after, rfl, hc, hafter⟩
    | none =>
      rw [hlater, Option.none_or] at h
      refine ⟨[], b, l, rfl, ?_, ?_⟩
      · cases hb : write b with
        | none =>
          rw [hb] at h
          cases h
        | some p =>
          rw [hb, Option.toList_some, lookup_cons_eq] at h
          split at h
          · next hk =>
            rw [Option.some.injEq] at h
            rw [hk, ← h]
          · cases h
      · intro c hc other hwrite
        have hmem : (k, other) ∈ (l.filterMap write).reverse :=
          List.mem_reverse.mpr (List.mem_filterMap.mpr ⟨c, hc, hwrite⟩)
        have hno := List.lookup_eq_none_iff.mp hlater _ hmem
        simp at hno

theorem lookup_of_last_writer {β : Type} {write : β → Option (String × α)} {before after : List β}
    {b : β} {k : String} {value : α} (h : write b = some (k, value))
    (hafter : ∀ c ∈ after, ∀ other, write c ≠ some (k, other)) :
    ((before ++ b :: after).filterMap write).reverse.lookup k = some value := by
  have hlater : (after.filterMap write).reverse.lookup k = none := by
    rw [List.lookup_eq_none_iff]
    intro p hp
    obtain ⟨c, hc, hwrite⟩ := List.mem_filterMap.mp (List.mem_reverse.mp hp)
    rw [bne_iff_ne]
    rintro rfl
    exact hafter c hc p.2 hwrite
  rw [List.filterMap_append, List.filterMap_cons, h, List.reverse_append, List.reverse_cons,
    List.lookup_append, List.lookup_append, hlater]
  simp

/-- Some value was written at every key but those that were there. -/
theorem mem_keys_insertAll {m : OrderedMap α} {pairs : List (String × α)} {k : String} :
    k ∈ (m.insertAll pairs).keys ↔ k ∈ pairs.map Prod.fst ∨ k ∈ m.keys := by
  induction pairs generalizing m with
  | nil => simp [insertAll]
  | cons p pairs ih =>
    have hstep : m.insertAll (p :: pairs) = (m.insert p.1 p.2).insertAll pairs := rfl
    rw [hstep, ih, mem_keys_insert, List.map_cons, List.mem_cons, or_left_comm, or_assoc]

theorem get?_filterKeys (m : OrderedMap α) (p : String → Bool) (k : String) :
    (m.filterKeys p).get? k = if p k = true then m.get? k else none := by
  unfold get? filterKeys
  simp only
  induction m.toList with
  | nil => simp
  | cons e l ih =>
    rw [lookup_cons_eq]
    cases he : p e.1 with
    | true =>
      rw [List.filter_cons_of_pos (by simpa using he), lookup_cons_eq, ih]
      by_cases hk : k = e.1 <;> simp [hk, he]
    | false =>
      rw [List.filter_cons_of_neg (by simp [he]), ih]
      by_cases hk : k = e.1
      · rw [hk, he, if_neg (by decide), if_neg (by decide)]
      · rw [if_neg hk]

theorem lookup_eq_some_iff_mem {l : List (String × α)} (h : (l.map Prod.fst).Nodup) {k : String}
    {value : α} : l.lookup k = some value ↔ (k, value) ∈ l := by
  constructor
  · intro hlookup
    obtain ⟨before, after, hlist, -⟩ := List.lookup_eq_some_iff.mp hlookup
    rw [hlist]
    simp
  · exact fun hmem => lookup_of_mem h hmem

/-- Writing a whole map: its values come before those that were there. -/
theorem get?_insertAll_toList (m n : OrderedMap α) (k : String) :
    (m.insertAll n.toList).get? k = (n.get? k).or (m.get? k) := by
  have hreverse : (n.toList.reverse.map Prod.fst).Nodup := by
    rw [List.map_reverse]
    exact List.nodup_reverse.mpr n.nodup_keys
  have hsame : n.toList.reverse.lookup k = n.get? k := by
    apply Option.ext
    intro value
    rw [get?, lookup_eq_some_iff_mem hreverse, List.mem_reverse,
      lookup_eq_some_iff_mem n.nodup_keys]
  rw [get?_insertAll, hsame]

theorem get?_mapValues {β : Type} (f : α → β) (m : OrderedMap α) (k : String) :
    (m.mapValues f).get? k = (m.get? k).map f := by
  unfold get? mapValues
  simp only
  induction m.toList with
  | nil => rfl
  | cons e l ih =>
    rw [List.map_cons, lookup_cons_eq, lookup_cons_eq, ih]
    split <;> rfl

theorem get?_modify (m : OrderedMap α) (key : String) (f : α → α) (k : String) :
    (m.modify key f).get? k = (m.get? k).map fun v => if k = key then f v else v := by
  unfold get? modify
  simp only
  induction m.toList with
  | nil => rfl
  | cons e l ih =>
    rw [List.map_cons, lookup_cons_eq, lookup_cons_eq, ih]
    by_cases hk : k = e.1
    · rw [if_pos hk, if_pos hk, hk, Option.map_some]
    · rw [if_neg hk, if_neg hk]

/-! ## Writing new keys -/

theorem put_of_notMem {key : String} {l : List (String × α)} (h : key ∉ l.map Prod.fst)
    (value : α) : put key value l = l ++ [(key, value)] := by
  induction l with
  | nil => rfl
  | cons e l ih =>
    obtain ⟨k, v⟩ := e
    rw [List.map_cons, List.mem_cons, not_or] at h
    rw [put, if_neg (Ne.symm h.1), ih h.2]
    rfl

theorem toList_insertAll {m : OrderedMap α} {pairs : List (String × α)}
    (h : (m.toList.map Prod.fst ++ pairs.map Prod.fst).Nodup) :
    (m.insertAll pairs).toList = m.toList ++ pairs := by
  induction pairs generalizing m with
  | nil => simp [insertAll]
  | cons p pairs ih =>
    have hp : p.1 ∉ m.toList.map Prod.fst := by
      intro hmem
      rw [List.map_cons, List.nodup_append] at h
      exact h.2.2 _ hmem _ List.mem_cons_self rfl
    have hinsert : (m.insert p.1 p.2).toList = m.toList ++ [p] := put_of_notMem hp p.2
    have := ih (m := m.insert p.1 p.2) (by rw [hinsert]; simpa using h)
    rw [hinsert, List.append_assoc, List.singleton_append] at this
    exact this

/-- Pairs with different keys are kept as they are. -/
theorem toList_ofList {pairs : List (String × α)} (h : (pairs.map Prod.fst).Nodup) :
    (ofList pairs).toList = pairs := by
  have hinsert : ((empty : OrderedMap α).insertAll pairs).toList = [] ++ pairs :=
    toList_insertAll (by simpa using h)
  exact hinsert

/-- A map is what its entries make. -/
theorem ofList_toList (m : OrderedMap α) : ofList m.toList = m :=
  ext (toList_ofList m.nodup_keys)

end IntentCode.OrderedMap
