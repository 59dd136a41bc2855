/-!
# Maps that remember insertion order

Parameters, base classes, symbol metadata and imports are all keyed by a name and all listed in the
order in which the names first appeared. A list of pairs with distinct keys is that, and nothing
else: writing to a key that is present replaces the value where it stands, writing to a new key
appends it, and removing a key closes the gap.

The view of a map is its list of entries `toList`; that no key occurs twice is a field of the type,
so every function here keeps it and no later statement has to assume it.

Two maps can also be compared without regard to order (`sameEntries`): that is what it means for
two declarations to have the same parameters.
-/

set_option autoImplicit false

namespace IntentCode

structure OrderedMap (α : Type) where
  toList : List (String × α)
  nodup_keys : (toList.map Prod.fst).Nodup
deriving DecidableEq

namespace OrderedMap

variable {α β : Type}

@[ext] theorem ext {m n : OrderedMap α} (h : m.toList = n.toList) : m = n := by
  cases m; cases n; simp_all

def empty : OrderedMap α := ⟨[], by simp⟩

instance : Inhabited (OrderedMap α) := ⟨empty⟩

def keys (m : OrderedMap α) : List String := m.toList.map Prod.fst

def values (m : OrderedMap α) : List α := m.toList.map Prod.snd

def size (m : OrderedMap α) : Nat := m.toList.length

def isEmpty (m : OrderedMap α) : Bool := m.toList.isEmpty

def get? (m : OrderedMap α) (key : String) : Option α := m.toList.lookup key

def contains (m : OrderedMap α) (key : String) : Bool := m.keys.contains key

/-! ## Writing -/

/-- The entries after writing `value` at `key`. -/
def put (key : String) (value : α) : List (String × α) → List (String × α)
  | [] => [(key, value)]
  | (k, v) :: rest => if k = key then (k, value) :: rest else (k, v) :: put key value rest

theorem keys_put (key : String) (value : α) (l : List (String × α)) :
    (put key value l).map Prod.fst =
      if key ∈ l.map Prod.fst then l.map Prod.fst else l.map Prod.fst ++ [key] := by
  fun_induction put key value l with
  | case1 => simp
  | case2 v rest => simp
  | case3 k v rest hk ih =>
    by_cases h : key ∈ rest.map Prod.fst
    · simp only [List.map_cons, ih, List.mem_cons, h, or_true, if_true]
    · have hk' : key ≠ k := fun e => hk e.symm
      simp only [List.map_cons, ih, List.mem_cons, hk', h, or_self, if_false,
        List.cons_append]

theorem nodup_put {key : String} {value : α} {l : List (String × α)}
    (h : (l.map Prod.fst).Nodup) : ((put key value l).map Prod.fst).Nodup := by
  rw [keys_put]
  split
  · exact h
  · next hk => exact List.nodup_append.mpr ⟨h, by simp, by grind⟩

/-- Writes `value` at `key`: in place if the key is present, else at the end. -/
def insert (m : OrderedMap α) (key : String) (value : α) : OrderedMap α :=
  ⟨put key value m.toList, nodup_put m.nodup_keys⟩

/-- Writes only if the key is absent. -/
def insertNew (m : OrderedMap α) (key : String) (value : α) : OrderedMap α :=
  if m.contains key then m else m.insert key value

/-- Writes the pairs one after the other; of two with the same key the later value stays. -/
def insertAll (m : OrderedMap α) (pairs : List (String × α)) : OrderedMap α :=
  pairs.foldl (fun m p => m.insert p.1 p.2) m

def ofList (pairs : List (String × α)) : OrderedMap α := empty.insertAll pairs

/-! ## Selecting and changing values -/

/-- Keeps the entries whose key satisfies `p`. -/
def filterKeys (m : OrderedMap α) (p : String → Bool) : OrderedMap α :=
  ⟨m.toList.filter fun e => p e.1, m.nodup_keys.sublist (List.filter_sublist.map _)⟩

def mapValues (f : α → β) (m : OrderedMap α) : OrderedMap β :=
  ⟨m.toList.map fun e => (e.1, f e.2),
    by simpa [List.map_map, Function.comp_def] using m.nodup_keys⟩

/-- Changes the value at one key; nothing happens if the key is absent. -/
def modify (m : OrderedMap α) (key : String) (f : α → α) : OrderedMap α :=
  ⟨m.toList.map fun e => (e.1, if e.1 = key then f e.2 else e.2),
    by simpa [List.map_map, Function.comp_def] using m.nodup_keys⟩

/-! ## Comparing as maps -/

/-- The same keys with the same values, in any order. -/
def sameEntries [BEq α] (m n : OrderedMap α) : Bool :=
  m.size == n.size && m.toList.all fun e => n.get? e.1 == some e.2

/-! ## What each operation does to the keys -/

@[simp] theorem toList_empty : (empty : OrderedMap α).toList = [] := rfl

@[simp] theorem keys_empty : (empty : OrderedMap α).keys = [] := rfl

theorem keys_insert (m : OrderedMap α) (key : String) (value : α) :
    (m.insert key value).keys = if key ∈ m.keys then m.keys else m.keys ++ [key] :=
  keys_put key value m.toList

@[simp] theorem mem_keys_insert {m : OrderedMap α} {key k : String} {value : α} :
    k ∈ (m.insert key value).keys ↔ k = key ∨ k ∈ m.keys := by
  rw [keys_insert]
  split <;> grind

@[simp] theorem keys_filterKeys (m : OrderedMap α) (p : String → Bool) :
    (m.filterKeys p).keys = m.keys.filter p := by
  simp [filterKeys, keys, List.filter_map, Function.comp_def]

@[simp] theorem keys_mapValues (m : OrderedMap α) (f : α → β) : (m.mapValues f).keys = m.keys := by
  simp [mapValues, keys, Function.comp_def]

@[simp] theorem keys_modify (m : OrderedMap α) (key : String) (f : α → α) :
    (m.modify key f).keys = m.keys := by
  simp [modify, keys, Function.comp_def]

@[simp] theorem contains_eq_true {m : OrderedMap α} {key : String} :
    m.contains key = true ↔ key ∈ m.keys := by
  simp [contains]

end OrderedMap

end IntentCode
