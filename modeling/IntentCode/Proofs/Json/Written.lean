import IntentCode.Json.Reader
import IntentCode.Proofs.Json.Numeral
import IntentCode.Proofs.Json.Units
import Mathlib.Data.List.DropRight

/-!
# Reading what was written

A value that the reader can hold is written so that reading gives it back, and nothing after it is read
(`readValue_pretty`). Which values these are depends on what the reader allows: whole numbers of 64 bits,
containers not nested too deep (`Value.Fits`).

The three readers call each other with less fuel at every call, so one induction on the fuel proves all of
them (`readsBack`). Every call that is made has the text of a smaller value before it, and twice the length
of that text is enough fuel for it.
-/

set_option autoImplicit false

namespace IntentCode.Json

/-! ## Values that can be held -/

mutual

/-- Nothing is written that the reader does not hold, if it may open so many containers inside each
other. -/
def Value.Fits (budget : Nat) : Value → Prop
  | .null | .bool _ | .string _ => True
  | .number (.natural n) => n < 0x10000000000000000
  | .number (.decimal ..) => False
  | .array items => 0 < budget ∧ ItemsFit (budget - 1) items
  | .object members => 0 < budget ∧ MembersFit (budget - 1) members
  | .unheld => False
termination_by structural v => v

def ItemsFit (budget : Nat) : List Value → Prop
  | [] => True
  | v :: rest => v.Fits budget ∧ ItemsFit budget rest
termination_by structural l => l

def MembersFit (budget : Nat) : List (String × Value) → Prop
  | [] => True
  | m :: rest => MemberFits budget m ∧ MembersFit budget rest
termination_by structural l => l

def MemberFits (budget : Nat) : String × Value → Prop
  | (_, v) => v.Fits budget
termination_by structural m => m

end

theorem itemsFit_iff {budget : Nat} {items : List Value} :
    ItemsFit budget items ↔ ∀ v ∈ items, v.Fits budget := by
  induction items with
  | nil => simp [ItemsFit]
  | cons v items ih => rw [ItemsFit, ih, List.forall_mem_cons]

theorem membersFit_iff {budget : Nat} {members : List (String × Value)} :
    MembersFit budget members ↔ ∀ m ∈ members, m.2.Fits budget := by
  induction members with
  | nil => simp [MembersFit]
  | cons m members ih =>
    obtain ⟨key, v⟩ := m
    rw [MembersFit, MemberFits, ih, List.forall_mem_cons]

mutual

/-- How many containers lie inside each other. -/
def Value.depth : Value → Nat
  | .null | .bool _ | .number _ | .string _ | .unheld => 0
  | .array items => itemsDepth items + 1
  | .object members => membersDepth members + 1
termination_by structural v => v

def itemsDepth : List Value → Nat
  | [] => 0
  | v :: rest => max v.depth (itemsDepth rest)
termination_by structural l => l

def membersDepth : List (String × Value) → Nat
  | [] => 0
  | m :: rest => max (memberDepth m) (membersDepth rest)
termination_by structural l => l

def memberDepth : String × Value → Nat
  | (_, v) => v.depth
termination_by structural m => m

end

/-! ## Blanks -/

theorem skipBlanks_lineBreak (level : Nat) (cs : List Char) :
    skipBlanks (lineBreak level ++ cs) = skipBlanks cs := by
  have hblank : ∀ c ∈ lineBreak level, isJsonBlank c = true := by
    intro c hc
    rcases List.mem_cons.mp hc with rfl | hc
    · rfl
    · rw [List.eq_of_mem_replicate hc]
      rfl
  exact List.dropWhile_append_of_pos hblank

theorem skipBlanks_of_ne {c : Char} (h : isJsonBlank c = false) (cs : List Char) :
    skipBlanks (c :: cs) = c :: cs :=
  List.dropWhile_cons_of_neg (by simp [h])

theorem skipBlanks_skipBlanks (cs : List Char) : skipBlanks (skipBlanks cs) = skipBlanks cs :=
  List.dropWhile_idempotent _ cs

section

variable {cs ds : List Char} (h : skipBlanks cs = skipBlanks ds) (fuel budget : Nat)

include h

/-- Blanks before a value make no difference. -/
theorem value?_congr : value? fuel budget cs = value? fuel budget ds := by
  cases fuel with
  | zero => rfl
  | succ fuel =>
    unfold value?
    rw [h]

theorem items?_congr : items? fuel budget cs = items? fuel budget ds := by
  cases fuel with
  | zero => rfl
  | succ fuel =>
    unfold items?
    rw [value?_congr h]

theorem members?_congr : members? fuel budget cs = members? fuel budget ds := by
  cases fuel with
  | zero => rfl
  | succ fuel =>
    unfold members?
    rw [h]

end

/-! ## The first character -/

theorem not_isJsonBlank_of_isDigit {c : Char} (h : c.isDigit = true) : isJsonBlank c = false := by
  have hblank : ∀ b, b.isDigit = false → c ≠ b := fun b hb => ne_of_isDigit h hb
  simp [isJsonBlank, hblank ' ' rfl, hblank '\n' rfl, hblank '\t' rfl, hblank '\r' rfl]

/-- A written value starts with a character that is neither a blank nor a closing bracket. -/
theorem exists_prettyChars (level : Nat) (v : Value) :
    ∃ c cs, prettyChars level v = c :: cs ∧ isJsonBlank c = false ∧ c ≠ ']' := by
  cases v with
  | null => exact ⟨'n', _, rfl, rfl, by decide⟩
  | unheld => exact ⟨'n', _, rfl, rfl, by decide⟩
  | bool b => cases b <;> exact ⟨_, _, rfl, rfl, by decide⟩
  | string s => exact ⟨'"', _, rfl, rfl, by decide⟩
  | array items => cases items <;> exact ⟨'[', _, rfl, rfl, by decide⟩
  | object members => cases members <;> exact ⟨'\x7b', _, rfl, rfl, by decide⟩
  | number n =>
    have hdigits : ∀ n, ∃ c cs, Nat.toDigits 10 n = c :: cs ∧ isJsonBlank c = false ∧ c ≠ ']' := by
      intro n
      obtain ⟨c, cs, hcs, hc⟩ := exists_toDigits n
      exact ⟨c, cs, hcs, not_isJsonBlank_of_isDigit hc, ne_of_isDigit hc rfl⟩
    cases n with
    | natural n => exact hdigits n
    | decimal negative digits exponent =>
      cases negative with
      | true => exact ⟨'-', _, rfl, rfl, by decide⟩
      | false =>
        obtain ⟨c, cs, hcs, hc⟩ := hdigits digits
        refine ⟨c, cs ++ 'e' :: (toString exponent).toList, ?_, hc⟩
        show [] ++ Nat.toDigits 10 digits ++ 'e' :: (toString exponent).toList = _
        rw [hcs]
        rfl

/-! ## One value -/

theorem value?_toDigits (fuel budget n : Nat) {rest : List Char} (hrest : Stops rest) :
    value? (fuel + 1) budget (Nat.toDigits 10 n ++ rest) =
      some (Numeral.value ⟨false, Nat.toDigits 10 n, [], none⟩, rest) := by
  have hnumeral := numeral?_toDigits hrest n
  obtain ⟨c, cs, hcs, hc⟩ := exists_toDigits n
  rw [hcs, List.cons_append] at hnumeral ⊢
  unfold value?
  rw [skipBlanks_of_ne (not_isJsonBlank_of_isDigit hc)]
  -- a digit starts none of the other values
  split
  case h_7 => rw [hnumeral, Option.map_some]
  all_goals
    next heq => exact absurd (List.cons.inj heq).1 (ne_of_isDigit hc rfl)

theorem value?_string (fuel budget : Nat) (s : String) (rest : List Char) :
    value? (fuel + 1) budget (stringChars s ++ rest) = some (.string s, rest) := by
  have hstring : value? (fuel + 1) budget ('"' :: (s.toList.flatMap escapedChar ++ '"' :: rest)) =
      (literalTail (s.toList.flatMap escapedChar ++ '"' :: rest)).map
        fun r => (stringValue r.1, r.2) := rfl
  have hvalue : stringValue (s.toList.map Char.toNat) = .string s := by
    have htext : text? (s.toList.map Char.toNat) = some s := text?_units s
    rw [stringValue, htext]
  rw [stringChars_append, hstring, literalTail_flatMap, Option.map_some, hvalue]

/-- An array with items. -/
theorem value?_items (fuel budget : Nat) {cs : List Char}
    (h : ∀ rest, skipBlanks cs ≠ ']' :: rest) :
    value? (fuel + 1) budget ('[' :: cs) =
      (items? fuel (budget - 1) cs).map fun r => (within budget (.array r.1), r.2) := by
  rw [← items?_congr (skipBlanks_skipBlanks cs)]
  unfold value?
  rw [skipBlanks_of_ne rfl]
  -- by the hypothesis the container is not closed at once
  simp only

/-- An object with members. -/
theorem value?_members (fuel budget : Nat) {cs : List Char}
    (h : ∀ rest, skipBlanks cs ≠ '\x7d' :: rest) :
    value? (fuel + 1) budget ('\x7b' :: cs) =
      (members? fuel (budget - 1) cs).map fun r => (within budget (objectValue r.1), r.2) := by
  rw [← members?_congr (skipBlanks_skipBlanks cs)]
  unfold value?
  rw [skipBlanks_of_ne rfl]
  -- by the hypothesis the container is not closed at once
  simp only

/-- A list is read element by element. -/
theorem mapM_map_eq_some_map {α β γ : Type} {write : α → β} {read : β → Option γ} {g : α → γ}
    {l : List α} (h : ∀ a ∈ l, read (write a) = some (g a)) :
    (l.map write).mapM read = some (l.map g) := by
  induction l with
  | nil => rfl
  | cons a l ih =>
    rw [List.map_cons, List.mapM_cons, h a List.mem_cons_self,
      ih fun b hb => h b (List.mem_cons_of_mem a hb)]
    rfl

theorem mapM_map_eq_some {α β : Type} {write : α → β} {read : β → Option α} {l : List α}
    (h : ∀ a ∈ l, read (write a) = some a) : (l.map write).mapM read = some l := by
  have hmap := mapM_map_eq_some_map (g := id) h
  rw [List.map_id] at hmap
  exact hmap

theorem objectValue_units (members : List (String × Value)) :
    objectValue (members.map fun m => (units m.1, m.2)) = .object members := by
  have hread : (members.map fun m => (units m.1, m.2)).mapM
      (fun m => (text? m.1).map fun key => (key, m.2)) = some members := by
    refine mapM_map_eq_some fun m _ => ?_
    rw [text?_units]
    rfl
  rw [objectValue, hread]

/-! ## Elements of containers -/

/-- What is written after an element: a comma and the others, or nothing. -/
def others {α : Type} (write : List α → List Char) (more : List α) : List Char :=
  if more.isEmpty then [] else ',' :: write more

theorem prettyChars_array (level : Nat) (v : Value) (more : List Value) :
    prettyChars level (.array (v :: more)) =
      '[' :: (prettyItems (level + 1) (v :: more) ++ (lineBreak level ++ [']'])) := by
  simp [prettyChars]

theorem prettyChars_object (level : Nat) (m : String × Value) (more : List (String × Value)) :
    prettyChars level (.object (m :: more)) =
      '\x7b' :: (prettyMembers (level + 1) (m :: more) ++ (lineBreak level ++ ['\x7d'])) := by
  simp [prettyChars]

theorem prettyItems_append (level : Nat) (v : Value) (more : List Value) (tail : List Char) :
    prettyItems level (v :: more) ++ tail =
      lineBreak level ++ (prettyChars level v ++ (others (prettyItems level) more ++ tail)) := by
  simp only [prettyItems, others, List.append_assoc]

theorem prettyMembers_append (level : Nat) (key : String) (v : Value)
    (more : List (String × Value)) (tail : List Char) :
    prettyMembers level ((key, v) :: more) ++ tail =
      lineBreak level ++ (stringChars key ++
        (':' :: ' ' :: (prettyChars level v ++ (others (prettyMembers level) more ++ tail)))) := by
  simp only [prettyMembers, prettyMember, others, List.append_assoc, List.cons_append]

/-- What is written after an element is not taken for a part of it. -/
theorem stops_others {α : Type} (write : List α → List Char) (more : List α) (after : Nat)
    (rest : List Char) : Stops (others write more ++ (lineBreak after ++ rest)) := by
  cases more with
  | nil => exact stops_cons.mpr (by decide)
  | cons m more => exact stops_cons.mpr (by decide)

/-- After the last element there are only blanks before the closing bracket. -/
theorem skipBlanks_last {α : Type} (write : List α → List Char) (after : Nat) (rest : List Char) :
    skipBlanks (others write [] ++ (lineBreak after ++ rest)) = skipBlanks rest :=
  skipBlanks_lineBreak after rest

/-- After any other element there is a comma. -/
theorem skipBlanks_further {α : Type} (write : List α → List Char) (a : α) (more : List α)
    (rest : List Char) :
    skipBlanks (others write (a :: more) ++ rest) = ',' :: (write (a :: more) ++ rest) := rfl

theorem length_lineBreak (level : Nat) : 0 < (lineBreak level).length := Nat.succ_pos _

theorem length_prettyChars (level : Nat) (v : Value) : 0 < (prettyChars level v).length := by
  obtain ⟨c, cs, hcs, -⟩ := exists_prettyChars level v
  rw [hcs]
  exact Nat.succ_pos _

/-! ## The induction -/

/-- What the readers do with a given amount of fuel to a text that was written. -/
structure ReadsBack (fuel : Nat) : Prop where
  value : ∀ budget level v rest, v.Fits budget → Stops rest →
    2 * (prettyChars level v).length ≤ fuel →
    value? fuel budget (prettyChars level v ++ rest) = some (v, rest)
  items : ∀ budget level items after rest, items ≠ [] → ItemsFit budget items →
    2 * (prettyItems level items).length ≤ fuel →
    items? fuel budget (prettyItems level items ++ (lineBreak after ++ ']' :: rest)) =
      some (items, rest)
  members : ∀ budget level members after rest, members ≠ [] → MembersFit budget members →
    2 * (prettyMembers level members).length ≤ fuel →
    members? fuel budget (prettyMembers level members ++ (lineBreak after ++ '\x7d' :: rest)) =
      some (members.map fun m => (units m.1, m.2), rest)

namespace ReadsBack

theorem zero : ReadsBack 0 where
  value := by
    intro budget level v rest _ _ hfuel
    have hpos := length_prettyChars level v
    omega
  items := by
    intro budget level items after rest hne _ hfuel
    obtain ⟨v, more, rfl⟩ := List.exists_cons_of_ne_nil hne
    have hpos := length_prettyChars level v
    simp only [prettyItems, List.length_append] at hfuel
    omega
  members := by
    intro budget level members after rest hne _ hfuel
    obtain ⟨⟨key, v⟩, more, rfl⟩ := List.exists_cons_of_ne_nil hne
    have hpos := length_lineBreak level
    simp only [prettyMembers, List.length_append] at hfuel
    omega

variable {fuel : Nat} (h : ReadsBack fuel)

include h

theorem array_succ {budget level : Nat} {items : List Value} {rest : List Char} (hpos : 0 < budget)
    (hfits : ItemsFit (budget - 1) items)
    (hfuel : 2 * (prettyChars level (.array items)).length ≤ fuel + 1) :
    value? (fuel + 1) budget (prettyChars level (.array items) ++ rest) =
      some (.array items, rest) := by
  have hopen : ∀ v, within budget v = v := fun v => if_neg (Nat.pos_iff_ne_zero.mp hpos)
  cases items with
  | nil =>
    show some (within budget (.array []), rest) = _
    rw [hopen]
  | cons v more =>
    rw [prettyChars_array] at hfuel ⊢
    simp only [List.length_cons, List.length_append] at hfuel
    have hfirst : ∀ tail, skipBlanks (prettyItems (level + 1) (v :: more) ++
        (lineBreak level ++ ']' :: rest)) ≠ ']' :: tail := by
      intro tail
      obtain ⟨c, cs, hcs, hblank, hne⟩ := exists_prettyChars (level + 1) v
      rw [prettyItems_append, skipBlanks_lineBreak, hcs, List.cons_append, skipBlanks_of_ne hblank]
      exact fun heq => hne (List.cons.inj heq).1
    have hitems := h.items (budget - 1) (level + 1) (v :: more) level rest (by simp) hfits (by omega)
    rw [List.cons_append, List.append_assoc, List.append_assoc, List.singleton_append,
      value?_items fuel budget hfirst, hitems, Option.map_some, hopen]

theorem object_succ {budget level : Nat} {members : List (String × Value)} {rest : List Char}
    (hpos : 0 < budget) (hfits : MembersFit (budget - 1) members)
    (hfuel : 2 * (prettyChars level (.object members)).length ≤ fuel + 1) :
    value? (fuel + 1) budget (prettyChars level (.object members) ++ rest) =
      some (.object members, rest) := by
  have hopen : ∀ v, within budget v = v := fun v => if_neg (Nat.pos_iff_ne_zero.mp hpos)
  cases members with
  | nil =>
    show some (within budget (.object []), rest) = _
    rw [hopen]
  | cons m more =>
    obtain ⟨key, v⟩ := m
    rw [prettyChars_object] at hfuel ⊢
    simp only [List.length_cons, List.length_append] at hfuel
    have hfirst : ∀ tail, skipBlanks (prettyMembers (level + 1) ((key, v) :: more) ++
        (lineBreak level ++ '\x7d' :: rest)) ≠ '\x7d' :: tail := by
      intro tail
      rw [prettyMembers_append, skipBlanks_lineBreak, stringChars_append, skipBlanks_of_ne rfl]
      exact fun heq => absurd (List.cons.inj heq).1 (by decide)
    have hmembers := h.members (budget - 1) (level + 1) ((key, v) :: more) level rest (by simp) hfits
      (by omega)
    rw [List.cons_append, List.append_assoc, List.append_assoc, List.singleton_append,
      value?_members fuel budget hfirst, hmembers, Option.map_some, objectValue_units, hopen]

theorem value_succ {budget level : Nat} {v : Value} {rest : List Char} (hfits : v.Fits budget)
    (hrest : Stops rest) (hfuel : 2 * (prettyChars level v).length ≤ fuel + 1) :
    value? (fuel + 1) budget (prettyChars level v ++ rest) = some (v, rest) := by
  cases v with
  | null => rfl
  | bool b => cases b <;> rfl
  | unheld => exact absurd hfits id
  | string s => exact value?_string fuel budget s rest
  | number n =>
    cases n with
    | decimal => exact absurd hfits id
    | natural n =>
      show value? (fuel + 1) budget (Nat.toDigits 10 n ++ rest) = _
      rw [value?_toDigits fuel budget n hrest, value_natural hfits]
  | array items => exact h.array_succ hfits.1 hfits.2 hfuel
  | object members => exact h.object_succ hfits.1 hfits.2 hfuel

theorem items_succ {budget level : Nat} {items : List Value} {after : Nat} {rest : List Char}
    (hne : items ≠ []) (hfits : ItemsFit budget items)
    (hfuel : 2 * (prettyItems level items).length ≤ fuel + 1) :
    items? (fuel + 1) budget (prettyItems level items ++ (lineBreak after ++ ']' :: rest)) =
      some (items, rest) := by
  obtain ⟨v, more, rfl⟩ := List.exists_cons_of_ne_nil hne
  obtain ⟨hv, hmore⟩ := hfits
  have hbreak := length_lineBreak level
  simp only [prettyItems, List.length_append] at hfuel
  have hvalue := (value?_congr (skipBlanks_lineBreak level _) fuel budget).trans
    (h.value budget level v _ hv (stops_others (prettyItems level) more after (']' :: rest))
      (by omega))
  unfold items?
  rw [prettyItems_append, hvalue]
  simp only [Option.bind_eq_bind, Option.bind_some]
  cases more with
  | nil =>
    rw [skipBlanks_last]
    rfl
  | cons w more =>
    have hrest := h.items budget level (w :: more) after rest (by simp) hmore
      (by simp at hfuel; omega)
    rw [skipBlanks_further]
    simp only
    rw [hrest]
    rfl

theorem members_succ {budget level : Nat} {members : List (String × Value)} {after : Nat}
    {rest : List Char} (hne : members ≠ []) (hfits : MembersFit budget members)
    (hfuel : 2 * (prettyMembers level members).length ≤ fuel + 1) :
    members? (fuel + 1) budget
        (prettyMembers level members ++ (lineBreak after ++ '\x7d' :: rest)) =
      some (members.map fun m => (units m.1, m.2), rest) := by
  obtain ⟨⟨key, v⟩, more, rfl⟩ := List.exists_cons_of_ne_nil hne
  obtain ⟨hv, hmore⟩ := hfits
  simp only [prettyMembers, prettyMember, List.length_append, List.length_cons] at hfuel
  have hvalue := h.value budget level v _ hv
    (stops_others (prettyMembers level) more after ('\x7d' :: rest)) (by omega)
  have hspace : ∀ cs, value? fuel budget (' ' :: cs) = value? fuel budget cs :=
    fun cs => value?_congr (show skipBlanks (' ' :: cs) = skipBlanks cs from rfl) fuel budget
  unfold members?
  rw [prettyMembers_append, skipBlanks_lineBreak, stringChars_append, skipBlanks_of_ne rfl]
  simp only [literalTail_flatMap, Option.bind_eq_bind, Option.bind_some,
    skipBlanks_of_ne (c := ':') rfl, hspace, hvalue]
  cases more with
  | nil =>
    rw [skipBlanks_last]
    rfl
  | cons m more =>
    have hrest := h.members budget level (m :: more) after rest (by simp) hmore
      (by simp at hfuel; omega)
    rw [skipBlanks_further]
    simp only
    rw [hrest]
    rfl

end ReadsBack

/-- **Enough fuel reads back what was written**: a value, the items of an array, the members of an
object. -/
theorem readsBack (fuel : Nat) : ReadsBack fuel := by
  induction fuel with
  | zero => exact ReadsBack.zero
  | succ fuel ih =>
    exact
      { value := fun _ _ _ _ hfits hrest hfuel => ih.value_succ hfits hrest hfuel
        items := fun _ _ _ _ _ hne hfits hfuel => ih.items_succ hne hfits hfuel
        members := fun _ _ _ _ _ hne hfits hfuel => ih.members_succ hne hfits hfuel }

/-- **A written value is read back**, and nothing after it is read. -/
theorem readValue_pretty {v : Value} (h : v.Fits maxDepth) {rest : List Char} (hrest : Stops rest) :
    readValue (v.pretty.toList ++ rest) = some (v, rest) := by
  rw [readValue, Value.pretty, String.toList_ofList]
  apply (readsBack _).value maxDepth 0 v rest h hrest
  rw [List.length_append]
  omega

theorem read_pretty {v : Value} (h : v.Fits maxDepth) : read v.pretty = some v := by
  have hread := readValue_pretty h stops_nil
  rw [List.append_nil] at hread
  rw [read, hread]
  rfl

end IntentCode.Json
