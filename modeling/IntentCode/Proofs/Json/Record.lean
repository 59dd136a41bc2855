import IntentCode.Json.Record
import IntentCode.Proofs.Json.Written

/-!
# Reading records that were written

A record is written with each of its keys once, so a field is what stands under its key, however it
is read (`required_of_mem`, `withDefault_of_mem`, `nullable_of_mem`), and nothing if its key was left
out (`field?_of_iff`). And what is written without anything that the reader cannot hold is held
(`Value.isHeld_of_fits`).
-/

set_option autoImplicit false

namespace IntentCode.Json

/-! ## Values that are held -/

mutual

theorem Value.isHeld_of_fits {budget : Nat} : ∀ v : Value, v.Fits budget → v.isHeld = true
  | .null, _ | .bool _, _ | .string _, _ | .number _, _ => rfl
  | .array items, h => allHeld_of_fit items h.2
  | .object members, h => membersHeld_of_fit members h.2
  | .unheld, h => absurd h id
termination_by structural v => v

theorem allHeld_of_fit {budget : Nat} :
    ∀ items : List Value, ItemsFit budget items → Value.allHeld items = true
  | [], _ => rfl
  | v :: rest, h => by
    rw [Value.allHeld, v.isHeld_of_fits h.1, allHeld_of_fit rest h.2]
    rfl
termination_by structural l => l

theorem membersHeld_of_fit {budget : Nat} :
    ∀ members : List (String × Value), MembersFit budget members →
      Value.membersHeld members = true
  | [], _ => rfl
  | m :: rest, h => by
    rw [Value.membersHeld, memberHeld_of_fits m h.1, membersHeld_of_fit rest h.2]
    rfl
termination_by structural l => l

theorem memberHeld_of_fits {budget : Nat} :
    ∀ m : String × Value, MemberFits budget m → Value.memberHeld m = true
  | (_, v), h => v.isHeld_of_fits h
termination_by structural m => m

end

theorem held?_of_fits {budget : Nat} {v : Value} (h : v.Fits budget) : v.held? = some v := by
  rw [Value.held?, if_pos (v.isHeld_of_fits h)]

/-! ## Fields -/

namespace Record

variable {α : Type} {members : List (String × Value)} {key : String} {v : Value}
  (hkeys : (members.map Prod.fst).Nodup) (hv : (key, v) ∈ members)

include hkeys hv

theorem field?_of_mem : field? members key = some (some v) := by
  have hfilter : (members.filter fun m => m.1 == key) = [(key, v)] := by
    obtain ⟨before, after, rfl⟩ := List.append_of_mem hv
    rw [List.map_append, List.map_cons, List.nodup_append, List.nodup_cons] at hkeys
    obtain ⟨-, ⟨hafter, -⟩, hbefore⟩ := hkeys
    have hnone : ∀ l : List (String × Value), key ∉ l.map Prod.fst →
        (l.filter fun m => m.1 == key) = [] := by
      intro l hl
      rw [List.filter_eq_nil_iff]
      intro m hm hkey
      exact hl (eq_of_beq hkey ▸ List.mem_map_of_mem hm)
    rw [List.filter_append, List.filter_cons_of_pos (by simp), hnone after hafter,
      hnone before fun hmem => hbefore key hmem key List.mem_cons_self rfl]
    rfl
  rw [field?, hfilter]

theorem required_of_mem (read : Value → Option α) : required members key read = read v := by
  rw [required, field?_of_mem hkeys hv]
  rfl

theorem withDefault_of_mem (read : Value → Option α) (absent : α) :
    withDefault members key read absent = read v := by
  rw [withDefault, field?_of_mem hkeys hv]
  rfl

theorem nullable_of_mem (read : Value → Option α) :
    nullable members key read = v.optional? read := by
  rw [nullable, field?_of_mem hkeys hv]
  rfl

omit hkeys hv in
/-- A field that may be left out is what stands under its key, if anything does. -/
theorem field?_of_iff (hkeys : (members.map Prod.fst).Nodup) {stored : Option Value}
    (h : ∀ v, (key, v) ∈ members ↔ stored = some v) : field? members key = some stored := by
  cases stored with
  | some v => exact field?_of_mem hkeys ((h v).mpr rfl)
  | none =>
    have hfilter : (members.filter fun m => m.1 == key) = [] := by
      rw [List.filter_eq_nil_iff]
      rintro ⟨k, v⟩ hm hk
      obtain rfl : k = key := eq_of_beq hk
      cases (h v).mp hm
    rw [field?, hfilter]

end Record

end IntentCode.Json
