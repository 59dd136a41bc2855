import IntentCode.Json.Value

/-!
# Records in JSON

A record is an object with known keys. A known key may stand there once and not twice; what other
keys hold does not matter, so it may be anything that JSON can say, even what no value holds. A
record may also be written as the array of its values in the order of its keys, with missing values
at the end.

A field is read by one of three functions, depending on what its absence means.
-/

set_option autoImplicit false

namespace IntentCode.Json.Record

/-- The members of a record, from either of its two forms. -/
def members? (keys : List String) : Value → Option (List (String × Value))
  | .object members => some members
  | .array values => if values.length ≤ keys.length then some (keys.zip values) else none
  | _ => none

variable {α : Type} (members : List (String × Value)) (key : String) (read : Value → Option α)

/-- The value of a key; the outer `none` is a key that occurs twice. -/
def field? : Option (Option Value) :=
  match members.filter fun m => m.1 == key with
  | [] => some none
  | [m] => some (some m.2)
  | _ => none

/-- A field that has to be there. -/
def required : Option α := do read (← (← field? members key))

/-- A field that stands for `absent` when it is missing. -/
def withDefault (absent : α) : Option α := do
  match ← field? members key with
  | none => some absent
  | some v => read v

/-- A field that may be missing or `null`. -/
def nullable : Option (Option α) := do
  match ← field? members key with
  | none => some none
  | some v => v.optional? read

end IntentCode.Json.Record
