/-!
# JSON values

Syntax trees, symbol tables and diagnostics are exchanged as JSON, and a project's layout is a JSON
document of its own. A value here keeps what the readers of those formats can tell apart:

* an object is the list of its members as written, repeated keys included, because a repeated key is
  an error in a record and an overwrite in a map;
* a number is a natural number if it is written as one, and else a decimal fraction. Line numbers
  and identifiers take only the first kind, so `1.0` is not a line number;
* text that is JSON and yet has no value here leaves a mark, `unheld`. No reader of one kind of
  value takes the mark, so it does harm only where somebody looks.
-/

set_option autoImplicit false

namespace IntentCode.Json

inductive Number where
  /-- Written as digits only. -/
  | natural (value : Nat)
  /-- Written with a sign, a fraction or an exponent: `± digits · 10 ^ exponent`. -/
  | decimal (negative : Bool) (digits : Nat) (exponent : Int)
deriving DecidableEq, Inhabited

inductive Value where
  | null
  | bool (value : Bool)
  | number (value : Number)
  | string (value : String)
  | array (items : List Value)
  | object (members : List (String × Value))
  /-- Stands for a string with half a surrogate pair, a number out of range or a container nested
  too deep. -/
  | unheld
deriving Inhabited

namespace Value

/-! ## Values that are held throughout -/

mutual

/-- Whether nothing inside is `unheld`. -/
def isHeld : Value → Bool
  | .array items => allHeld items
  | .object members => membersHeld members
  | .unheld => false
  | _ => true
termination_by structural v => v

def allHeld : List Value → Bool
  | [] => true
  | v :: rest => isHeld v && allHeld rest
termination_by structural l => l

def membersHeld : List (String × Value) → Bool
  | [] => true
  | m :: rest => memberHeld m && membersHeld rest
termination_by structural l => l

def memberHeld : String × Value → Bool
  | (_, v) => isHeld v
termination_by structural m => m

end

/-- The value, if nothing inside is `unheld`. -/
def held? (v : Value) : Option Value := if v.isHeld then some v else none

/-! ## Reading one kind of value off -/

def string? : Value → Option String
  | .string s => some s
  | _ => none

def bool? : Value → Option Bool
  | .bool b => some b
  | _ => none

/-- A natural number below `2 ^ 32`. -/
def word32? : Value → Option Nat
  | .number (.natural n) => if n < 0x100000000 then some n else none
  | _ => none

def array? : Value → Option (List Value)
  | .array items => some items
  | _ => none

def object? : Value → Option (List (String × Value))
  | .object members => some members
  | _ => none

def strings? (v : Value) : Option (List String) := do (← v.array?).mapM string?

/-- `null` is the absent value, anything else is read by `read`. -/
def optional? {α : Type} (read : Value → Option α) : Value → Option (Option α)
  | .null => some none
  | v => (read v).map some

/-- The members as pairs of a key and a string. -/
def stringPairs? (v : Value) : Option (List (String × String)) := do
  (← v.object?).mapM fun m => do pure (m.1, ← m.2.string?)

end Value

end IntentCode.Json
