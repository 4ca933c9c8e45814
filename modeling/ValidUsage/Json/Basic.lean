import ValidUsage.Number.Decimal
import ValidUsage.Number.Stepwise

/-!
# JSON values

Registries, build configurations and reports are exchanged as JSON. An object keeps its fields in
the order in which they were written, repeated names included, so that a reader can refuse them.
-/

namespace ValidUsage

/-- A JSON number as it is written: `digits * 10 ^ exp`, below zero when `neg` holds. -/
structure Json.Number where
  /-- Whether a minus sign leads the number. -/
  neg : Bool
  /-- All digits, those of the fraction included. -/
  digits : Nat
  /-- The exponent of ten of the last digit. -/
  exp : Int
  /-- Whether the number has neither a fraction nor an exponent. -/
  whole : Bool
  deriving DecidableEq, Repr

/-- A JSON value. -/
inductive Json where
  /-- The value `null`. -/
  | null
  /-- `true` or `false`. -/
  | bool (value : Bool)
  /-- A number. -/
  | num (value : Json.Number)
  /-- A string. -/
  | str (value : String)
  /-- An array. -/
  | arr (items : List Json)
  /-- An object. -/
  | obj (fields : List (String × Json))

namespace Json

/-- The number that a natural number is written as. -/
def nat (n : Nat) : Json := .num ⟨false, n, 0, true⟩

/-- A list of strings. -/
def strings (l : List String) : Json := .arr (l.map .str)

/-- A value, or `null` in its absence. -/
def ofOption {α : Type} (f : α → Json) : Option α → Json
  | none => .null
  | some a => f a

/-- A field that is left out when it has no value. -/
def field? {α : Type} (name : String) (f : α → Json) : Option α → List (String × Json)
  | none => []
  | some a => [(name, f a)]

/-- The string, if the value is one. -/
def str? : Json → Option String
  | .str s => some s
  | _ => none

/-- The truth value, if the value is one. -/
def bool? : Json → Option Bool
  | .bool b => some b
  | _ => none

/-- The items, if the value is an array. -/
def items? : Json → Option (List Json)
  | .arr l => some l
  | _ => none

/-- The natural number below `limit`, if the value is written as one. A minus sign is refused even
before a zero. -/
def natBelow? (limit : Nat) : Json → Option Nat
  | .num ⟨false, n, _, true⟩ => if n < limit then some n else none
  | _ => none

/-- The finite number, if the value is a number that is not too large. -/
def binary64? : Json → Option Binary64
  | .num n => Binary64.ofDecimalStepwise n.neg n.digits n.exp
  | _ => none

/-- An array whose items all decode. -/
def list? {α : Type} (item? : Json → Option α) (j : Json) : Option (List α) := do
  (← j.items?).mapM item?

/-- An absent value is `null`; any other value has to decode. -/
def option? {α : Type} (value? : Json → Option α) : Json → Option (Option α)
  | .null => some none
  | j => (value? j).map some

/-- The last value under a name. -/
def get? (j : Json) (name : String) : Option Json :=
  match j with
  | .obj fields => (fields.reverse.find? (·.1 == name)).map (·.2)
  | _ => none

/-- The value under a name, or `null`. -/
def getD (j : Json) (name : String) : Json := (j.get? name).getD .null

end Json
end ValidUsage
