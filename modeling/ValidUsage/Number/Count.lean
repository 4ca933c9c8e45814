/-!
# Counts

A count is written in decimal digits, which a plus sign may lead. It has to be below a limit.
-/

namespace ValidUsage

/-- Why a text is not a count. -/
inductive CountError where
  /-- There is no text. -/
  | empty
  /-- A character is not a digit. -/
  | notADigit
  /-- The number is not below the limit. -/
  | tooLarge
  deriving DecidableEq, Repr

/-- The message for a text that is not a count. -/
def CountError.message : CountError → String
  | .empty => "cannot parse integer from empty string"
  | .notADigit => "invalid digit found in string"
  | .tooLarge => "number too large to fit in target type"

namespace Count

/-- The value of a digit. -/
def digitValue (c : Char) : Nat := c.toNat - '0'.toNat

/-- The count that goes on with digits. The first digit that makes it too large, or that is none,
refuses it. -/
def readDigits (limit value : Nat) : List Char → Except CountError Nat
  | [] => .ok value
  | c :: cs =>
    if !c.isDigit then .error .notADigit
    else
      let next := 10 * value + digitValue c
      if next < limit then readDigits limit next cs else .error .tooLarge

/-- The count that a text is. -/
def read (limit : Nat) : List Char → Except CountError Nat
  | [] => .error .empty
  | ['+'] => .error .notADigit
  | '+' :: cs => readDigits limit 0 cs
  | cs => readDigits limit 0 cs

end Count
end ValidUsage
