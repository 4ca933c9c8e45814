/-!
# Finite double-precision numbers

A literal with a fraction or an exponent is the double-precision number nearest to the decimal that
is written; of two equally near ones the one with an even significand. All arithmetic is on natural
numbers, so the rounding is exact.
-/

namespace ValidUsage

/-- The finite number `mant * 2 ^ exp`, negated when `neg` holds. A number that `ofDecimal` returns
has `mant < 2 ^ 53` and, unless `exp` is the least exponent, `2 ^ 52 ≤ mant`. -/
structure Binary64 where
  /-- Whether the number is below zero, or a negative zero. -/
  neg : Bool
  /-- The significand. -/
  mant : Nat
  /-- The exponent of two. -/
  exp : Int
  deriving DecidableEq, Repr

namespace Binary64

/-- The exponent of two of the least positive number. -/
def minExp : Int := -1074

/-- The greatest exponent of two of a finite number. -/
def maxExp : Int := 971

/-- Zero, with a sign. -/
def zero (neg : Bool) : Binary64 := ⟨neg, 0, minExp⟩

/-- The quotient to the nearest whole number, a half going to the even neighbour. -/
def roundHalfEven (num den : Nat) : Nat :=
  let q := num / den
  let r := num % den
  if 2 * r < den then q
  else if den < 2 * r then q + 1
  else if q % 2 = 0 then q else q + 1

/-- `num / den` divided by `2 ^ e`, as a fraction of whole numbers. -/
def scale (num den : Nat) (e : Int) : Nat × Nat :=
  if 0 ≤ e then (num, den * Nat.pow 2 e.toNat) else (num * Nat.pow 2 (-e).toNat, den)

/-- The exponent of two at which `num / den` has a whole part below `2 ^ 53`, and no lower than
needed for that or than `minExp`. -/
def exponentOf (num den : Nat) : Int :=
  let e := max minExp ((num.log2 : Int) - den.log2 - 53)
  let (n, d) := scale num den e
  if n / d < Nat.pow 2 53 then e else e + 1

/-- The finite number nearest to the positive fraction `num / den`, if it is not too large. -/
def ofFraction (neg : Bool) (num den : Nat) : Option Binary64 :=
  let e := exponentOf num den
  let (n, d) := scale num den e
  let m := roundHalfEven n d
  let (m, e) := if m = Nat.pow 2 53 then (Nat.pow 2 52, e + 1) else (m, e)
  if e ≤ maxExp then some ⟨neg, m, e⟩ else none

/-- The number of decimal digits of a natural number, one for zero. -/
def digitCount (n : Nat) : Nat := (Nat.toDigits 10 n).length

/-- The finite number nearest to `digits * 10 ^ exp`, if it is not too large. A decimal above
`10 ^ 310` is too large and one below `10 ^ (-330)` is nearest to zero. -/
def ofDecimal (neg : Bool) (digits : Nat) (exp : Int) : Option Binary64 :=
  if digits = 0 then some (zero neg)
  else
    let top := digitCount digits + exp
    if 310 < top then none
    else if top < -330 then some (zero neg)
    else if 0 ≤ exp then ofFraction neg (digits * Nat.pow 10 exp.toNat) 1
    else ofFraction neg digits (Nat.pow 10 (-exp).toNat)

/-- The number nearest to a natural number. -/
def ofNat? (n : Nat) : Option Binary64 := ofDecimal false n 0

/-- The number with its sign changed. -/
def negate (x : Binary64) : Binary64 := { x with neg := !x.neg }

/-- The number, with a negative zero made positive: two numbers compare equal when these are. -/
def unsignZero (x : Binary64) : Binary64 := if x.mant = 0 then { x with neg := false } else x

/-- The absolute value as a fraction of natural numbers. -/
def fraction (x : Binary64) : Nat × Nat :=
  if 0 ≤ x.exp then (x.mant * Nat.pow 2 x.exp.toNat, 1) else (x.mant, Nat.pow 2 (-x.exp).toNat)

end Binary64
end ValidUsage
