import ValidUsage.Number.Binary64
import ValidUsage.Number.Width

/-!
# Reading decimals step by step

A decimal in JSON is read in steps that are rounded one by one: as many leading digits as 64 bits
hold, a power of ten, and their product or quotient. Every step gives the nearest number, so that
the result is the nearest one to a decimal of few digits and a small exponent, while it may miss
the nearest one to others by the last bit.
-/

namespace ValidUsage.Binary64

/-- The finite number nearest to a fraction that may be zero, if it is not too large. -/
def ofRatio (num den : Nat) : Option Binary64 :=
  if num = 0 then some (zero false) else ofFraction false num den

/-- The finite number nearest to the product of two absolute values, if it is not too large. -/
def product (x y : Binary64) : Option Binary64 :=
  ofRatio (x.fraction.1 * y.fraction.1) (x.fraction.2 * y.fraction.2)

/-- The finite number nearest to the quotient of two absolute values, if it is not too large. -/
def quotient (x y : Binary64) : Option Binary64 :=
  ofRatio (x.fraction.1 * y.fraction.2) (x.fraction.2 * y.fraction.1)

/-- The number nearest to a power of ten, if it is not too large. -/
def powerOfTen (n : Nat) : Option Binary64 := ofDecimal false 1 n

/-- The exponent of the greatest power of ten that is not too large. -/
def maxPower : Nat := 308

/-- Raising a negative exponent by a power of ten brings it nearer to zero. -/
theorem raise_toNat_lt {e : Int} (h : ¬(-maxPower ≤ e)) :
    (-(e + maxPower)).toNat < (-e).toNat := by
  simp only [maxPower] at *
  omega

/-- The absolute value times `10 ^ e`, if it is not too large. What is left of a division by the
greatest power of ten is divided again. -/
def timesTen (x : Binary64) (e : Int) : Option Binary64 :=
  if x.mant = 0 then some x
  else if 0 ≤ e then (powerOfTen e.toNat).bind x.product
  else if _h : -maxPower ≤ e then (powerOfTen (-e).toNat).bind x.quotient
  else (powerOfTen maxPower).bind fun p => (x.quotient p).bind fun y => timesTen y (e + maxPower)
termination_by (-e).toNat
decreasing_by exact raise_toNat_lt _h

/-- A part of a number has fewer digits. -/
theorem tenth_lt {n : Nat} (h : ¬n < limit64) : n / 10 < n := by
  simp only [limit64] at h
  omega

/-- The leading digits of `digits * 10 ^ exp`, as many as 64 bits hold, with their exponent. -/
def leading (digits : Nat) (exp : Int) : Nat × Int :=
  if _h : digits < limit64 then (digits, exp) else leading (digits / 10) (exp + 1)
termination_by digits
decreasing_by exact tenth_lt _h

/-- The number that `digits * 10 ^ exp` is read as step by step, if it is not too large. -/
def ofDecimalStepwise (neg : Bool) (digits : Nat) (exp : Int) : Option Binary64 := do
  let (digits, exp) := leading digits exp
  let x ← (← ofNat? digits).timesTen exp
  return { x with neg }

end ValidUsage.Binary64
