import ValidUsage.Number.Binary64

/-!
# Shortest decimal text of a number

A number is written with the fewest digits that read back as the same number; of several such
decimals the nearest one. A `DecimalStyle` says which of two equally near ones is taken, and where
positional notation gives way to an exponent.
-/

namespace ValidUsage

/-- The decimal `digits * 10 ^ exp`. -/
structure Decimal where
  /-- The digits as one natural number. -/
  digits : Nat
  /-- The exponent of ten. -/
  exp : Int
  deriving DecidableEq, Repr

namespace Decimal

/-- Move trailing zeros of the digits into the exponent. -/
def trimZeros (d : Decimal) : Decimal :=
  if h : d.digits ≠ 0 ∧ d.digits % 10 = 0 then trimZeros ⟨d.digits / 10, d.exp + 1⟩ else d
termination_by d.digits
decreasing_by simp_all; omega

end Decimal

namespace Binary64

/-- The exponent of ten of the first digit of the positive fraction `num / den`. -/
def leadingExponent (num den : Nat) : Int :=
  let l : Int := (digitCount num : Int) - digitCount den
  let fits :=
    if 0 ≤ l then den * Nat.pow 10 l.toNat ≤ num else den ≤ num * Nat.pow 10 (-l).toNat
  if fits then l else l - 1

/-- Whether a decimal reads as the absolute value of the number. -/
def readsBack (x : Binary64) (d : Decimal) : Bool :=
  ofDecimal x.neg d.digits d.exp == some x

/-- The decimal next to the number on the grid of multiples of `10 ^ k` that reads back as it. Of
two that are equally near the larger is taken, or the even one if `tieToEven` holds. -/
def onGrid? (x : Binary64) (tieToEven : Bool) (k : Int) : Option Decimal :=
  let (num, den) := x.fraction
  let (n, d) :=
    if 0 ≤ k then (num, den * Nat.pow 10 k.toNat) else (num * Nat.pow 10 (-k).toNat, den)
  let below : Decimal := ⟨n / d, k⟩
  let above : Decimal := ⟨n / d + 1, k⟩
  match x.readsBack below, x.readsBack above with
  | false, false => none
  | true, false => some below
  | false, true => some above
  | true, true =>
    if 2 * (n % d) < d then some below
    else if tieToEven ∧ 2 * (n % d) = d ∧ n / d % 2 = 0 then some below
    else some above

/-- All digits of the number. -/
def exact (x : Binary64) : Decimal :=
  if 0 ≤ x.exp then ⟨x.mant * Nat.pow 2 x.exp.toNat, 0⟩
  else ⟨x.mant * Nat.pow 5 (-x.exp).toNat, x.exp⟩

/-- The decimal of fewest digits that reads back as the number. -/
def shortest (x : Binary64) (tieToEven : Bool) : Decimal :=
  let (num, den) := x.fraction
  let e := leadingExponent num den
  let found := (List.range 17).findSome? fun (n : Nat) => x.onGrid? tieToEven (e - n)
  (found.getD x.exact).trimZeros

end Binary64

/-- How the text of a number is laid out. -/
structure DecimalStyle where
  /-- The least exponent of the first digit that is written without an exponent. -/
  minPositional : Int
  /-- The greatest exponent of the first digit that is written without an exponent. -/
  maxPositional : Int
  /-- Whether the even one of two equally near decimals is written, not the larger. -/
  tieToEven : Bool
  /-- What leads an exponent that is not negative. -/
  plus : List Char

namespace DecimalStyle

/-- Numbers in statements: no exponent from `1e-4` up to, but not including, `1e16`. -/
def literal : DecimalStyle := ⟨-4, 15, false, []⟩

/-- Numbers in JSON: no exponent from `1e-5` up to, but not including, `1e16`, and every exponent
has its sign. -/
def json : DecimalStyle := ⟨-5, 15, true, ['+']⟩

/-- The text of the digits of a positive decimal: a point has a digit on either side, an exponent
follows a mantissa of one digit before the point. -/
def digits (style : DecimalStyle) (d : Decimal) : List Char :=
  let ds := Nat.toDigits 10 d.digits
  let lead : Int := d.exp + ds.length - 1
  if style.minPositional ≤ lead ∧ lead ≤ style.maxPositional then
    if lead < 0 then
      ['0', '.'] ++ List.replicate (-lead - 1).toNat '0' ++ ds
    else
      let whole := lead.toNat + 1
      let fraction := ds.drop whole
      ds.take whole ++ List.replicate (whole - ds.length) '0' ++
        '.' :: (if fraction.isEmpty then ['0'] else fraction)
  else
    let mantissa := match ds with
      | c :: c' :: cs => c :: '.' :: c' :: cs
      | _ => ds
    let power := Nat.toDigits 10 lead.natAbs
    mantissa ++ 'e' :: (if lead < 0 then '-' :: power else style.plus ++ power)

/-- The text of a number. -/
def write (style : DecimalStyle) (x : Binary64) : String :=
  let body := if x.mant = 0 then ['0', '.', '0'] else style.digits (x.shortest style.tieToEven)
  String.ofList (if x.neg then '-' :: body else body)

end DecimalStyle
end ValidUsage
