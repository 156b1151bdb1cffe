import Mathlib.Data.List.DropRight
import Rudb.Lib.LongDivision

/-! `numeric`: a sign, the power of 10000 of the first digit, a display scale and digits of 10000,
with the arithmetic on them. Embeds numeric.rs of rudb-pgtypes. -/
namespace Rudb.Pgtypes
open Rudb.Lib

/-- `NBASE`. -/
def nbase : ℤ := 10000

/-- `HALF_NBASE`. -/
def halfNbase : ℤ := 5000

/-- `DEC_DIGITS`. -/
def decDigits : ℤ := 4

/-- `DSCALE_MAX`, the largest display scale that the format can hold. -/
def dscaleMax : ℤ := 16383

/-- `ROUND_POWERS`. -/
def roundPowers : List ℤ := [0, 1000, 100, 10]

/-- `MIN_SIG_DIGITS`, the fewest significant digits that a quotient has. -/
def minSigDigits : ℤ := 16

inductive SqlState where
  | numericValueOutOfRange
  | divisionByZero
  deriving DecidableEq

/-- `TypeError`. -/
structure TypeError where
  state : SqlState
  message : String
  deriving DecidableEq

/-- `overflow`. -/
def overflow : TypeError := ⟨.numericValueOutOfRange, "value overflows numeric format"⟩

/-- `division_by_zero`. -/
def divisionByZero : TypeError := ⟨.divisionByZero, "division by zero"⟩

/-- `NumericSign`, which also marks the special values. -/
inductive NumericSign where
  | positive
  | negative
  | nan
  | infinity
  | negativeInfinity
  deriving DecidableEq

namespace NumericSign

/-- `is_finite`. -/
def isFinite : NumericSign → Bool
  | positive | negative => true
  | _ => false

/-- `flip`: the other sign of a finite value. -/
def flip : NumericSign → NumericSign
  | positive => negative
  | negative => positive
  | sign => sign

/-- The sign of a product or a quotient. -/
def times (one other : NumericSign) : NumericSign := if one = other then positive else negative

end NumericSign

/-- `Numeric`: a value as it is stored. -/
structure Numeric where
  sign : NumericSign
  weight : ℤ
  dscale : ℤ
  digits : List ℤ
  deriving DecidableEq

/-- `Numeric::special`. -/
def Numeric.special (sign : NumericSign) : Numeric := ⟨sign, 0, 0, []⟩

/-- `Var`: the working form, whose weight and scale can go out of the range of the format. -/
structure Var where
  sign : NumericSign
  weight : ℤ
  dscale : ℤ
  digits : List ℤ
  deriving DecidableEq

/-- `Var::from`. -/
def Numeric.toVar (value : Numeric) : Var := ⟨value.sign, value.weight, value.dscale, value.digits⟩

namespace Var

/-- `strip`. -/
def strip (value : Var) : Var :=
  let lead := (value.digits.takeWhile (· = 0)).length
  let digits := (value.digits.drop lead).rdropWhile (· = 0)
  if digits = [] then { value with sign := .positive, weight := 0, digits }
  else { value with weight := value.weight - lead, digits }

/-- The loop of `round` that carries into the digits before an index, and a new first digit where it gets past them. -/
def carryUp : (index : Nat) → (carry : ℤ) → (weight : ℤ) → (digits : List ℤ) → ℤ × List ℤ
  | 0, carry, weight, digits => if carry = 0 then (weight, digits) else (weight + 1, carry :: digits)
  | index + 1, carry, weight, digits =>
    if carry = 0 then (weight, digits)
    else if digits.getD index 0 + carry ≥ nbase then carryUp index 1 weight
      (digits.set index (digits.getD index 0 + carry - nbase))
    else carryUp index 0 weight (digits.set index (digits.getD index 0 + carry))

/-- Rounding inside the digit at an index: the carry out of it and the digits. -/
def roundInside (digits : List ℤ) (index : Nat) (power : ℤ) : ℤ × List ℤ :=
  let extra := digits.getD index 0 % power
  let down := digits.getD index 0 - extra
  if extra ≥ power / 2 then
    if down + power ≥ nbase then (1, digits.set index (down + power - nbase)) else (0, digits.set index (down + power))
  else (0, digits.set index down)

/-- `round`: half away from zero to a scale. -/
def round (value : Var) (rscale : ℤ) : Var :=
  let di := (value.weight + 1) * decDigits + rscale
  if di < 0 then ⟨.positive, 0, rscale, []⟩
  else
    let n := ((di + decDigits - 1) / decDigits).toNat
    let di := (di % decDigits).toNat
    if n > value.digits.length ∨ (n = value.digits.length ∧ di = 0) then { value with dscale := rscale }
    else if di = 0 then
      let carry := if value.digits.getD n 0 ≥ halfNbase then 1 else 0
      let (weight, digits) := carryUp n carry value.weight (value.digits.take n)
      ⟨value.sign, weight, rscale, digits⟩
    else
      let (carry, digits) := roundInside value.digits (n - 1) (roundPowers.getD di 0)
      let (weight, digits) := carryUp (n - 1) carry value.weight (digits.take n)
      ⟨value.sign, weight, rscale, digits⟩

/-- `trunc`: the digits after a scale dropped. -/
def trunc (value : Var) (rscale : ℤ) : Var :=
  let di := (value.weight + 1) * decDigits + rscale
  if di ≤ 0 then ⟨.positive, 0, rscale, []⟩
  else
    let n := ((di + decDigits - 1) / decDigits).toNat
    if n ≤ value.digits.length then
      let digits := value.digits.take n
      let di := (di % decDigits).toNat
      if di > 0 then
        { value with
          dscale := rscale
          digits := digits.set (n - 1) (digits.getD (n - 1) 0 - digits.getD (n - 1) 0 % roundPowers.getD di 0) }
      else { value with dscale := rscale, digits }
    else { value with dscale := rscale }

/-- `make`: strips the zeros and checks that the weight and the scale fit the format. -/
def make (value : Var) : Except TypeError Numeric :=
  if !value.sign.isFinite then .ok (Numeric.special value.sign)
  else
    let value := value.strip
    if -32768 ≤ value.weight ∧ value.weight ≤ 32767 ∧ 0 ≤ value.dscale ∧ value.dscale ≤ 65535 ∧
      value.dscale ≤ dscaleMax then
      .ok ⟨value.sign, value.weight, value.dscale, value.digits⟩
    else .error overflow

/-- `digit`: the digit with a power of 10000, which is 0 outside the digits. -/
def digit (value : Var) (weight : ℤ) : ℤ :=
  if weight ≤ value.weight then value.digits.getD (value.weight - weight).toNat 0 else 0

/-- `low`: the power of 10000 of the last digit. -/
def low (value : Var) : ℤ := value.weight + 1 - value.digits.length

/-- The digits with the powers from one down to another. -/
def window (value : Var) (high low : ℤ) : List ℤ :=
  (List.range (high - low + 1).toNat).map fun index : Nat => value.digit (high - index)

/-- The first difference of two lists of digits. -/
def firstOrder : (one other : List ℤ) → Ordering
  | first :: one, second :: other => (compare first second).then (firstOrder one other)
  | _, _ => .eq

/-- `cmp_abs`. -/
def cmpAbs (one other : Var) : Ordering :=
  let high := max one.weight other.weight
  let low := min one.low other.low
  firstOrder (one.window high low) (other.window high low)

/-- The loop of `add_abs`, from the last digit on: what is carried out and the digits. -/
def addDigits (subtract : Bool) : (one other : List ℤ) → ℤ × List ℤ
  | first :: one, second :: other =>
    let (carry, digits) := addDigits subtract one other
    let digit := first + carry + if subtract then -second else second
    if digit ≥ nbase then (1, (digit - nbase) :: digits)
    else if digit < 0 then (-1, (digit + nbase) :: digits)
    else (0, digit :: digits)
  | _, _ => (0, [])

/-- `add_abs`: the sum of the two magnitudes or the difference. -/
def addAbs (one other : Var) (subtract : Bool) (sign : NumericSign) : Var :=
  let weight := max one.weight other.weight + 1
  let low := min one.low other.low
  let digits := (addDigits subtract (one.window weight low) (other.window weight low)).2
  strip ⟨sign, weight, max one.dscale other.dscale, digits⟩

/-- `add`. -/
def add (one other : Var) : Var :=
  if one.sign = other.sign then one.addAbs other false one.sign
  else
    match one.cmpAbs other with
    | .lt => other.addAbs one true other.sign
    | _ => one.addAbs other true one.sign

/-- The products of one digit with the digits of the other side, each added to the place of its power. -/
def mulRow (digit : ℤ) (place : Nat) (others : List ℤ) (slots : List ℤ) : List ℤ :=
  others.zipIdx.foldl (fun slots other => slots.modify (place + other.2 + 1) (· + digit * other.1)) slots

/-- `mul`: the exact product. -/
def mul (one other : Var) : Var :=
  if one.digits = [] ∨ other.digits = [] then ⟨.positive, 0, 0, []⟩
  else
    let slots := one.digits.zipIdx.foldl (fun slots digit => mulRow digit.1 digit.2 other.digits slots)
      (List.replicate (one.digits.length + other.digits.length) 0)
    strip ⟨one.sign.times other.sign, one.weight + other.weight + 1, one.dscale + other.dscale, (carried nbase slots).2⟩

/-- `divide`: the integer quotient of two numbers in base 10000 by long division. -/
def divide (dividend divisor : List ℤ) : List ℤ := longDivide nbase dividend divisor

/-- The digits of the dividend with as many zeros behind them as the quotient needs, or cut where it needs fewer. -/
def shifted (digits : List ℤ) (shift : ℤ) : List ℤ :=
  if shift ≥ 0 then digits ++ List.replicate shift.toNat 0 else digits.take (digits.length - (-shift).toNat)

/-- `div`: the quotient to a scale, rounded half away from zero or cut. -/
def div (one other : Var) (rscale : ℤ) (rounded : Bool) : Var :=
  let low := -((rscale + decDigits - 1) / decDigits + 1)
  let quotient := divide (shifted one.digits (one.low - other.low - low)) other.digits
  let value := strip ⟨one.sign.times other.sign, low + quotient.length - 1, rscale, quotient⟩
  let value := if rounded then value.round rscale else value.trunc rscale
  value.strip

/-- `modulo`: the remainder of the quotient cut to an integer. -/
def modulo (one other : Var) : Var :=
  let product := other.mul (one.div other 0 false)
  let product := { product with dscale := other.dscale }
  one.add (if product.digits = [] then product else { product with sign := product.sign.flip })

/-- The loop of `gcd`, with as many rounds as are given; none when they do not suffice. -/
def gcdLoop : (rounds : Nat) → (one other : Var) → Option Var
  | 0, _, _ => none
  | rounds + 1, one, other =>
    let rest := one.modulo other
    if rest.digits = [] then some other else gcdLoop rounds other rest

/-- `gcd`: the algorithm of Euclid, with the larger display scale of the two. -/
def gcd (rounds : Nat) (one other : Var) : Option Var :=
  let (larger, smaller) := if one.cmpAbs other = .lt then (other, one) else (one, other)
  let found :=
    if smaller.digits ≠ [] ∧ larger.cmpAbs smaller ≠ .eq then gcdLoop rounds larger smaller else some larger
  found.map fun value => { value with sign := .positive, dscale := max one.dscale other.dscale }

/-- The power and the value of the first digit that is not zero. -/
def firstDigit (value : Var) : ℤ × ℤ :=
  match value.digits.findIdx? (· ≠ 0) with
  | some index => (value.weight - index, value.digits.getD index 0)
  | none => (0, 0)

/-- `select_div_scale`: digits enough after the point for 16 significant ones, and no fewer than either side shows. -/
def selectDivScale (one other : Var) : ℤ :=
  let qweight := one.firstDigit.1 - other.firstDigit.1
  let qweight := if one.firstDigit.2 ≤ other.firstDigit.2 then qweight - 1 else qweight
  let rscale := minSigDigits - qweight * decDigits
  min (max (max (max rscale one.dscale) other.dscale) 0) 1000

end Var

namespace Numeric

/-- `negate`. -/
def negate (value : Numeric) : Numeric :=
  let sign : NumericSign :=
    match value.sign with
    | .positive => if value.digits = [] then .positive else .negative
    | .negative => .positive
    | .infinity => .negativeInfinity
    | .negativeInfinity => .infinity
    | .nan => .nan
  { value with sign }

/-- `special_sum`: the sum when one side is not a finite number. -/
def specialSum (one other : NumericSign) : Option Numeric :=
  if one.isFinite && other.isFinite then none
  else if one = .nan ∨ other = .nan then some (special .nan)
  else if (one = .infinity ∧ other = .negativeInfinity) ∨
    (one = .negativeInfinity ∧ other = .infinity) then some (special .nan)
  else if one = .infinity ∨ other = .infinity then some (special .infinity)
  else some (special .negativeInfinity)

/-- `add`. -/
def add (one other : Numeric) : Except TypeError Numeric :=
  match specialSum one.sign other.sign with
  | some value => .ok value
  | none => (one.toVar.add other.toVar).make

/-- `sub`. -/
def sub (one other : Numeric) : Except TypeError Numeric := one.add other.negate

/-- `mul`: the display scale is the sum of the two, as far as the format holds it. -/
def mul (one other : Numeric) : Except TypeError Numeric :=
  if !one.sign.isFinite || !other.sign.isFinite then
    if one.sign = .nan ∨ other.sign = .nan then .ok (special .nan)
    else if (one.sign.isFinite ∧ one.digits = []) ∨ (other.sign.isFinite ∧ other.digits = []) then .ok (special .nan)
    else
      let negative (sign : NumericSign) : Bool := sign = .negative || sign = .negativeInfinity
      .ok (special (if negative one.sign ≠ negative other.sign then .negativeInfinity else .infinity))
  else ((one.toVar.mul other.toVar).round (min (one.dscale + other.dscale) dscaleMax)).make

/-- `div`. -/
def div (one other : Numeric) : Except TypeError Numeric :=
  if !one.sign.isFinite || !other.sign.isFinite then
    if one.sign = .nan ∨ other.sign = .nan then .ok (special .nan)
    else if one.sign.isFinite then .ok ⟨.positive, 0, 0, []⟩
    else if !other.sign.isFinite then .ok (special .nan)
    else if other.digits = [] then .error divisionByZero
    else .ok (special (if (one.sign = .negativeInfinity) ≠ (other.sign = .negative) then .negativeInfinity
      else .infinity))
  else if other.digits = [] then .error divisionByZero
  else (one.toVar.div other.toVar (one.toVar.selectDivScale other.toVar) true).make

/-- `modulo`. -/
def modulo (one other : Numeric) : Except TypeError Numeric :=
  if !one.sign.isFinite || !other.sign.isFinite then
    if one.sign = .nan ∨ other.sign = .nan ∨ one.sign.isFinite = false then .ok (special .nan) else .ok one
  else if other.digits = [] then .error divisionByZero
  else (one.toVar.modulo other.toVar).make

/-- `gcd`, with as many rounds as are given. -/
def gcd (rounds : Nat) (one other : Numeric) : Option (Except TypeError Numeric) :=
  if !one.sign.isFinite || !other.sign.isFinite then some (.ok (special .nan))
  else (one.toVar.gcd rounds other.toVar).map Var.make

end Numeric

end Rudb.Pgtypes
