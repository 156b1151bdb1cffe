import Mathlib.Data.Int.Log
import Mathlib.Data.Rat.Floor
import Rudb.Common.Bounds

/-! How the engine orders two values: integers exactly across their widths, floats with a NaN
above every number and equal to itself, and numbers of different kinds through the doubles nearest
to them. Embeds compare.rs of rudb-kernels. -/
namespace Rudb.Kernels
open Rudb.Common Option Bool

/-- The types that `integral` reads. The other integers are times, dates and identifiers. -/
def counts : Whole → Bool
  | .boolean | .tinyInt | .smallInt | .integer | .bigInt | .hugeInt => true
  | .uTinyInt | .uSmallInt | .uInteger | .uBigInt | .uHugeInt => true
  | _ => false

/-- `integral`. -/
def integral : Value → Option Int
  | .whole type number => if counts type then (if type = .uHugeInt then wide number else some number) else none
  | _ => none

/-- A rational rounded to an integer, a half to the even one. -/
def roundEven (number : ℚ) : Int :=
  if number - ⌊number⌋ < 1 / 2 then ⌊number⌋
  else if 1 / 2 < number - ⌊number⌋ then ⌊number⌋ + 1
  else if ⌊number⌋ % 2 = 0 then ⌊number⌋ else ⌊number⌋ + 1

/-- The double nearest to a number of the sizes an integer or a decimal has: 53 bits of it, in units of the
least double. -/
def nearest (number : ℚ) : Int :=
  let exponent := Int.log 2 |number|
  roundEven (number / 2 ^ (exponent - 52)) * (2 : Int) ^ (exponent - 52 + 1074).toNat

/-- `approximate`, as the number of the double it answers. -/
def approximate : Value → Option (Option Int)
  | .float value => some value.widen.number
  | .double value => some value.number
  | .decimal unscaled _ scale => some (nearest (unscaled / 10 ^ scale))
  | .whole type number => if counts type then some (nearest number) else none
  | _ => none

/-- `numeric_order`. -/
def numericOrder (left right : Value) : Option Ordering :=
  match integral left, integral right with
  | some left, some right => some (cmp left right)
  | _, _ =>
    match left, right with
    | .decimal one _ scale, .decimal other _ digits =>
      if scale = digits then some (cmp one other)
      else (approximate left).bind fun left => (approximate right).map (floatOrder left)
    | _, _ => (approximate left).bind fun left => (approximate right).map (floatOrder left)

/-- `order`, and `none` where it is an error. `rest` orders two values of a type no bound is taken
of: bits, variants, numerics, intervals and nested values. -/
def order (rest : Value → Value → Option Ordering) (left right : Value) : Option Ordering :=
  match left, right with
  | .null, _ => none
  | _, .null => none
  | .varchar left, .varchar right => some (cmp left right)
  | .blob left, .blob right => some (cmp left right)
  | .bigNum left, .bigNum right => some (cmp left right)
  | .bit one, .bit other => rest (.bit one) (.bit other)
  | .variant one, .variant other => rest (.variant one) (.variant other)
  | .numeric one, .numeric other => rest (.numeric one) (.numeric other)
  | .interval one days micros, .interval other ends parts =>
    rest (.interval one days micros) (.interval other ends parts)
  | .nested kind one, .nested kind' other => rest (.nested kind one) (.nested kind' other)
  | .whole one left, .whole other right =>
    if one = other ∧ ¬counts one then some (cmp left right)
    else numericOrder (.whole one left) (.whole other right)
  | left, right => numericOrder left right

/-- `enum_place`. -/
def enumPlace (ty : LogicalType) (value : Value) : Option Nat :=
  match ty, value with
  | .enum labels, .varchar label => labels.findIdx? (· == label)
  | _, _ => none

/-- `order_as`: an enum has the order of its labels in the type. -/
def orderAs (rest : Value → Value → Option Ordering) (ty : LogicalType) (left right : Value) : Option Ordering :=
  match enumPlace ty left, enumPlace ty right with
  | some left, some right => some (cmp left right)
  | _, _ => order rest left right

/-- Whether a row passes `column op constant`: a comparison with a null is null and keeps no row. -/
def passes (rest : Value → Value → Option Ordering) (ty : LogicalType) (op : Op) (value constant : Value) : Bool :=
  ((orderAs rest ty value constant).map op.holds).getD false

theorem orderAs_null (rest : Value → Value → Option Ordering) (ty : LogicalType) (value : Value) :
    orderAs rest ty .null value = none ∧ orderAs rest ty value .null = none := by
  have place : enumPlace ty .null = none := by cases ty <;> rfl
  constructor
  · simp [orderAs, place, order]
  · cases value <;> simp [orderAs, place, order]

theorem order_scaled
    (ordered : (Bound.scaled left scale).order (.scaled right scale) = some result) : cmp left right = result := by
  simp only [Bound.order, max_self, restated_same] at ordered
  obtain ⟨one, first, ordered⟩ := bind_eq_some_iff.mp ordered
  obtain ⟨other, second, ordered⟩ := bind_eq_some_iff.mp ordered
  rw [wide_eq first, wide_eq second] at ordered
  exact Option.some.inj ordered

theorem order_scaledAs
    (ordered : ((Bound.int left).scaledAs ty).order ((Bound.int right).scaledAs ty) = some result) :
    cmp left right = result := by
  cases scale : scaleOf ty with
  | none =>
    simp only [Bound.scaledAs, scale, Bound.order] at ordered
    exact Option.some.inj ordered
  | some scale' =>
    simp only [Bound.scaledAs, scale] at ordered
    exact order_scaled ordered

theorem integral_whole (count : counts type = true)
    (fits : type = .uHugeInt → wide number = some number) : integral (.whole type number) = some number := by
  simp only [integral, count, if_true]
  split
  · exact fits ‹_›
  · rfl

section
variable (rest : Value → Value → Option Ordering)

theorem order_whole (first : Bound.ofValue (.whole type left) = some one)
    (second : Bound.ofValue (.whole type right) = some other) (ordered : one.order other = some result) :
    order rest (.whole type left) (.whole type right) = some result := by
  obtain ⟨rfl, small⟩ := Bound.ofValue_whole first
  obtain ⟨rfl, little⟩ := Bound.ofValue_whole second
  rw [← order_scaledAs ordered]
  by_cases count : counts type = true
  · simp [order, count, numericOrder, integral_whole count small, integral_whole count little]
  · simp [order, count]

/-- The order of two values of one type is the order of their bounds, when these have one. -/
theorem order_of_bounds (left : value.fits ty) (right : constant.fits ty)
    (first : Bound.ofValue value = some one) (second : Bound.ofValue constant = some other)
    (ordered : one.order other = some result) : order rest value constant = some result := by
  cases value with
  | whole type number =>
    cases ty <;> simp only [Value.fits, and_eq_true, decide_eq_true_eq, false_eq_true] at left
    cases constant <;> simp only [Value.fits, and_eq_true, decide_eq_true_eq, false_eq_true] at right <;>
      try cases second
    obtain ⟨rfl, -⟩ := left
    obtain ⟨rfl, -⟩ := right
    exact order_whole rest first second ordered
  | decimal unscaled width scale =>
    cases ty <;> simp only [Value.fits, and_eq_true, decide_eq_true_eq, false_eq_true] at left
    cases constant <;> simp only [Value.fits, and_eq_true, decide_eq_true_eq, false_eq_true] at right <;>
      try cases second
    cases first
    obtain ⟨⟨-, rfl⟩, -⟩ := left
    obtain ⟨⟨-, rfl⟩, -⟩ := right
    simp [order, numericOrder, integral, order_scaled ordered]
  | float number | double number =>
    cases ty <;> simp only [Value.fits, false_eq_true] at left
    cases constant <;> simp only [Value.fits, false_eq_true] at right <;> try cases second
    cases first
    obtain ⟨one, is, ordered⟩ := bind_eq_some_iff.mp ordered
    obtain ⟨other, is', rfl⟩ := map_eq_some_iff.mp ordered
    simp [order, numericOrder, integral, approximate, is, is', floatOrder]
  | varchar text =>
    obtain ⟨held, rfl⟩ : ∃ held, constant = .varchar held := by
      cases ty <;> cases constant <;> simp_all [Value.fits, Bound.ofValue]
    cases first
    cases second
    exact ordered
  | blob bytes =>
    obtain ⟨held, rfl⟩ : ∃ held, constant = .blob held := by
      cases ty <;> cases constant <;> simp_all [Value.fits, Bound.ofValue]
    cases first
    cases second
    exact ordered
  | _ => cases first

end

end Rudb.Kernels
