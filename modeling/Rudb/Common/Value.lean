import Mathlib

/-! The values the engine computes with and the types of the columns that hold them: `Value` and
`LogicalType` of rudb-common. A float is its bits, so that the two zeros are told apart, and what is compared is
the number it stands for. -/
namespace Rudb.Common

/-- Bytes in the order of their numbers, so that lists of them have the order of `memcmp`. -/
instance byteOrder : LinearOrder UInt8 where
  le_refl byte := UInt8.le_refl byte
  le_trans _ _ _ := UInt8.le_trans
  lt_iff_le_not_ge one other := by
    simp only [UInt8.lt_iff_toNat_lt, UInt8.le_iff_toNat_le]
    omega
  le_antisymm _ _ := UInt8.le_antisymm
  le_total := UInt8.le_total
  toDecidableLE := inferInstance
  toDecidableLT := inferInstance
  toDecidableEq := inferInstance

abbrev Bytes := List UInt8

/-- `f64`, as its bits. -/
structure F64 where
  bits : UInt64
  deriving DecidableEq, Repr

namespace F64

/-- The bits without the sign. -/
def magnitude (value : F64) : Nat := value.bits.toNat % 2 ^ 63

def isNan (value : F64) : Prop := 0x7FF0000000000000 < value.magnitude

instance (value : F64) : Decidable value.isNan := inferInstanceAs (Decidable (_ < _))

/-- The absolute value a double has by its bits, in units of the least one. An infinity is the power of two
above every other. -/
def units (bits : Nat) : Nat :=
  if bits / 2 ^ 52 = 0 then bits else (2 ^ 52 + bits % 2 ^ 52) * 2 ^ (bits / 2 ^ 52 - 1)

/-- The number a double stands for, in units of the least one: one for the two zeros and none for a NaN. -/
def number (value : F64) : Option Int :=
  if value.isNan then none
  else some (if value.bits.toNat < 2 ^ 63 then units value.magnitude else -units value.magnitude)

theorem units_strictMono : StrictMono units := by
  refine strictMono_nat_of_lt_succ fun bits => ?_
  unfold units
  by_cases carries : (bits + 1) % 2 ^ 52 = 0
  · have next : (bits + 1) / 2 ^ 52 = bits / 2 ^ 52 + 1 := by omega
    rw [next, carries, if_neg (Nat.succ_ne_zero _)]
    split
    · rename_i zero
      rw [zero]
      omega
    · rename_i some_
      obtain ⟨more, is⟩ := Nat.exists_eq_succ_of_ne_zero some_
      rw [is]
      simp only [Nat.succ_eq_add_one, Nat.add_sub_cancel, pow_succ 2 more]
      have last : bits % 2 ^ 52 = 2 ^ 52 - 1 := by omega
      have positive : 0 < 2 ^ more := by positivity
      rw [last]
      omega
  · have same : (bits + 1) / 2 ^ 52 = bits / 2 ^ 52 := by omega
    rw [same]
    split
    · omega
    · exact Nat.mul_lt_mul_of_pos_right (by omega) (by positivity)

/-- Doubles that stand for one number are one double, but for the two zeros. -/
theorem number_inj {one other : F64} (same : one.number = other.number) (some_ : ¬one.isNan) (more : ¬other.isNan) :
    one = other ∨ one.magnitude = 0 ∧ other.magnitude = 0 := by
  have above {bits : Nat} : 0 < units bits ↔ 0 < bits := units_strictMono.lt_iff_lt (a := 0)
  have inj : units one.magnitude = units other.magnitude → one.magnitude = other.magnitude :=
    fun is => units_strictMono.injective is
  have first := @above one.magnitude
  have second := @above other.magnitude
  have bits (is : one.bits.toNat = other.bits.toNat) : one = other := by
    cases one
    cases other
    exact congrArg mk (UInt64.toNat_inj.mp is)
  rw [number, number, if_neg some_, if_neg more, Option.some.injEq] at same
  unfold magnitude at *
  have small := one.bits.toNat_lt
  have small' := other.bits.toNat_lt
  by_cases zero : one.bits.toNat % 2 ^ 63 = 0 ∧ other.bits.toNat % 2 ^ 63 = 0
  · exact .inr zero
  · refine .inl (bits ?_)
    split_ifs at same <;> omega

theorem number_eq_none {value : F64} : value.number = none ↔ value.isNan := by
  unfold number
  split <;> simp_all

/-- `==` of two doubles. -/
def eq (one other : F64) : Bool := one.number.isSome && one.number = other.number

end F64

/-- `f32`, as its bits. -/
structure F32 where
  bits : UInt32
  deriving DecidableEq, Repr

/-- `f64::from` of an `f32`. A number below the least normal `f32` is normal as a double. -/
@[irreducible] def F32.widen (value : F32) : F64 :=
  let sign := value.bits.toNat / 2 ^ 31
  let exponent := value.bits.toNat / 2 ^ 23 % 2 ^ 8
  let fraction := value.bits.toNat % 2 ^ 23
  let (exponent, fraction) :=
    if exponent = 255 then (2047, fraction)
    else if exponent ≠ 0 then (exponent + 896, fraction)
    else if fraction = 0 then (0, 0)
    else (fraction.log2 + 874, fraction * 2 ^ (23 - fraction.log2) - 2 ^ 23)
  ⟨UInt64.ofNat (sign * 2 ^ 63 + exponent * 2 ^ 52 + fraction * 2 ^ 29)⟩

/-- `float_order` of compare.rs: a NaN is above every number and equal to itself. -/
def floatOrder : Option Int → Option Int → Ordering
  | none, none => .eq
  | none, some _ => .gt
  | some _, none => .lt
  | some left, some right => cmp left right

/-- What an `i128` holds. -/
def wide (number : Int) : Option Int :=
  if -2 ^ 127 ≤ number ∧ number < 2 ^ 127 then some number else none

/-- The types whose values are one integer each. -/
inductive Whole where
  | boolean | tinyInt | smallInt | integer | bigInt | hugeInt
  | uTinyInt | uSmallInt | uInteger | uBigInt | uHugeInt
  | uuid | date | time | timeTz | timeNs
  | timestamp | timestampTz | timestampS | timestampMs | timestampNs | timestampTzNs
  deriving DecidableEq, Repr

/-- The integers a type can hold: those of an `i128`, but for the one type without a sign at that
width. -/
def Whole.holds (type : Whole) (number : Int) : Bool :=
  if type = .uHugeInt then decide (0 ≤ number ∧ number < 2 ^ 128) else (wide number).isSome

/-- The arms of `Value` that hold other values. -/
inductive Nested where
  | list | struct | map | union
  deriving DecidableEq, Repr

/-- `LogicalType`, a nested one without the types inside it. The values of an array are lists, and so is its
type here. -/
inductive LogicalType where
  | null
  | whole (type : Whole)
  | float
  | double
  | decimal (width scale : Nat)
  | varchar | blob | bit | bigNum | numeric | variant | type | json | jsonb
  | interval
  | enum (labels : List Bytes)
  | nested (kind : Nested)
  deriving DecidableEq, Repr

/-- A part of a nested value: a float in it, as a double, or the bytes of all else up to the next one, its
types, names and tags among them. -/
inductive Part where
  | float (value : F64)
  | other (bytes : Bytes)
  deriving DecidableEq

/-- `Value`. Text is its bytes, and a nested value its parts in order. -/
inductive Value where
  | null
  | whole (type : Whole) (number : Int)
  | float (value : F32)
  | double (value : F64)
  | decimal (unscaled : Int) (width scale : Nat)
  | varchar (text : Bytes)
  | blob (bytes : Bytes)
  | bit (bytes : Bytes)
  | bigNum (bytes : Bytes)
  | numeric (bytes : Bytes)
  | variant (bytes : Bytes)
  | interval (months days micros : Int)
  | nested (kind : Nested) (parts : List Part)
  deriving DecidableEq

/-- `numeric::key`: the bytes of a `numeric` less its display scale. -/
def numericKey (bytes : Bytes) : Bytes := bytes.take (bytes.length - 2)

namespace Value

/-- `is_null`. -/
def isNull : Value → Bool
  | null => true
  | _ => false

def isNan : Value → Prop
  | float value => value.widen.isNan
  | double value => value.isNan
  | _ => False

/-- Whether a value is one a column of the type holds. The value of an enum is its label, and the
values of a `JSON` or a `TYPE` column are text. -/
def fits : Value → LogicalType → Bool
  | null, _ => true
  | whole one number, .whole other => one = other && one.holds number
  | float _, .float => true
  | double _, .double => true
  | decimal unscaled width scale, .decimal at_ digits =>
    width = at_ && scale = digits && (wide unscaled).isSome
  | varchar _, .varchar => true
  | varchar _, .type => true
  | varchar _, .json => true
  | varchar _, .jsonb => true
  | varchar text, .enum labels => labels.contains text
  | blob _, .blob => true
  | bit _, .bit => true
  | bigNum _, .bigNum => true
  | numeric _, .numeric => true
  | variant _, .variant => true
  | interval .., .interval => true
  | nested one _, .nested other => one = other
  | _, _ => false

@[simp] theorem isNull_iff : value.isNull = true ↔ value = null := by
  cases value <;> simp [isNull]

end Value
end Rudb.Common
