import Rudb.Common.Value

/-! What the smallest and the largest value of a stretch of a column say about a comparison of the
column with a constant, without looking at a row. Embeds bounds.rs of rudb-common. -/
namespace Rudb.Common
open Option

/-- `Op`, written with the column on the left. -/
inductive Op where
  | equal | less | lessOrEqual | greater | greaterOrEqual
  deriving DecidableEq, Repr

/-- Whether an operator holds of two values in an order. -/
def Op.holds : Op → Ordering → Bool
  | equal, order => order = .eq
  | less, order => order = .lt
  | lessOrEqual, order => order ≠ .gt
  | greater, order => order = .gt
  | greaterOrEqual, order => order ≠ .lt

/-- `Bound`, a constant in a domain that can be ordered against a stored bound. A bound is only ever compared,
and of a double that asks for the number it stands for. -/
inductive Bound where
  | int (number : Int)
  | real (number : Option Int)
  | scaled (unscaled : Int) (scale : Nat)
  | bytes (bytes : Bytes)
  deriving DecidableEq

/-- `restated`, in `i128` arithmetic that is checked. -/
def restated (unscaled : Int) (scale into : Nat) : Option Int :=
  if scale ≤ into then do
    let ten ← wide (10 ^ (into - scale))
    wide (unscaled * ten)
  else do
    let factor ← wide (10 ^ (scale - into))
    if unscaled % factor = 0 then some (unscaled / factor) else none

/-- `MICROS`. -/
def micros : Nat := 6

/-- `scale_of`, for the types that hold an integer with a power of ten under it. -/
def scaleOf : LogicalType → Option Nat
  | .decimal _ scale => some scale
  | .whole .timestampS => some 0
  | .whole .timestampMs => some 3
  | .whole .time => some micros
  | .whole .timeTz => some micros
  | .whole .timestamp => some micros
  | .whole .timestampTz => some micros
  | .whole .timestampNs => some 9
  | .whole .timeNs => some 9
  | .whole .timestampTzNs => some 9
  | _ => none

namespace Bound

/-- `scaled_as`. -/
def scaledAs (bound : Bound) (ty : LogicalType) : Bound :=
  match bound, scaleOf ty with
  | int unscaled, some scale => scaled unscaled scale
  | bound, _ => bound

/-- `of_value`. -/
def ofValue : Value → Option Bound
  | .whole type number => do
    let number ← if type = .uHugeInt then wide number else some number
    return (int number).scaledAs (.whole type)
  | .float value => some (real value.widen.number)
  | .double value => some (real value.number)
  | .decimal unscaled _ scale => some (scaled unscaled scale)
  | .varchar text => some (bytes text)
  | .blob held => some (bytes held)
  | _ => none

/-- `order`, between two bounds of one domain. -/
def order : Bound → Bound → Option Ordering
  | int left, int right => some (cmp left right)
  -- `partial_cmp`
  | real left, real right => left.bind fun left => right.map (cmp left)
  | bytes left, bytes right => some (cmp left right)
  | scaled left one, scaled right other => do
    let left ← restated left one (max one other)
    let right ← restated right other (max one other)
    return cmp left right
  | _, _ => none

end Bound

/-- `holds`. -/
def holds (bound : Option Bound) (value : Bound) (wanted : List Ordering) : Bool :=
  ((bound.bind (·.order value)).map fun order => decide (order ∈ wanted)).getD false

/-- `excluded`: whether no value between two ends passes. -/
def excluded (op : Op) (value : Bound) (low high : Option Bound) : Bool :=
  match op with
  | .less => holds low value [.gt, .eq]
  | .lessOrEqual => holds low value [.gt]
  | .greater => holds high value [.lt, .eq]
  | .greaterOrEqual => holds high value [.lt]
  | .equal => holds low value [.gt] || holds high value [.lt]

/-- `certain`: whether every value between two ends passes. -/
def certain (op : Op) (value : Bound) (low high : Option Bound) : Bool :=
  match op with
  | .less => holds high value [.lt]
  | .lessOrEqual => holds high value [.lt, .eq]
  | .greater => holds low value [.gt]
  | .greaterOrEqual => holds low value [.gt, .eq]
  | .equal => holds low value [.eq] && holds high value [.eq]

theorem wide_eq (fits : wide number = some held) : held = number := by
  unfold wide at fits
  split at fits
  · exact (Option.some.inj fits).symm
  · cases fits

theorem restated_same (number : Int) (scale : Nat) : restated number scale scale = wide number := by
  simp [restated, wide]

theorem Bound.ofValue_whole
    (found : Bound.ofValue (.whole type number) = some bound) :
    bound = (Bound.int number).scaledAs (.whole type) ∧ (type = .uHugeInt → wide number = some number) := by
  by_cases huge : type = .uHugeInt
  · simp only [Bound.ofValue, huge, if_true] at found
    obtain ⟨held, fits, same⟩ := bind_eq_some_iff.mp found
    cases wide_eq fits
    exact ⟨by rw [huge]; exact (Option.some.inj same).symm, fun _ => fits⟩
  · simp only [Bound.ofValue, huge, if_false] at found
    exact ⟨(Option.some.inj found).symm, fun same => absurd same huge⟩

/-- Whether a constant of the type can have a bound that the ends of a column of it compare with. -/
def LogicalType.asked : LogicalType → Bool
  | .whole _ | .float | .double | .decimal .. | .varchar | .type | .json | .jsonb | .blob => true
  | _ => false

/-- The bounds of the domain of a type. -/
def Bound.In (ty : LogicalType) : Bound → Prop
  | .int _ => scaleOf ty = none ∧ ∃ type, ty = .whole type
  | .scaled unscaled scale => scaleOf ty = some scale ∧ wide unscaled = some unscaled
  | .real number => (ty = .float ∨ ty = .double) ∧ number.isSome
  | .bytes _ => ty ∈ [LogicalType.varchar, .type, .json, .jsonb, .blob]

/-- Where a bound stands among those of its domain. -/
def Bound.key : Bound → Int ⊕ₗ Int ⊕ₗ Bytes
  | .int number => Sum.inlₗ number
  | .scaled unscaled _ => Sum.inlₗ unscaled
  | .real number => Sum.inrₗ (Sum.inlₗ (number.getD 0))
  | .bytes held => Sum.inrₗ (Sum.inrₗ held)

theorem Bound.order_key {one : Bound} (left : one.In ty) (right : other.In ty) :
    one.order other = some (cmp one.key other.key) := by
  have inl {α β : Type} [LinearOrder α] [LinearOrder β] (one other : α) :
      cmp (Sum.inlₗ one : α ⊕ₗ β) (Sum.inlₗ other) = cmp one other := Sum.Lex.inl_strictMono.cmp_map_eq ..
  have inr {α β : Type} [LinearOrder α] [LinearOrder β] (one other : β) :
      cmp (Sum.inrₗ one : α ⊕ₗ β) (Sum.inrₗ other) = cmp one other := Sum.Lex.inr_strictMono.cmp_map_eq ..
  cases one <;> cases other <;> simp only [In] at left right
  case int.int => simp only [order, key, inl]
  case real.real one other =>
    obtain ⟨one, rfl⟩ := isSome_iff_exists.mp left.2
    obtain ⟨other, rfl⟩ := isSome_iff_exists.mp right.2
    simp [order, key, inl, inr]
  case scaled.scaled one scale other digits =>
    cases left.1.symm.trans right.1
    simp only [order, key, inl, max_self, restated_same, left.2, right.2]
    rfl
  case bytes.bytes =>
    simp only [order, key, inr]
    congr
  all_goals grind [scaleOf]

theorem Bound.In.asked {bound : Bound} (inside : bound.In ty) : ty.asked = true := by
  cases bound with
  | int =>
    obtain ⟨-, type, rfl⟩ := inside
    rfl
  | scaled unscaled scale =>
    have scaled := inside.1
    unfold scaleOf at scaled
    split at scaled <;> simp_all [LogicalType.asked]
  | real => rcases inside.1 with rfl | rfl <;> rfl
  | bytes =>
    simp only [In, List.mem_cons, List.not_mem_nil, or_false] at inside
    rcases inside with rfl | rfl | rfl | rfl | rfl <;> rfl

theorem Bound.scaledAs_in (fits : wide number = some number) :
    ((Bound.int number).scaledAs (.whole type)).In (.whole type) := by
  cases scale : scaleOf (.whole type) <;> simp [scaledAs, scale, In, fits]

/-- The bound of a value is one of its type's domain, but for a NaN. -/
theorem Bound.ofValue_in (fits : value.fits ty)
    (asked : ty.asked = true) (found : ofValue value = some bound) : bound.In ty ∨ bound = .real none := by
  cases value with
  | whole type number =>
    cases ty <;> simp only [Value.fits, Bool.and_eq_true, decide_eq_true_eq, Bool.false_eq_true] at fits
    obtain ⟨rfl, holds⟩ := fits
    obtain ⟨rfl, small⟩ := ofValue_whole found
    refine .inl (scaledAs_in ?_)
    by_cases huge : type = .uHugeInt
    · exact small huge
    · simp only [Whole.holds, huge, if_false] at holds
      obtain ⟨held, fits⟩ := isSome_iff_exists.mp holds
      rwa [wide_eq fits] at fits
  | decimal unscaled width scale =>
    cases ty <;> simp only [Value.fits, Bool.and_eq_true, decide_eq_true_eq, Bool.false_eq_true] at fits
    obtain ⟨⟨rfl, rfl⟩, holds⟩ := fits
    cases found
    obtain ⟨held, fits⟩ := isSome_iff_exists.mp holds
    exact .inl ⟨rfl, by rwa [wide_eq fits] at fits⟩
  | float value | double value =>
    cases ty <;> simp only [Value.fits, Bool.false_eq_true] at fits
    cases found
    simp only [In, true_or, or_true, true_and, real.injEq, ← not_isSome_iff_eq_none, em]
  | varchar text | blob text =>
    cases found
    cases ty <;> simp_all [Value.fits, In, LogicalType.asked]
  | _ => cases found

theorem Bound.scaledAs_key (number : Int) (ty : LogicalType) :
    ((Bound.int number).scaledAs ty).key = Sum.inlₗ number := by
  cases scale : scaleOf ty <;> simp [scaledAs, scale, key]

theorem Bound.ofValue_nan (found : ofValue value = some (.real none)) : value.isNan := by
  cases value with
  | whole type number =>
    obtain ⟨same, -⟩ := ofValue_whole found
    have key := scaledAs_key number (.whole type)
    rw [← same] at key
    cases key
  | float value | double value =>
    rw [ofValue, some.injEq, real.injEq] at found
    exact F64.number_eq_none.mp found
  | _ => cases found

end Rudb.Common
