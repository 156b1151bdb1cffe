import Rudb.Pgtypes.NumericAdd
import Rudb.Pgtypes.NumericMul

/-! Quotients of `numeric` values rounded at a scale, and remainders, which are exact. -/
namespace Rudb.Pgtypes
open Rudb.Lib List

section Floor
variable {number : ℚ} {unit : ℤ}

/-- Cutting at a finer unit first changes no cut. -/
theorem floor_floor (positive : 0 < unit) : ⌊(⌊number * unit⌋ : ℚ) / unit⌋ = ⌊number⌋ := by
  rw [Var.floor_div positive, Int.mul_cast_floor_div_cancel_of_pos positive]

/-- Cutting at a finer even unit first changes no rounding. -/
theorem floor_floor_half {half : ℤ} (even : unit = 2 * half) (positive : 0 < half) :
    ⌊(⌊number * unit⌋ : ℚ) / unit + 1 / 2⌋ = ⌊number + 1 / 2⌋ := by
  have shifted : (⌊number * unit⌋ : ℚ) / unit + 1 / 2 = (⌊(number + 1 / 2) * unit⌋ : ℚ) / unit := by
    have : (number + 1 / 2) * unit = number * unit + half := by
      rw [even]
      push_cast
      ring
    rw [this, Int.floor_add_intCast, even]
    push_cast
    field_simp
  rw [shifted, floor_floor (by omega)]

end Floor

namespace Var
variable {digits : List ℤ}

section
variable (digits_ : Digits nbase digits)
include digits_

theorem digits_shifted : Digits nbase (shifted digits shift) := by
  unfold shifted
  split
  · refine digits_append.mpr ⟨digits_, fun place member => ?_⟩
    rw [eq_of_mem_replicate member]
    decide
  · exact digits_.sublist (take_sublist _ _)

/-- The quotient of the digits shifted is the quotient at the shifted power, cut. -/
theorem shifted_div {divisor : ℤ} (positive : 0 < divisor) :
    ofPlaces nbase (shifted digits shift) / divisor = ⌊(ofPlaces nbase digits : ℚ) / divisor * 10000 ^ shift⌋ := by
  have power_pos (count : Nat) : 0 < nbase ^ count := pow_pos nbase_pos _
  unfold shifted
  split
  · obtain ⟨count, rfl⟩ : ∃ count : Nat, shift = count := ⟨shift.toNat, by omega⟩
    rw [Int.toNat_natCast, ofPlaces_append, ofPlaces_zeros, length_replicate, ← floor_div positive, zpow_natCast]
    congr 1
    push_cast
    rw [cast_nbase]
    ring
  obtain ⟨count, rfl⟩ : ∃ count : Nat, shift = -count := ⟨(-shift).toNat, by omega⟩
  rw [neg_neg, Int.toNat_natCast, ofPlaces_take_div digits_, Int.ediv_ediv_of_nonneg (power_pos count).le,
    ← floor_div (mul_pos (power_pos count) positive), zpow_neg, zpow_natCast]
  congr 1
  push_cast
  rw [cast_nbase]
  field_simp

end

/-- A magnitude cut at a power of 10000 below a scale, in units of the scale. -/
theorem cut_scaled {magnitude : ℚ} {low : ℤ} {count : Nat} (below : 4 * low + rscale = -count) :
    (⌊magnitude * 10000 ^ (-low)⌋ : ℚ) * 10000 ^ low * 10 ^ rscale =
      (⌊magnitude * 10 ^ rscale * ((10 ^ count : ℤ) : ℚ)⌋ : ℚ) / ((10 ^ count : ℤ) : ℚ) := by
  have finer : magnitude * 10 ^ rscale * ((10 ^ count : ℤ) : ℚ) = magnitude * 10000 ^ (-low) := by
    push_cast
    rw [mul_assoc, ← zpow_natCast, ← zpow_add₀ (by norm_num), power_eq]
    congr 2
    omega
  have unit : (10000 : ℚ) ^ low * 10 ^ rscale = (((10 ^ count : ℤ) : ℚ))⁻¹ := by
    push_cast
    rw [power_eq, ← zpow_add₀ (by norm_num), below, zpow_neg, zpow_natCast]
  rw [finer, mul_assoc, unit, div_eq_mul_inv]

/-- The quotient of two values without their signs, in units of a power of 10000. -/
theorem quotient_scaled {one other : Var} {low : ℤ} : one.magnitude / other.magnitude * 10000 ^ (-low) =
      (ofPlaces nbase one.digits : ℚ) / ofPlaces nbase other.digits * 10000 ^ (one.low - other.low - low) := by
  rw [magnitude, magnitude, show one.low - other.low - low = one.low + -other.low + -low by ring,
    zpow_add₀ (by norm_num),
    zpow_add₀ (by norm_num), zpow_neg _ other.low]
  field_simp

theorem value_div {one other : Var} (sound_other : other.Sound) :
    one.value / other.value = ((one.sign.unit * other.sign.unit : ℤ) : ℚ) * (one.magnitude / other.magnitude) := by
  rw [value, value]
  rcases unit_cases sound_other.finite with positive | negative
  · rw [positive]
    simp [mul_div_assoc]
  · rw [negative]
    push_cast
    ring

/-- `div`: the quotient rounded half away from zero or cut, at a scale. -/
theorem div_spec {one : Var} (rounded : Bool) (sound : one.Sound) (sound_other : other.Sound)
    (some_ : other.digits ≠ []) (first : other.digits.head? ≠ some 0) :
    (one.div other rscale rounded).Sound ∧ (one.div other rscale rounded).dscale = rscale ∧
      (one.div other rscale rounded).value =
        if rounded then roundAway rscale (one.value / other.value) else cutToward rscale (one.value / other.value) := by
  obtain ⟨unit, finite⟩ := times_unit sound.finite sound_other.finite
  have head : other.digits.getD 0 0 ≠ 0 := by
    obtain ⟨place, places, same⟩ := exists_cons_of_ne_nil some_
    rw [same] at first ⊢
    exact fun zero => first (by rw [head?_cons]; exact congrArg some zero)
  have divisor_pos : 0 < ofPlaces nbase other.digits := by
    obtain ⟨place, places, same⟩ := exists_cons_of_ne_nil some_
    have digits := sound_other.digits
    rw [same] at head digits ⊢
    exact (pow_pos nbase_pos _).trans_le (digits.le_of_first head)
  have ratio_low : 0 ≤ one.magnitude / other.magnitude :=
    div_nonneg (magnitude_nonneg sound.digits) (magnitude_nonneg sound_other.digits)
  have sign_unit : one.sign.unit * other.sign.unit = 1 ∨ one.sign.unit * other.sign.unit = -1 := by
    rw [← unit]
    exact unit_cases finite
  rw [value_div sound_other, roundAway, cutToward, mirrored_unit (roundUp_zero _) sign_unit ratio_low,
    mirrored_unit (roundDown_zero _) sign_unit ratio_low]
  unfold div divide
  simp only [show decDigits = 4 from rfl]
  generalize named : -((rscale + 4 - 1) / 4 + 1) = low
  obtain ⟨digits, number⟩ := @longDivide_spec nbase other.digits
    (shifted one.digits (one.low - other.low - low)) (by decide)
    (digits_shifted sound.digits) sound_other.digits head
  rw [shifted_div sound.digits divisor_pos, ← quotient_scaled] at number
  generalize longDivide nbase (shifted one.digits (one.low - other.low - low)) other.digits = quotient at digits number ⊢
  have raw_sound : (⟨one.sign.times other.sign, low + quotient.length - 1, rscale, quotient⟩ : Var).Sound :=
    ⟨finite, digits⟩
  have raw_value : (⟨one.sign.times other.sign, low + quotient.length - 1, rscale, quotient⟩ : Var).strip.value =
      ((one.sign.unit * other.sign.unit : ℤ) : ℚ) *
        (⌊one.magnitude / other.magnitude * 10000 ^ (-low)⌋ * 10000 ^ low) := by
    rw [strip_value, value_mk, unit, number, show low + (quotient.length : ℤ) - 1 + 1 - quotient.length = low by ring]
  have cut_low : (0 : ℚ) ≤ ⌊one.magnitude / other.magnitude * 10000 ^ (-low)⌋ * 10000 ^ low := by
    refine mul_nonneg ?_ (power_pos _).le
    exact_mod_cast Int.floor_nonneg.mpr (mul_nonneg ratio_low (power_pos _).le)
  rw [strip_dscale, strip_value]
  cases rounded with
  | true =>
    obtain ⟨result, dscale, result_value⟩ := @round_spec _ rscale raw_sound.strip
    refine ⟨result.strip, dscale, ?_⟩
    rw [if_pos rfl, if_pos rfl, result_value, raw_value, roundAway, mirrored_unit (roundUp_zero _) sign_unit cut_low,
      roundUp, @cut_scaled _ _ _ ((-(4 * low + rscale) - 1).toNat + 1) (by omega),
      @floor_floor_half _ _ (5 * 10 ^ (-(4 * low + rscale) - 1).toNat) (by rw [pow_succ]; ring) (by positivity), roundUp]
  | false =>
    obtain ⟨result, dscale, result_value⟩ := @trunc_spec _ rscale raw_sound.strip
    refine ⟨result.strip, dscale, ?_⟩
    rw [if_neg Bool.false_ne_true, if_neg Bool.false_ne_true, result_value, raw_value, cutToward,
      mirrored_unit (roundDown_zero _) sign_unit cut_low, roundDown,
      @cut_scaled _ _ _ (-(4 * low + rscale)).toNat (by omega), floor_floor (by positivity), roundDown]

theorem add_first {one : Var} : (one.add other).digits.head? ≠ some 0 := by
  have stripped (number : Var) : number.strip.digits.head? ≠ some 0 := by
    rw [strip_digits]
    exact (strip_ends _).1
  unfold add addAbs
  split
  · exact stripped _
  · split
    · exact stripped _
    · exact stripped _

theorem flip_unit {sign : NumericSign} (finite : sign.isFinite = true) :
    sign.flip.unit = -sign.unit ∧ sign.flip.isFinite = true := by
  cases sign with
  | positive | negative => exact ⟨rfl, rfl⟩
  | nan | infinity | negativeInfinity => cases finite

/-- `modulo`: the value less the divisor times the quotient cut toward zero. -/
theorem modulo_spec {one : Var} (sound : one.Sound) (sound_other : other.Sound) (some_ : other.digits ≠ [])
    (first : other.digits.head? ≠ some 0) :
    (one.modulo other).Sound ∧ (one.modulo other).dscale = max one.dscale other.dscale ∧
      (one.modulo other).value = one.value - other.value * cutToward 0 (one.value / other.value) := by
  obtain ⟨quotient, -, quotient_value⟩ := @div_spec _ 0 _ false sound sound_other some_ first
  obtain ⟨product, product_value⟩ := mul_spec sound_other quotient
  rw [quotient_value, if_neg Bool.false_ne_true] at product_value
  unfold modulo
  dsimp only
  rw [← product_value]
  generalize other.mul (one.div other 0 false) = taken at product ⊢
  split
  · rename_i none_
    obtain ⟨result, dscale, sum⟩ := @add_spec one { taken with dscale := other.dscale }
      sound ⟨product.finite, product.digits⟩
    refine ⟨result, dscale, ?_⟩
    have zero : taken.value = 0 := by rw [value, magnitude, none_]; simp
    rw [sum, zero, sub_zero, add_eq_left]
    exact zero
  obtain ⟨unit, finite⟩ := flip_unit product.finite
  obtain ⟨result, dscale, sum⟩ := @add_spec one ⟨taken.sign.flip, taken.weight, other.dscale, taken.digits⟩ sound
    ⟨finite, product.digits⟩
  refine ⟨result, dscale, ?_⟩
  have negated : (⟨taken.sign.flip, taken.weight, other.dscale, taken.digits⟩ : Var).value = -taken.value := by
    rw [@value_mk taken.sign.flip taken.weight other.dscale taken.digits, unit, value, magnitude, low]
    push_cast
    ring
  rw [sum, sub_eq_add_neg, negated]

end Var

theorem cutToward_zero : cutToward 0 number = if 0 ≤ number then (⌊number⌋ : ℚ) else ⌈number⌉ := by
  unfold cutToward mirrored roundDown
  split
  · simp
  · simp [Int.floor_neg]

namespace Numeric
variable {one other : Numeric}

theorem Stripped.value_eq_zero (stripped : one.Stripped) : one.value = 0 ↔ one.digits = [] := by
  rw [value_eq]
  exact Var.value_eq_zero stripped.sound stripped.first

section
variable (stripped : one.Stripped) (stripped_other : other.Stripped)
include stripped stripped_other

theorem finite_both : (!one.sign.isFinite || !other.sign.isFinite) = false := by
  rw [stripped.finite, stripped_other.finite]
  rfl

/-- `div` gives the quotient rounded half away from zero at the scale picked. -/
theorem div_gives (some_ : other.value ≠ 0) :
    Gives (one.div other) (roundAway (one.toVar.selectDivScale other.toVar) (one.value / other.value))
      (one.toVar.selectDivScale other.toVar) := by
  have digits : other.digits ≠ [] := fun none_ => some_ (stripped_other.value_eq_zero.mpr none_)
  have nonneg : 0 ≤ one.toVar.selectDivScale other.toVar := by
    unfold Var.selectDivScale
    dsimp only
    omega
  obtain ⟨sound, dscale, quotient⟩ := Var.div_spec true stripped.sound stripped_other.sound digits stripped_other.first
  have made := Var.make_gives sound
  rw [dscale, quotient, ← value_eq, ← value_eq] at made
  rw [div, finite_both stripped stripped_other, if_neg Bool.false_ne_true, if_neg digits]
  exact made

/-- `modulo` gives the exact remainder with the larger display scale. -/
theorem modulo_gives (some_ : other.value ≠ 0) :
    Gives (one.modulo other) (one.value - other.value * cutToward 0 (one.value / other.value))
      (max one.dscale other.dscale) := by
  have digits : other.digits ≠ [] := fun none_ => some_ (stripped_other.value_eq_zero.mpr none_)
  obtain ⟨sound, dscale, rest⟩ := Var.modulo_spec stripped.sound stripped_other.sound digits stripped_other.first
  have made := Var.make_gives sound
  rw [dscale, rest, ← value_eq, ← value_eq] at made
  rw [modulo, finite_both stripped stripped_other, if_neg digits]
  exact made

theorem div_zero_error (zero : other.value = 0) :
    one.div other = .error divisionByZero ∧ one.modulo other = .error divisionByZero := by
  have none_ := stripped_other.value_eq_zero.mp zero
  rw [div, modulo, finite_both stripped stripped_other, if_neg Bool.false_ne_true,
    if_neg Bool.false_ne_true, if_pos none_,
    if_pos none_]
  exact ⟨rfl, rfl⟩

end

end Numeric

end Rudb.Pgtypes
