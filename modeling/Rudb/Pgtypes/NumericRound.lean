import Mathlib.Data.Rat.Floor
import Rudb.Pgtypes.NumericValue

/-! Rounding a `numeric` half away from zero and cutting it, at a scale. -/
namespace Rudb.Pgtypes
open Rudb.Lib List

/-- A function of magnitudes on numbers of either sign. -/
def mirrored (change : ℚ → ℚ) (number : ℚ) : ℚ := if 0 ≤ number then change number else -change (-number)

/-- A magnitude rounded to the nearest of a scale, the upper one at half. -/
def roundUp (scale : ℤ) (magnitude : ℚ) : ℚ := ⌊magnitude * 10 ^ scale + 1 / 2⌋ / 10 ^ scale

def roundDown (scale : ℤ) (magnitude : ℚ) : ℚ := ⌊magnitude * 10 ^ scale⌋ / 10 ^ scale

def roundAway (scale : ℤ) : ℚ → ℚ := mirrored (roundUp scale)

def cutToward (scale : ℤ) : ℚ → ℚ := mirrored (roundDown scale)

theorem roundUp_zero (scale : ℤ) : roundUp scale 0 = 0 := by
  have : ⌊(1 / 2 : ℚ)⌋ = 0 := by norm_num
  rw [roundUp, zero_mul, zero_add, this, Int.cast_zero, zero_div]

theorem roundDown_zero (scale : ℤ) : roundDown scale 0 = 0 := by simp [roundDown]

theorem unit_cases {sign : NumericSign} (finite : sign.isFinite = true) : sign.unit = 1 ∨ sign.unit = -1 := by
  cases sign with
  | positive => exact .inl rfl
  | negative => exact .inr rfl
  | nan | infinity | negativeInfinity => cases finite

variable {magnitude : ℚ}

theorem mirrored_unit {change : ℚ → ℚ} (zero : change 0 = 0) {unit : ℤ} (one : unit = 1 ∨ unit = -1)
    (nonneg : 0 ≤ magnitude) : mirrored change (unit * magnitude) = unit * change magnitude := by
  unfold mirrored
  rcases one with rfl | rfl
  · simp [nonneg]
  · rcases nonneg.eq_or_lt with none_ | some_
    · simp [← none_, zero]
    · simp [some_]

theorem mirrored_value {change : ℚ → ℚ} (zero : change 0 = 0) {number : Var} (sound : number.Sound) :
    mirrored change number.value = number.sign.unit * change number.magnitude :=
  mirrored_unit zero (unit_cases sound.finite) (Var.magnitude_nonneg sound.digits)

section Places
variable {base : ℤ} {places : List ℤ} {index : Nat} {place : ℤ}

theorem ofPlaces_set (inside : index < places.length) : ofPlaces base (places.set index place) =
    ofPlaces base places + (place - places.getD index 0) * base ^ (places.length - 1 - index) := by
  induction places generalizing index with
  | nil => simp at inside
  | cons first places ih =>
    cases index with
    | zero =>
      rw [set_cons_zero, ofPlaces_cons, ofPlaces_cons, getD_cons_zero, length_cons]
      simp only [Nat.add_sub_cancel, Nat.sub_zero]
      ring
    | succ index =>
      have inside : index < places.length := Nat.lt_of_succ_lt_succ inside
      rw [set_cons_succ, ofPlaces_cons, ofPlaces_cons, ih inside, getD_cons_succ, length_set, length_cons,
        show places.length + 1 - 1 - (index + 1) = places.length - 1 - index by omega]
      ring

theorem digits_set (digits : Digits base places) (low : 0 ≤ place) (high : place < base) :
    Digits base (places.set index place) := by
  intro other member
  rcases mem_or_eq_of_mem_set member with member | rfl
  · exact digits other member
  · exact ⟨low, high⟩

theorem digits_getD (digits : Digits base places) (base_pos : 0 < base) (index : Nat) :
    0 ≤ places.getD index 0 ∧ places.getD index 0 < base := by
  rw [getD_eq_getElem?_getD]
  cases here : places[index]? with
  | none => exact ⟨le_rfl, base_pos⟩
  | some place => exact digits place (mem_of_getElem? here)

end Places

namespace Var
variable {index : Nat} {carry weight : ℤ} {places : List ℤ}

/-- Carrying into the digits before an index adds at its place, with the power of the last digit as it was. -/
theorem carryUp_spec (digits : Digits nbase places) (inside : index ≤ places.length)
    (carry_low : 0 ≤ carry) (carry_high : carry ≤ 1) :
    Digits nbase (carryUp index carry weight places).2 ∧
      (carryUp index carry weight places).1 - (carryUp index carry weight places).2.length = weight - places.length ∧
      ofPlaces nbase (carryUp index carry weight places).2 =
        ofPlaces nbase places + carry * nbase ^ (places.length - index) := by
  induction index generalizing carry places with
  | zero =>
    rw [carryUp]
    split
    · rename_i none_
      exact ⟨digits, rfl, by simp [none_]⟩
    refine ⟨digits_cons.mpr ⟨⟨carry_low, carry_high.trans_lt (by decide)⟩, digits⟩, ?_, ?_⟩
    · simp only [length_cons]
      push_cast
      ring
    · rw [ofPlaces_cons, Nat.sub_zero]
      ring
  | succ index ih =>
    have place := digits_getD digits nbase_pos index
    rw [carryUp]
    split
    · rename_i none_
      exact ⟨digits, rfl, by simp [none_]⟩
    split
    · have written := @digits_set nbase places index _ digits (show 0 ≤ places.getD index 0 + carry - nbase by omega)
        (show places.getD index 0 + carry - nbase < nbase by omega)
      obtain ⟨result, length_eq, number⟩ := @ih 1 _ written (by rw [length_set]; omega) (by decide) (by decide)
      refine ⟨result, by rw [length_eq, length_set], ?_⟩
      rw [number, ofPlaces_set (by omega), length_set,
        show places.length - index = places.length - 1 - index + 1 by omega,
        show places.length - (index + 1) = places.length - 1 - index by omega, pow_succ]
      ring
    · have written := @digits_set nbase places index _ digits (show 0 ≤ places.getD index 0 + carry by omega)
        (show places.getD index 0 + carry < nbase by omega)
      obtain ⟨result, length_eq, number⟩ := @ih 0 _ written (by rw [length_set]; omega) (by decide) (by decide)
      refine ⟨result, by rw [length_eq, length_set], ?_⟩
      rw [number, ofPlaces_set (by omega), show places.length - (index + 1) = places.length - 1 - index by omega]
      ring

theorem floor_div {one other : ℤ} (positive : 0 < other) : ⌊(one : ℚ) / other⌋ = one / other := by
  rw [Int.floor_div_cast_of_nonneg positive.le, Int.floor_intCast]

/-- A number to the nearest multiple of an even unit, the upper one at half. -/
theorem nearest_eq {unit half : ℤ} (even : unit = 2 * half) (positive : 0 < half) :
    (number + half) / unit * unit = number - number % unit + if half ≤ number % unit then unit else 0 := by
  have split_ := Int.mul_ediv_add_emod number unit
  have low := Int.emod_nonneg number (show unit ≠ 0 by omega)
  have high := Int.emod_lt_of_pos number (show 0 < unit by omega)
  have quotient : (number + half) / unit = number / unit + if half ≤ number % unit then 1 else 0 := by
    nth_rewrite 1 [← split_]
    rw [show unit * (number / unit) + number % unit + half = number % unit + half + unit * (number / unit) by ring,
      Int.add_mul_ediv_left _ _ (by omega), Int.add_comm]
    congr 1
    split
    · exact ((@Int.ediv_emod_unique _ unit (number % unit + half - unit) 1 (by omega)).mpr
        ⟨by ring, by omega, by omega⟩).1
    · exact Int.ediv_eq_zero_of_lt (by omega) (by omega)
  rw [quotient, add_mul, ite_mul, one_mul, zero_mul]
  linarith

theorem power_eq (exponent : ℤ) : (10000 : ℚ) ^ exponent = 10 ^ (4 * exponent) := by
  rw [zpow_mul]
  norm_num

theorem ofPlaces_take_div {digits : List ℤ} {count : Nat} (digits_ : Digits nbase digits) :
    ofPlaces nbase (digits.take (digits.length - count)) = ofPlaces nbase digits / nbase ^ count := by
  have power_pos : 0 < nbase ^ count := pow_pos nbase_pos _
  by_cases few : count ≤ digits.length
  · have number := @ofPlaces_append nbase (digits.take (digits.length - count)) (digits.drop (digits.length - count))
    have rest := digits_.sublist (drop_sublist (digits.length - count) digits)
    have rest_high := rest.lt nbase_pos
    rw [length_drop, show digits.length - (digits.length - count) = count by omega] at rest_high
    rw [take_append_drop, length_drop, show digits.length - (digits.length - count) = count by omega, mul_comm] at number
    rw [number, Int.add_comm, Int.add_mul_ediv_left _ _ power_pos.ne',
      Int.ediv_eq_zero_of_lt rest.nonneg rest_high, zero_add]
  · have small : ofPlaces nbase digits < nbase ^ count :=
      (digits_.lt nbase_pos).trans_le (pow_le_pow_right₀ (by decide) (by omega))
    rw [show digits.length - count = 0 by omega, take_zero, Int.ediv_eq_zero_of_lt digits_.nonneg small, ofPlaces_nil]

section Scaled
variable {number : Var} {rscale : ℤ} {count : Nat}

/-- A value in units of a scale, where it has digits below the scale. -/
theorem magnitude_below (below : (number.weight + 1) * 4 + rscale + count = 4 * number.digits.length) :
    number.magnitude * 10 ^ rscale = ofPlaces nbase number.digits / ((10 ^ count : ℤ) : ℚ) := by
  rw [magnitude, power_eq, mul_assoc, ← zpow_add₀ (by norm_num), div_eq_mul_inv]
  push_cast
  rw [← zpow_natCast, ← zpow_neg]
  congr 2
  unfold low
  omega

/-- A value in units of a scale, where it has no digits below the scale. -/
theorem magnitude_above (above : (number.weight + 1) * 4 + rscale = 4 * number.digits.length + count) :
    number.magnitude * 10 ^ rscale = ((ofPlaces nbase number.digits * 10 ^ count : ℤ) : ℚ) := by
  rw [magnitude, power_eq, mul_assoc, ← zpow_add₀ (by norm_num)]
  push_cast
  rw [← zpow_natCast (10 : ℚ) count]
  congr 2
  unfold low
  omega

/-- A count of units of a scale, written with digits of 10000. -/
theorem of_units {digits units : ℤ} {low : ℤ} (written : digits = units * 10 ^ count)
    (places : 4 * low + count = -rscale) :
    (digits : ℚ) * 10000 ^ low = units / 10 ^ rscale := by
  rw [written, power_eq, div_eq_mul_inv, ← zpow_neg, ← places, zpow_add₀ (by norm_num), zpow_natCast]
  push_cast
  ring

/-- A value without digits below a scale is a count of its units. -/
theorem roundUp_of_units {magnitude : ℚ} {units : ℤ} (exact_ : magnitude * 10 ^ rscale = units) :
    roundUp rscale magnitude = magnitude := by
  have half : ⌊(units : ℚ) + 1 / 2⌋ = units := by
    rw [Int.floor_eq_iff]
    constructor <;> linarith
  rw [roundUp, exact_, half, ← exact_, mul_div_assoc, div_self (zpow_ne_zero _ (by norm_num)), mul_one]

theorem roundDown_of_units {units : ℤ} (exact_ : magnitude * 10 ^ rscale = units) :
    roundDown rscale magnitude = magnitude := by
  rw [roundDown, exact_, Int.floor_intCast, ← exact_, mul_div_assoc, div_self (zpow_ne_zero _ (by norm_num)), mul_one]

/-- A value whose digits are all below a scale is less than one in its units. -/
theorem magnitude_lt_scale (digits : Digits nbase number.digits) :
    number.magnitude * 10 ^ rscale < 10 ^ ((number.weight + 1) * 4 + rscale) := by
  have few : (ofPlaces nbase number.digits : ℚ) < 10000 ^ number.digits.length := by
    have := digits.lt nbase_pos
    have cast : ((ofPlaces nbase number.digits : ℤ) : ℚ) < ((nbase ^ number.digits.length : ℤ) : ℚ) := by
      exact_mod_cast this
    push_cast at cast
    rwa [cast_nbase] at cast
  have bound : number.magnitude < 10000 ^ (number.weight + 1) := by
    have power : (10000 : ℚ) ^ (number.weight + 1) = 10000 ^ number.digits.length * 10000 ^ number.low := by
      rw [← zpow_natCast, ← zpow_add₀ (by norm_num)]
      congr 1
      unfold low
      ring
    rw [power]
    exact mul_lt_mul_of_pos_right few (power_pos _)
  rw [zpow_add₀ (by norm_num), mul_comm _ (4 : ℤ), ← power_eq]
  exact mul_lt_mul_of_pos_right bound (zpow_pos (by norm_num) _)

variable {places : List ℤ}

theorem ten_power (count : Nat) : (10 : ℤ) ^ (4 * count) = nbase ^ count := by
  rw [pow_mul]
  rfl

theorem tens (few : di < 4) : nbase = 10 ^ di * 10 ^ (4 - di) := by
  rw [← pow_add, show di + (4 - di) = 4 by omega]
  rfl

theorem roundPowers_eq (some_ : di ≠ 0) (few : di < 4) : roundPowers.getD di 0 = 10 ^ (4 - di) := by
  match di, some_, few with
  | 1, _, _ | 2, _, _ | 3, _, _ => rfl

variable {n di : Nat}

theorem cut_place {place : ℤ} {count : Nat} (low : 0 ≤ place) : 0 ≤ place - place % 10 ^ count ∧
    place - place % 10 ^ count ≤ place := by
  have ten_pos : (0 : ℤ) < 10 ^ count := by positivity
  have whole := mul_nonneg ten_pos.le (Int.ediv_nonneg low ten_pos.le)
  have split_ := Int.mul_ediv_add_emod place (10 ^ count)
  have extra_low := Int.emod_nonneg place ten_pos.ne'
  constructor <;> linarith

/-- The last digit kept may be written anew. -/
theorem ofPlaces_set_last (inside : n < places.length) :
    ofPlaces nbase ((places.set n written).take (n + 1)) = ofPlaces nbase (places.take n) * nbase + written := by
  rw [ofPlaces_take_succ (by rwa [length_set]), take_set_of_le le_rfl, getElem_set_self]

theorem even_power (few : di < 4) : (10 : ℤ) ^ (4 - di) = 2 * (10 ^ (4 - di) / 2) := by
  match di, few with
  | 0, _ | 1, _ | 2, _ | 3, _ => norm_num

/-- The digits up to one and that one leave the same over a power of ten below 10000. -/
theorem take_succ_emod (inside : n < places.length) (few : di < 4) :
    ofPlaces nbase (places.take (n + 1)) = ofPlaces nbase (places.take n) * nbase + places.getD n 0 ∧
      ofPlaces nbase (places.take (n + 1)) % 10 ^ (4 - di) = places.getD n 0 % 10 ^ (4 - di) := by
  have split_ : ofPlaces nbase (places.take (n + 1)) = ofPlaces nbase (places.take n) * nbase + places.getD n 0 := by
    rw [ofPlaces_take_succ inside, getD_eq_getElem _ 0 inside]
  refine ⟨split_, ?_⟩
  rw [split_, tens few, ← mul_assoc, Int.add_comm, Int.add_mul_emod_self_right]

section Inside
variable (digits : Digits nbase number.digits) (inside : n < number.digits.length) (few : di < 4)
  (at_ : (number.weight + 1) * 4 + rscale = 4 * n + di)
include digits inside few at_

/-- A value in units of a scale that cuts inside a digit, cut and rounded. -/
theorem floor_inside : ⌊number.magnitude * 10 ^ rscale⌋ = ofPlaces nbase (number.digits.take (n + 1)) / 10 ^ (4 - di) ∧
    ⌊number.magnitude * 10 ^ rscale + 1 / 2⌋ =
      (ofPlaces nbase (number.digits.take (n + 1)) + 10 ^ (4 - di) / 2) / 10 ^ (4 - di) := by
  have scaled := @magnitude_below number rscale (4 * (number.digits.length - (n + 1)) + (4 - di)) (by omega)
  have front := @ofPlaces_take_div number.digits (number.digits.length - (n + 1)) digits
  have power_pos : 0 < nbase ^ (number.digits.length - (n + 1)) := pow_pos nbase_pos _
  have ten_pos : (0 : ℤ) < 10 ^ (4 - di) := by positivity
  rw [Nat.sub_sub_self inside] at front
  rw [pow_add, ten_power] at scaled
  generalize nbase ^ (number.digits.length - (n + 1)) = power at *
  constructor
  · rw [scaled, floor_div (mul_pos power_pos ten_pos), ← Int.ediv_ediv_of_nonneg power_pos.le, front]
  · have half := even_power few
    generalize (10 : ℤ) ^ (4 - di) / 2 = part at *
    rw [half] at scaled ten_pos ⊢
    have some_ : (part : ℚ) ≠ 0 := by exact_mod_cast (show part ≠ 0 by omega)
    have shifted : number.magnitude * 10 ^ rscale + 1 / 2 =
        ((ofPlaces nbase number.digits + part * power : ℤ) : ℚ) / ((power * (2 * part) : ℤ) : ℚ) := by
      rw [scaled]
      push_cast
      field_simp
    rw [shifted, floor_div (mul_pos power_pos ten_pos), ← Int.ediv_ediv_of_nonneg power_pos.le,
      Int.add_mul_ediv_right _ _ power_pos.ne', front]

theorem round_inside : roundUp rscale number.magnitude =
    (((ofPlaces nbase (number.digits.take (n + 1)) + 10 ^ (4 - di) / 2) / 10 ^ (4 - di) * 10 ^ (4 - di) : ℤ) : ℚ) *
      10000 ^ (number.weight + 1 - (n + 1 : ℕ)) := by
  rw [roundUp, (floor_inside digits inside few at_).2]
  exact (of_units rfl (by omega)).symm

theorem cut_inside : roundDown rscale number.magnitude =
    ((ofPlaces nbase (number.digits.take n) * nbase +
      (number.digits.getD n 0 - number.digits.getD n 0 % 10 ^ (4 - di)) : ℤ) : ℚ) *
      10000 ^ (number.weight + 1 - (n + 1 : ℕ)) := by
  obtain ⟨split_, extra⟩ := take_succ_emod inside few
  rw [roundDown, (floor_inside digits inside few at_).1]
  refine (@of_units rscale (4 - di) _ _ _ ?_ (by omega)).symm
  linarith [Int.ediv_mul_add_emod (ofPlaces nbase (number.digits.take (n + 1))) (10 ^ (4 - di))]

end Inside

/-- Rounding at a digit: the digits up to it, and one more where half of the next is dropped. -/
theorem round_whole (digits : Digits nbase number.digits) (inside : n < number.digits.length)
    (at_ : (number.weight + 1) * 4 + rscale = 4 * n) :
    roundUp rscale number.magnitude =
      ((ofPlaces nbase (number.digits.take n) + if halfNbase ≤ number.digits.getD n 0 then 1 else 0 : ℤ) : ℚ) *
        10000 ^ (number.weight + 1 - n) := by
  have place := digits_getD digits nbase_pos n
  have units : (ofPlaces nbase (number.digits.take n) * 10000 + number.digits.getD n 0 + 5000) / 10000 =
      ofPlaces nbase (number.digits.take n) + if halfNbase ≤ number.digits.getD n 0 then 1 else 0 := by
    unfold halfNbase nbase at *
    split <;> omega
  rw [@round_inside _ _ _ 0 digits inside (by decide) at_, ofPlaces_take_succ inside, ← getD_eq_getElem _ 0 inside]
  change (((ofPlaces nbase _ * 10000 + _ + 5000) / 10000 * 10000 : ℤ) : ℚ) * _ = _
  rw [units, Int.cast_mul, mul_assoc]
  congr 1
  push_cast
  rw [← zpow_one_add₀ (by norm_num)]
  congr 1
  ring

theorem roundInside_spec (digits : Digits nbase places) (inside : n < places.length)
    (some_ : di ≠ 0) (few : di < 4) :
    Digits nbase (roundInside places n (roundPowers.getD di 0)).2 ∧
      (roundInside places n (roundPowers.getD di 0)).2.length = places.length ∧
      0 ≤ (roundInside places n (roundPowers.getD di 0)).1 ∧ (roundInside places n (roundPowers.getD di 0)).1 ≤ 1 ∧
      ofPlaces nbase ((roundInside places n (roundPowers.getD di 0)).2.take (n + 1)) +
          (roundInside places n (roundPowers.getD di 0)).1 * nbase =
        (ofPlaces nbase (places.take (n + 1)) + 10 ^ (4 - di) / 2) / 10 ^ (4 - di) * 10 ^ (4 - di) := by
  have place := digits_getD digits nbase_pos n
  obtain ⟨down_low, down_high⟩ := @cut_place _ (4 - di) place.1
  have half := even_power few
  obtain ⟨split_, extra⟩ := take_succ_emod inside few
  rw [nearest_eq half (by omega), extra, split_, roundPowers_eq some_ few, roundInside]
  split
  · split
    · refine ⟨digits_set digits (by omega) (by omega), length_set, zero_le_one, le_rfl, ?_⟩
      rw [ofPlaces_set_last inside]
      ring
    · refine ⟨digits_set digits (by omega) (by omega), length_set, le_rfl, zero_le_one, ?_⟩
      rw [ofPlaces_set_last inside]
      ring
  · refine ⟨digits_set digits (by omega) (by omega), length_set, le_rfl, zero_le_one, ?_⟩
    rw [ofPlaces_set_last inside]
    ring

/-- A magnitude less than half a unit of a scale rounds to nothing. -/
theorem roundUp_small (low : 0 ≤ magnitude) (few : magnitude * 10 ^ rscale < 1 / 2) : roundUp rscale magnitude = 0 := by
  have scaled : 0 ≤ magnitude * 10 ^ rscale := mul_nonneg low (le_of_lt (zpow_pos (by norm_num) _))
  have none_ : ⌊magnitude * 10 ^ rscale + 1 / 2⌋ = 0 := by
    rw [Int.floor_eq_iff]
    constructor <;> linarith
  rw [roundUp, none_, Int.cast_zero, zero_div]

theorem value_mk {sign : NumericSign} {weight dscale : ℤ} {digits : List ℤ} :
    (⟨sign, weight, dscale, digits⟩ : Var).value =
    sign.unit * ((ofPlaces nbase digits : ℚ) * 10000 ^ (weight + 1 - (digits.length : ℤ))) := rfl

theorem round_spec (sound : number.Sound) : (number.round rscale).Sound ∧ (number.round rscale).dscale = rscale ∧
    (number.round rscale).value = roundAway rscale number.value := by
  rw [roundAway, mirrored_value (roundUp_zero _) sound]
  unfold round
  simp only [show decDigits = 4 from rfl]
  split
  · have small : number.magnitude * 10 ^ rscale < 1 / 2 := by
      refine (magnitude_lt_scale sound.digits).trans_le ?_
      exact le_trans (zpow_le_zpow_right₀ (by norm_num) (show _ ≤ (-1 : ℤ) by omega)) (by norm_num)
    refine ⟨⟨rfl, digits_nil⟩, rfl, ?_⟩
    rw [roundUp_small (magnitude_nonneg sound.digits) small, value_mk]
    simp
  generalize named : (((number.weight + 1) * 4 + rscale + 4 - 1) / 4).toNat = n
  split
  · refine ⟨⟨sound.finite, sound.digits⟩, rfl, ?_⟩
    rw [roundUp_of_units (@magnitude_above number rscale ((number.weight + 1) * 4 +
      rscale - 4 * number.digits.length).toNat
      (by omega))]
    rfl
  rename_i some_
  split
  · have inside : n < number.digits.length := by omega
    have carry_low : (0 : ℤ) ≤ if number.digits.getD n 0 ≥ halfNbase then 1 else 0 := by split <;> decide
    have carry_high : (if number.digits.getD n 0 ≥ halfNbase then 1 else 0 : ℤ) ≤ 1 := by split <;> decide
    have length_take : (number.digits.take n).length = n := length_take_of_le inside.le
    obtain ⟨digits, low_eq, number_eq⟩ := @carryUp_spec n _ number.weight (number.digits.take n)
      (sound.digits.sublist (take_sublist _ _)) length_take.ge carry_low carry_high
    refine ⟨⟨sound.finite, digits⟩, rfl, ?_⟩
    rw [value_mk, number_eq, length_take, Nat.sub_self, pow_zero, mul_one, round_whole sound.digits inside (by omega)]
    congr 3
    omega
  · rename_i odd
    generalize named_di : (((number.weight + 1) * 4 + rscale) % 4).toNat = di at odd some_
    have few : di < 4 := by omega
    obtain ⟨before, rfl⟩ : ∃ before, n = before + 1 := ⟨n - 1, by omega⟩
    have inside : before < number.digits.length := by omega
    rw [Nat.add_sub_cancel]
    obtain ⟨digits, length_eq, carry_low, carry_high, number_eq⟩ := roundInside_spec sound.digits inside odd few
    generalize roundInside number.digits before (roundPowers.getD di 0) =
      parts at digits length_eq carry_low carry_high number_eq ⊢
    obtain ⟨carry, written⟩ := parts
    dsimp only at digits length_eq carry_low carry_high number_eq ⊢
    have length_take : (written.take (before + 1)).length = before + 1 := length_take_of_le (by omega)
    obtain ⟨result, low_eq, result_eq⟩ := @carryUp_spec before carry number.weight (written.take (before + 1))
      (digits.sublist (take_sublist _ _)) (by omega) carry_low carry_high
    refine ⟨⟨sound.finite, result⟩, rfl, ?_⟩
    rw [length_take, Nat.add_sub_cancel_left] at result_eq
    rw [value_mk, result_eq, round_inside sound.digits inside few (by omega)]
    congr 3
    omega

/-- Cutting at a digit: the digits up to it. -/
theorem cut_whole (digits : Digits nbase number.digits) (inside : n ≤ number.digits.length)
    (at_ : (number.weight + 1) * 4 + rscale = 4 * n) :
    roundDown rscale number.magnitude = (ofPlaces nbase (number.digits.take n) : ℚ) *
      10000 ^ (number.weight + 1 - n) := by
  have scaled := @magnitude_below number rscale (4 * (number.digits.length - n)) (by omega)
  have front := @ofPlaces_take_div number.digits (number.digits.length - n) digits
  rw [Nat.sub_sub_self inside] at front
  rw [roundDown, scaled, ten_power, floor_div (pow_pos nbase_pos _), ← front]
  exact (@of_units rscale 0 _ _ _ (by rw [pow_zero, mul_one]) (by push_cast; omega)).symm

theorem trunc_spec (sound : number.Sound) : (number.trunc rscale).Sound ∧ (number.trunc rscale).dscale = rscale ∧
    (number.trunc rscale).value = cutToward rscale number.value := by
  rw [cutToward, mirrored_value (roundDown_zero _) sound]
  unfold trunc
  simp only [show decDigits = 4 from rfl]
  split
  · rename_i negative
    have low : 0 ≤ number.magnitude * 10 ^ rscale :=
      mul_nonneg (magnitude_nonneg sound.digits) (le_of_lt (zpow_pos (by norm_num) _))
    have small : number.magnitude * 10 ^ rscale < 1 := by
      refine (magnitude_lt_scale sound.digits).trans_le ?_
      exact le_trans (zpow_le_zpow_right₀ (by norm_num) negative) (by norm_num)
    have none_ : ⌊number.magnitude * 10 ^ rscale⌋ = 0 := Int.floor_eq_zero_iff.mpr ⟨low, small⟩
    refine ⟨⟨rfl, digits_nil⟩, rfl, ?_⟩
    rw [roundDown, none_, value_mk]
    simp
  · generalize named : (((number.weight + 1) * 4 + rscale + 4 - 1) / 4).toNat = n
    split
    · rename_i inside
      split
      · rename_i odd
        generalize named_di : (((number.weight + 1) * 4 + rscale) % 4).toNat = di at odd ⊢
        have few : di < 4 := by omega
        obtain ⟨before, rfl⟩ : ∃ before, n = before + 1 := ⟨n - 1, by omega⟩
        have length_take : (number.digits.take (before + 1)).length = before + 1 := length_take_of_le inside
        have here : (number.digits.take (before + 1)).getD before 0 = number.digits.getD before 0 := by
          rw [getD_eq_getElem?_getD, getD_eq_getElem?_getD, getElem?_take_of_lt (Nat.lt_succ_self _)]
        have place := digits_getD sound.digits nbase_pos before
        have down := @cut_place _ (4 - di) place.1
        rw [Nat.add_sub_cancel, here, roundPowers_eq odd.ne' few, ← take_set]
        refine ⟨⟨sound.finite, (digits_set sound.digits down.1 (by omega)).sublist (take_sublist _ _)⟩, rfl, ?_⟩
        rw [value_mk, take_set, length_set, length_take, ← take_set, ofPlaces_set_last inside,
          cut_inside sound.digits inside few (by omega)]
      · have length_take : (number.digits.take n).length = n := length_take_of_le inside
        refine ⟨⟨sound.finite, sound.digits.sublist (take_sublist _ _)⟩, rfl, ?_⟩
        rw [value_mk, length_take, cut_whole sound.digits inside (by omega)]
    · refine ⟨⟨sound.finite, sound.digits⟩, rfl, ?_⟩
      rw [roundDown_of_units (@magnitude_above number rscale ((number.weight + 1) * 4 +
        rscale - 4 * number.digits.length).toNat
        (by omega))]
      rfl

end Scaled

end Var

end Rudb.Pgtypes
