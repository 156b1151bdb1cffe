import Rudb.Pgtypes.NumericValue

/-! Sums and differences of `numeric` values are exact. -/
namespace Rudb.Pgtypes
open Rudb.Lib List Bool

namespace Var
variable {number : Var} {high low : ℤ}

/-- The digits between two powers are the digits with the zeros on both sides of them. -/
theorem window_eq (above : number.weight ≤ high) (below : low ≤ number.low) : number.window high low =
    replicate (high - number.weight).toNat 0 ++ (number.digits ++ replicate (number.low - low).toNat 0) := by
  have low_eq : number.low = number.weight + 1 - number.digits.length := rfl
  refine ext_getElem ?_ fun index inside inside_ => ?_
  · simp only [window, length_map, length_range, length_append, length_replicate]
    omega
  simp only [window, getElem_map, getElem_range, digit]
  by_cases before : index < (high - number.weight).toNat
  · rw [if_neg (by omega), getElem_append_left (by rwa [length_replicate]), getElem_replicate]
  rw [if_pos (by omega), getElem_append_right (by rw [length_replicate]; omega)]
  simp only [length_replicate]
  rw [show (number.weight - (high - index)).toNat = index - (high - number.weight).toNat by omega,
    getD_eq_getElem?_getD]
  by_cases among : index - (high - number.weight).toNat < number.digits.length
  · rw [getElem_append_left among, getElem?_eq_getElem among, Option.getD_some]
  · rw [getElem_append_right (not_lt.mp among), getElem_replicate,
      getElem?_eq_none (not_lt.mp among), Option.getD_none]

/-- The digits between two powers write the value from the lower one on. -/
theorem window_magnitude (above : number.weight ≤ high) (below : low ≤ number.low) :
    (ofPlaces nbase (number.window high low) : ℚ) * 10000 ^ low = number.magnitude := by
  rw [window_eq above below, ofPlaces_zeros_append, ofPlaces_append_zeros, magnitude,
    show low + ((number.low - low).toNat : ℤ) = number.low by omega]

theorem window_digits (digits : Digits nbase number.digits) (above : number.weight ≤ high) (below : low ≤ number.low) :
    Digits nbase (number.window high low) := by
  have zeros (count : Nat) : Digits nbase (replicate count 0) := fun place member => by
    rw [eq_of_mem_replicate member]
    decide
  rw [window_eq above below, digits_append, digits_append]
  exact ⟨zeros _, digits, zeros _⟩

@[simp] theorem window_length : (number.window high low).length = (high - low + 1).toNat := by simp [window]

/-- The first difference orders lists of as many digits as their numbers. -/
theorem firstOrder_eq (same : one.length = other.length) (digits : Digits nbase one)
    (digits_other : Digits nbase other) : firstOrder one other =
    compare (ofPlaces nbase one) (ofPlaces nbase other) := by
  induction one generalizing other with
  | nil =>
    cases other with
    | nil => rfl
    | cons => cases same
  | cons first one ih =>
    cases other with
    | nil => cases same
    | cons second other =>
      have lengths : one.length = other.length := Nat.succ.inj same
      obtain ⟨-, digits⟩ := digits_cons.mp digits
      obtain ⟨-, digits_other⟩ := digits_cons.mp digits_other
      have one_low := digits.nonneg
      have one_high := digits.lt nbase_pos
      have other_low := digits_other.nonneg
      have other_high := digits_other.lt nbase_pos
      rw [lengths] at one_high
      rw [firstOrder, ih lengths digits digits_other, ofPlaces_cons, ofPlaces_cons, lengths]
      rcases lt_trichotomy first second with less | rfl | more
      · rw [compare_lt_iff_lt.mpr less]
        exact (compare_lt_iff_lt.mpr (by nlinarith)).symm
      · rw [compare_eq_iff_eq.mpr rfl, ← cmp_eq_compare (_ + _), cmp_add_left, cmp_eq_compare]
        rfl
      · rw [compare_gt_iff_gt.mpr more]
        exact (compare_gt_iff_gt.mpr (by nlinarith)).symm

theorem cmpAbs_eq {one : Var} (sound : one.Sound) (sound_other : other.Sound) :
    one.cmpAbs other = compare one.magnitude other.magnitude := by
  have high := le_max_left one.weight other.weight
  have high_other := le_max_right one.weight other.weight
  have below := min_le_left one.low other.low
  have below_other := min_le_right one.low other.low
  unfold cmpAbs
  rw [firstOrder_eq (by simp) (window_digits sound.digits high below)
    (window_digits sound_other.digits high_other below_other),
    ← window_magnitude high below, ← window_magnitude high_other below_other, ← cmp_eq_compare, ← cmp_eq_compare,
    cmp_mul_pos_right (power_pos _)]
  exact (Int.cast_strictMono.cmp_map_eq _ _).symm

/-- The loop over the digits carries in their sums. -/
theorem addDigits_eq (digits : Digits nbase one) (digits_other : Digits nbase other) :
    addDigits subtract one other = carried nbase (zipWith (· + ·) one (other.map (· * if subtract then -1 else 1))) ∧
      -1 ≤ (addDigits subtract one other).1 ∧ (addDigits subtract one other).1 ≤ 1 := by
  induction one generalizing other with
  | nil => exact ⟨rfl, by simp [addDigits], by simp [addDigits]⟩
  | cons first one ih =>
    cases other with
    | nil => exact ⟨rfl, by simp [addDigits], by simp [addDigits]⟩
    | cons second other =>
      obtain ⟨first_digit, digits⟩ := digits_cons.mp digits
      obtain ⟨second_digit, digits_other⟩ := digits_cons.mp digits_other
      obtain ⟨behind, carry_low, carry_high⟩ := ih digits digits_other
      rw [map_cons, zipWith_cons_cons, carried_cons, ← behind, addDigits]
      generalize addDigits subtract one other = parts at carry_low carry_high ⊢
      obtain ⟨carry, written⟩ := parts
      unfold nbase at *
      have sum : first + second * (if subtract then -1 else 1) + carry =
          first + carry + if subtract then -second else second := by
        cases subtract <;> simp <;> ring
      have bounds : -10000 ≤ first + carry + (if subtract then -second else second) ∧
          first + carry + (if subtract then -second else second) < 20000 := by
        cases subtract <;> simp <;> omega
      dsimp only
      generalize first + carry + (if subtract then -second else second) = digit at *
      split
      · exact ⟨Prod.ext (by dsimp only; omega) (congrArg (· :: written) (by omega)), by simp, by simp⟩
      split <;> exact ⟨Prod.ext (by dsimp only; omega) (congrArg (· :: written) (by omega)), by simp, by simp⟩

/-- It writes the sum, but for what is carried out. -/
theorem addDigits_spec {one other : List ℤ} (same : one.length = other.length) (digits : Digits nbase one)
    (digits_other : Digits nbase other) : Digits nbase (addDigits subtract one other).2 ∧
      (addDigits subtract one other).2.length = one.length ∧ ofPlaces nbase (addDigits subtract one other).2 =
        (ofPlaces nbase one + ofPlaces nbase other * if subtract then -1 else 1) % nbase ^ one.length := by
  rw [(addDigits_eq digits digits_other).1, ← (carried_spec nbase_pos).2,
    ofPlaces_zipWith_add (by simpa using same), ofPlaces_map_mul]
  exact ⟨digits_carried nbase_pos, by simp [same], by simp [same]⟩

/-- With a power above those of the digits there is room for a carry. -/
theorem window_lt (digits : Digits nbase number.digits) (above : number.weight < high) (below : low ≤ number.low) :
    ofPlaces nbase (number.window high low) < nbase ^ (high - low).toNat := by
  have whole := window_digits digits above.le below
  have low_eq : number.low = number.weight + 1 - number.digits.length := rfl
  rw [window_eq above.le below, digits_append] at whole
  rw [window_eq above.le below, ofPlaces_zeros_append]
  refine (whole.2.lt nbase_pos).trans_le (pow_le_pow_right₀ (by decide) ?_)
  simp only [length_append, length_replicate]
  omega

theorem addAbs_spec {one other : Var} {subtract : Bool} {sign : NumericSign} (sound : one.Sound)
    (sound_other : other.Sound)
    (finite : sign.isFinite = true) (enough : subtract = true → other.magnitude ≤ one.magnitude) :
    (one.addAbs other subtract sign).Sound ∧ (one.addAbs other subtract sign).dscale = max one.dscale other.dscale ∧
      (one.addAbs other subtract sign).value =
        sign.unit * (one.magnitude + other.magnitude * (if subtract then -1 else 1 : ℤ)) := by
  have high : one.weight < max one.weight other.weight + 1 := by omega
  have high_other : other.weight < max one.weight other.weight + 1 := by omega
  have below := min_le_left one.low other.low
  have below_other := min_le_right one.low other.low
  have low_eq : one.low = one.weight + 1 - one.digits.length := rfl
  have number := window_magnitude high.le below
  have number_other := window_magnitude high_other.le below_other
  have few := window_lt sound.digits high below
  have few_other := window_lt sound_other.digits high_other below_other
  have digits := window_digits sound.digits high.le below
  have digits_other := window_digits sound_other.digits high_other.le below_other
  obtain ⟨written, length_written, total⟩ := @addDigits_spec subtract _ _ (by simp) digits digits_other
  unfold addAbs
  rw [strip_dscale, strip_value]
  generalize max one.weight other.weight + 1 = weight at *
  generalize min one.low other.low = low at *
  rw [window_length] at length_written total
  have inside : 0 ≤ ofPlaces nbase (one.window weight low) +
    ofPlaces nbase (other.window weight low) * (if subtract then -1 else 1) ∧
      ofPlaces nbase (one.window weight low) + ofPlaces nbase (other.window weight low) * (if subtract then -1 else 1) <
        nbase ^ (weight - low + 1).toNat := by
    have power : nbase ^ (weight - low + 1).toNat = nbase ^ (weight - low).toNat * 10000 := by
      rw [show (weight - low + 1).toNat = (weight - low).toNat + 1 by omega]
      rfl
    have one_low := digits.nonneg
    have other_low := digits_other.nonneg
    cases subtract with
    | true =>
      have ordered := enough rfl
      rw [← number, ← number_other] at ordered
      have ordered : ofPlaces nbase (other.window weight low) ≤ ofPlaces nbase (one.window weight low) := by
        exact_mod_cast le_of_mul_le_mul_right ordered (power_pos low)
      simp only [if_true]
      omega
    | false =>
      simp only [false_eq_true, if_false]
      omega
  rw [Int.emod_eq_of_lt inside.1 inside.2] at total
  refine ⟨Sound.strip ⟨finite, written⟩, rfl, ?_⟩
  unfold value
  rw [magnitude, Var.low, length_written, show weight + 1 - ((weight - low + 1).toNat : ℤ) =
    low by omega, total, ← number, ← number_other]
  push_cast
  ring

theorem unit_eq_neg {other : NumericSign} (finite : one.isFinite = true) (finite_other : other.isFinite = true)
    (different : one ≠ other) : other.unit = -one.unit := by
  cases one <;> cases other <;> simp_all [NumericSign.isFinite, NumericSign.unit]

theorem add_spec {one other : Var} (sound : one.Sound) (sound_other : other.Sound) :
    (one.add other).Sound ∧ (one.add other).dscale = max one.dscale other.dscale ∧
      (one.add other).value = one.value + other.value := by
  unfold add
  split
  · rename_i same
    obtain ⟨result, dscale, sum⟩ := @addAbs_spec one other false one.sign sound sound_other sound.finite (by simp)
    refine ⟨result, dscale, ?_⟩
    rw [sum, value, value, ← same, if_neg Bool.false_ne_true]
    ring
  rename_i different
  have unit := unit_eq_neg sound.finite sound_other.finite different
  rw [cmpAbs_eq sound sound_other]
  split
  · rename_i less
    obtain ⟨result, dscale, sum⟩ := @addAbs_spec other one true other.sign sound_other sound sound_other.finite
      (fun _ => le_of_lt (compare_lt_iff_lt.mp less))
    refine ⟨result, by rw [dscale, max_comm], ?_⟩
    rw [sum, value, value, if_pos rfl, unit]
    push_cast
    ring
  rename_i more
  obtain ⟨result, dscale, sum⟩ := @addAbs_spec one other true one.sign sound sound_other sound.finite
    (fun _ => not_lt.mp fun less => more (compare_lt_iff_lt.mpr less))
  refine ⟨result, dscale, ?_⟩
  rw [sum, value, value, if_pos rfl, unit]
  push_cast
  ring

end Var

namespace Numeric
variable {one : Numeric}

theorem add_gives (stripped : one.Stripped) (stripped_other : other.Stripped) :
    Gives (one.add other) (one.value + other.value) (max one.dscale other.dscale) := by
  obtain ⟨sound, dscale, sum⟩ := Var.add_spec stripped.sound stripped_other.sound
  have none_special : specialSum one.sign other.sign = none := by
    rw [specialSum, stripped.finite, stripped_other.finite]
    rfl
  have made := Var.make_gives sound
  rw [add, none_special, value_eq, value_eq, ← sum]
  rw [dscale] at made
  exact made

theorem Stripped.negate (stripped : one.Stripped) : one.negate.Stripped ∧
    one.negate.value = -one.value ∧ one.negate.dscale = one.dscale := by
  obtain ⟨finite, digits, first, last⟩ := stripped
  obtain ⟨sign, weight, dscale, places⟩ := one
  refine ⟨⟨?_, digits, first, last⟩, ?_, rfl⟩
  · cases sign with
    | positive => cases places <;> rfl
    | negative => rfl
    | nan | infinity | negativeInfinity => simp [NumericSign.isFinite] at finite
  rw [value_eq, value_eq]
  cases sign with
  | positive =>
    cases places with
    | nil => simp [Numeric.negate, toVar, Var.value, Var.magnitude]
    | cons => simp [Numeric.negate, toVar, Var.value, Var.magnitude, Var.low, NumericSign.unit]
  | negative => simp [Numeric.negate, toVar, Var.value, Var.magnitude, Var.low, NumericSign.unit]
  | nan | infinity | negativeInfinity => simp [NumericSign.isFinite] at finite

/-- `sub` gives the exact difference with the larger display scale. -/
theorem sub_gives (stripped : one.Stripped) (stripped_other : other.Stripped) :
    Gives (one.sub other) (one.value - other.value) (max one.dscale other.dscale) := by
  obtain ⟨negated, value_neg, dscale_eq⟩ := stripped_other.negate
  have sum := add_gives stripped negated
  rw [value_neg, ← sub_eq_add_neg] at sum
  exact sum

end Numeric

end Rudb.Pgtypes
