import Mathlib.Algebra.BigOperators.Fin
import Mathlib.Algebra.Order.Field.Rat
import Mathlib.Algebra.Order.Field.Power
import Mathlib.Data.List.GetD
import Mathlib.Data.List.TakeWhile
import Mathlib.Tactic.FieldSimp
import Rudb.Pgtypes.Numeric

/-! What a `numeric` stands for: a rational number, which stripping zeros does not change and which its digits tell. -/
namespace Rudb.Pgtypes
open Rudb.Lib List

/-- The factor of a sign of a finite value. -/
def NumericSign.unit : NumericSign → ℤ
  | positive => 1
  | negative => -1
  | _ => 0

/-- The rational number that a value stands for: each digit times the power of 10000 at its place. -/
def Numeric.value (number : Numeric) : ℚ :=
  ∑ index ∈ Finset.range number.digits.length,
    (number.sign.unit : ℚ) * number.digits.getD index 0 * 10000 ^ (number.weight - index)

/-- Finite, and the digits stripped and each below 10000. -/
structure Numeric.Stripped (number : Numeric) : Prop where
  finite : number.sign.isFinite = true
  digits : Digits nbase number.digits
  first : number.digits.head? ≠ some 0
  last : number.digits.getLast? ≠ some 0

/-- Within the format: the ranges of the weight and of the display scale, and one form of zero. -/
structure Numeric.Formed (number : Numeric) : Prop extends number.Stripped where
  weight_low : -32768 ≤ number.weight
  weight_high : number.weight ≤ 32767
  dscale_low : 0 ≤ number.dscale
  dscale_high : number.dscale ≤ dscaleMax
  zero : number.digits = [] → number.sign = .positive ∧ number.weight = 0

namespace Var

def magnitude (number : Var) : ℚ := ofPlaces nbase number.digits * 10000 ^ number.low

def value (number : Var) : ℚ := number.sign.unit * number.magnitude

theorem cast_nbase : ((nbase : ℤ) : ℚ) = 10000 := by norm_num [nbase]

theorem nbase_pos : 0 < nbase := by decide

theorem power_pos (exponent : ℤ) : (0 : ℚ) < 10000 ^ exponent := zpow_pos (by norm_num) _

theorem cast_ofPlaces_append : (ofPlaces nbase (one ++ other) : ℚ) =
    ofPlaces nbase one * 10000 ^ other.length + ofPlaces nbase other := by
  rw [ofPlaces_append]
  push_cast
  rw [cast_nbase]

/-- Digits with zeros behind them are the digits at a higher power. -/
theorem ofPlaces_append_zeros {digits : List ℤ} {count : Nat} {low : ℤ} :
    (ofPlaces nbase (digits ++ replicate count 0) : ℚ) * 10000 ^ low =
      ofPlaces nbase digits * 10000 ^ (low + count) := by
  rw [cast_ofPlaces_append, ofPlaces_zeros, length_replicate, zpow_add₀ (by norm_num), zpow_natCast]
  ring

theorem ofPlaces_zeros_append {digits : List ℤ} {count : Nat} :
    ofPlaces nbase (replicate count 0 ++ digits) = ofPlaces nbase digits := by
  rw [ofPlaces_append, ofPlaces_zeros, zero_mul, zero_add]

end Var

theorem Numeric.value_eq (number : Numeric) : number.value = number.toVar.value := by
  obtain ⟨sign, weight, dscale, digits⟩ := number
  unfold Numeric.value Var.value Var.magnitude Var.low Numeric.toVar
  dsimp only
  induction digits generalizing weight with
  | nil => simp
  | cons digit digits ih =>
    have behind := ih (weight - 1)
    rw [length_cons, Finset.sum_range_succ', ofPlaces_cons]
    have shift : ∑ index ∈ Finset.range digits.length,
        (sign.unit : ℚ) * (digit :: digits).getD (index + 1) 0 * 10000 ^ (weight - ((index + 1 : ℕ) : ℤ)) =
        ∑ index ∈ Finset.range digits.length,
          (sign.unit : ℚ) * digits.getD index 0 * 10000 ^ (weight - 1 - (index : ℤ)) := by
      refine Finset.sum_congr rfl fun index _ => ?_
      congr 2
      push_cast
      ring
    have low : weight + 1 - ((digits.length + 1 : ℕ) : ℤ) = weight - 1 + 1 - (digits.length : ℤ) := by
      push_cast
      ring
    have top : (10000 : ℚ) ^ weight = 10000 ^ digits.length * 10000 ^ (weight - 1 + 1 - (digits.length : ℤ)) := by
      rw [← zpow_natCast, ← zpow_add₀ (by norm_num)]
      congr 1
      ring
    rw [shift, behind, low, getD_cons_zero]
    push_cast
    rw [Var.cast_nbase, sub_zero, top]
    ring

section Strip

theorem drop_zeros (digits : List ℤ) : digits.drop (digits.takeWhile (· = 0)).length = digits.dropWhile (· = 0) := by
  nth_rewrite 2 [← takeWhile_append_dropWhile (p := (· = 0)) (l := digits)]
  exact drop_left

/-- The digits between the zeros in front and the zeros behind. -/
theorem strip_split (digits : List ℤ) : ∃ behind : Nat, digits = replicate (digits.takeWhile (· = 0)).length 0 ++
      ((digits.dropWhile (· = 0)).rdropWhile (· = 0) ++ replicate behind 0) := by
  have front : digits.takeWhile (· = 0) = replicate (digits.takeWhile (· = 0)).length 0 :=
    eq_replicate_of_mem fun place member => by simpa using mem_takeWhile_imp member
  have back : (digits.dropWhile (· = 0)).rtakeWhile (· = 0) =
      replicate ((digits.dropWhile (· = 0)).rtakeWhile (· = 0)).length 0 :=
    eq_replicate_of_mem fun place member => by simpa using mem_rtakeWhile_imp member
  refine ⟨((digits.dropWhile (· = 0)).rtakeWhile (· = 0)).length, ?_⟩
  rw [← back, rdropWhile_append_rtakeWhile, ← front, takeWhile_append_dropWhile]

theorem strip_ends (digits : List ℤ) : ((digits.dropWhile (· = 0)).rdropWhile (· = 0)).head? ≠ some 0 ∧
    ((digits.dropWhile (· = 0)).rdropWhile (· = 0)).getLast? ≠ some 0 := by
  constructor
  · intro zero
    have first := head?_dropWhile_not (· = 0) digits
    obtain ⟨rest, same⟩ := rdropWhile_prefix (fun place : ℤ => decide (place = 0)) (digits.dropWhile (· = 0))
    have head : (digits.dropWhile (· = 0)).head? = some 0 := by
      rw [← same, head?_append, zero]
      rfl
    rw [head] at first
    simp at first
  intro zero
  have some_ : (digits.dropWhile (· = 0)).rdropWhile (· = 0) ≠ [] := by
    intro none_
    rw [none_] at zero
    cases zero
  have last := rdropWhile_last_not (fun place : ℤ => decide (place = 0)) (digits.dropWhile (· = 0)) some_
  rw [getLast?_eq_some_getLast some_, Option.some.injEq] at zero
  simp [zero] at last

end Strip

namespace Var
variable {number : Var}

theorem strip_eq : number.strip =
    if (number.digits.dropWhile (· = 0)).rdropWhile (· = 0) = [] then
      ⟨.positive, 0, number.dscale, []⟩
    else ⟨number.sign, number.weight - (number.digits.takeWhile (· = 0)).length, number.dscale,
      (number.digits.dropWhile (· = 0)).rdropWhile (· = 0)⟩ := by
  unfold strip
  dsimp only
  rw [drop_zeros]
  split
  · rename_i none_
    rw [none_]
  · rfl

@[simp] theorem strip_dscale : number.strip.dscale = number.dscale := by
  rw [strip_eq]
  split <;> rfl

theorem strip_digits : number.strip.digits = (number.digits.dropWhile (· = 0)).rdropWhile (· = 0) := by
  rw [strip_eq]
  split
  · rename_i none_
    exact none_.symm
  · rfl

theorem strip_value : number.strip.value = number.value := by
  obtain ⟨behind, split_⟩ := strip_split number.digits
  have kept : number.magnitude = ofPlaces nbase ((number.digits.dropWhile (· = 0)).rdropWhile (· = 0)) *
      10000 ^ (number.low + behind) := by
    unfold magnitude
    rw [← ofPlaces_append_zeros, ← @ofPlaces_zeros_append (_ ++ _) (number.digits.takeWhile (· = 0)).length, ← split_]
  rw [strip_eq]
  split
  · rename_i none_
    rw [none_, ofPlaces_nil, Int.cast_zero, zero_mul] at kept
    rw [value, value, kept, mul_zero, magnitude, ofPlaces_nil, Int.cast_zero, zero_mul, mul_zero]
  unfold value
  congr 1
  rw [kept, magnitude]
  congr 1
  have length_eq := congrArg length split_
  simp only [length_append, length_replicate] at length_eq
  unfold low
  dsimp only
  congr 1
  omega

structure Sound (number : Var) : Prop where
  finite : number.sign.isFinite = true
  digits : Digits nbase number.digits

theorem Sound.strip (sound : number.Sound) : number.strip.Sound := by
  refine ⟨?_, ?_⟩
  · rw [strip_eq]
    split
    · rfl
    · exact sound.finite
  · rw [strip_digits]
    exact sound.digits.sublist (( rdropWhile_prefix _ _).sublist.trans (dropWhile_sublist _))

theorem magnitude_nonneg (digits : Digits nbase number.digits) : 0 ≤ number.magnitude :=
  mul_nonneg (by exact_mod_cast digits.nonneg) (power_pos _).le

/-- The first digit that is not zero tells how large a value is. -/
theorem magnitude_bounds (digits : Digits nbase number.digits) (some_ : number.digits ≠ [])
    (first : number.digits.head? ≠ some 0) :
    10000 ^ number.weight ≤ number.magnitude ∧ number.magnitude < 10000 ^ (number.weight + 1) := by
  obtain ⟨sign, weight, dscale, places⟩ := number
  obtain ⟨place, places, rfl⟩ := exists_cons_of_ne_nil some_
  unfold magnitude low
  have low_le : ((10000 ^ places.length : ℤ) : ℚ) ≤ ofPlaces nbase (place :: places) := by
    exact_mod_cast digits.le_of_first (fun zero => first (by rw [zero, head?_cons]))
  have high_lt : (ofPlaces nbase (place :: places) : ℚ) < ((10000 ^ (places.length + 1) : ℤ) : ℚ) := by
    exact_mod_cast digits.lt nbase_pos
  push_cast at low_le high_lt
  have power := power_pos (weight + 1 - ((place :: places).length : ℤ))
  have weight_eq : (10000 : ℚ) ^ weight = 10000 ^ places.length *
      10000 ^ (weight + 1 - ((place :: places).length : ℤ)) := by
    rw [← zpow_natCast, ← zpow_add₀ (by norm_num), length_cons]
    congr 1
    push_cast
    ring
  rw [zpow_add_one₀ (by norm_num), weight_eq]
  rw [pow_succ] at high_lt
  exact ⟨mul_le_mul_of_nonneg_right low_le power.le, by nlinarith⟩

theorem abs_value (sound : number.Sound) : |number.value| = number.magnitude := by
  have nonneg := magnitude_nonneg sound.digits
  have finite := sound.finite
  unfold value
  cases sign : number.sign with
  | positive | negative => simp [NumericSign.unit, abs_of_nonneg nonneg]
  | nan | infinity | negativeInfinity => simp [sign, NumericSign.isFinite] at finite

theorem value_eq_zero (sound : number.Sound) (first : number.digits.head? ≠ some 0) :
    number.value = 0 ↔ number.digits = [] := by
  constructor
  · intro zero
    by_contra some_
    have bounds := magnitude_bounds sound.digits some_ first
    have magnitude_zero := abs_value sound
    have := power_pos number.weight
    rw [zero, abs_zero] at magnitude_zero
    linarith
  · intro none_
    rw [value, magnitude, none_]
    simp

/-- Two values stripped of zeros that are the same number have their first digit at the same power. -/
theorem weight_unique {other : Var} (sound : number.Sound) (sound_other : other.Sound)
    (first : number.digits.head? ≠ some 0)
    (first_other : other.digits.head? ≠ some 0) (zero : number.digits = [] → number.weight = 0)
    (zero_other : other.digits = [] → other.weight = 0) (same : number.value = other.value) :
    number.weight = other.weight := by
  have magnitudes : number.magnitude = other.magnitude := by rw [← abs_value sound, ← abs_value sound_other, same]
  by_cases none_ : number.digits = []
  · rw [zero none_, zero_other ((value_eq_zero sound_other first_other).mp
      (same ▸ (value_eq_zero sound first).mpr none_))]
  have some_other : other.digits ≠ [] := fun none_other =>
    none_ ((value_eq_zero sound first).mp (same ▸ (value_eq_zero sound_other first_other).mpr none_other))
  have bounds := magnitude_bounds sound.digits none_ first
  have bounds_other := magnitude_bounds sound_other.digits some_other first_other
  have up := (zpow_lt_zpow_iff_right₀ (by norm_num : (1 : ℚ) < 10000)).mp
    (bounds.1.trans_lt (magnitudes ▸ bounds_other.2))
  have down := (zpow_lt_zpow_iff_right₀ (by norm_num : (1 : ℚ) < 10000)).mp
    (bounds_other.1.trans_lt (magnitudes ▸ bounds.2))
  omega

end Var

/-- A value within the format that is a number, with a display scale. -/
structure Numeric.Is (number : Numeric) (value : ℚ) (dscale : ℤ) : Prop where
  formed : number.Formed
  value : number.value = value
  dscale : number.dscale = dscale

/-- An operation gives a number with a display scale where the format holds it, and the error of an overflow where it
does not. -/
def Gives (result : Except TypeError Numeric) (value : ℚ) (dscale : ℤ) : Prop :=
  (∃ number : Numeric, result = .ok number ∧ number.Is value dscale) ∨
    (result = .error overflow ∧ ∀ number : Numeric, ¬number.Is value dscale)

theorem Numeric.Stripped.sound {number : Numeric} (stripped : number.Stripped) : number.toVar.Sound :=
  ⟨stripped.finite, stripped.digits⟩

theorem Var.make_gives {number : Var} (sound : number.Sound) : Gives number.make number.value number.dscale := by
  have stripped := sound.strip
  have ends := strip_ends number.digits
  rw [← Var.strip_digits] at ends
  have zero : number.strip.digits = [] → number.strip.sign = .positive ∧ number.strip.weight = 0 := by
    rw [Var.strip_digits, Var.strip_eq]
    intro none_
    rw [if_pos none_]
    exact ⟨rfl, rfl⟩
  unfold Var.make
  rw [sound.finite, if_neg (show ¬(!true) = true by decide)]
  dsimp only
  split
  · rename_i fits
    refine .inl ⟨_, rfl, ⟨⟨stripped.finite, stripped.digits, ends.1, ends.2⟩, fits.1,
      fits.2.1, fits.2.2.1, fits.2.2.2.2, zero⟩,
      ?_, Var.strip_dscale⟩
    rw [Numeric.value_eq]
    exact Var.strip_value
  rename_i beyond
  refine .inr ⟨rfl, fun other is => beyond ?_⟩
  have weight : number.strip.weight = other.toVar.weight :=
    Var.weight_unique stripped is.formed.sound ends.1 is.formed.first (fun none_ => (zero none_).2)
      (fun none_ => (is.formed.zero none_).2) (by rw [Var.strip_value, ← Numeric.value_eq, is.value])
  have := is.formed.weight_low
  have := is.formed.weight_high
  have := is.formed.dscale_low
  have := is.formed.dscale_high
  have same := is.dscale
  rw [Var.strip_dscale, weight]
  unfold Numeric.toVar dscaleMax at *
  dsimp only
  omega

end Rudb.Pgtypes
