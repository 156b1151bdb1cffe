import Rudb.Pgtypes.NumericDiv

/-! The algorithm of Euclid on `numeric` values ends, with the largest number of which both are multiples. -/
namespace Rudb.Pgtypes
open Rudb.Lib

def Multiple (unit number : ℚ) : Prop := ∃ count : ℤ, number = count * unit

/-- The largest positive number of which two are multiples. -/
structure Greatest (greatest one other : ℚ) : Prop where
  positive : 0 < greatest
  of_one : Multiple greatest one
  of_other : Multiple greatest other
  most : ∀ unit, 0 < unit → Multiple unit one → Multiple unit other → unit ≤ greatest

section Multiple
theorem Multiple.zero : Multiple unit 0 := ⟨0, by simp⟩

theorem Multiple.self : Multiple unit unit := ⟨1, by simp⟩

theorem Multiple.neg (multiple : Multiple unit one) : Multiple unit (-one) := by
  obtain ⟨count, rfl⟩ := multiple
  exact ⟨-count, by push_cast; ring⟩

theorem Multiple.abs_iff : Multiple unit |one| ↔ Multiple unit one := by
  rcases abs_choice one with same | negated
  · rw [same]
  · rw [negated]
    exact ⟨fun multiple => by simpa using multiple.neg, Multiple.neg⟩

/-- Taking a count of one away from the other keeps the common units. -/
theorem Multiple.sub_mul (multiple : Multiple unit one) (multiple_other : Multiple unit other) (times : ℤ) :
    Multiple unit (one - other * times) := by
  obtain ⟨count, rfl⟩ := multiple
  obtain ⟨count_other, rfl⟩ := multiple_other
  exact ⟨count - count_other * times, by push_cast; ring⟩

theorem Multiple.of_sub_mul {times : ℤ} (multiple : Multiple unit (one - other * times))
    (multiple_other : Multiple unit other) :
    Multiple unit one := by
  obtain ⟨count, same⟩ := multiple
  obtain ⟨count_other, rfl⟩ := multiple_other
  exact ⟨count + count_other * times, by push_cast; linear_combination same⟩

/-- A positive number whose units are the common units of two is the largest of them. -/
theorem greatest_of_units (positive : 0 < greatest)
    (units : ∀ unit, Multiple unit greatest ↔ Multiple unit one ∧ Multiple unit other) :
    Greatest greatest one other := by
  obtain ⟨of_one, of_other⟩ := (units greatest).mp Multiple.self
  refine ⟨positive, of_one, of_other, fun unit unit_pos multiple multiple_other => ?_⟩
  obtain ⟨count, same⟩ := (units unit).mpr ⟨multiple, multiple_other⟩
  have count_pos : 0 < count := by
    by_contra none_
    have : (count : ℚ) ≤ 0 := by exact_mod_cast not_lt.mp none_
    have := mul_nonpos_of_nonpos_of_nonneg this unit_pos.le
    linarith
  have : (1 : ℚ) ≤ count := by exact_mod_cast count_pos
  nlinarith

end Multiple

/-- The quotient cut toward zero is a count, and leaves less than the divisor. -/
theorem cutToward_rest {one other : ℚ} (some_ : other ≠ 0) :
    ∃ times : ℤ, cutToward 0 (one / other) = times ∧ |one - other * times| < |other| := by
  have less (times : ℤ) (near : |one / other - times| < 1) : |one - other * times| < |other| := by
    rw [show one - other * times = other * (one / other - times) by field_simp, abs_mul]
    exact mul_lt_of_lt_one_right (abs_pos.mpr some_) near
  rw [cutToward_zero]
  split
  · refine ⟨⌊one / other⌋, rfl, less _ ?_⟩
    have low := Int.floor_le (one / other)
    have high := Int.lt_floor_add_one (one / other)
    rw [abs_lt]
    constructor <;> linarith
  · refine ⟨⌈one / other⌉, rfl, less _ ?_⟩
    have low := Int.le_ceil (one / other)
    have high := Int.ceil_lt_add_one (one / other)
    rw [abs_lt]
    constructor <;> linarith

namespace Var

theorem gcdLoop_mono (enough : gcdLoop rounds one other = some found) (le : rounds ≤ more) :
    gcdLoop more one other = some found := by
  induction rounds generalizing more one other with
  | zero => cases enough
  | succ rounds ih =>
    obtain ⟨more, rfl⟩ : ∃ before, more = before + 1 := ⟨more - 1, by omega⟩
    rw [gcdLoop] at enough ⊢
    split at enough
    · rename_i none_
      rw [if_pos none_]
      exact enough
    · rename_i some_
      rw [if_neg some_]
      exact ih enough (Nat.le_of_succ_le_succ le)

/-- The loop ends with a value whose units are the common units of both: each round the second value is a smaller
count of a unit of both. -/
theorem gcdLoop_spec {unit : ℚ} {count count_other : ℤ} (sound : one.Sound) (sound_other : other.Sound)
    (first : other.digits.head? ≠ some 0) (some_ : other.digits ≠ []) (one_eq : one.value = count * unit)
    (other_eq : other.value = count_other * unit) (enough : count_other.natAbs ≤ rounds) :
    ∃ found, gcdLoop rounds one other = some found ∧ found.Sound ∧ found.value ≠ 0 ∧
      ∀ common, Multiple common found.value ↔ Multiple common one.value ∧ Multiple common other.value := by
  induction rounds generalizing one other count count_other with
  | zero =>
    have zero : count_other = 0 := by omega
    rw [zero, Int.cast_zero, zero_mul] at other_eq
    exact absurd ((value_eq_zero sound_other first).mp other_eq) some_
  | succ rounds ih =>
    have other_ne : other.value ≠ 0 := fun zero => some_ ((value_eq_zero sound_other first).mp zero)
    obtain ⟨rest_sound, -, rest_eq⟩ := modulo_spec sound sound_other some_ first
    obtain ⟨times, cut, less⟩ := @cutToward_rest one.value other.value other_ne
    rw [cut] at rest_eq
    have rest_first : (one.modulo other).digits.head? ≠ some 0 := add_first
    rw [gcdLoop]
    split
    · rename_i none_
      have zero := (value_eq_zero rest_sound rest_first).mpr none_
      refine ⟨other, rfl, sound_other, other_ne, fun common => ⟨fun multiple => ⟨?_, multiple⟩, And.right⟩⟩
      rw [rest_eq] at zero
      exact Multiple.of_sub_mul (zero ▸ Multiple.zero) multiple
    rename_i more
    have fewer : (count - count_other * times).natAbs < count_other.natAbs := by
      rw [one_eq, other_eq] at less
      have left : (count : ℚ) * unit - count_other * unit * times = ((count - count_other * times : ℤ) : ℚ) * unit := by
        push_cast
        ring
      rw [left, abs_mul, abs_mul] at less
      have := lt_of_mul_lt_mul_right less (abs_nonneg _)
      have fewer : |count - count_other * times| < |count_other| := by exact_mod_cast this
      rw [Int.abs_eq_natAbs, Int.abs_eq_natAbs] at fewer
      exact_mod_cast fewer
    obtain ⟨found, same, found_sound, found_ne, units⟩ :=
      @ih other (one.modulo other) count_other (count - count_other * times)
      sound_other rest_sound rest_first more other_eq (by rw [rest_eq, one_eq, other_eq]; push_cast; ring) (by omega)
    refine ⟨found, same, found_sound, found_ne, fun common => ?_⟩
    rw [units, rest_eq]
    exact ⟨fun ⟨multiple, rest⟩ => ⟨rest.of_sub_mul multiple, multiple⟩,
      fun ⟨multiple, multiple_other⟩ => ⟨multiple_other, multiple.sub_mul multiple_other times⟩⟩

/-- A power of 10000 is a unit of every value whose digits end above it. -/
theorem multiple_of_low {number : Var} {low : ℤ} (below : low ≤ number.low) : Multiple (10000 ^ low) number.value := by
  refine ⟨number.sign.unit * (ofPlaces nbase number.digits * 10000 ^ (number.low - low).toNat), ?_⟩
  have power : (10000 : ℚ) ^ number.low = 10000 ^ (number.low - low).toNat * 10000 ^ low := by
    rw [← zpow_natCast, ← zpow_add₀ (by norm_num)]
    congr 1
    omega
  rw [value, magnitude, power]
  push_cast
  ring

/-- From the one value and the other the loop, or the first of them, has the common units of both. -/
theorem gcdFrom_spec (sound : one.Sound) (sound_other : other.Sound) (first_other : other.digits.head? ≠ some 0)
    (some_ : one.value ≠ 0 ∨ other.value ≠ 0) : ∃ rounds found,
      (∀ more ≥ rounds, (if other.digits ≠ [] ∧ one.cmpAbs other ≠ .eq then gcdLoop more one other else some one) =
        some found) ∧
        found.Sound ∧ found.value ≠ 0 ∧
        ∀ common, Multiple common found.value ↔ Multiple common one.value ∧ Multiple common other.value := by
  by_cases loop : other.digits ≠ [] ∧ one.cmpAbs other ≠ .eq
  · obtain ⟨count, one_eq⟩ := multiple_of_low (min_le_left one.low other.low)
    obtain ⟨count_other, other_eq⟩ := multiple_of_low (min_le_right one.low other.low)
    obtain ⟨found, same, found_sound, found_ne, units⟩ :=
      gcdLoop_spec sound sound_other first_other loop.1 one_eq other_eq le_rfl
    refine ⟨count_other.natAbs, found, fun more le => ?_, found_sound, found_ne, units⟩
    rw [if_pos loop]
    exact gcdLoop_mono same le
  refine ⟨0, one, fun more _ => if_neg loop, sound, ?_, fun common => ?_⟩
  · rcases not_and_or.mp loop with none_ | same
    · exact some_.resolve_right fun other_ne => other_ne ((value_eq_zero sound_other first_other).mpr (not_not.mp none_))
    · intro zero
      rw [cmpAbs_eq sound sound_other, not_not, compare_eq_iff_eq, ← abs_value sound,
        ← abs_value sound_other, zero] at same
      exact some_.elim (fun one_ne => one_ne zero) (fun other_ne => other_ne (abs_eq_zero.mp same.symm))
  refine ⟨fun multiple => ⟨multiple, ?_⟩, And.left⟩
  rcases not_and_or.mp loop with none_ | same
  · rw [(value_eq_zero sound_other first_other).mpr (not_not.mp none_)]
    exact Multiple.zero
  · rw [cmpAbs_eq sound sound_other, not_not, compare_eq_iff_eq, ← abs_value sound, ← abs_value sound_other] at same
    rw [← Multiple.abs_iff, ← same, Multiple.abs_iff]
    exact multiple

/-- `gcd` ends, with the largest positive number of which both values are multiples, where one of them is not zero. -/
theorem gcd_spec {one : Var} (sound : one.Sound) (sound_other : other.Sound) (first : one.digits.head? ≠ some 0)
    (first_other : other.digits.head? ≠ some 0) (some_ : one.value ≠ 0 ∨ other.value ≠ 0) :
    ∃ rounds found, (∀ more ≥ rounds, one.gcd more other = some found) ∧ found.Sound ∧
      found.dscale = max one.dscale other.dscale ∧ Greatest found.value one.value other.value := by
  have last (rounds : Nat) {found : Var} (found_sound : found.Sound) (found_ne : found.value ≠ 0)
      (units : ∀ common, Multiple common found.value ↔ Multiple common one.value ∧ Multiple common other.value)
      (ends : ∀ more ≥ rounds, one.gcd more other =
        some { found with sign := .positive, dscale := max one.dscale other.dscale }) :
      ∃ rounds found, (∀ more ≥ rounds, one.gcd more other = some found) ∧ found.Sound ∧
        found.dscale = max one.dscale other.dscale ∧ Greatest found.value one.value other.value := by
    refine ⟨rounds, _, ends, ⟨rfl, found_sound.digits⟩, rfl, ?_⟩
    have positive : (⟨.positive, found.weight, max one.dscale other.dscale, found.digits⟩ : Var).value =
        |found.value| := by
      rw [@value_mk .positive, abs_value found_sound, magnitude, low]
      simp [NumericSign.unit]
    rw [positive]
    exact greatest_of_units (abs_pos.mpr found_ne) fun common => by rw [Multiple.abs_iff, units]
  by_cases less : one.cmpAbs other = .lt
  · obtain ⟨rounds, found, ends, found_sound, found_ne, units⟩ := gcdFrom_spec sound_other sound first some_.symm
    refine last rounds found_sound found_ne (fun common => (units common).trans And.comm) fun more le => ?_
    rw [gcd, if_pos less]
    dsimp only
    rw [ends more le]
    rfl
  obtain ⟨rounds, found, ends, found_sound, found_ne, units⟩ := gcdFrom_spec sound sound_other first_other some_
  refine last rounds found_sound found_ne units fun more le => ?_
  rw [gcd, if_neg less]
  dsimp only
  rw [ends more le]
  rfl

end Var

namespace Numeric
variable {one other : Numeric}

/-- `gcd` ends and gives the largest positive number of which both values are multiples. -/
theorem gcd_gives (stripped : one.Stripped) (stripped_other : other.Stripped) (some_ : one.value ≠ 0 ∨ other.value ≠ 0) :
    ∃ rounds result greatest, (∀ more ≥ rounds, one.gcd more other = some result) ∧
      Greatest greatest one.value other.value ∧
      Gives result greatest (max one.dscale other.dscale) := by
  rw [value_eq, value_eq] at some_
  obtain ⟨rounds, found, ends, sound, dscale, greatest⟩ :=
    Var.gcd_spec stripped.sound stripped_other.sound stripped.first stripped_other.first some_
  have made := Var.make_gives sound
  rw [dscale] at made
  refine ⟨rounds, found.make, found.value, fun more le => ?_, by rwa [value_eq, value_eq], made⟩
  rw [gcd, finite_both stripped stripped_other, ends more le]
  rfl

theorem gcd_zero (stripped : one.Stripped) (stripped_other : other.Stripped) (zero : one.value = 0)
    (zero_other : other.value = 0) (rounds : Nat) :
    ∃ result, one.gcd rounds other = some result ∧ Gives result 0 (max one.dscale other.dscale) := by
  rw [value_eq] at zero zero_other
  have none_ := (Var.value_eq_zero stripped.sound stripped.first).mp zero
  have none_other := (Var.value_eq_zero stripped_other.sound stripped_other.first).mp zero_other
  have gives (weight : ℤ) : Gives (⟨.positive, weight, max one.dscale other.dscale, []⟩ : Var).make 0
      (max one.dscale other.dscale) := by
    have made := @Var.make_gives ⟨.positive, weight, max one.dscale other.dscale, []⟩ ⟨rfl, digits_nil⟩
    simpa [Var.value, Var.magnitude] using made
  by_cases less : one.toVar.cmpAbs other.toVar = .lt
  · refine ⟨_, ?_, gives other.weight⟩
    change _ = some (Var.make ⟨.positive, other.toVar.weight, max one.toVar.dscale other.toVar.dscale, []⟩)
    simp [gcd, finite_both stripped stripped_other, Var.gcd, less, none_, none_other]
  · refine ⟨_, ?_, gives one.weight⟩
    change _ = some (Var.make ⟨.positive, one.toVar.weight, max one.toVar.dscale other.toVar.dscale, []⟩)
    simp [gcd, finite_both stripped stripped_other, Var.gcd, less, none_, none_other]

/-- The arithmetic of finite values is exact decimal arithmetic: each operation gives its number where the format
holds it, and no errors but those of an overflow and of a division by zero. A product is rounded at the sum of the
display scales, and so exact where neither side has digits below its own. A greatest common divisor is one where not
both sides are zero, and zero where they are. -/
theorem arithmetic_exact (stripped : one.Stripped) (stripped_other : other.Stripped) :
    Gives (one.add other) (one.value + other.value) (max one.dscale other.dscale) ∧
    Gives (one.sub other) (one.value - other.value) (max one.dscale other.dscale) ∧
    (one.Shown → other.Shown → one.dscale + other.dscale ≤ 16383 →
      Gives (one.mul other) (one.value * other.value) (one.dscale + other.dscale)) ∧
    Gives (one.mul other) (roundAway (min (one.dscale + other.dscale) 16383) (one.value * other.value))
      (min (one.dscale + other.dscale) 16383) ∧
    (other.value ≠ 0 →
      Gives (one.div other) (roundAway (one.toVar.selectDivScale other.toVar) (one.value / other.value))
        (one.toVar.selectDivScale other.toVar) ∧
      Gives (one.modulo other)
        (one.value - other.value *
          if 0 ≤ one.value / other.value then (⌊one.value / other.value⌋ : ℚ) else ⌈one.value / other.value⌉)
        (max one.dscale other.dscale)) ∧
    (other.value = 0 → one.div other = .error divisionByZero ∧ one.modulo other = .error divisionByZero) ∧
    (one.value ≠ 0 ∨ other.value ≠ 0 →
      ∃ rounds result greatest, (∀ more ≥ rounds, one.gcd more other = some result) ∧
        Greatest greatest one.value other.value ∧ Gives result greatest (max one.dscale other.dscale)) ∧
    (one.value = 0 → other.value = 0 →
      ∀ rounds, ∃ result, one.gcd rounds other = some result ∧ Gives result 0 (max one.dscale other.dscale)) := by
  refine ⟨add_gives stripped stripped_other, sub_gives stripped stripped_other,
    fun shown shown_other fits => mul_gives_exactly stripped stripped_other shown shown_other fits,
    mul_gives stripped stripped_other, fun some_ => ⟨div_gives stripped stripped_other some_, ?_⟩,
    div_zero_error stripped stripped_other, gcd_gives stripped stripped_other, gcd_zero stripped stripped_other⟩
  have rest := modulo_gives stripped stripped_other some_
  rwa [cutToward_zero] at rest

/-- One and a half shown with no digit after the point. -/
def hidden : Numeric := ⟨.positive, 0, 0, [1, 5000]⟩

def two : Numeric := ⟨.positive, 0, 0, [2]⟩

theorem hidden_stripped : hidden.Stripped where
  finite := rfl
  digits := by decide
  first := by decide
  last := by decide

theorem two_stripped : two.Stripped where
  finite := rfl
  digits := by decide
  first := by decide
  last := by decide

theorem two_value : two.value = 2 := by simp [value, two, NumericSign.unit]

/-- Twenty thousand and one, of two digits. -/
def long : Numeric := ⟨.positive, 1, 0, [2, 1]⟩

theorem arithmetic_exact_long : long.Stripped ∧ long.Shown ∧ long.value ≠ 0 ∧
    Gives (two.mul long) (two.value * long.value) (two.dscale + long.dscale) ∧
    Gives (two.div long) (roundAway (two.toVar.selectDivScale long.toVar) (two.value / long.value))
      (two.toVar.selectDivScale long.toVar) ∧
    ∃ rounds result greatest, (∀ more ≥ rounds, two.gcd more long = some result) ∧
      Greatest greatest two.value long.value ∧ Gives result greatest (max two.dscale long.dscale) := by
  have stripped : long.Stripped := ⟨rfl, by decide, by decide, by decide⟩
  have value_long : long.value = 20001 := by
    norm_num [value, long, NumericSign.unit, Finset.sum_range_succ]
  have shown : two.Shown := ⟨2, by rw [two_value]; simp [two]⟩
  have shown_long : long.Shown := ⟨20001, by rw [value_long]; simp [long]⟩
  have some_ : long.value ≠ 0 := by rw [value_long]; norm_num
  have all := arithmetic_exact two_stripped stripped
  exact ⟨stripped, shown_long, some_, all.2.2.1 shown shown_long (by decide), (all.2.2.2.2.1 some_).1,
    all.2.2.2.2.2.2.1 (.inr some_)⟩

/-- Digits below the display scale are rounded away by a product, and zero and zero have no largest common unit. -/
theorem hidden_digits_lost : hidden.Stripped ∧ hidden.dscale + hidden.dscale ≤ 16383 ∧
    (hidden.mul hidden = .ok two ∧ two.value ≠ hidden.value * hidden.value) ∧
    Numeric.gcd 0 ⟨.positive, 0, 0, []⟩ ⟨.positive, 0, 0, []⟩ = some (.ok ⟨.positive, 0, 0, []⟩) := by
  refine ⟨hidden_stripped, by decide, ⟨by decide, ?_⟩, by decide⟩
  rw [two_value]
  norm_num [value, hidden, NumericSign.unit, Finset.sum_range_succ]

end Numeric

end Rudb.Pgtypes
