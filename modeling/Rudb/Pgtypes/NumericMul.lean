import Rudb.Pgtypes.NumericRound

/-! Products of `numeric` values are exact, and rounded only where the format cannot show them. -/
namespace Rudb.Pgtypes
open Rudb.Lib List

namespace Var
variable {slots others : List ℤ}

theorem ofPlaces_modify (inside : index < slots.length) :
    ofPlaces nbase (slots.modify index (· + more)) =
      ofPlaces nbase slots + more * nbase ^ (slots.length - 1 - index) := by
  have place : slots[index] + more - slots.getD index 0 = more := by
    rw [getD_eq_getElem _ _ inside]
    ring
  rw [modify_eq_set_get _ inside, ofPlaces_set inside]
  simp only [get_eq_getElem, place]

/-- One row of the product: a digit times the other side, at the place of its power. -/
theorem mulRow_from {digit : ℤ} {place start : Nat} (inside : place + start + others.length < slots.length) :
    ((others.zipIdx start).foldl (fun slots other =>
      slots.modify (place + other.2 + 1) (· + digit * other.1)) slots).length =
        slots.length ∧
      ofPlaces nbase ((others.zipIdx start).foldl (fun slots other =>
        slots.modify (place + other.2 + 1) (· + digit * other.1)) slots) =
        ofPlaces nbase slots + digit * ofPlaces nbase others *
          nbase ^ (slots.length - 1 - (place + start + others.length)) := by
  induction others generalizing slots start with
  | nil => simp
  | cons other others ih =>
    simp only [length_cons] at inside
    obtain ⟨length_eq, number⟩ := @ih (slots.modify (place + start + 1) (· + digit * other)) (start + 1)
      (by rw [length_modify]; omega)
    rw [length_modify] at length_eq
    refine ⟨by rw [zipIdx_cons]; exact length_eq, ?_⟩
    rw [zipIdx_cons, foldl_cons, number, length_modify, ofPlaces_modify (by omega), ofPlaces_cons, length_cons]
    have power : nbase ^ (slots.length - 1 - (place + start + 1)) =
        nbase ^ others.length * nbase ^ (slots.length - 1 - (place + (start + 1) + others.length)) := by
      rw [← pow_add]
      congr 1
      omega
    rw [power, show place + start + (others.length + 1) = place + (start + 1) + others.length by omega]
    ring

theorem mulRow_spec {digit : ℤ} {place : Nat} (inside : place + others.length < slots.length) :
    (mulRow digit place others slots).length = slots.length ∧ ofPlaces nbase (mulRow digit place others slots) =
      ofPlaces nbase slots + digit * ofPlaces nbase others * nbase ^ (slots.length - 1 - (place + others.length)) :=
  @mulRow_from slots others digit place 0 inside

theorem mulRows_spec {ones : List ℤ} {start : Nat} (inside : start + ones.length + others.length ≤ slots.length) :
    ((ones.zipIdx start).foldl (fun slots digit => mulRow digit.1 digit.2 others slots) slots).length = slots.length ∧
      ofPlaces nbase ((ones.zipIdx start).foldl (fun slots digit => mulRow digit.1 digit.2 others slots) slots) =
        ofPlaces nbase slots + ofPlaces nbase ones * ofPlaces nbase others *
          nbase ^ (slots.length - (start + ones.length + others.length)) := by
  induction ones generalizing slots start with
  | nil => simp
  | cons digit ones ih =>
    simp only [length_cons] at inside
    obtain ⟨row_length, row⟩ := @mulRow_spec slots others digit start (by omega)
    obtain ⟨length_eq, number⟩ := @ih (mulRow digit start others slots) (start + 1) (by omega)
    refine ⟨by rw [zipIdx_cons]; exact length_eq.trans row_length, ?_⟩
    rw [zipIdx_cons, foldl_cons, number, row, row_length, ofPlaces_cons, length_cons]
    have power : nbase ^ (slots.length - 1 - (start + others.length)) =
        nbase ^ ones.length * nbase ^ (slots.length - (start + 1 + ones.length + others.length)) := by
      rw [← pow_add]
      congr 1
      omega
    rw [power, show start + (ones.length + 1) + others.length = start + 1 + ones.length + others.length by omega]
    ring

theorem times_unit {one : NumericSign} (finite : one.isFinite = true) (finite_other : other.isFinite = true) :
    (one.times other).unit = one.unit * other.unit ∧ (one.times other).isFinite = true := by
  cases one <;> cases other <;> simp_all [NumericSign.isFinite, NumericSign.unit, NumericSign.times]

theorem mul_spec {one : Var} (sound : one.Sound) (sound_other : other.Sound) :
    (one.mul other).Sound ∧ (one.mul other).value = one.value * other.value := by
  obtain ⟨unit, finite⟩ := times_unit sound.finite sound_other.finite
  unfold mul
  split
  · rename_i none_
    refine ⟨⟨rfl, digits_nil⟩, ?_⟩
    rcases none_ with none_ | none_
    · rw [value_mk, value, magnitude, none_]
      simp
    · rw [value_mk, value, value, magnitude, magnitude, none_]
      simp
  obtain ⟨length_eq, number⟩ := @mulRows_spec (List.replicate (one.digits.length + other.digits.length) 0) other.digits
    one.digits 0 (by simp)
  rw [strip_value, value_mk, unit]
  generalize (one.digits.zipIdx.foldl (fun slots digit => mulRow digit.1 digit.2 other.digits slots)
    (List.replicate (one.digits.length + other.digits.length) 0)) = slots at length_eq number ⊢
  rw [length_replicate] at length_eq
  rw [ofPlaces_zeros, length_replicate, Nat.zero_add, Nat.sub_self, pow_zero, mul_one, zero_add] at number
  have written := (@carried_spec nbase slots nbase_pos).2
  have product_low : 0 ≤ ofPlaces nbase slots := by
    rw [number]
    exact mul_nonneg sound.digits.nonneg sound_other.digits.nonneg
  have product_high : ofPlaces nbase slots < nbase ^ (one.digits.length + other.digits.length) := by
    rw [number, pow_add]
    exact mul_lt_mul'' (sound.digits.lt nbase_pos) (sound_other.digits.lt nbase_pos)
      sound.digits.nonneg sound_other.digits.nonneg
  rw [length_eq, Int.emod_eq_of_lt product_low product_high] at written
  refine ⟨Sound.strip ⟨finite, digits_carried nbase_pos⟩, ?_⟩
  rw [← written, number, length_carried, length_eq, value, value, magnitude, magnitude]
  have power : (10000 : ℚ) ^ (one.weight + other.weight + 1 + 1 - ((one.digits.length + other.digits.length : ℕ) : ℤ)) =
      10000 ^ one.low * 10000 ^ other.low := by
    rw [← zpow_add₀ (by norm_num)]
    congr 1
    unfold low
    push_cast
    ring
  rw [power]
  push_cast
  ring

end Var

namespace Numeric
variable {one : Numeric}

/-- `mul` gives the product rounded half away from zero at the sum of the display scales, or at the most the format
shows. -/
theorem mul_gives (stripped : one.Stripped) (stripped_other : other.Stripped) :
    Gives (one.mul other) (roundAway (min (one.dscale + other.dscale) dscaleMax) (one.value * other.value))
      (min (one.dscale + other.dscale) dscaleMax) := by
  obtain ⟨sound, product⟩ := Var.mul_spec stripped.sound stripped_other.sound
  obtain ⟨rounded, dscale, value_round⟩ := @Var.round_spec _ (min (one.dscale + other.dscale) dscaleMax) sound
  have made := Var.make_gives rounded
  rw [dscale, value_round, product, ← value_eq, ← value_eq] at made
  have finite : (!one.sign.isFinite || !other.sign.isFinite) = false := by
    rw [stripped.finite, stripped_other.finite]; rfl
  rw [mul, finite]
  exact made

/-- No digit below the display scale. -/
def Shown (number : Numeric) : Prop := ∃ units : ℤ, number.value * 10 ^ number.dscale = units

theorem roundAway_of_units {number : ℚ} {units : ℤ} (exact_ : number * 10 ^ scale = units) :
    roundAway scale number = number := by
  unfold roundAway mirrored
  split
  · exact Var.roundUp_of_units exact_
  · rw [@Var.roundUp_of_units scale (-number) (-units) (by rw [neg_mul, exact_]; push_cast; rfl), neg_neg]

/-- `mul` is exact where the format shows all the digits that both sides show. -/
theorem mul_gives_exactly (stripped : one.Stripped) (stripped_other : other.Stripped)
    (shown : one.Shown) (shown_other : other.Shown)
    (fits : one.dscale + other.dscale ≤ dscaleMax) :
    Gives (one.mul other) (one.value * other.value) (one.dscale + other.dscale) := by
  have product := mul_gives stripped stripped_other
  obtain ⟨units, shown⟩ := shown
  obtain ⟨units_other, shown_other⟩ := shown_other
  have whole : one.value * other.value * 10 ^ (one.dscale + other.dscale) = ((units * units_other : ℤ) : ℚ) := by
    rw [zpow_add₀ (by norm_num)]
    push_cast
    rw [← shown, ← shown_other]
    ring
  rw [min_eq_left fits, roundAway_of_units whole] at product
  exact product

end Numeric

end Rudb.Pgtypes
