import Mathlib.Tactic.Linarith
import Mathlib.Tactic.LinearCombination
import Mathlib.Tactic.Positivity
import Mathlib.Tactic.Ring

/-! Numbers written in a base, the most significant place first, and passes over the places that carry. -/
namespace Rudb.Lib
open List
variable {base : ℤ}

def ofPlaces (base : ℤ) : List ℤ → ℤ
  | [] => 0
  | place :: places => place * base ^ places.length + ofPlaces base places

def Digits (base : ℤ) (places : List ℤ) : Prop := ∀ place ∈ places, 0 ≤ place ∧ place < base

instance (places : List ℤ) : Decidable (Digits base places) := inferInstanceAs (Decidable (∀ place ∈ places, _))

variable {place : ℤ} {places others : List ℤ}

@[simp] theorem ofPlaces_nil : ofPlaces base [] = 0 := rfl

theorem ofPlaces_cons : ofPlaces base (place :: places) = place * base ^ places.length + ofPlaces base places := rfl

@[simp] theorem ofPlaces_singleton : ofPlaces base [place] = place := by simp [ofPlaces]

theorem ofPlaces_append : ofPlaces base (places ++ others) =
    ofPlaces base places * base ^ others.length + ofPlaces base others := by
  induction places with
  | nil => simp
  | cons place places ih =>
    rw [cons_append, ofPlaces_cons, ofPlaces_cons, ih, length_append]
    ring

theorem ofPlaces_concat : ofPlaces base (places ++ [place]) = ofPlaces base places * base + place := by
  rw [ofPlaces_append]
  simp

theorem ofPlaces_take_succ {count : Nat} (inside : count < places.length) :
    ofPlaces base (places.take (count + 1)) = ofPlaces base (places.take count) * base + places[count] := by
  rw [take_succ_eq_append_getElem inside, ofPlaces_concat]

@[simp] theorem ofPlaces_zeros (count : Nat) : ofPlaces base (replicate count 0) = 0 := by
  induction count with
  | zero => rfl
  | succ count ih => rw [replicate_succ, ofPlaces_cons, ih, zero_mul, zero_add]

@[simp] theorem digits_nil : Digits base [] := fun _ absurd_ => by cases absurd_

theorem digits_cons : Digits base (place :: places) ↔ (0 ≤ place ∧ place < base) ∧ Digits base places := by simp [Digits]

theorem digits_append : Digits base (places ++ others) ↔ Digits base places ∧ Digits base others := by
  simp only [Digits, mem_append]
  exact ⟨fun all => ⟨fun place member => all place (.inl member), fun place member => all place (.inr member)⟩,
    fun ⟨left, right⟩ place member => member.elim (left place) (right place)⟩

theorem Digits.sublist (digits : Digits base places) (part : others.Sublist places) : Digits base others :=
  fun place member => digits place (part.subset member)

theorem Digits.nonneg (digits : Digits base places) : 0 ≤ ofPlaces base places := by
  induction places with
  | nil => exact le_rfl
  | cons place places ih =>
    obtain ⟨⟨low, high⟩, digits⟩ := digits_cons.mp digits
    have positive : 0 ≤ base ^ places.length := pow_nonneg (by omega) _
    exact add_nonneg (mul_nonneg low positive) (ih digits)

theorem Digits.lt (digits : Digits base places) (positive : 0 < base) : ofPlaces base places < base ^ places.length := by
  induction places with
  | nil => simp
  | cons place places ih =>
    obtain ⟨⟨low, high⟩, digits⟩ := digits_cons.mp digits
    have above : 0 < base ^ places.length := pow_pos positive _
    rw [ofPlaces_cons, length_cons, pow_succ]
    nlinarith [ih digits]

/-- A first place that is not zero fixes how large the number is. -/
theorem Digits.le_of_first (digits : Digits base (place :: places)) (some_ : place ≠ 0) :
    base ^ places.length ≤ ofPlaces base (place :: places) := by
  obtain ⟨⟨low, high⟩, rest⟩ := digits_cons.mp digits
  have positive : 0 ≤ base ^ places.length := pow_nonneg (by omega) _
  have one : 1 ≤ place := by omega
  rw [ofPlaces_cons]
  nlinarith [rest.nonneg]

/-- The places written from the last one on with what is over carried to the next, and what is left over. -/
def carried (base : ℤ) : List ℤ → ℤ × List ℤ
  | [] => (0, [])
  | place :: places =>
    let (carry, written) := carried base places
    ((place + carry) / base, (place + carry) % base :: written)

theorem carried_cons : carried base (place :: places) =
    ((place + (carried base places).1) / base,
      (place + (carried base places).1) % base :: (carried base places).2) := rfl

@[simp] theorem length_carried : (carried base places).2.length = places.length := by
  induction places with
  | nil => rfl
  | cons place places ih => rw [carried_cons, length_cons, ih, length_cons]

theorem digits_carried (positive : 0 < base) : Digits base (carried base places).2 := by
  induction places with
  | nil => exact digits_nil
  | cons place places ih =>
    rw [carried_cons, digits_cons]
    exact ⟨⟨Int.emod_nonneg _ (by omega), Int.emod_lt_of_pos _ positive⟩, ih⟩

/-- Carrying keeps the number. -/
theorem ofPlaces_carried : ofPlaces base places =
    (carried base places).1 * base ^ places.length + ofPlaces base (carried base places).2 := by
  induction places with
  | nil => simp [carried]
  | cons place places ih =>
    have split := Int.mul_ediv_add_emod (place + (carried base places).1) base
    rw [carried_cons, ofPlaces_cons, ofPlaces_cons, length_carried, ih, length_cons]
    linear_combination (-(base ^ places.length)) * split

/-- The carry is what is above the places, and the places write the rest. -/
theorem carried_spec (positive : 0 < base) : ofPlaces base places / base ^ places.length = (carried base places).1 ∧
    ofPlaces base places % base ^ places.length = ofPlaces base (carried base places).2 := by
  have written := @digits_carried base places positive
  rw [Int.ediv_emod_unique (pow_pos positive _)]
  refine ⟨by linarith [@ofPlaces_carried base places], written.nonneg, ?_⟩
  simpa using written.lt positive

end Rudb.Lib
