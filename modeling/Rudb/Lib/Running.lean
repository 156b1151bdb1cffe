import Mathlib.Data.Nat.Notation
import Mathlib.Logic.Basic

/-! Two bits that are carried along a row of bits: whether an odd number of them is set so far, and
whether the last one escapes the next, where an escaped bit does not escape. -/
namespace Rudb.Lib

/-- Whether the first so many bits change a starting bit. -/
def parity (bits : Nat → Bool) (first : Bool) : Nat → Bool
  | 0 => first
  | count + 1 => parity bits first count ^^ bits count

/-- Whether a place is covered by an escape before it that is not covered itself. -/
def covered (escapes : Nat → Bool) (first : Bool) : Nat → Bool
  | 0 => first
  | place + 1 => escapes place && !covered escapes first place

section parity
variable {bits : Nat → Bool} {first : Bool}

theorem parity_add (start count : Nat) :
    parity bits first (start + count) = parity (fun place => bits (start + place)) (parity bits first start) count := by
  induction count with
  | zero => rfl
  | succ count ih => rw [← Nat.add_assoc, parity, parity, ih]

/-- Bits that are not set leave the parity as it is. -/
theorem parity_const {start count : Nat} (none_ : ∀ place, start ≤ place → place < start + count → bits place = false) :
    parity bits first (start + count) = parity bits first start := by
  induction count with
  | zero => rfl
  | succ count ih =>
    rw [← Nat.add_assoc, parity, none_ (start + count) (by omega) (by omega), Bool.xor_false]
    exact ih fun place ge lt => none_ place ge (by omega)

theorem parity_congr {other : Nat → Bool} {count : Nat} (same : ∀ place < count, bits place = other place) :
    parity bits first count = parity other first count := by
  induction count with
  | zero => rfl
  | succ count ih =>
    rw [parity, parity, same count (Nat.lt_succ_self _), ih fun place lt => same place (by omega)]

theorem parity_first (count : Nat) : parity bits first count = (parity bits false count ^^ first) := by
  induction count with
  | zero => exact (Bool.false_xor first).symm
  | succ count ih =>
    rw [parity, parity, ih, Bool.xor_assoc, Bool.xor_assoc, Bool.xor_comm first]

/-- The parity of a window of bits doubles its reach when it is added to the window before it. -/
theorem parity_window {reach place : Nat} {window : Nat → Bool}
    (is : ∀ place, window place = (parity bits false (place + 1) ^^ parity bits false (place + 1 - reach))) :
    (window place ^^ (decide (reach ≤ place) && window (place - reach))) =
      (parity bits false (place + 1) ^^ parity bits false (place + 1 - (reach + reach))) := by
  by_cases far : reach ≤ place
  · rw [decide_eq_true far, Bool.true_and, is, is, show place - reach + 1 = place + 1 - reach by omega,
      show place + 1 - reach - reach = place + 1 - (reach + reach) by omega]
    generalize parity bits false (place + 1 - reach) = middle
    cases middle <;> simp
  · rw [decide_eq_false far, Bool.false_and, is, Bool.xor_false, show place + 1 - reach = 0 by omega,
      show place + 1 - (reach + reach) = 0 by omega]

end parity

section covered
theorem covered_add (start count : Nat) : covered escapes first (start + count) =
      covered (fun place => escapes (start + place)) (covered escapes first start) count := by
  induction count with
  | zero => rfl
  | succ count ih => rw [← Nat.add_assoc, covered, covered, ih]

/-- Where there is no escape, nothing is covered. -/
theorem covered_none (free : covered escapes first start = false)
    (none_ : ∀ place, start ≤ place → place < start + count → escapes place = false) :
    covered escapes first (start + count) = false := by
  induction count with
  | zero => exact free
  | succ count _ =>
    rw [← Nat.add_assoc, covered, none_ (start + count) (by omega) (by omega), Bool.false_and]

theorem covered_congr (same : ∀ place < count, escapes place = other place) :
    covered escapes first count = covered other first count := by
  induction count with
  | zero => rfl
  | succ count ih =>
    rw [covered, covered, same count (Nat.lt_succ_self _), ih fun place lt => same place (by omega)]

end covered

end Rudb.Lib
