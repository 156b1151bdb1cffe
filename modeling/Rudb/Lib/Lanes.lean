import Mathlib.Data.Nat.Digits.Defs
import Mathlib.Tactic.Ring

/-! The bytes of a number worked on all at once: what is done to the number is done to each byte, as long as nothing
carries or shifts from one into the next. -/
namespace Rudb.Lib
open List Nat

variable {bytes : List Nat} {mask : Nat}

theorem and_split (one other : Nat) :
    one &&& other = (one % 256 &&& other % 256) + 256 * (one / 256 &&& other / 256) := by
  rw [show (256 : Nat) = 2 ^ 8 from rfl, ← Nat.and_mod_two_pow, ← Nat.and_div_two_pow, Nat.mod_add_div]

/-- A mask of each byte, after a shift that brings no bit of another byte under it. -/
theorem lanes_shift_and (shift : Nat) (fits : mask * 2 ^ shift < 256) (small : ∀ byte ∈ bytes, byte < 256) :
    ofDigits 256 bytes >>> shift &&& ofDigits 256 (replicate bytes.length mask) =
      ofDigits 256 (bytes.map fun byte => byte >>> shift &&& mask) := by
  have mask_small : mask < 256 := lt_of_le_of_lt (Nat.le_mul_of_pos_right _ (Nat.two_pow_pos shift)) fits
  induction bytes with
  | nil => simp
  | cons byte rest ih =>
    have byte_small := small byte mem_cons_self
    have later := ih fun byte member => small byte (mem_cons_of_mem _ member)
    rw [length_cons, replicate_succ, map_cons, ofDigits_cons, ofDigits_cons, ofDigits_cons, ← later, and_split]
    have rest_shift : (byte + 256 * ofDigits 256 rest) >>> shift / 256 = ofDigits 256 rest >>> shift := by
      rw [Nat.shiftRight_eq_div_pow, Nat.shiftRight_eq_div_pow, Nat.div_div_eq_div_mul, Nat.mul_comm (2 ^ shift),
        ← Nat.div_div_eq_div_mul]
      congr 1
      omega
    have byte_shift : (byte + 256 * ofDigits 256 rest) >>> shift % 256 &&& mask = byte >>> shift &&& mask := by
      refine Nat.eq_of_testBit_eq fun place => ?_
      rw [Nat.testBit_and, Nat.testBit_and, show (256 : Nat) = 2 ^ 8 from rfl, Nat.testBit_mod_two_pow,
        Nat.testBit_shiftRight, Nat.testBit_shiftRight]
      by_cases masked : mask.testBit place = true
      · -- a bit of the mask stands for one of the byte itself
        have below : shift + place < 8 := by
          have least := Nat.ge_two_pow_of_testBit masked
          refine (Nat.pow_lt_pow_iff_right (by decide : 1 < 2)).mp (lt_of_le_of_lt ?_ fits)
          rw [Nat.pow_add, Nat.mul_comm]
          exact Nat.mul_le_mul_right _ least
        have same : (byte + 256 * ofDigits 256 rest).testBit (shift + place) = byte.testBit (shift + place) := by
          rw [Nat.add_comm]
          exact (Nat.testBit_two_pow_mul_add (i := 8) _ byte_small _).trans (if_pos below)
        simp [masked, same, show place < 8 by omega]
      · simp [masked]
    have first : (mask + 256 * ofDigits 256 (replicate rest.length mask)) % 256 = mask := by omega
    have others : (mask + 256 * ofDigits 256 (replicate rest.length mask)) / 256 =
        ofDigits 256 (replicate rest.length mask) := by omega
    simp only [first, others, rest_shift, byte_shift]

theorem ofDigits_mod : ofDigits 256 bytes % 256 = (bytes.headD 0) % 256 := by
  cases bytes with
  | nil => rfl
  | cons byte rest => simp [ofDigits_cons]

/-- The high half of each byte added to its low half, where they are small. -/
theorem halves_added (small : ∀ byte ∈ bytes, byte ≤ 68 ∧ byte % 16 ≤ 4) :
    (ofDigits 256 bytes + ofDigits 256 bytes >>> 4) &&& ofDigits 256 (replicate bytes.length 15) =
      ofDigits 256 (bytes.map fun byte => (byte + byte / 16) % 16) := by
  induction bytes with
  | nil => rfl
  | cons byte rest ih =>
    have here := small byte mem_cons_self
    have later := ih fun byte member => small byte (mem_cons_of_mem _ member)
    have next : ofDigits 256 rest % 16 ≤ 4 := by
      have head := @ofDigits_mod rest
      cases rest with
      | nil => simp
      | cons byte rest =>
        have bound := (small byte (by simp)).2
        simp only [headD_cons] at head
        omega
    rw [length_cons, replicate_succ, map_cons, ofDigits_cons, ofDigits_cons, ofDigits_cons, ← later, and_split]
    simp only [Nat.shiftRight_eq_div_pow]
    generalize ofDigits 256 rest = more at next
    generalize ofDigits 256 (replicate rest.length 15) = masks
    have first : (byte + 256 * more + (byte + 256 * more) / 2 ^ 4) % 256 = byte + byte / 16 + 16 * (more % 16) := by
      omega
    have others : (byte + 256 * more + (byte + 256 * more) / 2 ^ 4) / 256 = more + more / 2 ^ 4 := by omega
    have low : (byte + byte / 16 + 16 * (more % 16)) &&& 15 = (byte + byte / 16) % 16 := by
      rw [show (15 : Nat) = 2 ^ 4 - 1 from rfl, Nat.and_two_pow_sub_one_eq_mod]
      omega
    rw [first, others, show (15 + 256 * masks) % 256 = 15 by omega, show (15 + 256 * masks) / 256 = masks by omega, low]

theorem lanes_add (bytes : List Nat) (one other : Nat → Nat) :
    ofDigits 256 (bytes.map one) + ofDigits 256 (bytes.map other) =
      ofDigits 256 (bytes.map fun byte => one byte + other byte) := by
  induction bytes with
  | nil => rfl
  | cons byte rest ih =>
    simp only [map_cons, ofDigits_cons, ← ih]
    ring

theorem lanes_sub {one other : Nat → Nat} (le : ∀ byte ∈ bytes, other byte ≤ one byte) :
    ofDigits 256 (bytes.map fun byte => one byte - other byte) + ofDigits 256 (bytes.map other) =
      ofDigits 256 (bytes.map one) := by
  rw [lanes_add]
  exact congrArg _ (map_congr_left fun byte member => Nat.sub_add_cancel (le byte member))

/-- Eight bytes times a one in each are, in each byte, the sum up to it. -/
theorem lanes_sums (each upTo : Nat → Nat) (small : ∀ index, each index ≤ 8) (none : upTo 0 = 0)
    (step : ∀ index, upTo (index + 1) = upTo index + each index) :
    ofDigits 256 ((range 8).map each) * 0x0101010101010101 % 2 ^ 64 =
      ofDigits 256 ((range 8).map fun index => upTo (index + 1)) := by
  have bounds := And.intro (small 0) (And.intro (small 1) (And.intro (small 2) (And.intro (small 3)
    (And.intro (small 4) (And.intro (small 5) (And.intro (small 6) (small 7)))))))
  simp only [range, range.loop, map_cons, map_nil, ofDigits_cons, ofDigits_nil, step, none, Nat.zero_add]
  omega

end Rudb.Lib
