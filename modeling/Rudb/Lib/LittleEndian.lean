import Mathlib.Tactic.Ring
import Mathlib.Tactic.Common
import Mathlib.Tactic.Positivity

/-! Little-endian byte strings of fixed width: writing a number and reading it
back, in both directions. -/
namespace LittleEndian
open List

/-- The low `width` bytes of a number, least significant first. -/
def toBytes : Nat → Nat → List UInt8
  | 0, _ => []
  | width + 1, value => UInt8.ofNat (value % 256) :: toBytes width (value / 256)

/-- The number whose bytes, least significant first, are `bytes`. -/
def ofBytes : List UInt8 → Nat
  | [] => 0
  | byte :: rest => byte.toNat + 256 * ofBytes rest

@[simp] theorem length_toBytes (width value : Nat) : (toBytes width value).length = width := by
  induction width generalizing value with
  | zero => rfl
  | succ width ih => simp [toBytes, ih]

theorem ofBytes_toBytes (width value : Nat) : ofBytes (toBytes width value) = value % 256 ^ width := by
  induction width generalizing value with
  | zero => simp [toBytes, ofBytes, Nat.mod_one]
  | succ width ih =>
    simp only [toBytes, ofBytes, ih]
    rw [UInt8.toNat_ofNat_of_lt' (Nat.mod_lt value (by decide : 0 < 256)), pow_succ,
      mul_comm (256 ^ width) 256, Nat.mod_mul]

theorem ofBytes_lt (bytes : List UInt8) : ofBytes bytes < 256 ^ bytes.length := by
  induction bytes with
  | nil => simp [ofBytes]
  | cons byte rest ih =>
    have small := byte.toNat_lt
    simp only [ofBytes, length_cons, pow_succ]
    omega

theorem ofBytes_append (front back : List UInt8) :
    ofBytes (front ++ back) = ofBytes front + 256 ^ front.length * ofBytes back := by
  induction front with
  | nil => simp [ofBytes]
  | cons byte rest ih =>
    rw [cons_append, ofBytes, ofBytes, ih, length_cons]
    ring

/-- A run of the bytes is a run of the number's digits. -/
theorem ofBytes_window (bytes : List UInt8) (first count : Nat) :
    ofBytes ((bytes.drop first).take count) = ofBytes bytes / 256 ^ first % 256 ^ count := by
  have dropped : ofBytes (bytes.drop first) = ofBytes bytes / 256 ^ first := by
    rcases le_total first bytes.length with le | ge
    · have small := ofBytes_lt (bytes.take first)
      rw [length_take_of_le le] at small
      conv_rhs => rw [← take_append_drop first bytes]
      rw [ofBytes_append, length_take_of_le le, Nat.add_mul_div_left _ _ (by positivity), Nat.div_eq_of_lt small,
        zero_add]
    · have small := ofBytes_lt bytes
      rw [drop_of_length_le ge, Nat.div_eq_of_lt (small.trans_le (Nat.pow_le_pow_right (by decide) ge))]
      rfl
  rw [← dropped]
  generalize bytes.drop first = rest
  rcases le_total count rest.length with le | ge
  · have small := ofBytes_lt (rest.take count)
    rw [length_take_of_le le] at small
    conv_rhs => rw [← take_append_drop count rest]
    rw [ofBytes_append, length_take_of_le le, Nat.add_mul_mod_self_left, Nat.mod_eq_of_lt small]
  · have small := ofBytes_lt rest
    rw [take_of_length_le ge, Nat.mod_eq_of_lt (small.trans_le (Nat.pow_le_pow_right (by decide) ge))]

/-- The number of `width` bytes that starts at `at_`. -/
def read (width at_ : Nat) (bytes : List UInt8) : Nat :=
  ofBytes ((bytes.drop at_).take width)

theorem read_append (starts : front.length = at_)
    (fits : value < 256 ^ width) (rest : List UInt8) :
    read width at_ (front ++ (toBytes width value ++ rest)) = value := by
  rw [read, drop_left' starts, take_left' (length_toBytes width value), ofBytes_toBytes,
    Nat.mod_eq_of_lt fits]

theorem read_front (fits : value < 256 ^ width) (rest : List UInt8) :
    read width 0 (toBytes width value ++ rest) = value := by
  have front : ([] : List UInt8).length = 0 := rfl
  exact read_append front fits rest

/-- The numbers of so many bytes each that bytes hold. -/
def numbers (width : Nat) : (count : Nat) → List UInt8 → List Nat
  | 0, _ => []
  | count + 1, bytes => ofBytes (bytes.take width) :: numbers width count (bytes.drop width)

/-- What is written as fields of one width is read back as they were. -/
theorem numbers_flatMap (values : List Nat) (rest : List UInt8) :
    numbers width values.length (values.flatMap (toBytes width) ++ rest) = values.map (· % 256 ^ width) := by
  induction values with
  | nil => rfl
  | cons value values ih =>
    simp only [length_cons, flatMap_cons, append_assoc, numbers, map_cons]
    rw [take_left' (length_toBytes width value), drop_left' (length_toBytes width value),
      ofBytes_toBytes, ih]

theorem length_flatMap_toBytes (width : Nat) (values : List Nat) :
    (values.flatMap (toBytes width)).length = values.length * width := by
  induction values with
  | nil => simp
  | cons value values ih => simp [ih, Nat.succ_mul, add_comm]

theorem numbers_lt {count : Nat} (member : number ∈ numbers width count bytes) : number < 256 ^ width := by
  induction count generalizing bytes with
  | zero => cases member
  | succ count ih =>
    rcases mem_cons.mp member with rfl | member
    · exact (ofBytes_lt _).trans_le (Nat.pow_le_pow_right (by decide) (length_take_le _ _))
    · exact ih member

end LittleEndian
