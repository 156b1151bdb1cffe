import Mathlib.Data.Nat.Digits.Lemmas
import Rudb.Lib.LittleEndian

/-! Values of one width packed one after another in the bits of bytes, and one of them read where
it lies. Embeds bitpack.rs of rudb-encoding. -/
namespace Rudb.Encoding
open LittleEndian List

/-- `low_mask`. -/
def lowMask (bits : Nat) : Nat := if bits ≥ 64 then 2 ^ 64 - 1 else 2 ^ bits - 1

/-- `tail_len`: the bytes of so many values. -/
def tailLen (count width : Nat) : Nat := ((count * width) % 2 ^ 64 + 7) / 8

/-- The bytes out, and the bits that wait for a word of them to be full. -/
structure Packing where
  output : List UInt8
  accumulator : Nat
  filled : Nat

/-- One value of `pack_linear`. -/
def Packing.push (width : Nat) (packing : Packing) (value : Nat) : Packing :=
  let accumulator := packing.accumulator ||| value <<< packing.filled
  let filled := packing.filled + width
  if filled ≥ 64 then
    { output := packing.output ++ toBytes 8 (accumulator % 2 ^ 64), accumulator := accumulator >>> 64,
      filled := filled - 64 }
  else { packing with accumulator, filled }

/-- The loop of `pack_linear`, which stops at a value that does not fit. -/
def packValues (width : Nat) (packing : Packing) : List Nat → Except String Packing
  | [] => .ok packing
  | value :: rest =>
    if value > lowMask width then .error ("value " ++ toString value ++ " does not fit in " ++ toString width ++ " bits")
    else packValues width (packing.push width value) rest

/-- The bits left over, a byte at a time. -/
def flush (accumulator filled : Nat) : List UInt8 :=
  if filled ≥ 8 then UInt8.ofNat (accumulator &&& 0xff) :: flush (accumulator >>> 8) (filled - 8)
  else if filled > 0 then [UInt8.ofNat (accumulator &&& 0xff)] else []
termination_by filled

/-- `check_all_zero`. -/
def checkAllZero (values : List Nat) : Except String (List UInt8) :=
  match values.findIdx? (· ≠ 0) with
  | none => .ok []
  | some index => .error ("a zero bit vector cannot hold " ++ toString (values.getD index 0) ++ " at " ++ toString index)

/-- `pack_linear`. -/
def packLinear (values : List Nat) (width : Nat) : Except String (List UInt8) :=
  if width > 64 then .error (toString width ++ " bits does not fit in 64")
  else if width = 0 then checkAllZero values
  else (packValues width { output := [], accumulator := 0, filled := 0 } values).map fun packing =>
    packing.output ++ flush packing.accumulator packing.filled

/-- `word_at`: eight bytes where they lie. -/
def wordAt (input : List UInt8) (start : Nat) : Nat := LittleEndian.read 8 start input

/-- `tail_at_rest`. -/
def tailAtRest (input : List UInt8) (width index : Nat) : Except String Nat :=
  let start := index * width % 2 ^ 64
  let stop := (start + width) % 2 ^ 64
  if width > 64 then .error ("a width of " ++ toString width ++ " is past what a u64 holds")
  else if width = 0 then .ok 0
  else if (stop + 7) / 8 > input.length then
    .error ("value " ++ toString index ++ " at " ++ toString width ++ " bits ends past the " ++ toString input.length ++
      " bytes there are")
  else if start / 8 + 8 ≤ input.length ∧ (stop - 1) / 8 - start / 8 < 8 then
    .ok (wordAt input (start / 8) >>> (start % 8) &&& lowMask width)
  else
    let window := LittleEndian.read ((stop - 1) / 8 - start / 8 + 1) (start / 8) input
    .ok (window >>> (start % 8) &&& lowMask width)

/-- `tail_at`: one value, read where it lies. -/
def tailAt (input : List UInt8) (width index : Nat) : Except String Nat :=
  let start := index * width % 2 ^ 64
  if width ≤ 56 ∧ index ≤ (2 ^ 64 - 1) / 64 ∧ start / 8 + 8 ≤ input.length then
    .ok (wordAt input (start / 8) >>> (start % 8) &&& lowMask width)
  else tailAtRest input width index

theorem lowMask_eq (le : width ≤ 64) : lowMask width = 2 ^ width - 1 := by
  unfold lowMask
  split
  · rw [le_antisymm le (by assumption)]
  · rfl

theorem and_lowMask (le : width ≤ 64) (value : Nat) : value &&& lowMask width = value % 2 ^ width := by
  rw [lowMask_eq le, Nat.and_two_pow_sub_one_eq_mod]

/-- A few bits of a window over a number are bits of the number. -/
theorem window_bits {inner count : Nat} (inside : inner + width ≤ count) :
    number / 2 ^ shift % 2 ^ count / 2 ^ inner % 2 ^ width = number / 2 ^ (shift + inner) % 2 ^ width := by
  refine Nat.eq_of_testBit_eq fun place => ?_
  simp only [Nat.testBit_mod_two_pow, Nat.testBit_div_two_pow]
  by_cases lt : place < width
  · have within : place + inner < count := by omega
    simp [lt, within, add_assoc, add_comm inner shift]
  · simp [lt]

/-- The value at an index, as bits of the number that the bytes are. -/
theorem tailAt_eq (positive : 0 < width) (le : width ≤ 64)
    (fits : (index + 1) * width < 2 ^ 64) (inside : (index + 1) * width ≤ 8 * input.length) :
    tailAt input width index = .ok (ofBytes input / 2 ^ (index * width) % 2 ^ width) := by
  rw [Nat.succ_mul] at fits inside
  have start : index * width % 2 ^ 64 = index * width := Nat.mod_eq_of_lt (by omega)
  have stop : (index * width + width) % 2 ^ 64 = index * width + width := Nat.mod_eq_of_lt fits
  have bytes (count : Nat) : (256 : Nat) ^ count = 2 ^ (8 * count) := by
    rw [Nat.pow_mul]
  have whole : 8 * (index * width / 8) + index * width % 8 = index * width := by omega
  -- a window that holds the value's bits gives the value
  have read {count : Nat} (holds : index * width % 8 + width ≤ 8 * count) :
      LittleEndian.read count (index * width / 8) input >>> (index * width % 8) &&& lowMask width =
        ofBytes input / 2 ^ (index * width) % 2 ^ width := by
    rw [and_lowMask le, Nat.shiftRight_eq_div_pow, LittleEndian.read, ofBytes_window, bytes, bytes,
      window_bits holds, whole]
  unfold tailAt
  simp only [start]
  split
  · exact congrArg Except.ok (read (by omega))
  unfold tailAtRest
  simp only [start, stop]
  rw [if_neg (by omega), if_neg (by omega), if_neg (by omega)]
  split
  · exact congrArg Except.ok (read (by omega))
  · exact congrArg Except.ok (read (by omega))

/-- The values pushed so far, as one number in the bytes out and the bits that wait. -/
structure Packing.Holds (packing : Packing) (width : Nat) (values : List Nat) : Prop where
  bits : 8 * packing.output.length + packing.filled = width * values.length
  waiting : packing.filled < 64
  small : packing.accumulator < 2 ^ packing.filled
  number : ofBytes packing.output + 2 ^ (8 * packing.output.length) * packing.accumulator =
    Nat.ofDigits (2 ^ width) values

theorem Packing.Holds.push {packing : Packing} (holds : packing.Holds width values)
    (le : width ≤ 64) (fits : value < 2 ^ width) : (packing.push width value).Holds width (values ++ [value]) := by
  obtain ⟨bits, waiting, small, number⟩ := holds
  have merged : packing.accumulator ||| value <<< packing.filled = packing.accumulator + 2 ^ packing.filled * value := by
    rw [Nat.or_comm, ← Nat.shiftLeft_add_eq_or_of_lt small, Nat.shiftLeft_eq, Nat.mul_comm, Nat.add_comm]
  have below : packing.accumulator + 2 ^ packing.filled * value < 2 ^ (packing.filled + width) := by
    have := Nat.mul_le_mul_left (2 ^ packing.filled) (Nat.succ_le_of_lt fits)
    rw [Nat.mul_succ, ← Nat.pow_add] at this
    omega
  have total : ofBytes packing.output +
      2 ^ (8 * packing.output.length) * (packing.accumulator + 2 ^ packing.filled * value) =
        Nat.ofDigits (2 ^ width) (values ++ [value]) := by
    rw [Nat.ofDigits_append, Nat.ofDigits_singleton, ← number, ← Nat.pow_mul, ← bits]
    ring
  have count : width * (values ++ [value]).length = width * values.length + width := by
    rw [length_append, length_singleton, Nat.mul_succ]
  unfold Packing.push
  simp only [merged]
  split
  · have cut : packing.filled + width - 64 + 64 = packing.filled + width := by omega
    refine ⟨?_, by dsimp only; omega, ?_, ?_⟩
    · rw [length_append, length_toBytes]
      dsimp only
      omega
    · rw [Nat.shiftRight_eq_div_pow, Nat.div_lt_iff_lt_mul (by positivity), ← Nat.pow_add, cut]
      exact below
    have whole := Nat.mod_add_div (packing.accumulator + 2 ^ packing.filled * value) (2 ^ 64)
    have room : (2 : Nat) ^ (8 * (packing.output.length + 8)) = 2 ^ (8 * packing.output.length) * 2 ^ 64 := by
      rw [← Nat.pow_add, Nat.mul_add]
    have byte : (256 : Nat) ^ packing.output.length = 2 ^ (8 * packing.output.length) := by rw [Nat.pow_mul]
    rw [← total, ofBytes_append, ofBytes_toBytes, length_append,
      length_toBytes, Nat.shiftRight_eq_div_pow, room, byte]
    conv_rhs => rw [← whole]
    rw [show (256 : Nat) ^ 8 = 2 ^ 64 from by decide, Nat.mod_mod]
    ring
  · exact ⟨by dsimp only; omega, by dsimp only; omega, below, total⟩

theorem packValues_holds (le : width ≤ 64)
    (holds : packing.Holds width done) (fits : ∀ value ∈ values, value < 2 ^ width) :
    ∃ packed, packValues width packing values = .ok packed ∧ packed.Holds width (done ++ values) := by
  induction values generalizing done packing with
  | nil => exact ⟨packing, rfl, by simpa using holds⟩
  | cons value rest ih =>
    have small := fits value mem_cons_self
    have passes : ¬value > lowMask width := by
      have mask := lowMask_eq le
      omega
    obtain ⟨packed, run, here⟩ := ih (holds.push le small) fun value member => fits value (mem_cons_of_mem _ member)
    exact ⟨packed, by rw [packValues, if_neg passes, run], by simpa using here⟩

theorem flush_eq (small : accumulator < 2 ^ filled) :
    ofBytes (flush accumulator filled) = accumulator ∧ (flush accumulator filled).length = (filled + 7) / 8 := by
  have byte (number : Nat) : (UInt8.ofNat (number &&& 0xff)).toNat = number % 256 := by
    have mask := Nat.and_two_pow_sub_one_eq_mod number 8
    rw [mask, UInt8.toNat_ofNat_of_lt' (Nat.mod_lt number (by decide : 0 < 256))]
  fun_induction flush accumulator filled with
  | case1 accumulator filled more ih =>
    have split : 2 ^ filled = 2 ^ (filled - 8) * 2 ^ 8 := by
      rw [← pow_add]
      congr 1
      omega
    have rest := ih (by rw [Nat.shiftRight_eq_div_pow]; omega)
    rw [ofBytes, byte, rest.1, length_cons, rest.2, Nat.shiftRight_eq_div_pow]
    omega
  | case2 accumulator filled few some_ =>
    have low : accumulator < 256 := small.trans_le (Nat.pow_le_pow_right (n := 2) (by decide) (by omega : filled ≤ 8))
    rw [ofBytes, byte]
    simp [ofBytes]
    omega
  | case3 accumulator filled few none_ =>
    obtain rfl : filled = 0 := by omega
    simp at small
    simp [small, ofBytes]

theorem tailAt_packLinear (positive : 0 < width) (le : width ≤ 64)
    (fits : ∀ value ∈ values, value < 2 ^ width) (length : values.length * width < 2 ^ 64) :
    ∃ bytes, packLinear values width = .ok bytes ∧ bytes.length = tailLen values.length width ∧
      ∀ index value, values[index]? = some value → tailAt bytes width index = .ok value := by
  have start : Packing.Holds { output := [], accumulator := 0, filled := 0 } width [] := by
    refine ⟨rfl, by decide, by decide, rfl⟩
  obtain ⟨packed, run, holds⟩ := packValues_holds le start fits
  rw [nil_append] at holds
  obtain ⟨bits, waiting, small, number⟩ := holds
  obtain ⟨flushed, size⟩ := flush_eq small
  have bytes : (packed.output ++ flush packed.accumulator packed.filled).length = tailLen values.length width := by
    rw [tailLen, Nat.mod_eq_of_lt length, length_append, Nat.mul_comm]
    omega
  refine ⟨packed.output ++ flush packed.accumulator packed.filled, ?_, bytes, fun index value found => ?_⟩
  · rw [packLinear, if_neg (by omega), if_neg (by omega), run]
    rfl
  obtain ⟨inside, here⟩ := List.getElem?_eq_some_iff.mp found
  have reach : (index + 1) * width ≤ values.length * width := Nat.mul_le_mul_right width inside
  have room : values.length * width ≤ 8 * (packed.output ++ flush packed.accumulator packed.filled).length := by
    rw [length_append, Nat.mul_comm]
    omega
  have byte : (256 : Nat) ^ packed.output.length = 2 ^ (8 * packed.output.length) := by rw [Nat.pow_mul]
  rw [tailAt_eq positive le (by omega) (by omega), ofBytes_append, flushed, byte, number, Nat.mul_comm,
    Nat.pow_mul]
  -- the digit of the number at the index
  have power : 0 < 2 ^ width := Nat.two_pow_pos width
  rw [Nat.ofDigits_div_pow_eq_ofDigits_drop index power values fits, drop_eq_getElem_cons inside, Nat.ofDigits_cons,
    Nat.add_mul_mod_self_left, here, Nat.mod_eq_of_lt (fits value (here ▸ getElem_mem inside))]

end Rudb.Encoding
