import Mathlib.Data.Nat.Bitwise
import Mathlib.Logic.Function.Iterate
import Rudb.Txn.ReplayProofs

/-! A record never verifies under the seed of another segment. One bit of the checksum is a linear
step that can be undone, the tables are powers of it, and so the checksum of fixed bytes tells the
numbers it may start from apart. -/
namespace Rudb.Txn
open List LittleEndian Function

namespace Crc
variable {crc : UInt32}

theorem bitStep_eq (crc : UInt32) : bitStep crc = (crc >>> 1) ^^^ if crc.toNat % 2 = 0 then 0 else poly := by
  have low : crc &&& 1 = 0 ↔ crc.toNat % 2 = 0 := by
    rw [← UInt32.toNat_inj, ← Nat.and_one_is_mod]
    rfl
  rw [bitStep]
  by_cases even : crc.toNat % 2 = 0
  · rw [if_pos (low.mpr even), if_pos even, UInt32.xor_zero]
  · rw [if_neg fun zero => even (low.mp zero), if_neg even]

theorem bitStep_xor (crc other : UInt32) : bitStep (crc ^^^ other) = bitStep crc ^^^ bitStep other := by
  have parity : (crc ^^^ other).toNat % 2 = (crc.toNat + other.toNat) % 2 := by
    rw [UInt32.toNat_xor, Nat.xor_mod_two_eq]
  have joined : (if (crc.toNat + other.toNat) % 2 = 0 then 0 else poly) =
      (if crc.toNat % 2 = 0 then 0 else poly) ^^^ if other.toNat % 2 = 0 then 0 else poly := by
    split_ifs
    all_goals first | omega | decide
  rw [bitStep_eq, bitStep_eq, bitStep_eq, UInt32.shiftRight_xor, parity, joined]
  ac_rfl

theorem bitStep_injective : Function.Injective bitStep := by
  intro crc other same
  have zero : bitStep (crc ^^^ other) = 0 := by rw [bitStep_xor, same, UInt32.xor_self]
  refine UInt32.xor_eq_zero_iff.mp ?_
  generalize crc ^^^ other = number at zero
  have half : (number >>> 1).toNat = number.toNat / 2 := by
    exact Nat.shiftRight_one _
  have small := number.toNat_lt
  rw [bitStep_eq, UInt32.xor_eq_zero_iff] at zero
  rw [zero] at half
  -- the polynomial has its top bit set, which no number has after a shift
  split at half
  · refine UInt32.toNat_inj.mp ?_
    simp only [UInt32.toNat_zero] at half ⊢
    omega
  · simp only [poly, UInt32.reduceToNat] at half
    omega

/-- Eight bits, which is what table 0 holds for a byte. -/
def byteStep (crc : UInt32) : UInt32 := Nat.repeat bitStep 8 crc

theorem byteStep_iterate : byteStep = bitStep^[8] := rfl

theorem iterate_xor (count : Nat) (crc other : UInt32) :
    byteStep^[count] (crc ^^^ other) = byteStep^[count] crc ^^^ byteStep^[count] other := by
  rw [byteStep_iterate, ← iterate_mul]
  generalize 8 * count = bits
  induction bits with
  | zero => rfl
  | succ bits ih => rw [iterate_succ_apply', ih, bitStep_xor, ← iterate_succ_apply' bitStep,
      ← iterate_succ_apply' bitStep]

theorem iterate_shift {count : Nat} (zeros : crc.toNat % 2 ^ count = 0) :
    (bitStep^[count] crc).toNat = crc.toNat / 2 ^ count := by
  induction count generalizing crc with
  | zero => simp
  | succ count ih =>
    have even : crc.toNat % 2 = 0 := by
      rw [← Nat.mod_mul_left_mod crc.toNat (2 ^ count) 2, ← pow_succ, zeros]
    have half : (bitStep crc).toNat = crc.toNat / 2 := by
      rw [bitStep_eq, if_pos even, UInt32.xor_zero]
      exact Nat.shiftRight_one _
    rw [iterate_succ_apply, ih, half, Nat.div_div_eq_div_mul, pow_succ']
    rw [half, ← Nat.mod_mul_right_div_self, ← pow_succ', zeros]

/-- A byte's step takes the low byte through the table and shifts the others. -/
theorem byteStep_eq (crc : UInt32) : byteStep crc = byteStep (crc &&& 0xFF) ^^^ crc >>> 8 := by
  have low : (crc &&& 0xFF).toNat = crc.toNat % 2 ^ 8 := by
    rw [← Nat.and_two_pow_sub_one_eq_mod]
    rfl
  have split : crc = (crc &&& 0xFF) ^^^ (crc ^^^ (crc &&& 0xFF)) := by
    rw [UInt32.xor_comm crc, ← UInt32.xor_assoc, UInt32.xor_self, UInt32.zero_xor]
  have zeros : (crc ^^^ (crc &&& 0xFF)).toNat % 2 ^ 8 = 0 := by
    rw [UInt32.toNat_xor, Nat.xor_mod_two_pow, low, Nat.mod_mod, Nat.xor_self]
  have high : byteStep (crc ^^^ (crc &&& 0xFF)) = crc >>> 8 := by
    refine UInt32.toNat_inj.mp ((iterate_shift zeros).trans ?_)
    rw [UInt32.toNat_xor, low, ← Nat.shiftRight_eq_div_pow, Nat.shiftRight_xor_distrib]
    rw [Nat.shiftRight_eq_div_pow (_ % _), Nat.div_eq_of_lt (Nat.mod_lt _ (by decide)), Nat.xor_zero]
    rfl
  have linear := iterate_xor 1 (crc &&& 0xFF) (crc ^^^ (crc &&& 0xFF))
  rw [← split] at linear
  exact linear.trans (congrArg _ high)

theorem table_eq (k : Nat) (byte : UInt32) : table k byte = byteStep^[k + 1] byte := by
  induction k with
  | zero => rfl
  | succ k ih => rw [iterate_succ_apply', ← ih, byteStep_eq, UInt32.xor_comm]; rfl

/-- Further steps take the low byte through a further table. -/
theorem iterate_eq (k : Nat) (crc : UInt32) :
    byteStep^[k + 1] crc = table k (crc &&& 0xFF) ^^^ byteStep^[k] (crc >>> 8) := by
  rw [iterate_succ_apply, byteStep_eq, iterate_xor, table_eq, iterate_succ_apply]

/-- A byte taken in, bit by bit. -/
def byteIn (crc : UInt32) (byte : UInt8) : UInt32 := byteStep (crc ^^^ byte.toUInt32)

/-- The checksum a bit at a time, inverted in and out. -/
def bitwise (crc : UInt32) (bytes : List UInt8) : UInt32 := ~~~ bytes.foldl byteIn (~~~ crc)

/-- The loops of `hardware`: an instruction takes eight bytes in, and then one each that remains. -/
def instructions : UInt32 → List UInt8 → UInt32
  | crc, b0 :: b1 :: b2 :: b3 :: b4 :: b5 :: b6 :: b7 :: rest =>
    instructions ([b0, b1, b2, b3, b4, b5, b6, b7].foldl byteIn crc) rest
  | crc, rest => rest.foldl byteIn crc

/-- `extend`, through `crc32c_extend` on a machine with the instruction. -/
def extendOn (instruction : Bool) (crc : UInt32) (bytes : List UInt8) : UInt32 :=
  if instruction then ~~~ instructions (~~~ crc) bytes else extend crc bytes

theorem byteIn_eq (crc : UInt32) (byte : UInt8) :
    table 0 ((crc ^^^ byte.toUInt32) &&& 0xFF) ^^^ (crc >>> 8) = byteIn crc byte := by
  have gone : byte.toUInt32 >>> 8 = 0 := by
    refine UInt32.toNat_inj.mp ?_
    exact Nat.shiftRight_eq_zero _ _ byte.toNat_lt
  rw [byteIn, byteStep_eq, UInt32.shiftRight_xor, gone, UInt32.xor_zero]
  rfl

/-- A step moves the low byte of a word out. -/
theorem byteStep_word (byte : UInt8) (few : rest.length < 4) :
    byteStep (UInt32.ofNat (ofBytes (byte :: rest))) = byteStep byte.toUInt32 ^^^ UInt32.ofNat (ofBytes rest) := by
  have small := ofBytes_lt rest
  have size : 256 ^ rest.length ≤ 256 ^ 3 := Nat.pow_le_pow_right (by decide) (by omega)
  have here := byte.toNat_lt
  have word : (UInt32.ofNat (ofBytes (byte :: rest))).toNat = byte.toNat + 256 * ofBytes rest :=
    UInt32.toNat_ofNat_of_lt' (by rw [ofBytes, UInt32.size]; omega)
  have more : (UInt32.ofNat (ofBytes rest)).toNat = ofBytes rest :=
    UInt32.toNat_ofNat_of_lt' (by rw [UInt32.size]; omega)
  rw [byteStep_eq]
  congr 1
  · refine congrArg byteStep (UInt32.toNat_inj.mp ?_)
    rw [UInt32.toNat_and, UInt8.toNat_toUInt32]
    exact (Nat.and_two_pow_sub_one_eq_mod _ 8).trans (by omega)
  · refine UInt32.toNat_inj.mp ?_
    rw [UInt32.toNat_shiftRight]
    exact (Nat.shiftRight_eq_div_pow _ 8).trans (by omega)

theorem foldl_word (few : bytes.length ≤ 4) (crc : UInt32) :
    bytes.foldl byteIn crc = byteStep^[bytes.length] (crc ^^^ UInt32.ofNat (ofBytes bytes)) := by
  induction bytes generalizing crc with
  | nil => exact UInt32.xor_zero.symm
  | cons byte rest ih =>
    have linear := iterate_xor 1
    rw [length_cons] at few
    rw [foldl_cons, ih (by omega), length_cons, iterate_succ_apply, byteIn]
    simp only [iterate_one] at linear
    rw [linear, linear, byteStep_word byte few, UInt32.xor_assoc]

/-- Four tables take the four bytes of a word through as many steps as the last of them is for. -/
theorem tables_eq (k : Nat) (low : UInt32) :
    table (k + 3) (low &&& 0xFF) ^^^ table (k + 2) ((low >>> 8) &&& 0xFF) ^^^ table (k + 1) ((low >>> 16) &&& 0xFF) ^^^
      table k (low >>> 24) = byteStep^[k + 4] low := by
  rw [iterate_eq, iterate_eq, iterate_eq, ← table_eq]
  ac_rfl

theorem steps_eq (crc : UInt32) (bytes : List UInt8) : steps crc bytes = bytes.foldl byteIn crc := by
  fun_induction steps crc bytes with
  | case1 crc b0 b1 b2 b3 b4 b5 b6 b7 rest low high =>
    rename_i ih
    have front := @foldl_word [b0, b1, b2, b3] (le_refl 4) crc
    have back := @foldl_word [b4, b5, b6, b7] (le_refl 4)
      (byteStep^[4] (crc ^^^ UInt32.ofNat (ofBytes [b0, b1, b2, b3])))
    rw [UInt32.xor_comm crc] at front back
    have tables : byteStep^[4] (byteStep^[4] low ^^^ high) = _ := iterate_xor 4 (byteStep^[4] low) high
    rw [← iterate_add_apply, ← tables_eq 4 low, ← tables_eq 0 high] at tables
    rw [ih, show b0 :: b1 :: b2 :: b3 :: b4 :: b5 :: b6 :: b7 :: rest =
      [b0, b1, b2, b3] ++ ([b4, b5, b6, b7] ++ rest) from rfl,
      foldl_append, foldl_append, front]
    refine congrArg (foldl byteIn · rest) (Eq.trans ?_ (back.trans tables).symm)
    simp [UInt32.xor_assoc]
  | case2 crc bytes few =>
    simp only [byteIn_eq]

theorem instructions_eq (crc : UInt32) (bytes : List UInt8) : instructions crc bytes = bytes.foldl byteIn crc := by
  fun_induction instructions crc bytes with
  | case1 => assumption
  | case2 => rfl

theorem extend_eq (crc : UInt32) (bytes : List UInt8) : extend crc bytes = bitwise crc bytes := by
  rw [extend, steps_eq, bitwise]

/-- The tables give the checksum taken a bit at a time, and on a machine of either kind a checksum is
continued over what follows wherever the bytes are split. -/
theorem checksum_bit_at_a_time (crc : UInt32) : (∀ bytes, extend crc bytes = bitwise crc bytes) ∧
    ∀ (instruction : Bool) (front back : List UInt8),
      extendOn instruction (extendOn instruction crc front) back = extendOn instruction crc (front ++ back) := by
  have either (instruction : Bool) (crc : UInt32) (bytes : List UInt8) :
      extendOn instruction crc bytes = bitwise crc bytes := by
    cases instruction with
    | false => exact extend_eq crc bytes
    | true => exact congrArg (~~~ ·) (instructions_eq _ bytes)
  refine ⟨extend_eq crc, fun instruction front back => ?_⟩
  rw [either, either, either, bitwise, bitwise, bitwise, UInt32.not_not, foldl_append]

theorem foldl_injective (bytes : List UInt8) : Function.Injective (bytes.foldl byteIn ·) := by
  induction bytes with
  | nil => exact injective_id
  | cons byte rest ih =>
    refine ih.comp fun crc other same => ?_
    exact (UInt32.xor_left_inj _).mp (bitStep_injective.iterate 8 same)

/-- The checksum of fixed bytes tells the numbers it starts from apart. -/
theorem extend_injective (bytes : List UInt8) : Function.Injective (extend · bytes) := by
  intro crc other same
  simp only [extend_eq, bitwise, UInt32.not_inj] at same
  exact UInt32.not_inj.mp (foldl_injective bytes same)

end Crc

/-- A record of another segment does not verify, whatever follows it. -/
theorem decodeRecord_other (header : RecordHeader) (fits : payload.length < 2 ^ 32)
    (other : written ≠ asked) (rest : List UInt8) :
    decodeRecord (encodeRecord header payload written ++ rest) asked = none := by
  rw [decodeRecord_eq header payload written fits, if_neg]
  intro same
  exact other (Crc.extend_injective _ (Crc.extend_injective payload same)).symm

/-- A record under the seed it was not written with is not read, as the checksum of its bytes tells the
seeds apart: what is left of a segment's records stops the reading of the segment it became. -/
theorem stale_record_never_replays (header : RecordHeader) (payload : List UInt8) (fits : payload.length < 2 ^ 32) :
    (∀ bytes, Function.Injective (Crc.extend · bytes)) ∧
    (∀ written asked : UInt32, written ≠ asked → decodeRecord (encodeRecord header payload written) asked = none) ∧
    ∀ old new : UInt64, seed old ≠ seed new → ∀ (front rest : List UInt8) (lane : UInt8) (records : List Record)
      (taken : UInt64), readBlocksFrom lane new
        ((front ++ (encodeRecord header payload (seed old) ++ rest)).drop front.length) records taken = [] := by
  refine ⟨Crc.extend_injective, fun written asked other => ?_, fun old new other front rest lane records taken => ?_⟩
  · have gone := decodeRecord_other header fits other []
    rwa [append_nil] at gone
  · rw [drop_left]
    exact read_nothing (decodeRecord_other header fits other rest)

/-- A record of the fifth segment, asked for in the sixth. -/
theorem stale_record_never_replays_fifth :
    decodeRecord (encodeRecord { kind := .insert, lane := 0, flags := 0, gsn := 1 } [104, 105] (seed 5)) (seed 6) =
      none :=
  (stale_record_never_replays _ [104, 105] (by decide)).2.1 _ _ (by decide)

end Rudb.Txn
