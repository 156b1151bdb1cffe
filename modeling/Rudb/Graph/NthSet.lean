import Mathlib.Tactic.IntervalCases
import Rudb.Graph.Bits
import Rudb.Lib.Lanes

/-! The search for a set bit inside one word, without a branch on the bits, finds it. -/
namespace Rudb.Graph
open Rudb.Lib List Nat

def bytesOf (word : Word) : List Nat := (range 8).map fun index => word.toNat / 256 ^ index % 256

theorem masks (mask : Nat) : ofDigits 256 (replicate 8 mask) = mask * 0x0101010101010101 := by
  simp only [replicate, ofDigits_cons, ofDigits_nil]
  omega

section
variable {word : Word} {bytes : List Nat}

theorem bytesOf_small (word : Word) : ∀ byte ∈ bytesOf word, byte < 256 := by
  intro byte member
  obtain ⟨index, -, rfl⟩ := mem_map.mp member
  exact Nat.mod_lt _ (by decide)

theorem ofDigits_bytesOf (word : Word) : ofDigits 256 (bytesOf word) = word.toNat := by
  have bound := word.isLt
  simp only [bytesOf, range, range.loop, map_cons, map_nil, ofDigits_cons, ofDigits_nil]
  omega

/-- A word of eight bytes, masked in each byte after a shift. -/
theorem toNat_shift_and (is : word.toNat = ofDigits 256 bytes) (eight : bytes.length = 8)
    (small : ∀ byte ∈ bytes, byte < 256) (shift mask : Nat) (fits : mask * 2 ^ shift < 256) :
    (word >>> shift &&& BitVec.ofNat 64 (mask * 0x0101010101010101)).toNat =
      ofDigits 256 (bytes.map fun byte => byte >>> shift &&& mask) := by
  have mask_small : mask < 256 := lt_of_le_of_lt (Nat.le_mul_of_pos_right _ (Nat.two_pow_pos shift)) fits
  rw [BitVec.toNat_and, BitVec.toNat_ushiftRight, BitVec.toNat_ofNat, Nat.mod_eq_of_lt (by omega), is,
    ← lanes_shift_and shift fits small, eight, masks]

/-- `pairs` and `fours` of one byte. -/
def pairs (byte : Nat) : Nat := byte - (byte >>> 1 &&& 0x55)

def fours (byte : Nat) : Nat := (pairs byte >>> 0 &&& 0x33) + (pairs byte >>> 2 &&& 0x33)

/-- The ones of a byte, added up by pairs, fours and halves of it. -/
theorem ones_of_byte : ∀ byte < 256, (byte >>> 1 &&& 0x55) ≤ byte ∧ (fours byte ≤ 68 ∧ fours byte % 16 ≤ 4) ∧
    (fours byte + fours byte / 16) % 16 = tally byte.testBit 8 := by
  decide +kernel

theorem toNat_pairs (word : Word) :
    (word - (word >>> 1 &&& 0x5555555555555555)).toNat = ofDigits 256 ((bytesOf word).map pairs) := by
  have odd := toNat_shift_and (ofDigits_bytesOf word).symm rfl (bytesOf_small word) 1 0x55 (by decide)
  have less := lanes_sub fun byte member => (ones_of_byte byte (bytesOf_small word byte member)).1
  rw [map_id', ofDigits_bytesOf, ← odd] at less
  have bound := word.isLt
  rw [BitVec.toNat_sub]
  change (2 ^ 64 - (word >>> 1 &&& BitVec.ofNat 64 (0x55 * 0x0101010101010101)).toNat + _) % _ =
    ofDigits 256 ((bytesOf word).map fun byte => byte - (byte >>> 1 &&& 0x55))
  omega

section
variable (eight : bytes.length = 8) (small : ∀ byte ∈ bytes, byte < 256)
include eight small

/-- No carry leaves the word. -/
theorem fours_le : ofDigits 256 (bytes.map fours) ≤ 68 * 0x0101010101010101 := by
  have le : ∀ byte ∈ bytes, fours byte ≤ (fun _ => 68) byte := fun byte member =>
    (ones_of_byte byte (small byte member)).2.1.1
  have room := lanes_sub le
  rw [map_const', eight, masks] at room
  omega

theorem toNat_fours (is : word.toNat = ofDigits 256 (bytes.map pairs)) :
    ((word &&& 0x3333333333333333) + (word >>> 2 &&& 0x3333333333333333)).toNat = ofDigits 256 (bytes.map fours) := by
  have pairs_small : ∀ byte ∈ bytes.map pairs, byte < 256 := by
    intro byte member
    obtain ⟨byte, among, rfl⟩ := mem_map.mp member
    exact lt_of_le_of_lt (Nat.sub_le _ _) (small byte among)
  have length : (bytes.map pairs).length = 8 := by rw [length_map, eight]
  have low := toNat_shift_and is length pairs_small 0 0x33 (by decide)
  have high := toNat_shift_and is length pairs_small 2 0x33 (by decide)
  have sum := lanes_add bytes (fun byte => pairs byte >>> 0 &&& 0x33) fun byte => pairs byte >>> 2 &&& 0x33
  rw [map_map] at low high
  have bound := fours_le eight small
  rw [BitVec.toNat_add]
  change ((word >>> 0 &&& BitVec.ofNat 64 (0x33 * 0x0101010101010101)).toNat +
    (word >>> 2 &&& BitVec.ofNat 64 (0x33 * 0x0101010101010101)).toNat) % _ = _
  rw [low, high]
  change (ofDigits 256 (bytes.map fun byte => pairs byte >>> 0 &&& 0x33) +
    ofDigits 256 (bytes.map fun byte => pairs byte >>> 2 &&& 0x33)) % _ = _
  rw [sum]
  exact Nat.mod_eq_of_lt (lt_of_le_of_lt bound (by decide))

theorem toNat_ones (is : word.toNat = ofDigits 256 (bytes.map fours)) :
    ((word + word >>> 4) &&& 0x0F0F0F0F0F0F0F0F).toNat = ofDigits 256 (bytes.map fun byte => tally byte.testBit 8) := by
  have halves : ∀ byte ∈ bytes.map fours, byte ≤ 68 ∧ byte % 16 ≤ 4 := by
    intro byte member
    obtain ⟨byte, among, rfl⟩ := mem_map.mp member
    exact (ones_of_byte byte (small byte among)).2.1
  have added := halves_added halves
  rw [length_map, eight, masks, map_map] at added
  have bound := fours_le eight small
  have whole : (word + word >>> 4).toNat = word.toNat + word.toNat >>> 4 := by
    rw [BitVec.toNat_add, BitVec.toNat_ushiftRight, Nat.shiftRight_eq_div_pow]
    omega
  rw [BitVec.toNat_and, whole, is]
  refine added.trans (congrArg _ (map_congr_left fun byte member => ?_))
  exact (ones_of_byte byte (small byte member)).2.2

end

variable {inner nth block : Nat}

theorem getLsbD_byte (word : Word) (index : Nat) (lt : inner < 8) :
    word.getLsbD (8 * index + inner) = (word.toNat / 256 ^ index % 256).testBit inner := by
  rw [show (256 : Nat) = 2 ^ 8 from rfl, ← Nat.pow_mul, Nat.testBit_mod_two_pow, Nat.testBit_div_two_pow]
  simp [lt, BitVec.getLsbD, Nat.add_comm]

/-- The ones of a byte of a word are those between two places of it. -/
theorem tally_byte (word : Word) (index : Nat) (le : inner ≤ 8) : tally word.getLsbD (8 * index + inner) =
    tally word.getLsbD (8 * index) + tally (word.toNat / 256 ^ index % 256).testBit inner := by
  rw [tally_add]
  congr 1
  exact tally_congr fun place lt => getLsbD_byte word index (by omega)

/-- Each byte of the sums is the ones up to its end. -/
theorem toNat_byteSums (word : Word) :
    (byteSums word).toNat = ofDigits 256 ((range 8).map fun index => tally word.getLsbD (8 * index + 8)) := by
  have ones := toNat_ones rfl (bytesOf_small word) (toNat_fours rfl (bytesOf_small word) (toNat_pairs word))
  have product : (byteSums word).toNat =
      ofDigits 256 ((bytesOf word).map fun byte => tally byte.testBit 8) * 0x0101010101010101 % 2 ^ 64 := by
    rw [← ones]
    exact BitVec.toNat_mul _ _
  have sums := lanes_sums (fun index => tally (word.toNat / 256 ^ index % 256).testBit 8)
    (fun index => tally word.getLsbD (8 * index)) (fun _ => tally_le) tally_zero
    fun index => tally_byte word index (le_refl 8)
  rw [product, bytesOf, map_map, Function.comp_def, sums]
  simp only [Nat.mul_succ]

/-- The high bit of each byte whose count is at most a number. -/
theorem toNat_within (few : nth < 64) (falls : Falls (fun index => tally word.getLsbD (8 * index)) nth block) :
    (((BitVec.ofNat 64 nth * 0x0101010101010101 ||| 0x8080808080808080) - byteSums word) &&&
      0x8080808080808080).toNat = ofDigits 256 ((range 8).map fun index => if index < block then 128 else 0) := by
  have marked : ∀ nth < 64, (BitVec.ofNat 64 nth * 0x0101010101010101 ||| (0x8080808080808080 : Word)).toNat =
      (nth + 128) * 0x0101010101010101 := by decide +kernel
  have high : ∀ byte < 256, byte >>> 0 &&& 128 = if 128 ≤ byte then 128 else 0 := by decide +kernel
  have top : (0x8080808080808080 : Word) = BitVec.ofNat 64 (0x80 * 0x0101010101010101) := rfl
  have most (index : Nat) : index ∈ range 8 → tally word.getLsbD (8 * index + 8) ≤ (fun _ => nth + 128) index := by
    intro member
    have le := @tally_le word.getLsbD (8 * index + 8)
    have inside := mem_range.mp member
    dsimp only
    omega
  have less := lanes_sub most
  rw [map_const', length_range, masks, ← toNat_byteSums] at less
  have whole : ((BitVec.ofNat 64 nth * 0x0101010101010101 ||| 0x8080808080808080) - byteSums word).toNat =
      ofDigits 256 ((range 8).map fun index => nth + 128 - tally word.getLsbD (8 * index + 8)) := by
    rw [BitVec.toNat_sub, marked nth few]
    omega
  have small : ∀ byte ∈ (range 8).map fun index => nth + 128 - tally word.getLsbD (8 * index + 8), byte < 256 := by
    intro byte member
    obtain ⟨index, -, rfl⟩ := mem_map.mp member
    omega
  generalize (BitVec.ofNat 64 nth * 0x0101010101010101 ||| 0x8080808080808080) - byteSums word = left at whole ⊢
  have masked := toNat_shift_and whole (by simp) small 0 0x80 (by decide)
  rw [BitVec.ushiftRight_zero, ← top] at masked
  rw [masked, map_map]
  refine congrArg _ (map_congr_left fun index member => ?_)
  have inside := most index member
  rw [Function.comp, high _ (by omega)]
  have side : 128 ≤ nth + 128 - tally word.getLsbD (8 * index + 8) ↔ index < block := by
    constructor
    · intro fits
      by_contra past
      have le := @tally_mono word.getLsbD _ _ (show 8 * (block + 1) ≤ 8 * index + 8 by omega)
      have after : nth < tally word.getLsbD (8 * (block + 1)) := falls.2
      dsimp only at inside
      omega
    · intro before
      have le := @tally_mono word.getLsbD _ _ (show 8 * index + 8 ≤ 8 * block by omega)
      have first : tally word.getLsbD (8 * block) ≤ nth := falls.1
      omega
  simp only [side]

/-- The byte of the sums before a byte. -/
theorem byte_before (word : Word) (inside : block < 8) :
    ((byteSums word <<< 8) >>> (block * 8)).toNat % 256 = tally word.getLsbD (8 * block) := by
  have most (index : Nat) : tally word.getLsbD index ≤ index := tally_le
  have bounds := And.intro (most 8) (And.intro (most 16) (And.intro (most 24) (And.intro (most 32)
    (And.intro (most 40) (And.intro (most 48) (And.intro (most 56) (most 64)))))))
  rw [BitVec.toNat_ushiftRight, BitVec.toNat_shiftLeft, toNat_byteSums, Nat.shiftRight_eq_div_pow, Nat.shiftLeft_eq]
  simp only [range, range.loop, map_cons, map_nil, ofDigits_cons, ofDigits_nil, Nat.reduceMul, Nat.reduceAdd]
  have none := @tally_zero word.getLsbD
  interval_cases block <;> simp only [Nat.reduceMul] <;> omega

theorem nthSet_isNth (count : nth < countOnes word) :
    IsNth word.getLsbD nth (nthSet word nth) ∧ nthSet word nth < 64 := by
  have few : nth < 64 := lt_of_lt_of_le count tally_le
  obtain ⟨block, -, inside, falls⟩ : ∃ block, 0 ≤ block ∧ block < 8 ∧
      Falls (fun index => tally word.getLsbD (8 * index)) nth block :=
    exists_falls (Nat.zero_le 8) (Nat.zero_le nth) count
  have ones : ∀ block < 8, countOnes (BitVec.ofNat 64
      (ofDigits 256 ((range 8).map fun index => if index < block then 128 else 0))) = block := by decide +kernel
  have place : countOnes (((BitVec.ofNat 64 nth * 0x0101010101010101 ||| 0x8080808080808080) - byteSums word) &&&
      0x8080808080808080) = block := by
    rw [← ones block inside, ← toNat_within few falls, BitVec.ofNat_toNat, BitVec.setWidth_eq]
  have byte : (word >>> (block * 8)).toNat % 256 = word.toNat / 256 ^ block % 256 := by
    rw [BitVec.toNat_ushiftRight, Nat.shiftRight_eq_div_pow, Nat.mul_comm, Nat.pow_mul]
  have found : nthSet word nth = 8 * block +
      inByte (nth - tally word.getLsbD (8 * block)) (word.toNat / 256 ^ block % 256) := by
    unfold nthSet
    rw [if_neg (by omega)]
    dsimp only
    rw [place, byte_before word inside, byte, Nat.mul_comm]
  obtain ⟨first, after⟩ := falls
  have step := tally_byte word block (le_refl 8)
  dsimp only at first after
  rw [Nat.mul_succ, step] at after
  have fits : nth - tally word.getLsbD (8 * block) < tally (word.toNat / 256 ^ block % 256).testBit 8 := by omega
  obtain ⟨inner, here⟩ := exists_isNth fits
  have below := here.lt fits
  have entry : inByte (nth - tally word.getLsbD (8 * block)) (word.toNat / 256 ^ block % 256) = inner := by
    rw [inByte, getD_eq_getElem?_getD, places_getElem? here below, Option.getD_some]
  rw [found, entry]
  refine ⟨⟨?_, ?_⟩, by omega⟩
  · rw [getLsbD_byte word block below]
    exact here.1
  · rw [tally_byte word block below.le, here.2]
    omega

end
end Rudb.Graph
