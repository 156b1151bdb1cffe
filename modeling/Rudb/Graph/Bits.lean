import Rudb.Lib.LittleEndian
import Rudb.Lib.RankSelect

/-! A bitmap, a rank index over it, and select in both directions. Counts that the source holds in
32 bits wrap as they do there. Embeds bits.rs of rudb-graph. -/
namespace Rudb.Graph
open Rudb.Lib

abbrev Word := BitVec 64

/-- `bit`: the bit of a bitmap at a place, the least significant bit of word zero first. -/
def bit (words : List Word) (place : Nat) : Bool := (words.getD (place / 64) 0).getLsbD (place % 64)

/-- `count_ones`. -/
def countOnes (word : Word) : Nat := tally word.getLsbD 64

/-- In each byte of a word, the ones of every byte up to and including it: the sums of `nth_set`. -/
def byteSums (word : Word) : Word :=
  let pairs := word - (word >>> 1 &&& 0x5555555555555555)
  let fours := (pairs &&& 0x3333333333333333) + (pairs >>> 2 &&& 0x3333333333333333)
  ((fours + fours >>> 4) &&& 0x0F0F0F0F0F0F0F0F) * 0x0101010101010101

/-- `IN_BYTE`, by its columns: the bits of a byte that are set are written one after the other, and 8 is left
behind them. -/
def inByte (rank byte : Nat) : Nat := (places byte.testBit 8).getD rank 8

/-- `nth_set`: where the `nth` set bit of a word is, counting from zero, and 64 without one. -/
def nthSet (word : Word) (nth : Nat) : Nat :=
  if nth ≥ countOnes word then 64
  else
    let sums := byteSums word
    let within := ((BitVec.ofNat 64 nth * 0x0101010101010101 ||| 0x8080808080808080) - sums) &&& 0x8080808080808080
    let place := countOnes within * 8
    let before := ((sums <<< 8) >>> place).toNat % 256
    let byte := (word >>> place).toNat % 256
    place + inByte (nth - before) byte

/-- `trailing_zeros`. -/
def trailingZeros (word : Word) : Nat := (places word.getLsbD 64).getD 0 64

def clearLowest (word : Word) : Word := word &&& (word - 1)

theorem clearLowest_lt (some_ : word ≠ 0) : (clearLowest word).toNat < word.toNat := by
  have positive : 0 < word.toNat := Nat.pos_of_ne_zero fun zero => some_ (BitVec.eq_of_toNat_eq zero)
  have less : (word - 1).toNat = word.toNat - 1 := BitVec.toNat_sub_of_le (by
    rw [BitVec.le_def]
    exact Nat.succ_le_of_lt positive)
  have below : (word &&& (word - 1)).toNat ≤ (word - 1).toNat := by
    exact Nat.and_le_right
  unfold clearLowest
  omega

/-- `BLOCKS_PER_SUPERBLOCK`. -/
def blocksPerSuperblock : Nat := 8

/-- `BLOCK_WORDS`. -/
def blockWords : Nat := 8

/-- `SAMPLE`. -/
def sampleEvery : Nat := 64

/-- `WALK_WORDS`. -/
def walkWords : Nat := 8

/-- `NEAR_WORDS`. -/
def nearWords : Nat := 8

/-- `malformed`. -/
def malformedBits (message : String) : String := "invalid rudb bit vector: " ++ message

/-- `Rank`. -/
structure Rank where
  superblocks : List Nat
  blocks : List Nat
  fine : List Nat
  deriving DecidableEq

namespace Rank

/-- The superblocks and the blocks made so far, the ones before the next block and the ones of its
superblock before it. -/
structure Building where
  superblocks : List Nat
  blocks : List Nat
  total : Nat
  within : Nat

/-- One turn of the loop of `build`. -/
def buildBlock (bits : List Word) (building : Building) (block : Nat) : Building :=
  let starts := block % blocksPerSuperblock = 0
  let within := if starts then 0 else building.within
  let ones := (((bits.drop (block * blockWords)).take blockWords).map countOnes).sum
  { superblocks := if starts then building.superblocks ++ [building.total] else building.superblocks
    blocks := building.blocks ++ [within]
    total := (building.total + ones) % 2 ^ 32
    within := (within + ones) % 2 ^ 16 }

/-- `refine`: the ones before each word, and their total after the last. -/
def refineFrom (total : Nat) : List Word → List Nat
  | [] => [total]
  | word :: rest => total :: refineFrom ((total + countOnes word) % 2 ^ 32) rest

/-- `build`. -/
def build (bits : List Word) : Rank :=
  let built := (List.range ((bits.length + blockWords - 1) / blockWords)).foldl (buildBlock bits)
    { superblocks := [], blocks := [], total := 0, within := 0 }
  { superblocks := built.superblocks, blocks := built.blocks, fine := refineFrom 0 bits }

/-- `ones_before_word`. -/
def onesBeforeWord (index : Rank) (word : Nat) : Nat := index.fine.getD word 0

/-- `rank`: how many bits are set strictly below a place. -/
def rank (index : Rank) (bits : List Word) (place : Nat) : Nat :=
  let mask := (1 : Word) <<< (place % 64) - 1
  index.onesBeforeWord (place / 64) + countOnes (bits.getD (place / 64) 0 &&& mask)

/-- The words stepped over one at a time. -/
def step (index : Rank) (nth near : Nat) : (steps : Nat) → (word : Nat) → Nat
  | 0, word => word
  | steps + 1, word =>
    if word < near ∧ index.onesBeforeWord (word + 1) ≤ nth then index.step nth near steps (word + 1) else word

/-- The gallop, which leaves a word at most `nth` ones are before and one that is past it or the end. -/
def gallop (index : Rank) (nth words : Nat) : (turns : Nat) → (low stride high : Nat) → Nat × Nat
  | 0, low, _, high => (low, high)
  | turns + 1, low, stride, high =>
    if high < words ∧ index.onesBeforeWord high ≤ nth then
      index.gallop nth words turns high (stride * 2) (min (high + stride * 2) words)
    else (low, high)

/-- `partition_point`: how many of a sorted run pass. -/
def partitionPoint (index : Rank) (nth low high : Nat) : Nat :=
  (((index.fine.drop low).take (high - low)).takeWhile (· ≤ nth)).length

/-- `word_holding`: the word that holds the one of rank `nth` and how many ones of the word come
before it, searching from a word on. -/
def wordHolding (index : Rank) (nth start : Nat) : Option (Nat × Nat) :=
  match index.fine.length with
  | 0 => none
  | words + 1 =>
    if start ≥ words ∨ index.onesBeforeWord start > nth ∨ index.onesBeforeWord words ≤ nth then none
    else
      let near := min (start + nearWords) words
      let word := index.step nth near nearWords start
      if word < near then some (word, nth - index.onesBeforeWord word)
      else
        let (low, high) := index.gallop nth words words word 1 (word + 1)
        let word := low + index.partitionPoint nth low high - 1
        some (word, nth - index.onesBeforeWord word)

/-- `shape`: how many blocks and superblocks index so many words. -/
def shape (words : Nat) : Nat × Nat :=
  let blocks := (words + blockWords - 1) / blockWords
  (blocks, (blocks + blocksPerSuperblock - 1) / blocksPerSuperblock)

/-- `write`. -/
def write (index : Rank) : List UInt8 :=
  index.superblocks.flatMap (LittleEndian.toBytes 4) ++ index.blocks.flatMap (LittleEndian.toBytes 2)

end Rank

/-- `Rank::read`. -/
def Rank.read (bytes : List UInt8) (bits : List Word) : Except String Rank :=
  let (blocks, superblocks) := Rank.shape bits.length
  if bytes.length ≠ superblocks * 4 + blocks * 2 then
    .error (malformedBits "a dense key map's rank index is not the size its range implies")
  else
    .ok {
      superblocks := LittleEndian.numbers 4 superblocks bytes
      blocks := LittleEndian.numbers 2 blocks (bytes.drop (superblocks * 4))
      fine := Rank.refineFrom 0 bits }

/-- `BitVector`. -/
structure BitVector where
  words : List Word
  len : Nat
  ones : Nat
  rank : Rank
  onesSample : List Nat
  zerosSample : List Nat
  deriving DecidableEq

namespace BitVector

/-- `before`: the bits of a value strictly before a word's first bit. -/
def before (rank : Rank) (set : Bool) (word : Nat) : Nat :=
  if set then rank.onesBeforeWord word else word * 64 - rank.onesBeforeWord word

/-- The walk of `samples` to the word a count falls in. -/
def advance (rank : Rank) (words : Nat) (set : Bool) (target word : Nat) : Nat :=
  if word + 1 < words ∧ before rank set (word + 1) ≤ target then advance rank words set target (word + 1) else word
termination_by words - word

/-- `samples`: the word that holds each 64th bit of a value, from a group and a word on. -/
def samplesFrom (rank : Rank) (words : Nat) (set : Bool) : (groups : Nat) → (group word : Nat) → List Nat
  | 0, _, _ => []
  | groups + 1, group, word =>
    let word := advance rank words set (group * sampleEvery) word
    min word (2 ^ 32 - 1) :: samplesFrom rank words set groups (group + 1) word

/-- `samples`. -/
def samples (rank : Rank) (words : Nat) (set : Bool) (total : Nat) : List Nat :=
  samplesFrom rank words set ((total + sampleEvery - 1) / sampleEvery) 0 0

/-- `sample`: the vector over words with their rank index. -/
def indexed (words : List Word) (len : Nat) (rank : Rank) : BitVector :=
  let ones := (words.map countOnes).sum
  { words, len, ones, rank, onesSample := samples rank words.length true ones,
    zerosSample := samples rank words.length false (len - ones) }

/-- Whether a bit is set past the length. -/
def tailSet (words : List Word) (len : Nat) : Bool := len % 64 ≠ 0 && words.getD (len / 64) 0 >>> (len % 64) ≠ 0

/-- `new`. -/
def new (words : List Word) (len : Nat) : Except String BitVector :=
  if words.length ≠ (len + 63) / 64 then .error (malformedBits "a bit vector's words do not match its length")
  else if tailSet words len then .error (malformedBits "a bit vector has bits set past its length")
  else .ok (indexed words len (Rank.build words))

variable (vector : BitVector)

/-- `zeros`. -/
def zeros : Nat := vector.len - vector.ones

/-- `rank1`. -/
def rank1 (place : Nat) : Nat := if place ≥ vector.len then vector.ones else vector.rank.rank vector.words place

/-- `rank0`. -/
def rank0 (place : Nat) : Nat :=
  let place := min place vector.len
  place - vector.rank1 place

/-- The search of `select` by halving, for the last word with at most `nth` bits before it. -/
def halve (set : Bool) (nth low high : Nat) : Nat :=
  if low < high then
    let middle := low + (high - low + 1) / 2
    if before vector.rank set middle ≤ nth then halve set nth middle high else halve set nth low (middle - 1)
  else low
termination_by high - low

/-- The search of `select` a word at a time. -/
def walk (set : Bool) (nth stop word : Nat) : Nat :=
  if word < stop ∧ before vector.rank set (word + 1) ≤ nth then walk set nth stop (word + 1) else word
termination_by stop - word

/-- `select`. -/
def select (nth : Nat) (set : Bool) : Nat :=
  if vector.words.length = 0 then vector.len
  else
    let samples := if set then vector.onesSample else vector.zerosSample
    let group := nth / sampleEvery
    let first := samples.getD group 0
    let stop := samples.getD (group + 1) (vector.words.length - 1)
    let word := if stop - first > walkWords then vector.halve set nth first stop else vector.walk set nth stop first
    let held := if set then vector.words.getD word 0 else ~~~(vector.words.getD word 0)
    let ahead := before vector.rank set word
    if nth < ahead ∨ nth - ahead ≥ countOnes held then vector.len else word * 64 + nthSet held (nth - ahead)

/-- `select1`. -/
def select1 (nth : Nat) : Option Nat := if nth ≥ vector.ones then none else some (vector.select nth true)

/-- `select0`. -/
def select0 (nth : Nat) : Option Nat := if nth ≥ vector.zeros then none else some (vector.select nth false)

/-- `write`. -/
def write : List UInt8 := vector.words.flatMap (fun word => LittleEndian.toBytes 8 word.toNat) ++ vector.rank.write

end BitVector

/-- `BitVector::read`. -/
def BitVector.read (bytes : List UInt8) (len : Nat) : Except String BitVector :=
  let count := (len + 63) / 64
  if bytes.length < count * 8 then .error (malformedBits "a bit vector is shorter than its length implies")
  else
    let held := (LittleEndian.numbers 8 count bytes).map (BitVec.ofNat 64)
    match Rank.read (bytes.drop (count * 8)) held with
    | .error error => .error error
    | .ok rank =>
      if BitVector.tailSet held len then .error (malformedBits "a bit vector has bits set past its length")
      else .ok (BitVector.indexed held len rank)

end Rudb.Graph
