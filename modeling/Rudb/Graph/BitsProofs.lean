import Mathlib.Data.List.GetD
import Rudb.Graph.NthSet

/-! Rank and select over a bitmap are exact while its ones can be counted in 32 bits. -/
namespace Rudb.Graph
open Rudb.Lib LittleEndian List Bool

abbrev ahead (words : List Word) (word : Nat) : Nat := tally (bit words) (64 * word)

section words
variable {words : List Word} {inner : Nat}

theorem bit_add (lt : inner < 64) : bit words (64 * index + inner) = (words.getD index 0).getLsbD inner := by
  have div : (64 * index + inner) / 64 = index := by omega
  have mod : (64 * index + inner) % 64 = inner := by omega
  rw [bit, div, mod]

theorem bit_past (past : 64 * words.length ≤ place) : bit words place = false := by
  have outside : words.length ≤ place / 64 := by omega
  simp [bit, getElem?_eq_none outside]

theorem bit_replicate (size place : Nat) : bit (replicate size 0) place = false := by
  unfold bit
  rw [getD_eq_getElem?_getD, getElem?_replicate]
  split <;> exact BitVec.getLsbD_zero

theorem words_ext (length : one.length = other.length) (same : ∀ place, bit one place = bit other place) :
    one = other := by
  refine ext_getElem length fun index lt lt' => BitVec.eq_of_getLsbD_eq fun inner small => ?_
  have here := same (64 * index + inner)
  rwa [bit_add small, bit_add small, getD_eq_getElem _ _ lt, getD_eq_getElem _ _ lt'] at here

theorem bit_append (one other : List Word) (place : Nat) :
    bit (one ++ other) place = if place < 64 * one.length then bit one place
      else bit other (place - 64 * one.length) := by
  simp only [bit, getD_eq_getElem?_getD]
  split
  · rw [getElem?_append_left (by omega)]
  · have div : (place - 64 * one.length) / 64 = place / 64 - one.length := by omega
    have mod : (place - 64 * one.length) % 64 = place % 64 := by omega
    rw [getElem?_append_right (by omega), div, mod]

theorem bit_cons (rest : List Word) (place : Nat) : bit (word :: rest) (64 + place) = bit rest place := by
  have div : (64 + place) / 64 = place / 64 + 1 := by omega
  have mod : (64 + place) % 64 = place % 64 := by omega
  rw [bit, bit, div, mod, getD_cons_succ]

/-- The ones of a stretch that starts a word are those of the word. -/
theorem tally_inside (le : inner ≤ 64) :
    tally (bit words) (64 * index + inner) = ahead words index + tally (words.getD index 0).getLsbD inner := by
  rw [tally_add]
  congr 1
  exact tally_congr fun place lt => bit_add (by omega)

theorem ahead_succ (index : Nat) : ahead words (index + 1) = ahead words index + countOnes (words.getD index 0) := by
  rw [ahead, Nat.mul_succ, tally_inside (le_refl 64), countOnes]

theorem tally_split (place : Nat) :
    tally (bit words) place = ahead words (place / 64) + tally (words.getD (place / 64) 0).getLsbD (place % 64) := by
  rw [← tally_inside (by omega), Nat.div_add_mod]

theorem tally_cons (rest : List Word) (bound : Nat) :
    tally (bit (word :: rest)) (64 + bound) = countOnes word + tally (bit rest) bound := by
  have first := @ahead_succ (word :: rest) 0
  rw [tally_add, tally_congr fun place _ => bit_cons rest place]
  simpa [ahead] using first

theorem tally_all : tally (bit words) (64 * words.length) = (words.map countOnes).sum := by
  induction words with
  | nil => rfl
  | cons word rest ih =>
    rw [length_cons, Nat.mul_succ, add_comm, tally_cons, map_cons, sum_cons, ← ih]

/-- The place of a one that is found in its word. -/
theorem trailingZeros_isNth (some_ : word ≠ 0) : IsNth word.getLsbD 0 (trailingZeros word) ∧
    trailingZeros word < 64 := by
  have count : 0 < countOnes word := Nat.pos_of_ne_zero fun none_ => some_ (BitVec.eq_of_getLsbD_eq fun place lt =>
    (not_of_tally_eq_zero none_ lt).trans BitVec.getLsbD_zero.symm)
  obtain ⟨place, here⟩ := exists_isNth count
  have found := places_getElem? here (here.lt count)
  have same : trailingZeros word = place := by rw [trailingZeros, getD_eq_getElem?_getD, found, Option.getD_some]
  rw [same]
  exact ⟨here, here.lt count⟩

theorem nthSet_zero (word : Word) : nthSet word 0 = trailingZeros word := by
  by_cases none : word = 0
  · subst none
    decide
  · obtain ⟨here, lt⟩ := trailingZeros_isNth none
    exact (nthSet_isNth (here.lt_tally lt)).1.unique here

theorem getLsbD_clearLowest (some_ : word ≠ 0) (place : Nat) :
    (clearLowest word).getLsbD place = (word.getLsbD place && decide (place ≠ trailingZeros word)) := by
  obtain ⟨⟨set, none_⟩, lt⟩ := trailingZeros_isNth some_
  generalize trailingZeros word = low at set none_ lt
  -- the word is an odd number of powers of two, and one less is as many before it and all the lower bits
  have lower : word.toNat % 2 ^ low = 0 := Nat.eq_of_testBit_eq fun place => by
    rw [Nat.testBit_mod_two_pow, Nat.zero_testBit]
    by_cases below : place < low
    · rw [show word.toNat.testBit place = false from not_of_tally_eq_zero none_ below, Bool.and_false]
    · simp [below]
  have odd : word.toNat / 2 ^ low % 2 = 1 := by
    have here : word.toNat.testBit low = true := set
    rw [Nat.testBit_eq_decide_div_mod_eq] at here
    simpa using here
  obtain ⟨half, value⟩ : ∃ half, word.toNat = 2 ^ low * (2 * half + 1) := by
    refine ⟨word.toNat / 2 ^ low / 2, ?_⟩
    have whole := Nat.div_add_mod word.toNat (2 ^ low)
    have parts := Nat.div_add_mod (word.toNat / 2 ^ low) 2
    rw [odd] at parts
    rw [parts]
    omega
  have power := Nat.two_pow_pos low
  have less : (word - 1).toNat = 2 ^ low * (2 * half) + (2 ^ low - 1) := by
    have one : (1 : Word).toNat = 1 := rfl
    have positive : 2 ^ low * (2 * half + 1) = 2 ^ low * (2 * half) + 2 ^ low := Nat.mul_succ _ _
    rw [BitVec.toNat_sub_of_le (by rw [BitVec.le_def]; omega), one]
    omega
  rw [clearLowest, BitVec.getLsbD_and]
  rcases lt_trichotomy place low with below | rfl | above
  · rw [not_of_tally_eq_zero none_ below, Bool.false_and, Bool.false_and]
  · have gone : (word - 1).getLsbD place = false := by
      rw [BitVec.getLsbD, less, Nat.testBit_two_pow_mul_add _ (by omega)]
      simp
    rw [gone, decide_eq_false fun differ => differ rfl]
  have kept : (word - 1).getLsbD place = word.getLsbD place := by
    have shape : word.toNat = 2 ^ low * (2 * half + 1) + 0 := by omega
    obtain ⟨step, rfl⟩ : ∃ step, place = low + (step + 1) := ⟨place - low - 1, by omega⟩
    rw [BitVec.getLsbD, BitVec.getLsbD, less, shape, Nat.testBit_two_pow_mul_add _ (by omega),
      Nat.testBit_two_pow_mul_add _ power, if_neg (by omega), if_neg (by omega), Nat.add_sub_cancel_left,
      Nat.testBit_succ, Nat.testBit_succ]
    congr 1
    omega
  rw [kept, Bool.and_self, decide_eq_true (by omega : place ≠ low), Bool.and_true]

theorem nthSet_word (falls : Falls (ahead words) nth index) :
    IsNth (bit words) nth (64 * index + nthSet (words.getD index 0) (nth - ahead words index)) := by
  obtain ⟨le, lt⟩ := falls
  rw [ahead_succ] at lt
  have inside : nth - ahead words index < countOnes (words.getD index 0) := by omega
  obtain ⟨here, small⟩ := nthSet_isNth inside
  refine ⟨by rw [bit_add small]; exact here.1, ?_⟩
  rw [tally_inside small.le, here.2]
  omega

theorem monotone_ahead : Monotone (ahead words) := fun _ _ le => tally_mono (by omega)

theorem getLsbD_mask (lt : inner < 64) (place : Nat) :
    ((1 : Word) <<< inner - 1).getLsbD place = decide (place < inner) := by
  have power : (2 : Nat) ^ inner < 2 ^ 64 := Nat.pow_lt_pow_right (by decide) lt
  have shifted : ((1 : Word) <<< inner).toNat = 2 ^ inner := by
    rw [BitVec.toNat_shiftLeft, Nat.shiftLeft_eq]
    exact (Nat.one_mul _).symm ▸ Nat.mod_eq_of_lt power
  have value : ((1 : Word) <<< inner - 1).toNat = 2 ^ inner - 1 := by
    rw [BitVec.toNat_sub_of_le, shifted]
    · rfl
    · rw [BitVec.le_def, shifted]
      exact Nat.two_pow_pos inner
  rw [BitVec.getLsbD, value, Nat.testBit_two_pow_sub_one]

theorem countOnes_mask (lt : inner < 64) :
    countOnes (word &&& ((1 : Word) <<< inner - 1)) = tally word.getLsbD inner := by
  rw [countOnes, tally_eq_of_none lt.le]
  · exact tally_congr fun place below => by
      rw [BitVec.getLsbD_and, getLsbD_mask lt, decide_eq_true below, Bool.and_true]
  · intro place past
    rw [BitVec.getLsbD_and, getLsbD_mask lt, decide_eq_false (Nat.not_lt.mpr past), Bool.and_false]

end words

structure Rank.Counts (index : Rank) (words : List Word) : Prop where
  length : index.fine.length = words.length + 1
  count : ∀ word ≤ words.length, index.onesBeforeWord word = ahead words word

namespace Rank
variable {words : List Word} {index : Rank}

theorem refineFrom_length (total : Nat) : (refineFrom total words).length = words.length + 1 := by
  induction words generalizing total with
  | nil => rfl
  | cons word rest ih => simp [refineFrom, ih]

theorem refineFrom_getD (small : total < 2 ^ 32) (le : word ≤ words.length) :
    (refineFrom total words).getD word 0 = (total + tally (bit words) (64 * word)) % 2 ^ 32 := by
  induction words generalizing total word with
  | nil =>
    rcases Nat.le_zero.mp le with rfl
    rw [tally_zero, add_zero, Nat.mod_eq_of_lt small]
    rfl
  | cons first rest ih =>
    cases word with
    | zero =>
      rw [tally_zero, add_zero, Nat.mod_eq_of_lt small]
      rfl
    | succ word =>
      rw [refineFrom, getD_cons_succ, ih (Nat.mod_lt _ (by decide)) (by simpa using le), Nat.mul_succ, add_comm _ 64,
        tally_cons, Nat.mod_add_mod, add_assoc]

theorem counts_of_small (fine : index.fine = refineFrom 0 words)
    (small : tally (bit words) (64 * words.length) < 2 ^ 32) :
    index.Counts words where
  length := by rw [fine, refineFrom_length]
  count word le := by
    have below := tally_mono (p := bit words) (Nat.mul_le_mul_left 64 le)
    rw [onesBeforeWord, fine, refineFrom_getD (by decide) le, Nat.zero_add, Nat.mod_eq_of_lt (by omega)]

theorem Counts.rank (counts : index.Counts words) (lt : place < 64 * words.length) :
    index.rank words place = tally (bit words) place := by
  rw [Rank.rank, counts.count _ (by omega), countOnes_mask (by omega), tally_split]

section
variable {place : Nat} (fine : index.fine = refineFrom 0 words) (lt : place < 64 * words.length)
include fine lt

/-- The rank as the index gives it, whose count before the word wraps. -/
theorem rank_wraps :
    index.rank words place = ahead words (place / 64) % 2 ^ 32 +
      tally (words.getD (place / 64) 0).getLsbD (place % 64) := by
  rw [Rank.rank, onesBeforeWord, fine, refineFrom_getD (by decide) (by omega), zero_add, countOnes_mask (by omega)]

theorem rank_le : index.rank words place ≤ tally (bit words) place := by
  rw [rank_wraps fine lt, tally_split]
  omega

end

section
variable (counts : index.Counts words)
include counts

/-- A step stops at the word the count falls in, or at the near end with no more before it. -/
theorem Counts.step (le : near ≤ words.length)
    (enough : near - word ≤ steps) (inside : word ≤ near) (first : ahead words word ≤ nth) :
    (index.step nth near steps word < near → Falls (ahead words) nth (index.step nth near steps word)) ∧
      (near ≤ index.step nth near steps word → index.step nth near steps word = near ∧ ahead words near ≤ nth) := by
  induction steps generalizing word with
  | zero =>
    obtain rfl : word = near := by omega
    exact ⟨fun lt => absurd lt (lt_irrefl _), fun _ => ⟨rfl, first⟩⟩
  | succ steps ih =>
    simp only [Rank.step]
    split
    · rename_i more
      have count := counts.count (word + 1) (by omega)
      exact ih (by omega) (by omega) (count ▸ more.2)
    rename_i stops
    refine ⟨fun lt => ⟨first, ?_⟩, fun ge => ?_⟩
    · rw [counts.count _ (by omega)] at stops
      have := fun le => stops ⟨lt, le⟩
      exact not_le.mp this
    · obtain rfl : word = near := by omega
      exact ⟨rfl, first⟩

theorem Counts.gallop (last : nth < ahead words words.length)
    (enough : words.length - high ≤ turns) (positive : 0 < stride) (rising : low < high) (inside : high ≤ words.length)
    (first : ahead words low ≤ nth)
    (result : index.gallop nth words.length turns low stride high = (low', high')) :
    low' < high' ∧ high' ≤ words.length ∧ ahead words low' ≤ nth ∧ nth < ahead words high' := by
  induction turns generalizing low stride high with
  | zero =>
    have end_ : high = words.length := by omega
    cases result
    exact ⟨rising, inside, first, end_ ▸ last⟩
  | succ turns ih =>
    simp only [Rank.gallop] at result
    split at result
    · rename_i more
      have count := counts.count high inside
      exact ih (by omega) (by omega) (by omega) (by omega) (count ▸ more.2) result
    rename_i stops
    cases result
    refine ⟨rising, inside, first, ?_⟩
    rcases lt_or_eq_of_le inside with lt | rfl
    · rw [counts.count _ inside] at stops
      exact not_le.mp fun le => stops ⟨lt, le⟩
    · exact last

/-- Of a sorted run, what passes a bound is the front that is counted. -/
theorem Counts.partitionPoint (le : high ≤ words.length)
    (falls : Falls (ahead words) nth word) (ge : low ≤ word) (lt : word < high) :
    index.partitionPoint nth low high = word + 1 - low := by
  have entry {place : Nat} (inside : place < high - low) :
      ((index.fine.drop low).take (high - low))[place]? = some (ahead words (low + place)) := by
    have within : low + place < index.fine.length := by
      have := counts.length
      omega
    have count := counts.count (low + place) (by omega)
    rw [onesBeforeWord, getD_eq_getElem _ _ within] at count
    rw [getElem?_take_of_lt inside, getElem?_drop, getElem?_eq_getElem within, count]
  have total : ((index.fine.drop low).take (high - low)).length = high - low := by
    have := counts.length
    simp
    omega
  rw [Rank.partitionPoint]
  generalize (index.fine.drop low).take (high - low) = listed at entry total
  -- the front up to the word passes, and the entry after it does not
  have split : listed = listed.take (word + 1 - low) ++ listed.drop (word + 1 - low) := (take_append_drop _ _).symm
  have front : ∀ count ∈ listed.take (word + 1 - low), count ≤ nth := by
    intro count member
    obtain ⟨place, inside, here⟩ := mem_iff_getElem.mp member
    rw [length_take] at inside
    have found := @entry place (by omega)
    have same : some count = some (ahead words (low + place)) := by
      rw [← here, ← found, ← getElem?_eq_getElem, getElem?_take_of_lt (by omega)]
    cases same
    exact le_trans (monotone_ahead (by omega)) falls.1
  rw [split, takeWhile_append_of_pos (by simpa using front), length_append, length_take]
  have back : (listed.drop (word + 1 - low)).takeWhile (· ≤ nth) = [] := by
    rcases lt_or_ge (word + 1) high with more | done
    · have next := @entry (word + 1 - low) (by omega)
      have head : (listed.drop (word + 1 - low))[0]? = some (ahead words (word + 1)) := by
        rw [getElem?_drop, add_zero, next, Nat.add_sub_cancel' (by omega)]
      cases rest : listed.drop (word + 1 - low) with
      | nil => rfl
      | cons count rest' =>
        rw [rest] at head
        cases head
        have past := falls.2
        simp [Nat.not_le.mpr past]
    · rw [drop_of_length_le (by omega), takeWhile_nil]
  rw [back, length_nil]
  omega

/-- The word that holds a one, from a word with no more ones before it on. -/
theorem Counts.wordHolding (lt : start < words.length)
    (first : ahead words start ≤ nth) (last : nth < ahead words words.length) :
    ∃ word, start ≤ word ∧ word < words.length ∧ Falls (ahead words) nth word ∧
      index.wordHolding nth start = some (word, nth - ahead words word) := by
  obtain ⟨word, ge, below, falls⟩ := exists_falls lt.le first last
  refine ⟨word, ge, below, falls, ?_⟩
  have inside : ¬(start ≥ words.length ∨ index.onesBeforeWord start > nth ∨
      index.onesBeforeWord words.length ≤ nth) := by
    rw [counts.count start lt.le, counts.count _ le_rfl]
    omega
  simp only [Rank.wordHolding, counts.length, if_neg inside]
  have near_le : min (start + nearWords) words.length ≤ words.length := min_le_right _ _
  have enough : min (start + nearWords) words.length - start ≤ nearWords := by omega
  obtain ⟨near_, far⟩ := counts.step near_le enough (by omega) first
  split
  · rename_i stops
    have same := (near_ stops).unique monotone_ahead falls
    rw [same, counts.count word below.le]
  rename_i goes
  obtain ⟨same, before⟩ := far (not_lt.mp goes)
  have end_ : min (start + nearWords) words.length < words.length := by
    by_contra all
    have : min (start + nearWords) words.length = words.length := by omega
    rw [this] at before
    omega
  rw [same]
  cases result : index.gallop nth words.length words.length (min (start + nearWords) words.length) 1
      (min (start + nearWords) words.length + 1) with
  | mk low high =>
    obtain ⟨rising, high_le, low_first, high_last⟩ :=
      counts.gallop last (by omega) (by decide) (by omega) (by omega) before
      result
    have low_le : low ≤ word := falls.le monotone_ahead low_first
    have high_gt : word < high := by
      by_contra past
      have le := @monotone_ahead words _ _ (not_lt.mp past)
      have := falls.1
      omega
    simp only [counts.partitionPoint high_le falls low_le high_gt]
    have back : low + (word + 1 - low) - 1 = word := by omega
    rw [back, counts.count word below.le]

/-- There is no such word when the bitmap has no more ones, or when the search starts past it. -/
theorem Counts.wordHolding_none
    (none_ : words.length ≤ start ∨ nth < ahead words start ∨ ahead words words.length ≤ nth) :
    index.wordHolding nth start = none := by
  simp only [Rank.wordHolding, counts.length]
  refine if_pos ?_
  rw [counts.count _ le_rfl]
  rcases lt_or_ge start words.length with lt | ge
  · rw [counts.count start lt.le]
    omega
  · exact .inl ge

end

end Rank

/-- The bitmap in which the bits of a value are the ones. -/
def facing (set : Bool) (words : List Word) : List Word := if set then words else words.map (~~~·)

section facing
variable {set : Bool}

theorem facing_getD (lt : index < words.length) :
    (facing set words).getD index 0 = if set then words.getD index 0 else ~~~(words.getD index 0) := by
  cases set <;> simp [facing, getElem?_eq_getElem lt]

theorem facing_bit (lt : place < 64 * words.length) : bit (facing set words) place = (bit words place == set) := by
  have inside : place % 64 < 64 := Nat.mod_lt _ (by decide)
  rw [bit, facing_getD (by omega), bit]
  cases set <;> simp [inside]

theorem tally_facing (le : bound ≤ 64 * words.length) :
    tally (bit (facing set words)) bound = tally (fun place => bit words place == set) bound :=
  tally_congr fun _ lt => facing_bit (by omega)

theorem Rank.Counts.before (counts : index.Counts words) (le : word ≤ words.length) :
    BitVector.before index set word = ahead (facing set words) word := by
  have whole : tally (bit words) (64 * word) + tally (fun place => !bit words place) (64 * word) =
    64 * word := tally_add_not
  rw [ahead, tally_facing (by omega), BitVector.before, counts.count word le]
  cases set with
  | true => simp [ahead]
  | false =>
    simp only [false_eq_true, if_false, ahead, beq_false]
    omega

end facing

namespace BitVector

/-- The word a search for each 64th bit of a value ends in. -/
structure Sampled (words : List Word) (set : Bool) (total : Nat) (samples : List Nat) : Prop where
  length : samples.length = (total + sampleEvery - 1) / sampleEvery
  word : ∀ group word, samples[group]? = some word → word < words.length ∧
    Falls (ahead (facing set words)) (group * sampleEvery) word

section search
variable {words : List Word} {index : Rank} {set : Bool} {nth : Nat}

theorem advance_eq (counts : index.Counts words) (start : word < words.length)
    (first : ahead (facing set words) word ≤ target) (last : target < ahead (facing set words) words.length) :
    advance index words.length set target word < words.length ∧
      Falls (ahead (facing set words)) target (advance index words.length set target word) := by
  fun_induction advance index words.length set target word with
  | case1 word more ih =>
    rw [counts.before more.1.le] at more
    exact ih more.1 more.2
  | case2 word stops =>
    refine ⟨start, first, ?_⟩
    rcases lt_or_ge (word + 1) words.length with lt | ge
    · rw [counts.before (by omega)] at stops
      exact not_le.mp fun le => stops ⟨lt, le⟩
    · have end_ : words.length = word + 1 := by omega
      rwa [← end_]

theorem samplesFrom_getElem? (counts : index.Counts words) (small : words.length ≤ 2 ^ 32)
    (start : word < words.length) (first : ahead (facing set words) word ≤ group * sampleEvery)
    (last : ∀ next < groups, (group + next) * sampleEvery < ahead (facing set words) words.length)
    (found : (samplesFrom index words.length set groups group word)[place]? = some sample) :
    sample < words.length ∧ Falls (ahead (facing set words)) ((group + place) * sampleEvery) sample := by
  induction groups generalizing group word place with
  | zero => simp [samplesFrom] at found
  | succ groups ih =>
    have here := advance_eq counts start first (last 0 (by omega))
    have held : min (advance index words.length set (group * sampleEvery) word) (2 ^ 32 - 1) =
        advance index words.length set (group * sampleEvery) word := by omega
    simp only [samplesFrom, held] at found
    cases place with
    | zero =>
      cases found
      exact here
    | succ place =>
      have before := here.2.1
      have next := ih here.1 (by rw [Nat.succ_mul]; omega) (fun next lt => ?_) found
      · rwa [add_right_comm] at next
      · have := last (next + 1) (by omega)
        rwa [add_right_comm]

theorem samplesFrom_length (groups group word : Nat) :
    (samplesFrom index words.length set groups group word).length = groups := by
  induction groups generalizing group word with
  | zero => rfl
  | succ groups ih => simp [samplesFrom, ih]

theorem samples_sampled (counts : index.Counts words) (small : words.length ≤ 2 ^ 32)
    (le : total ≤ ahead (facing set words) words.length) :
    Sampled words set total (samples index words.length set total) where
  length := samplesFrom_length _ _ _
  word group word found := by
    have inside : group < (total + sampleEvery - 1) / sampleEvery := by
      have lt := (List.getElem?_eq_some_iff.mp found).1
      rwa [samples, samplesFrom_length] at lt
    have start : 0 < words.length := by
      by_contra none_
      have zero : words.length = 0 := by omega
      simp only [zero, ahead, mul_zero, tally_zero] at le
      simp only [sampleEvery] at inside
      omega
    have result := samplesFrom_getElem? counts small start (by simp [ahead]) (fun next lt => ?_) found
    · rwa [zero_add] at result
    · simp only [sampleEvery] at lt ⊢
      omega

theorem halve_eq {vector : BitVector} (counts : vector.rank.Counts words)
    (falls : Falls (ahead (facing set words)) nth word) (inside : high ≤ words.length)
    (ge : low ≤ word) (le : word ≤ high) :
    vector.halve set nth low high = word := by
  fun_induction halve vector set nth low high with
  | case1 low high more middle before ih =>
    rw [counts.before (by omega)] at before
    exact ih inside (falls.le monotone_ahead before) le
  | case2 low high more middle before ih =>
    rw [counts.before (by omega)] at before
    have : word < middle := by
      by_contra past
      exact before (le_trans (monotone_ahead (not_lt.mp past)) falls.1)
    omega
  | case3 low high stops => omega

theorem walk_eq {vector : BitVector} (counts : vector.rank.Counts words)
    (falls : Falls (ahead (facing set words)) nth word) (inside : stop ≤ words.length)
    (ge : start ≤ word) (le : word ≤ stop) :
    vector.walk set nth stop start = word := by
  fun_induction walk vector set nth stop start with
  | case1 start more ih =>
    rw [counts.before (by omega)] at more
    exact ih (falls.le monotone_ahead more.2)
  | case2 start stops =>
    rcases lt_or_ge start stop with lt | past
    · rw [counts.before (by omega)] at stops
      have before := falls.1
      by_contra differs
      have le := @monotone_ahead (facing set words) (start + 1) word (by omega)
      omega
    · omega

end search
/-- A vector whose index and samples are those of its bits. -/
structure Sound (vector : BitVector) : Prop where
  length : vector.words.length = (vector.len + 63) / 64
  tail : ∀ place, vector.len ≤ place → bit vector.words place = false
  ones : vector.ones = tally (bit vector.words) vector.len
  counts : vector.rank.Counts vector.words
  onesSampled : Sampled vector.words true vector.ones vector.onesSample
  zerosSampled : Sampled vector.words false vector.zeros vector.zerosSample

section sound
variable {vector : BitVector} {set : Bool} {nth place : Nat}

theorem select_eq (counts : vector.rank.Counts vector.words) {total : Nat}
    (sampled : Sampled vector.words set total (if set then vector.onesSample else vector.zerosSample))
    (le : total ≤ ahead (facing set vector.words) vector.words.length) (lt : nth < total) :
    IsNth (bit (facing set vector.words)) nth (vector.select nth set) := by
  have before : ahead (facing set vector.words) 0 ≤ nth := by simp [ahead]
  obtain ⟨word, -, below, falls⟩ := exists_falls (Nat.zero_le _) before (Nat.lt_of_lt_of_le lt le)
  generalize samples_eq : (if set then vector.onesSample else vector.zerosSample) = samples at sampled
  -- the samples of the count's group and of the next one are on the two sides of its word
  have first : samples.getD (nth / sampleEvery) 0 ≤ word := by
    cases found : samples[nth / sampleEvery]? with
    | none => simp [getD_eq_getElem?_getD, found]
    | some sample =>
      rw [getD_eq_getElem?_getD, found]
      refine falls.le monotone_ahead (Nat.le_trans (sampled.word _ _ found).2.1 ?_)
      exact Nat.div_mul_le_self nth sampleEvery
  have stop : word ≤ samples.getD (nth / sampleEvery + 1) (vector.words.length - 1) ∧
      samples.getD (nth / sampleEvery + 1) (vector.words.length - 1) ≤ vector.words.length := by
    cases found : samples[nth / sampleEvery + 1]? with
    | none =>
      rw [getD_eq_getElem?_getD, found, Option.getD_none]
      omega
    | some sample =>
      rw [getD_eq_getElem?_getD, found]
      obtain ⟨inside, here⟩ := sampled.word _ _ found
      refine ⟨here.le monotone_ahead (falls.1.trans ?_), inside.le⟩
      simp only [sampleEvery]
      omega
  rw [select, if_neg (by omega)]
  simp only [samples_eq]
  generalize samples.getD (nth / sampleEvery) 0 = low at first
  generalize samples.getD (nth / sampleEvery + 1) (vector.words.length - 1) = high at stop
  have reached : (if high - low > walkWords then vector.halve set nth low high else vector.walk set nth high low) =
      word := by
    split
    · exact halve_eq counts falls stop.2 first stop.1
    · exact walk_eq counts falls stop.2 first stop.1
  have inside := falls
  rw [Falls, ahead_succ] at inside
  have passes : ¬(nth < ahead (facing set vector.words) word ∨
      nth - ahead (facing set vector.words) word ≥ countOnes ((facing set vector.words).getD word 0)) := by omega
  have result := nthSet_word falls
  rw [facing_getD below] at passes result
  simp only [reached, counts.before below.le, if_neg passes]
  rwa [Nat.mul_comm word 64]

section
variable (sound : vector.Sound)
include sound

theorem Sound.len_le : vector.len ≤ 64 * vector.words.length := by
  have := sound.length
  omega

theorem Sound.tally_len (le : vector.len ≤ bound) : tally (bit vector.words) bound = vector.ones := by
  rw [sound.ones, tally_eq_of_none le sound.tail]

theorem Sound.zeros : vector.zeros = tally (fun place => !bit vector.words place) vector.len := by
  rw [BitVector.zeros, sound.ones, tally_not]

theorem Sound.rank1 (place : Nat) : vector.rank1 place = tally (bit vector.words) place := by
  unfold BitVector.rank1
  split
  · rename_i past
    exact (sound.tally_len past).symm
  · have := sound.len_le
    exact sound.counts.rank (by omega)

theorem Sound.rank0 (le : place ≤ vector.len) :
    vector.rank0 place = tally (fun place => !bit vector.words place) place := by
  simp only [BitVector.rank0, min_eq_left le, sound.rank1, tally_not]

theorem Sound.select1 (lt : nth < vector.ones) :
    ∃ place, vector.select1 nth = some place ∧ IsNth (bit vector.words) nth place ∧ place < vector.len := by
  have le : vector.ones ≤ ahead (facing true vector.words) vector.words.length :=
    le_of_eq (sound.tally_len sound.len_le).symm
  have here := @select_eq vector true nth sound.counts _ sound.onesSampled le lt
  refine ⟨_, if_neg (by omega), here, here.lt ?_⟩
  rw [facing, if_pos rfl, ← sound.ones]
  exact lt

theorem Sound.select0 (lt : nth < vector.zeros) :
    ∃ place, vector.select0 nth = some place ∧ IsNth (fun place => !bit vector.words place) nth place ∧
      place < vector.len := by
  have agree : tally (bit (facing false vector.words)) vector.len = vector.zeros := by
    rw [tally_facing sound.len_le, sound.zeros]
    exact tally_congr fun place _ => beq_false _
  have le : vector.zeros ≤ ahead (facing false vector.words) vector.words.length := by
    rw [← agree]
    exact tally_mono sound.len_le
  have here := @select_eq vector false nth sound.counts _ sound.zerosSampled le lt
  have below : vector.select nth false < vector.len := here.lt (by rwa [agree])
  have inside := sound.len_le
  refine ⟨_, if_neg (by omega), ⟨?_, ?_⟩, below⟩
  · have passes := here.1
    rw [facing_bit (by omega), beq_false] at passes
    exact passes
  · have count := here.2
    rw [tally_facing (by omega)] at count
    exact (tally_congr fun place _ => (beq_false _).symm).trans count

end

end sound

/-- The ones a bitmap may have, and the words, for 32 bits to count them. -/
def Small (words : List Word) : Prop := tally (bit words) (64 * words.length) < 2 ^ 32 ∧ words.length ≤ 2 ^ 32

section
variable {words : List Word} {len : Nat} (length : words.length = (len + 63) / 64)
include length

theorem tailSet_iff : tailSet words len = false ↔ ∀ place, len ≤ place → bit words place = false := by
  unfold tailSet
  constructor
  · intro clear place le
    rcases lt_or_ge place (64 * words.length) with lt | past
    · have nonzero : len % 64 ≠ 0 := by omega
      have zero : words.getD (len / 64) 0 >>> (len % 64) = 0 := by simpa [nonzero] using clear
      have shifted := congrArg (fun word : Word => word.getLsbD (place - len)) zero
      have none_ : BitVec.getLsbD (0 : Word) (place - len) = false := BitVec.getLsbD_zero
      simp only [BitVec.getLsbD_ushiftRight, none_] at shifted
      have same : place = 64 * (len / 64) + (len % 64 + (place - len)) := by omega
      rw [same, bit_add (by omega)]
      exact shifted
    · exact bit_past past
  · intro clear
    by_cases nonzero : len % 64 = 0
    · simp [nonzero]
    have zero : words.getD (len / 64) 0 >>> (len % 64) = 0 := by
      refine BitVec.eq_of_getLsbD_eq fun inner lt => ?_
      have none_ : BitVec.getLsbD (0 : Word) inner = false := BitVec.getLsbD_zero
      rw [BitVec.getLsbD_ushiftRight, none_]
      rcases lt_or_ge (len % 64 + inner) 64 with inside | past
      · rw [← bit_add inside]
        exact clear _ (by omega)
      · exact BitVec.getLsbD_of_ge _ _ past
    rw [zero]
    simp

theorem indexed_sound
    (tail : ∀ place, len ≤ place → bit words place = false) (fine : index.fine = Rank.refineFrom 0 words)
    (small : Small words) : (indexed words len index).Sound := by
  have counts := Rank.counts_of_small fine small.1
  have inside : len ≤ 64 * words.length := by omega
  have ones : (words.map countOnes).sum = tally (bit words) len := by
    rw [← tally_all, tally_eq_of_none inside tail]
  refine ⟨length, tail, ones, counts, samples_sampled counts small.2 ?_, samples_sampled counts small.2 ?_⟩
  · exact le_of_eq tally_all.symm
  have zeros : (indexed words len index).zeros = tally (fun place => bit words place == false) len := by
    rw [BitVector.zeros, indexed, ones, ← tally_not]
    exact tally_congr fun place _ => (beq_false _).symm
  rw [zeros, ahead, tally_facing le_rfl]
  exact tally_mono inside

/-- `new` takes a bitmap with no bit past its length. -/
theorem new_eq
    (tail : ∀ place, len ≤ place → bit words place = false) :
    new words len = .ok (indexed words len (Rank.build words)) := by
  rw [new, if_neg (by omega), (tailSet_iff length).mpr tail]
  rfl

end

end BitVector

/-- As many blocks and superblocks as the shape of the bitmap says. -/
theorem Rank.build_shape (words : List Word) : (Rank.build words).blocks.length = (Rank.shape words.length).1 ∧
      (Rank.build words).superblocks.length = (Rank.shape words.length).2 := by
  have turns (count : Nat) (start : Building) :
      start.blocks = [] → start.superblocks = [] →
      ((range count).foldl (buildBlock words) start).blocks.length = count ∧
        ((range count).foldl (buildBlock words) start).superblocks.length =
          (count + blocksPerSuperblock - 1) / blocksPerSuperblock := by
    intro blocks superblocks
    induction count with
    | zero => simp [blocks, superblocks, blocksPerSuperblock]
    | succ count ih =>
      rw [range_succ, foldl_concat]
      simp only [buildBlock, blocksPerSuperblock] at ih ⊢
      refine ⟨by simp [ih.1], ?_⟩
      by_cases starts : count % 8 = 0
      · simp only [starts, if_true, length_append, ih.2, length_singleton]
        omega
      · simp only [starts, if_false, ih.2]
        omega
  exact turns _ _ rfl rfl

theorem Rank.build_small (words : List Word) :
    (∀ count ∈ (Rank.build words).superblocks, count < 2 ^ 32) ∧
      ∀ count ∈ (Rank.build words).blocks, count < 2 ^ 16 := by
  have turns (count : Nat) (start : Building) (total : start.total < 2 ^ 32) (within : start.within < 2 ^ 16)
      (superblocks : ∀ count ∈ start.superblocks, count < 2 ^ 32) (blocks : ∀ count ∈ start.blocks, count < 2 ^ 16) :
      let made := (range count).foldl (buildBlock words) start
      made.total < 2 ^ 32 ∧ made.within < 2 ^ 16 ∧ (∀ count ∈ made.superblocks, count < 2 ^ 32) ∧
        ∀ count ∈ made.blocks, count < 2 ^ 16 := by
    induction count with
    | zero => exact ⟨total, within, superblocks, blocks⟩
    | succ count ih =>
      obtain ⟨total', within', superblocks', blocks'⟩ := ih
      rw [range_succ, foldl_concat]
      refine ⟨Nat.mod_lt _ (by decide), Nat.mod_lt _ (by decide), fun value member => ?_, fun value member => ?_⟩
      · simp only [buildBlock] at member
        split at member
        · rcases mem_append.mp member with old | new
          · exact superblocks' value old
          · rw [mem_singleton.mp new]
            exact total'
        · exact superblocks' value member
      rcases mem_append.mp member with old | new
      · exact blocks' value old
      rw [mem_singleton.mp new]
      split
      · decide
      · exact within'
  obtain ⟨_, _, superblocks, blocks⟩ := turns _ { superblocks := [], blocks := [], total := 0, within := 0 } (by decide)
    (by decide) (by simp) (by simp)
  exact ⟨superblocks, blocks⟩

theorem map_mod_of_small {values : List Nat} (small : ∀ value ∈ values, value < bound) :
    values.map (· % bound) = values :=
  (map_congr_left fun value member => Nat.mod_eq_of_lt (small value member)).trans (map_id values)

theorem Rank.read_write (words : List Word) : Rank.read (Rank.build words).write words = .ok (Rank.build words) := by
  obtain ⟨blocks, superblocks⟩ := build_shape words
  obtain ⟨superSmall, blockSmall⟩ := build_small words
  have size : ((build words).superblocks.flatMap (toBytes 4)).length = (shape words.length).2 * 4 := by
    rw [length_flatMap_toBytes, superblocks]
  have shaped : (build words).write.length = (shape words.length).2 * 4 + (shape words.length).1 * 2 := by
    rw [write, length_append, size, length_flatMap_toBytes, blocks]
  have first : numbers 4 (shape words.length).2 (build words).write = (build words).superblocks := by
    rw [write, ← superblocks, numbers_flatMap]
    exact map_mod_of_small superSmall
  have second : numbers 2 (shape words.length).1 ((build words).write.drop ((shape words.length).2 * 4)) =
      (build words).blocks := by
    have read := @numbers_flatMap 2 (build words).blocks []
    rw [append_nil] at read
    rw [write, drop_left' size, ← blocks, read]
    exact map_mod_of_small blockSmall
  simp only [Rank.read]
  rw [if_neg (by rw [shaped]; exact fun differs => differs rfl), first, second]
  rfl

theorem flatMap_words (words : List Word) :
    words.flatMap (fun word => toBytes 8 word.toNat) = (words.map BitVec.toNat).flatMap (toBytes 8) := by
  rw [flatMap_map]

theorem numbers_words (words : List Word) (rest : List UInt8) :
    (numbers 8 words.length (words.flatMap (fun word => toBytes 8 word.toNat) ++ rest)).map (BitVec.ofNat 64) =
      words := by
  have length : words.length = (words.map BitVec.toNat).length := (length_map _).symm
  rw [flatMap_words, length, numbers_flatMap, map_map, map_map]
  refine (map_congr_left fun word _ => ?_).trans (map_id words)
  have lt := word.isLt
  simp only [Function.comp_apply, id_eq, Nat.reducePow] at lt ⊢
  rw [Nat.mod_eq_of_lt lt, BitVec.ofNat_toNat, BitVec.setWidth_eq]

theorem length_flatMap_words (words : List Word) :
    (words.flatMap fun word => toBytes 8 word.toNat).length = words.length * 8 := by
  rw [flatMap_words, length_flatMap_toBytes, length_map]

namespace BitVector

theorem read_write {words : List Word} {len : Nat} (length : words.length = (len + 63) / 64)
    (tail : ∀ place, len ≤ place → bit words place = false) :
    read (indexed words len (Rank.build words)).write len = .ok (indexed words len (Rank.build words)) := by
  have bytes : (indexed words len (Rank.build words)).write =
      words.flatMap (fun word => toBytes 8 word.toNat) ++ (Rank.build words).write := rfl
  have size := length_flatMap_words words
  rw [length] at size
  rw [bytes, read, if_neg (by rw [length_append]; omega)]
  dsimp only
  rw [← length, numbers_words, length, drop_left' size, Rank.read_write]
  rw [(tailSet_iff length).mpr tail]
  rfl

/-- A vector of fewer than 2 ^ 32 bits counts the ones and the zeros before every place, selects the place of each of
them by its rank and no other place, and is read back as it is written. -/
theorem rank_select_exact {words : List Word} {len : Nat} {vector : BitVector} (made : new words len = .ok vector)
    (short : len < 2 ^ 32) :
    (∀ place, vector.rank1 place = tally (bit words) place ∧
      vector.rank0 place = tally (fun place => !bit words place) (min place len)) ∧
      (∀ nth place, vector.select1 nth = some place ↔ place < len ∧ bit words place = true ∧ vector.rank1 place = nth) ∧
      (∀ nth place, vector.select0 nth = some place ↔ place < len ∧ bit words place = false ∧ vector.rank0 place = nth) ∧
      read vector.write len = .ok vector := by
  rw [new] at made
  split at made
  · cases made
  rename_i length
  split at made
  · cases made
  rename_i clear
  cases made
  have length := of_not_not length
  have tail := (tailSet_iff length).mp (eq_false_of_not_eq_true clear)
  have few := (tally_eq_of_none (by omega : len ≤ 64 * words.length) tail).trans_le tally_le
  have sound := @indexed_sound words len length (Rank.build words) tail rfl ⟨by omega, by omega⟩
  refine ⟨fun place => ⟨sound.rank1 place, ?_⟩, fun nth place => ?_, fun nth place => ?_, read_write length tail⟩
  · refine Eq.trans ?_ (sound.rank0 (min_le_right place len))
    simp [rank0, indexed]
  · rw [sound.rank1]
    exact finds_iff (fun lt => sound.select1 (sound.ones ▸ lt)) (fun past => if_pos (sound.ones ▸ past)) nth place
  · rw [finds_iff (fun lt => sound.select0 (sound.zeros ▸ lt)) (fun past => if_pos (sound.zeros ▸ past)) nth place]
    refine and_congr_right fun lt => ?_
    rw [sound.rank0 (Nat.le_of_lt lt), not_eq_true']
    rfl

theorem rank_select_exact_four : ∃ vector, new [10] 4 = .ok vector ∧ vector.select1 0 = some 1 := by
  obtain ⟨ranks, ones, -⟩ := @rank_select_exact [10] 4 _ rfl (by decide)
  exact ⟨_, rfl, (ones 0 1).mpr ⟨by decide, rfl, (ranks 1).1⟩⟩

end BitVector
end Rudb.Graph
