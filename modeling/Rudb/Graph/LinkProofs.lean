import Rudb.Graph.RunsProofs

/-! Every question of a link in the monotone form, answered from the runs. -/
namespace Rudb.Graph
open Rudb.Lib List Option Bool

section scan
variable {words : List Word} {place inner : Nat}

theorem shifted_bit (lt : place % 64 + inner < 64) :
    (words.getD (place / 64) 0 >>> (place % 64)).getLsbD inner = bit words (place + inner) := by
  have same : place + inner = 64 * (place / 64) + (place % 64 + inner) := by omega
  rw [BitVec.getLsbD_ushiftRight, same, bit_add lt]

/-- The next one from a place on, as the lowest bit of the word shifted to the place. -/
theorem trailingZeros_shifted (here : IsNth (bit words) nth target) (count : tally (bit words) place = nth)
    (ge : place ≤ target) (inside : target / 64 = place / 64) :
    trailingZeros (words.getD (place / 64) 0 >>> (place % 64)) = target - place ∧
      words.getD (place / 64) 0 >>> (place % 64) ≠ 0 := by
  have lt : place % 64 + (target - place) < 64 := by omega
  have set : (words.getD (place / 64) 0 >>> (place % 64)).getLsbD (target - place) = true := by
    rw [shifted_bit lt, Nat.add_sub_cancel' ge]
    exact here.1
  have first : IsNth (words.getD (place / 64) 0 >>> (place % 64)).getLsbD 0 (target - place) := by
    refine ⟨set, ?_⟩
    have split := @tally_add (bit words) place (target - place)
    rw [Nat.add_sub_cancel' ge, here.2] at split
    rw [tally_congr fun inner below => @shifted_bit words place inner (by omega)]
    omega
  have some_ : words.getD (place / 64) 0 >>> (place % 64) ≠ 0 := by
    intro zero
    have clear : BitVec.getLsbD (0 : Word) (target - place) = false := BitVec.getLsbD_zero
    rw [zero, clear] at set
    cases set
  exact ⟨(trailingZeros_isNth some_).1.unique first, some_⟩

/-- `skip` goes to the next one and counts the zeros it passes. -/
theorem skip_eq (here : IsNth (bit words) nth target) (count : tally (bit words) place = nth)
    (ge : place ≤ target) (lt : target < len) :
    Link.skip words len place parent = .ok (target, parent + (target - place)) := by
  fun_induction Link.skip words len place parent with
  | case1 place parent word empty skipped past =>
    -- the word is empty to its end, so the next one is past it
    have far : place + skipped ≤ target := by
      by_contra near
      exact (trailingZeros_shifted here count ge (by omega)).2 empty
    omega
  | case2 place parent word empty skipped inside ih =>
    have far : place + skipped ≤ target := by
      by_contra near
      exact (trailingZeros_shifted here count ge (by omega)).2 empty
    have count' : tally (bit words) (place + skipped) = nth := by
      have low := tally_mono (p := bit words) (Nat.le_add_right place skipped)
      have high := tally_mono (p := bit words) far
      rw [here.2] at high
      omega
    rw [ih count' far]
    congr 2
    omega
  | case3 place parent word some_ =>
    have near : target / 64 = place / 64 := by
      by_contra far
      refine some_ (BitVec.eq_of_getLsbD_eq fun inner below => ?_)
      have clear : BitVec.getLsbD (0 : Word) inner = false := BitVec.getLsbD_zero
      rw [clear]
      rcases lt_or_ge (place % 64 + inner) 64 with inside | past
      · rw [shifted_bit inside, eq_false_iff]
        intro set
        have more := Nat.count_strict_mono (p := fun place => bit words place = true) set
          (show place + inner < target by omega)
        have least := tally_mono (p := bit words) (Nat.le_add_right place inner)
        have exact_ := here.2
        unfold tally at exact_ least count
        omega
      · rw [BitVec.getLsbD_ushiftRight]
        exact BitVec.getLsbD_of_ge _ _ past
    have zeros := (trailingZeros_shifted here count ge near).1
    rw [show trailingZeros word = target - place from zeros, Nat.add_sub_cancel' ge]

end scan

/-- A word that holds what passes among the 64 places of a block, from one of them on. -/
def Masked (p : Nat → Bool) (block inner : Nat) (held : Word) : Prop :=
  ∀ index < 64, held.getLsbD index = (p (64 * block + index) && decide (inner ≤ index))

namespace Masked
variable {p : Nat → Bool} {block inner : Nat} {held : Word}

section
variable (masked : Masked p block inner held)
include masked

theorem tally_eq (ge : inner ≤ index) (le : index ≤ 64) :
    tally p (64 * block + index) = tally p (64 * block + inner) + tally held.getLsbD index := by
  obtain ⟨more, rfl⟩ := Nat.exists_eq_add_of_le ge
  have low : tally held.getLsbD inner = 0 := by
    rw [tally_congr (q := fun _ => false), tally_eq_of_none (Nat.zero_le _) fun _ _ => rfl, tally_zero]
    intro index below
    rw [masked index (by omega), decide_eq_false (by omega), Bool.and_false]
  rw [← Nat.add_assoc, tally_add, tally_add inner, low, Nat.zero_add]
  congr 1
  refine tally_congr fun index below => ?_
  rw [masked _ (by omega), decide_eq_true (by omega), Bool.and_true, Nat.add_assoc]

theorem isNth (few : nth < countOnes held) :
    IsNth p (tally p (64 * block + inner) + nth) (64 * block + nthSet held nth) := by
  obtain ⟨found, lt⟩ := nthSet_isNth few
  have set := found.1
  rw [masked _ lt, and_eq_true, decide_eq_true_eq] at set
  exact ⟨set.1, by rw [masked.tally_eq set.2 lt.le, found.2]⟩

/-- What passes up to the end of the block. -/
theorem next (le : inner ≤ 64) : tally p (64 * (block + 1)) = tally p (64 * block + inner) + countOnes held := by
  rw [Nat.mul_succ, masked.tally_eq le (le_refl 64), countOnes]

end

end Masked

section mask
theorem masked_past (words : List Word) (place : Nat) : Masked (bit words) (place / 64) (place % 64 + 1)
      (words.getD (place / 64) 0 &&& (~~~(1 : Word)) <<< (place % 64)) := by
  intro inner lt
  have one : BitVec.getLsbD (1 : Word) (inner - place % 64) = decide (inner - place % 64 = 0) := by simp
  rw [BitVec.getLsbD_and, BitVec.getLsbD_shiftLeft, BitVec.getLsbD_not, one, decide_eq_true lt,
    decide_eq_true (show inner - place % 64 < 64 by omega), Bool.true_and, Bool.true_and, ← decide_not, ← decide_not,
    ← Bool.decide_and, bit_add lt]
  congr 1
  exact decide_eq_decide.mpr (by omega)

theorem masked_zeros (words : List Word) (place : Nat) :
    Masked (fun place => !bit words place) (place / 64) (place % 64)
      (~~~(words.getD (place / 64) 0) &&& BitVec.allOnes 64 <<< (place % 64)) := by
  intro inner lt
  dsimp only
  rw [BitVec.getLsbD_and, BitVec.getLsbD_not, BitVec.getLsbD_shiftLeft, BitVec.getLsbD_allOnes, decide_eq_true lt,
    decide_eq_true (show inner - place % 64 < 64 by omega), Bool.true_and, Bool.true_and, Bool.and_true, ← decide_not,
    bit_add lt]
  congr 1
  exact decide_eq_decide.mpr (by omega)

theorem masked_word (words : List Word) (word : Nat) :
    Masked (fun place => !bit words place) word 0 (~~~(words.getD word 0)) := by
  intro inner lt
  dsimp only
  rw [BitVec.getLsbD_not, decide_eq_true lt, Bool.true_and, bit_add lt, decide_eq_true (Nat.zero_le _), Bool.and_true]

/-- The ones of a word past one of them, which is the last of so many. -/
theorem nthSet_past (here : IsNth (bit words) last place) (positive : 0 < step)
    (few : step ≤ countOnes (words.getD (place / 64) 0 &&& (~~~(1 : Word)) <<< (place % 64))) :
    IsNth (bit words) (last + step)
      (place / 64 * 64 + nthSet (words.getD (place / 64) 0 &&& (~~~(1 : Word)) <<< (place % 64)) (step - 1)) := by
  have whole : 64 * (place / 64) + place % 64 = place := by omega
  have found := (masked_past words place).isNth (show step - 1 < countOnes (words.getD (place / 64) 0 &&&
    (~~~(1 : Word)) <<< (place % 64)) by omega)
  rw [← add_assoc, whole, tally_succ, here.2, here.1, if_pos rfl,
    show last + 1 + (step - 1) = last + step by omega] at found
  rwa [mul_comm (place / 64) 64]

theorem kthZeroFrom_eq {inner : Nat}
    (masked : Masked (fun place => !bit words place) word inner zeros) (le : inner ≤ 64)
    (here : IsNth (fun place => !bit words place)
      (tally (fun place => !bit words place) (64 * word + inner) + left) target)
    (lt : target < 64 * words.length) : Link.kthZeroFrom words word left zeros = some target := by
  fun_induction Link.kthZeroFrom words word left zeros generalizing inner with
  | case1 word left zeros first =>
    have few : left < countOnes zeros := by
      by_contra none_
      refine first.2 (BitVec.eq_of_getLsbD_eq fun index below => ?_)
      have clear : BitVec.getLsbD (0 : Word) index = false := BitVec.getLsbD_zero
      rw [clear, eq_false_iff]
      intro set
      have count := Nat.count_strict_mono (p := fun index => zeros.getLsbD index = true) set below
      unfold countOnes tally at none_
      omega
    have found := (masked.isNth few).unique here
    rw [← found, first.1, Nat.mul_comm, nthSet_zero]
  | case2 word left zeros _ few =>
    rw [← (masked.isNth few).unique here, Nat.mul_comm]
  | case3 word left zeros _ many more ih =>
    have next := masked.next le
    refine ih (masked_word words (word + 1)) (Nat.zero_le _) ?_
    rwa [Nat.add_zero, next, Nat.add_assoc, Nat.add_sub_cancel' (Nat.le_of_not_lt many)]
  | case4 word left zeros _ many last =>
    have next := masked.next le
    have inside := here.lt_tally (show target < 64 * (word + 1) by omega)
    omega

/-- `kth_zero` finds the zero so many past those before a place. -/
theorem kthZero_eq
    (here : IsNth (fun place => !bit words place) (tally (fun place => !bit words place) start + k) target)
    (ge : start ≤ target) (lt : target < 64 * words.length) : Link.kthZero words start k = some target := by
  have whole : 64 * (start / 64) + start % 64 = start := by omega
  rw [Link.kthZero, if_pos (by omega)]
  exact kthZeroFrom_eq (masked_zeros words start) (by omega) (by rwa [whole]) lt

end mask

namespace Runs
variable {parentsOf : List Nat} {parents : Nat} {vector : BitVector} (runs : Runs parentsOf parents vector)
include runs

/-- The place of a child's one, and from it the child's parent. -/
theorem select1 {child parent : Nat} (found : parentsOf[child]? = some parent) :
    vector.select1 child = some (child + parent) ∧ vector.rank0 (child + parent) = parent := by
  obtain ⟨here, lt⟩ := runs.child found
  have inside : child < vector.ones := by
    rw [runs.ones]
    exact (List.getElem?_eq_some_iff.mp found).1
  obtain ⟨place, selected, is, -⟩ := runs.sound.select1 inside
  rw [selected, is.unique here, runs.sound.rank0 lt.le, tally_not, here.2]
  exact ⟨rfl, by omega⟩

theorem readRun {count child place parent : Nat} (inside : child + count ≤ parentsOf.length)
    (before : tally (bit vector.words) place = child) (owner : place = child + parent)
    (least : ∀ next, parentsOf[child]? = some next → parent ≤ next) :
    Link.readRun vector.words vector.len count place parent = .ok ((parentsOf.drop child).take count) := by
  induction count generalizing child place parent with
  | zero => simp [Link.readRun]
  | succ count ih =>
    have lt : child < parentsOf.length := by omega
    have found := getElem?_eq_getElem lt
    obtain ⟨here, below⟩ := runs.child found
    have ge := least _ found
    have rest := @ih (child + 1) (child + parentsOf[child] + 1) parentsOf[child] (by omega)
      (by rw [tally_succ, here.2, here.1, if_pos rfl]) (by omega) (fun next later => by
        obtain ⟨lt', rfl⟩ := List.getElem?_eq_some_iff.mp later
        exact List.pairwise_iff_getElem.mp runs.sorted _ _ lt lt' (by omega))
    have moved : parent + (child + parentsOf[child] - place) = parentsOf[child] := by omega
    rw [Link.readRun, skip_eq here before (by omega) below]
    simp only [Except.bind, moved]
    rw [rest, drop_eq_getElem_cons lt]
    rfl

end Runs

/-- A reading after the last child it answered, or before the first one. -/
structure Link.Reading.Fits (reading : Link.Reading) (parentsOf : List Nat) (vector : BitVector) : Prop where
  start : ahead vector.words reading.start ≤ reading.last
  word : reading.start = 0 ∨ reading.start < vector.words.length
  last : reading.last = 2 ^ 64 - 1 ∨ ∃ parent, parentsOf[reading.last]? = some parent ∧
    reading.place = reading.last + parent

namespace Runs
variable {parentsOf : List Nat} {parents : Nat} {vector : BitVector} (runs : Runs parentsOf parents vector)
include runs

theorem ahead_length : ahead vector.words vector.words.length = parentsOf.length := by
  rw [← runs.ones]
  exact runs.sound.tally_len runs.sound.len_le

theorem searchChild (fits : reading.Fits parentsOf vector) {child parent : Nat}
    (found : parentsOf[child]? = some parent) : (Link.searchChild vector reading child).2 = parent ∧
      (Link.searchChild vector reading child).1.Fits parentsOf vector := by
  obtain ⟨inside, -⟩ := List.getElem?_eq_some_iff.mp found
  obtain ⟨here, below⟩ := runs.child found
  have words : 0 < vector.words.length := by
    have := runs.sound.len_le
    omega
  have lt : (if child < reading.last then 0 else reading.start) < vector.words.length := by
    split
    · exact words
    · rcases fits.word with first | lt
      · omega
      · exact lt
  have first : ahead vector.words (if child < reading.last then 0 else reading.start) ≤ child := by
    split
    · simp [ahead]
    · have := fits.start
      omega
  obtain ⟨word, -, lt', falls, held⟩ := runs.sound.counts.wordHolding lt first (by rw [runs.ahead_length]; exact inside)
  have place := (nthSet_word falls).unique here
  rw [mul_comm] at place
  simp only [Link.searchChild, held, place]
  exact ⟨by omega, falls.1, .inr lt', .inr ⟨parent, found, rfl⟩⟩

section
variable {reading : Link.Reading} (short : parentsOf.length < 2 ^ 64) (fits : reading.Fits parentsOf vector)
include short fits

theorem readChild (child : Nat) :
    (Link.readChild parentsOf.length vector reading child).2 = parentsOf.getD child noParent ∧
      (Link.readChild parentsOf.length vector reading child).1.Fits parentsOf vector := by
  unfold Link.readChild
  split
  · rename_i past
    rw [getD_eq_getElem?_getD, getElem?_eq_none past]
    exact ⟨rfl, fits⟩
  rename_i inside
  have found := getElem?_eq_getElem (not_le.mp inside)
  have value : parentsOf.getD child noParent = parentsOf[child] := by
    rw [getD_eq_getElem?_getD, found, getD_some]
  obtain ⟨here, below⟩ := runs.child found
  rw [value]
  dsimp only
  split
  · rename_i near
    -- a child past the last one answered, whose one is in the same word
    obtain ⟨parent, found', place⟩ := fits.last.resolve_left (by omega)
    have past := nthSet_past (place ▸ (runs.child found').1) (show 0 < child - reading.last by omega) near.2
    have within : (if child - reading.last = 1 then
          trailingZeros (vector.words.getD (reading.place / 64) 0 &&& (~~~(1 : Word)) <<< (reading.place % 64))
        else nthSet (vector.words.getD (reading.place / 64) 0 &&& (~~~(1 : Word)) <<< (reading.place % 64))
          (child - reading.last - 1)) =
        nthSet (vector.words.getD (reading.place / 64) 0 &&& (~~~(1 : Word)) <<< (reading.place % 64))
          (child - reading.last - 1) := by
      split
      · rename_i one
        rw [one, nthSet_zero]
      · rfl
    rw [Nat.add_sub_cancel' (by omega : reading.last ≤ child)] at past
    have same := past.unique here
    rw [within, same]
    refine ⟨by omega, ?_, fits.word, .inr ⟨_, found, rfl⟩⟩
    have := fits.start
    dsimp only
    omega
  · exact runs.searchChild fits found

/-- A list of children, in any order, with repeats and with children past the end. -/
theorem readChildren (children : List Nat) :
    Link.readChildren parentsOf.length vector reading children = children.map (parentsOf.getD · noParent) := by
  induction children generalizing reading with
  | nil => rfl
  | cons child rest ih =>
    obtain ⟨answer, fits'⟩ := runs.readChild short fits child
    simp [Link.readChildren, answer, ih fits']

end

end Runs

def upBefore (parentsOf : List Nat) (parent : Nat) : Nat := if parent = 0 then 0 else upTo parentsOf (parent - 1)

theorem upTo_mono {parentsOf : List Nat} {one other : Nat} (le : one ≤ other) :
    upTo parentsOf one ≤ upTo parentsOf other :=
  countP_mono_left fun parent _ passes => by
    simp only [decide_eq_true_eq] at passes ⊢
    omega

theorem mem_range_iff (sorted : parentsOf.Pairwise (· ≤ ·)) (child parent : Nat) :
    (upBefore parentsOf parent ≤ child ∧ child < upTo parentsOf parent) ↔ parentsOf[child]? = some parent := by
  cases found : parentsOf[child]? with
  | none =>
    have past := getElem?_eq_none_iff.mp found
    have := @upTo_le parentsOf parent
    simp
    omega
  | some owner =>
    rw [lt_upTo sorted found, upBefore, Option.some.injEq]
    split
    · omega
    · rw [← not_lt, lt_upTo sorted found]
      omega

structure Link.At.Fits (stopped : Link.At) (parentsOf : List Nat) (parents : Nat) : Prop where
  lt : stopped.parent < parents
  zero : stopped.zero = stopped.parent + upTo parentsOf stopped.parent
  first : stopped.first = upBefore parentsOf stopped.parent
  stop : stopped.stop = upTo parentsOf stopped.parent

namespace Runs
variable {parentsOf : List Nat} {parents : Nat} {vector : BitVector} (runs : Runs parentsOf parents vector)
include runs

section
variable {parent : Nat} (lt : parent < parents)
include lt

theorem select0 : vector.select0 parent = some (parent + upTo parentsOf parent) := by
  obtain ⟨place, selected, is, -⟩ := runs.sound.select0 (by rw [runs.zeros]; exact lt)
  rw [selected, is.unique (runs.parent lt).1]

theorem cum : Link.cum vector parent = some (upTo parentsOf parent) := by
  rw [Link.cum, runs.select0 lt, map_some, Nat.add_sub_cancel_left]

theorem selectAt :
    ∃ stopped, Link.selectAt vector parent = some stopped ∧ stopped.parent = parent ∧
      stopped.Fits parentsOf parents := by
  have before : (if parent = 0 then some 0 else (vector.select0 (parent - 1)).map (· - (parent - 1))) =
      some (upBefore parentsOf parent) := by
    unfold upBefore
    split
    · rfl
    · rw [runs.select0 (by omega), map_some, Nat.add_sub_cancel_left]
  refine ⟨{ parent, zero := parent + upTo parentsOf parent, first := upBefore parentsOf parent
            stop := upTo parentsOf parent },
    ?_, rfl, lt, rfl, rfl, rfl⟩
  rw [Link.selectAt, runs.select0 lt, bind_some, before, map_some, Nat.add_sub_cancel_left]

end

/-- The zero after the zero of a parent is the one of the next parent. -/
theorem kthZero {parent next : Nat} (lt : parent < next) (inside : next < parents) :
    Link.kthZero vector.words (parent + upTo parentsOf parent + 1) (next - parent - 1) =
      some (next + upTo parentsOf next) := by
  obtain ⟨here, below⟩ := runs.parent inside
  obtain ⟨before, -⟩ := runs.parent (lt.trans inside)
  have count : tally (fun place => !bit vector.words place) (parent + upTo parentsOf parent + 1) = parent + 1 := by
    rw [tally_succ, before.2, if_pos before.1]
  have more := @upTo_mono parentsOf _ _ lt.le
  have room := runs.sound.len_le
  refine kthZero_eq ?_ (by omega) (by omega)
  rw [count, show parent + 1 + (next - parent - 1) = next by omega]
  exact here

theorem readOn {stopped : Link.At} (fits : stopped.Fits parentsOf parents) {parent : Nat}
    (past : stopped.parent < parent)
    (lt : parent < parents) :
    ∃ found, Link.readOn vector.words stopped parent = some found ∧ found.parent = parent ∧
      found.Fits parentsOf parents := by
  obtain ⟨-, ending, -, stop⟩ := fits
  have value : upBefore parentsOf parent = upTo parentsOf (parent - 1) := if_neg (by omega)
  have before : (if parent - stopped.parent - 1 = 0 then some (stopped.zero + 1, stopped.stop)
      else (Link.kthZero vector.words (stopped.zero + 1) (parent - stopped.parent - 1 - 1)).map fun before =>
        (before + 1, stopped.stop + (before - (stopped.zero + 1)) - (parent - stopped.parent - 1 - 1))) =
      some (parent + upBefore parentsOf parent, upBefore parentsOf parent) := by
    rw [value]
    split
    · rw [show stopped.parent = parent - 1 by omega] at ending stop
      congr 2
      omega
    have found := runs.kthZero (show stopped.parent < parent - 1 by omega) (by omega)
    rw [show parent - 1 - stopped.parent - 1 = parent - stopped.parent - 1 - 1 by omega] at found
    have more := @upTo_mono parentsOf stopped.parent (parent - 1) (by omega)
    rw [ending, found, map_some]
    congr 2 <;> omega
  have here : Link.kthZero vector.words (parent + upBefore parentsOf parent) 0 =
      some (parent + upTo parentsOf parent) := by
    rw [value]
    have found := runs.kthZero (show parent - 1 < parent by omega) lt
    rwa [show parent - (parent - 1) - 1 = 0 by omega,
      show parent - 1 + upTo parentsOf (parent - 1) + 1 = parent + upTo parentsOf (parent - 1) by omega] at found
  have more : upBefore parentsOf parent ≤ upTo parentsOf parent := value ▸ upTo_mono (by omega)
  refine ⟨{ parent, zero := parent + upTo parentsOf parent, first := upBefore parentsOf parent
            stop := upTo parentsOf parent },
    ?_, rfl, lt, rfl, rfl, rfl⟩
  rw [Link.readOn]
  dsimp only
  rw [before, bind_some, here, map_some]
  congr 2
  omega

end Runs
end Rudb.Graph
