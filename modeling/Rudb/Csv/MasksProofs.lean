import Rudb.Csv.Blocks
import Rudb.Lib.Running

/-! What each bit of a block's masks says: the byte it stands for, the parity of the quotes up to it,
and whether an escape covers it. -/
namespace Rudb.Csv
open Rudb.Graph Lib

variable {place : Nat}

theorem getLsbD_maskOf (needle : UInt8) (block : List UInt8) (lt : place < 64) :
    (maskOf needle block).getLsbD place = decide (block[place]? = some needle) := by
  induction block generalizing place with
  | nil => simp [maskOf]
  | cons byte rest ih =>
    cases place with
    | zero =>
      rw [maskOf]
      split <;> rename_i same <;> simp [same]
    | succ place =>
      have high : (if byte = needle then 1 else 0 : Word).getLsbD (place + 1) = false := by
        split <;> simp [BitVec.getLsbD_one]
      rw [maskOf, BitVec.getLsbD_or, high, Bool.or_false, BitVec.getLsbD_shiftLeft, Nat.add_sub_cancel,
        ih (by omega)]
      simp [lt]

theorem getLsbD_below (lt : count < 64) (place : Nat) :
    (below count).getLsbD place = decide (place < count) := by
  exact getLsbD_mask lt place

/-- One round of the prefix doubles how far back each bit looks. -/
theorem getLsbD_double {word : Word}
    (is : ∀ place < 64, word.getLsbD place = (parity bits false (place + 1) ^^ parity bits false (place + 1 - reach)))
    (lt : place < 64) :
    (word ^^^ word <<< reach).getLsbD place =
      (parity bits false (place + 1) ^^ parity bits false (place + 1 - (reach + reach))) := by
  have window := @parity_window bits reach place _ fun _ => rfl
  rw [← window, BitVec.getLsbD_xor, is place lt, BitVec.getLsbD_shiftLeft, is (place - reach) (by omega)]
  congr 1
  by_cases far : reach ≤ place <;> simp [far, lt]

theorem getLsbD_prefixXor (word : Word) (lt : place < 64) :
    (prefixXor word).getLsbD place = parity word.getLsbD false (place + 1) := by
  have one : ∀ place < 64, word.getLsbD place =
      (parity word.getLsbD false (place + 1) ^^ parity word.getLsbD false (place + 1 - 1)) := by
    intro place _
    rw [Nat.add_sub_cancel, parity]
    cases parity word.getLsbD false place <;> simp
  have two := fun place (lt : place < 64) => getLsbD_double one lt
  have four := fun place (lt : place < 64) => getLsbD_double two lt
  have eight := fun place (lt : place < 64) => getLsbD_double four lt
  have sixteen := fun place (lt : place < 64) => getLsbD_double eight lt
  have thirtyTwo := fun place (lt : place < 64) => getLsbD_double sixteen lt
  have all := getLsbD_double thirtyTwo lt
  rw [show place + 1 - (32 + 32) = 0 by omega, parity, Bool.xor_false] at all
  exact all

theorem getLsbD_next (bit : Nat) (lt : place < 64) : ((2 : Word) <<< bit).getLsbD place = decide (place = bit + 1) := by
  rw [show (2 : Word) = BitVec.twoPow 64 1 from rfl, Bool.eq_iff_iff]
  simp [lt]
  omega

theorem getLsbD_pair (bit : Nat) (lt : place < 64) :
    ((3 : Word) <<< bit).getLsbD place = decide (place = bit ∨ place = bit + 1) := by
  rw [BitVec.getLsbD_shiftLeft, show (3 : Word) = BitVec.twoPow 64 0 ||| BitVec.twoPow 64 1 from rfl, BitVec.getLsbD_or,
    BitVec.getLsbD_twoPow, BitVec.getLsbD_twoPow, Bool.eq_iff_iff]
  simp [lt]
  omega

section Covered
variable {escapes : Nat → Bool} {first : Bool}

/-- The escapes from a place on that nothing covers are left, and what is covered before it is known. -/
structure Covering (escapes : Nat → Bool) (first : Bool) (done rest : Word) (place : Nat) : Prop where
  le : place ≤ 64
  free : Lib.covered escapes first place = false
  left : ∀ at' < 64, rest.getLsbD at' = (decide (place ≤ at') && escapes at')
  known : ∀ at' < 64, done.getLsbD at' = (decide (at' < place) && Lib.covered escapes first at')

variable {done rest : Word}

/-- Up to the next escape nothing is covered. -/
theorem Covering.free_to (covering : Covering escapes first done rest place)
    (le : place ≤ stop) (none_ : ∀ at', place ≤ at' → at' < stop → escapes at' = false) :
    Lib.covered escapes first stop = false := by
  obtain ⟨count, rfl⟩ := Nat.exists_eq_add_of_le le
  exact covered_none covering.free none_

section
variable (covering : Covering escapes first done rest place)
include covering

theorem Covering.done_eq
    (le : 64 ≤ stop + 1) (none_ : ∀ at', place ≤ at' → at' < stop → escapes at' = false)
    (lt : at' < 64) : done.getLsbD at' = Lib.covered escapes first at' := by
  rw [covering.known at' lt]
  by_cases before : at' < place
  · simp [before]
  · rw [covering.free_to (by omega) fun other ge less => none_ other ge (by omega)]
    simp

/-- The next escape that is left is the first one from the place on. -/
theorem Covering.next
    (some_ : rest ≠ 0) : place ≤ trailingZeros rest ∧ trailingZeros rest < 64 ∧ escapes (trailingZeros rest) = true ∧
      ∀ at', place ≤ at' → at' < trailingZeros rest → escapes at' = false := by
  obtain ⟨⟨set, none_⟩, lt⟩ := trailingZeros_isNth some_
  have here := covering.left _ lt
  rw [set, eq_comm, Bool.and_eq_true, decide_eq_true_iff] at here
  refine ⟨here.1, lt, here.2, fun at' ge less => ?_⟩
  have zero := covering.left at' (by omega)
  rw [not_of_tally_eq_zero none_ less, decide_eq_true ge] at zero
  exact zero.symm

/-- An escape and the byte it covers are dealt with. -/
theorem Covering.step (some_ : rest ≠ 0) (inside : trailingZeros rest ≠ 63) :
    Covering escapes first (done ||| (2 : Word) <<< trailingZeros rest)
      (rest &&& ~~~((3 : Word) <<< trailingZeros rest)) (trailingZeros rest + 2) := by
  obtain ⟨ge, lt, escape, none_⟩ := covering.next some_
  generalize trailingZeros rest = bit at ge lt escape none_ inside
  have covers : Lib.covered escapes first (bit + 1) = true := by
    rw [Lib.covered, escape, covering.free_to ge none_]
    rfl
  refine ⟨by omega, ?_, fun at' less => ?_, fun at' less => ?_⟩
  · rw [Lib.covered, covers, Bool.not_true, Bool.and_false]
  · rw [BitVec.getLsbD_and, BitVec.getLsbD_not, getLsbD_pair bit less, covering.left at' less]
    by_cases between : place ≤ at' ∧ at' < bit
    · rw [none_ at' between.1 between.2, Bool.and_false, Bool.and_false, Bool.false_and]
    by_cases past : bit + 2 ≤ at'
    · simp [show place ≤ at' by omega, past, less, show at' ≠ bit by omega, show at' ≠ bit + 1 by omega]
    have settled : at' < place ∨ at' = bit ∨ at' = bit + 1 := by omega
    rw [decide_eq_false past, Bool.false_and]
    rcases settled with before | here
    · rw [decide_eq_false (by omega), Bool.false_and, Bool.false_and]
    · rw [decide_eq_true here, Bool.not_true, Bool.and_false, Bool.and_false]
  · rw [BitVec.getLsbD_or, getLsbD_next bit less, covering.known at' less]
    rcases lt_trichotomy at' (bit + 1) with before | rfl | past
    · rw [decide_eq_false (show ¬ at' = bit + 1 by omega), Bool.or_false, decide_eq_true (show at' < bit + 2 by omega),
        Bool.true_and]
      by_cases known : at' < place
      · rw [decide_eq_true known, Bool.true_and]
      · rw [covering.free_to (by omega) fun other ge less => none_ other ge (by omega), Bool.and_false]
    · rw [covers]
      simp
    · simp [show ¬ at' < place by omega, show at' ≠ bit + 1 by omega, show ¬ at' < bit + 2 by omega]

theorem coveredFrom_spec : (∀ at' < 64, (coveredFrom done rest).1.getLsbD at' = Lib.covered escapes first at') ∧
      (coveredFrom done rest).2 = Lib.covered escapes first 64 := by
  fun_induction coveredFrom done rest generalizing place with
  | case1 done =>
    have none_ : ∀ at', place ≤ at' → at' < 64 → escapes at' = false := by
      intro at' ge lt
      have := covering.left at' lt
      simpa [ge] using this.symm
    refine ⟨fun at' lt => covering.done_eq (by omega) none_ lt, ?_⟩
    rw [covering.free_to covering.le none_]
  | case2 done rest some_ last =>
    obtain ⟨ge, _, escape, none_⟩ := covering.next some_
    rw [last] at ge escape none_
    refine ⟨fun at' lt => covering.done_eq (by omega) none_ lt, ?_⟩
    rw [Lib.covered, escape, covering.free_to ge none_]
    rfl
  | case3 done rest some_ inside ih => exact ih (covering.step some_ inside)

end

theorem coveredBy_spec (word : Word) (carried : Bool) :
    (∀ at' < 64, (coveredBy word carried).1.getLsbD at' = Lib.covered word.getLsbD carried at') ∧
      (coveredBy word carried).2 = Lib.covered word.getLsbD carried 64 := by
  cases carried with
  | false =>
    have start : Covering word.getLsbD false 0 word 0 := by
      refine ⟨by omega, rfl, fun at' lt => ?_, fun at' lt => ?_⟩ <;> simp
    exact coveredFrom_spec start
  | true =>
    have start : Covering word.getLsbD true 1 (word &&& ~~~1) 1 := by
      refine ⟨by omega, by simp [Lib.covered], fun at' lt => ?_, fun at' lt => ?_⟩
      · rw [BitVec.getLsbD_and, BitVec.getLsbD_not]
        cases at' <;> simp [lt]
      · cases at' <;> simp [Lib.covered]
    exact coveredFrom_spec start

end Covered

end Rudb.Csv
