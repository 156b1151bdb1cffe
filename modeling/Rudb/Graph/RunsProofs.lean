import Rudb.Graph.BitsProofs
import Rudb.Graph.Link

/-! The bit vector of runs: where the one of a child and the zero of a parent are. -/
namespace Rudb.Graph
open Rudb.Lib List Bool

theorem setBit_length (words : List Word) (place : Nat) : (setBit words place).length = words.length := length_set

theorem bit_set (inside : place < 64 * words.length) (word : Word) (other : Nat) :
    bit (words.set (place / 64) word) other =
      if place / 64 = other / 64 then word.getLsbD (other % 64) else bit words other := by
  unfold bit
  rw [getD_eq_getElem?_getD, getElem?_set]
  split
  · rw [if_pos (by omega), Option.getD_some]
  · rw [getD_eq_getElem?_getD]

theorem getLsbD_one_shiftLeft (place : Nat) (small : other < 64) :
    ((1 : Word) <<< place).getLsbD other = decide (other = place) := by
  have one : BitVec.getLsbD (1 : Word) (other - place) = decide (other - place = 0) := by simp
  rw [BitVec.getLsbD_shiftLeft, one, decide_eq_true small, Bool.true_and, ← decide_not, ← Bool.decide_and]
  exact decide_eq_decide.mpr (by omega)

theorem setBit_bit (inside : place < 64 * words.length) (other : Nat) :
    bit (setBit words place) other = (bit words other || decide (other = place)) := by
  rw [setBit, bit_set inside]
  split
  · rename_i same
    have here : other % 64 = place % 64 ↔ other = place := by omega
    rw [BitVec.getLsbD_or, getLsbD_one_shiftLeft _ (Nat.mod_lt _ (by decide)), bit, same, decide_eq_decide.mpr here]
  · rw [decide_eq_false (by omega), Bool.or_false]

/-- The run of a parent takes the children that are its own off the front and sets a bit for each. -/
theorem fillRun_eq (parent : Nat) (children : List Nat) (words : List Word) (place : Nat)
    (room : place + children.length ≤ 64 * words.length) :
    ∃ taken words', fillRun parent words place children = (words', place + taken, children.drop taken) ∧
      (∀ index < taken, children[index]? = some parent) ∧ children[taken]? ≠ some parent ∧ taken ≤ children.length ∧
      words'.length = words.length ∧
      ∀ other, bit words' other = (bit words other || decide (place ≤ other ∧ other < place + taken)) := by
  induction children generalizing words place with
  | nil =>
    refine ⟨0, words, rfl, by simp, by simp, le_rfl, rfl, fun other => ?_⟩
    rw [decide_eq_false (by omega), Bool.or_false]
  | cons child rest ih =>
    by_cases own : child = parent
    · subst own
      rw [length_cons] at room
      obtain ⟨taken, words', run, front, back, le, length, bits⟩ := ih (setBit words place) (place + 1)
        (by rw [setBit_length]; omega)
      refine ⟨taken + 1, words', ?_, ?_, back, by simpa using le, by rw [length, setBit_length], fun other => ?_⟩
      · rw [fillRun, if_pos rfl, run, drop_succ_cons, Nat.add_right_comm, Nat.add_assoc]
      · intro index lt
        cases index with
        | zero => rfl
        | succ index => simpa using front index (by omega)
      · rw [bits, setBit_bit (by omega), Bool.or_assoc, ← Bool.decide_or]
        congr 2
        exact propext (by omega)
    · refine ⟨0, words, ?_, by simp, by simpa using own, Nat.zero_le _, rfl, fun other => ?_⟩
      · rw [fillRun, if_neg own]
        rfl
      · rw [decide_eq_false (by omega), Bool.or_false]

/-- The bits set are those of the children: each after the children before it and one zero for every
parent before its own. -/
def Marks (parentsOf : List Nat) (words : List Word) : Prop :=
  ∀ place, bit words place = true ↔ ∃ child parent, parentsOf[child]? = some parent ∧ child + parent = place

/-- How far the loop of `runs` is after so many parents. -/
structure Filled (parentsOf : List Nat) (size parent : Nat) (state : List Word × Nat × List Nat)
    (child : Nat) : Prop where
  length : state.1.length = size
  place : state.2.1 = child + parent
  rest : state.2.2 = parentsOf.drop child
  le : child ≤ parentsOf.length
  before : ∀ index < child, ∃ owner, parentsOf[index]? = some owner ∧ owner < parent
  after : ∀ index owner, child ≤ index → parentsOf[index]? = some owner → parent ≤ owner
  marks : ∀ place, bit state.1 place = true ↔ ∃ index < child, ∃ owner, parentsOf[index]? = some owner ∧
    index + owner = place

variable {parentsOf : List Nat} {parents : Nat}

section
variable (sorted : parentsOf.Pairwise (· ≤ ·))
include sorted

theorem Filled.step
    (filled : Filled parentsOf size parent state child) (room : parentsOf.length + parent ≤ 64 * size) :
    ∃ child', Filled parentsOf size (parent + 1) (fillParent state parent) child' := by
  obtain ⟨length, place, rest, le, before, after, marks⟩ := filled
  obtain ⟨taken, words', run, front, back, few, length', bits⟩ := fillRun_eq parent state.2.2 state.1 state.2.1
    (by rw [rest, length_drop]; omega)
  rw [rest] at front back few
  rw [length_drop] at few
  have own (index : Nat) (ge : child ≤ index) (lt : index < child + taken) : parentsOf[index]? = some parent := by
    have here := front (index - child) (by omega)
    rwa [getElem?_drop, Nat.add_sub_cancel' ge] at here
  have result : fillParent state parent = (words', child + taken + (parent + 1), parentsOf.drop (child + taken)) := by
    rw [fillParent, run]
    dsimp only
    rw [rest, drop_drop]
    congr 2
    omega
  rw [result]
  refine ⟨child + taken, by rw [← length, ← length'], rfl, rfl, by omega, fun index lt => ?_,
    fun index owner ge found => ?_,
    fun other => ?_⟩
  · by_cases old : index < child
    · obtain ⟨owner, found, lt⟩ := before index old
      exact ⟨owner, found, by omega⟩
    · exact ⟨parent, own index (by omega) lt, by omega⟩
  · -- the first child left is not of this parent, and no later one is of an earlier parent
    obtain ⟨inside, value⟩ := List.getElem?_eq_some_iff.mp found
    have exists_ : child + taken < parentsOf.length := by omega
    have first_ge := after (child + taken) _ (by omega) (List.getElem?_eq_getElem exists_)
    rw [getElem?_drop, List.getElem?_eq_getElem exists_] at back
    have first_ne : parentsOf[child + taken] ≠ parent := fun same => back (by rw [same])
    have ordered : parentsOf[child + taken] ≤ owner := by
      rcases lt_or_eq_of_le ge with lt | rfl
      · rw [← value]
        exact pairwise_iff_getElem.mp sorted _ _ exists_ inside lt
      · rw [value]
    omega
  · rw [bits, or_eq_true, marks, decide_eq_true_eq]
    constructor
    · rintro (⟨index, lt, owner, found, rfl⟩ | ⟨ge, lt⟩)
      · exact ⟨index, by omega, owner, found, rfl⟩
      · exact ⟨other - parent, by omega, parent, own _ (by omega) (by omega), by omega⟩
    rintro ⟨index, lt, owner, found, rfl⟩
    by_cases old : index < child
    · exact .inl ⟨index, old, owner, found, rfl⟩
    have same := own index (by omega) lt
    rw [found] at same
    cases same
    exact .inr (by omega)

theorem filled_fold (room : parentsOf.length + parents ≤ 64 * size) :
    ∃ child, Filled parentsOf size parents
      ((range parents).foldl fillParent (replicate size 0, 0, parentsOf)) child := by
  induction parents with
  | zero =>
    refine ⟨0, length_replicate, rfl, rfl, Nat.zero_le _, by simp, by simp, fun place => ?_⟩
    rw [range_zero, foldl_nil, bit_replicate]
    simp
  | succ parents ih =>
    obtain ⟨child, filled⟩ := ih (by omega)
    rw [range_succ, foldl_concat]
    exact filled.step sorted (by omega)

/-- The bitmap that `runs` makes of children in the order of their parents. -/
theorem runs_words (below : ∀ parent ∈ parentsOf, parent < parents) :
    ∃ words, words.length = (parentsOf.length + parents + 63) / 64 ∧ Marks parentsOf words ∧
      runs parentsOf parents = BitVector.new words (parentsOf.length + parents) := by
  have room : parentsOf.length + parents ≤ 64 * ((parentsOf.length + parents + 63) / 64) := by omega
  obtain ⟨child, filled⟩ := filled_fold sorted room
  refine ⟨_, filled.length, fun place => ?_, rfl⟩
  have all : child = parentsOf.length := by
    by_contra some_
    have lt : child < parentsOf.length := lt_of_le_of_ne filled.le some_
    have ge := filled.after child _ le_rfl (List.getElem?_eq_getElem lt)
    have := below _ (List.getElem_mem lt)
    omega
  rw [filled.marks]
  constructor
  · rintro ⟨index, -, owner, found, here⟩
    exact ⟨index, owner, found, here⟩
  · rintro ⟨index, owner, found, here⟩
    exact ⟨index, all ▸ (List.getElem?_eq_some_iff.mp found).1, owner, found, here⟩

end

def upTo (parentsOf : List Nat) (parent : Nat) : Nat := parentsOf.countP (· ≤ parent)

theorem upTo_le (parent : Nat) : upTo parentsOf parent ≤ parentsOf.length := countP_le_length

/-- In the order of their parents, those children come first. -/
theorem lt_upTo (sorted : parentsOf.Pairwise (· ≤ ·)) {child owner parent : Nat}
    (found : parentsOf[child]? = some owner) :
    child < upTo parentsOf parent ↔ owner ≤ parent := by
  induction parentsOf generalizing child with
  | nil => simp at found
  | cons first rest ih =>
    obtain ⟨least, sorted'⟩ := pairwise_cons.mp sorted
    by_cases passes : first ≤ parent
    · have count : upTo (first :: rest) parent = upTo rest parent + 1 := by simp [upTo, passes]
      cases child with
      | zero =>
        cases found
        simp [count, passes]
      | succ child =>
        rw [← ih sorted' found]
        omega
    have none_ : upTo (first :: rest) parent = 0 := by
      refine countP_eq_zero.mpr fun other member => ?_
      rcases mem_cons.mp member with rfl | member
      · simpa using passes
      · have := least other member
        simp only [decide_eq_true_eq]
        omega
    rw [none_]
    cases child with
    | zero =>
      cases found
      simp [passes]
    | succ child =>
      have member : owner ∈ rest := mem_of_getElem? found
      have := least owner member
      omega

def oneAt (parentsOf : List Nat) (child : Nat) : Nat := child + parentsOf.getD child 0

theorem oneAt_eq (found : parentsOf[child]? = some parent) : oneAt parentsOf child = child + parent := by
  rw [oneAt, getD_eq_getElem?_getD, found, Option.getD_some]

theorem oneAt_rising (sorted : parentsOf.Pairwise (· ≤ ·)) (one other : Nat) (lt : one < other)
    (inside : other < parentsOf.length) :
    oneAt parentsOf one < oneAt parentsOf other := by
  have ordered := pairwise_iff_getElem.mp sorted one other (by omega) inside lt
  rw [oneAt_eq (getElem?_eq_getElem (by omega)), oneAt_eq (getElem?_eq_getElem inside)]
  omega

/-- How many ones are below a place that has these children before it and no other. -/
theorem Marks.tally (marks : Marks parentsOf words) (sorted : parentsOf.Pairwise (· ≤ ·))
    (le : child ≤ parentsOf.length) (below : ∀ other < child, oneAt parentsOf other < bound)
    (above : ∀ other, child ≤ other → other < parentsOf.length → bound ≤ oneAt parentsOf other) :
    tally (bit words) bound = child := by
  refine tally_rising (oneAt_rising sorted) (fun place => ?_) le below above
  rw [marks]
  constructor
  · rintro ⟨other, parent, found, rfl⟩
    exact ⟨other, (List.getElem?_eq_some_iff.mp found).1, oneAt_eq found⟩
  · rintro ⟨other, lt, rfl⟩
    exact ⟨other, _, List.getElem?_eq_getElem lt, (oneAt_eq (List.getElem?_eq_getElem lt)).symm⟩

/-- A vector of the runs of children in the order of their parents. -/
structure Runs (parentsOf : List Nat) (parents : Nat) (vector : BitVector) : Prop where
  sorted : parentsOf.Pairwise (· ≤ ·)
  below : ∀ parent ∈ parentsOf, parent < parents
  len : vector.len = parentsOf.length + parents
  marks : Marks parentsOf vector.words
  sound : vector.Sound

namespace Runs
variable {vector : BitVector} (runs : Runs parentsOf parents vector)
include runs

/-- The one of a child is after the children before it and the parents before its own. -/
theorem child {child : Nat} (found : parentsOf[child]? = some parent) :
    IsNth (bit vector.words) child (child + parent) ∧ child + parent < vector.len := by
  obtain ⟨lt, value⟩ := List.getElem?_eq_some_iff.mp found
  have small := runs.below parent (value ▸ List.getElem_mem lt)
  refine ⟨⟨(runs.marks _).mpr ⟨child, parent, found, rfl⟩, ?_⟩, by rw [runs.len]; omega⟩
  rw [← oneAt_eq found]
  refine runs.marks.tally runs.sorted lt.le (fun other before => oneAt_rising runs.sorted _ _ before lt)
    fun other ge inside => ?_
  rcases lt_or_eq_of_le ge with later | rfl
  · exact le_of_lt (oneAt_rising runs.sorted _ _ later inside)
  · exact le_rfl

theorem ones : vector.ones = parentsOf.length := by
  rw [runs.sound.ones]
  refine runs.marks.tally runs.sorted le_rfl (fun other lt => ?_) fun other ge lt => absurd lt (by omega)
  rw [oneAt_eq (getElem?_eq_getElem lt)]
  exact (runs.child (getElem?_eq_getElem lt)).2

theorem zeros : vector.zeros = parents := by
  rw [BitVector.zeros, runs.ones, runs.len]
  omega

/-- The zero of a parent is after the children up to its own. -/
theorem parent {parent : Nat} (lt : parent < parents) :
    IsNth (fun place => !bit vector.words place) parent (parent + upTo parentsOf parent) ∧
      parent + upTo parentsOf parent < vector.len := by
  have le := @upTo_le parentsOf parent
  have side {child owner : Nat} (found : parentsOf[child]? = some owner) :=
    @lt_upTo parentsOf runs.sorted child owner parent found
  refine ⟨⟨?_, ?_⟩, by rw [runs.len]; omega⟩
  · rw [not_eq_true', eq_false_iff]
    intro set
    obtain ⟨child, owner, found, here⟩ := (runs.marks _).mp set
    have := side found
    omega
  have ones : tally (bit vector.words) (parent + upTo parentsOf parent) = upTo parentsOf parent := by
    refine runs.marks.tally runs.sorted le (fun other before => ?_) fun other ge inside => ?_
    · have found := getElem?_eq_getElem (show other < parentsOf.length by omega)
      have := (side found).mp before
      rw [oneAt_eq found]
      omega
    have found := getElem?_eq_getElem inside
    have := mt (side found).mpr (by omega)
    rw [oneAt_eq found]
    omega
  rw [tally_not, ones]
  omega

end Runs

section
variable (marks : Marks parentsOf words) (below : ∀ parent ∈ parentsOf, parent < parents)
include marks below

theorem Marks.tail (place : Nat) (past : parentsOf.length + parents ≤ place) : bit words place = false := by
  rw [eq_false_iff]
  intro set
  obtain ⟨child, parent, found, here⟩ := (marks place).mp set
  obtain ⟨lt, value⟩ := List.getElem?_eq_some_iff.mp found
  have := below parent (value ▸ List.getElem_mem lt)
  omega

theorem Marks.ones (length : words.length = (parentsOf.length + parents + 63) / 64)
    (sorted : parentsOf.Pairwise (· ≤ ·)) :
    Lib.tally (bit words) (64 * words.length) = parentsOf.length := by
  refine marks.tally sorted le_rfl (fun other lt => ?_) fun other ge lt => absurd lt (by omega)
  have := below _ (List.getElem_mem lt)
  rw [oneAt_eq (List.getElem?_eq_getElem lt)]
  omega

end

/-- The vector over a bitmap of the runs, built and read back from what it wrote. -/
theorem Marks.runs (marks : Marks parentsOf words) (length : words.length = (parentsOf.length + parents + 63) / 64)
    (sorted : parentsOf.Pairwise (· ≤ ·)) (below : ∀ parent ∈ parentsOf, parent < parents)
    (few : parentsOf.length < 2 ^ 32)
    (short : parentsOf.length + parents ≤ 2 ^ 38) :
    ∃ vector, BitVector.new words (parentsOf.length + parents) = .ok vector ∧ Runs parentsOf parents vector ∧
      BitVector.read vector.write (parentsOf.length + parents) = .ok vector := by
  have tail := marks.tail below
  have ones := marks.ones below length sorted
  have small : BitVector.Small words := ⟨by omega, by omega⟩
  exact ⟨_, BitVector.new_eq length tail, ⟨sorted, below, rfl, marks, BitVector.indexed_sound length tail rfl small⟩,
    BitVector.read_write length tail⟩

/-- The vector of runs, built and read back from what it wrote. -/
theorem runs_sound (sorted : parentsOf.Pairwise (· ≤ ·)) (below : ∀ parent ∈ parentsOf, parent < parents)
    (few : parentsOf.length < 2 ^ 32) (short : parentsOf.length + parents ≤ 2 ^ 38) :
    ∃ vector, runs parentsOf parents = .ok vector ∧ Runs parentsOf parents vector ∧
      BitVector.read vector.write (parentsOf.length + parents) = .ok vector := by
  obtain ⟨words, length, marks, made⟩ := runs_words sorted below
  obtain ⟨vector, built, runs, read⟩ := marks.runs length sorted below few short
  exact ⟨vector, made.trans built, runs, read⟩

end Rudb.Graph
