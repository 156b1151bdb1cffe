import Rudb.Graph.LinkAnswers
import Rudb.Graph.Rids

/-! What a set of row ids holds, whichever form it is in, and the one form each set has. -/
namespace Rudb.Graph
open Rudb.Lib List

theorem foldl_setBit_length (members : List Nat) (words : List Word) :
    (members.foldl setBit words).length = words.length := by
  induction members generalizing words with
  | nil => rfl
  | cons member members ih => rw [foldl_cons, ih, setBit_length]

variable {words : List Word} {members : List Nat}

theorem foldl_setBit_bit (inside : ∀ member ∈ members, member < 64 * words.length)
    (place : Nat) : bit (members.foldl setBit words) place = true ↔ bit words place = true ∨ place ∈ members := by
  induction members generalizing words with
  | nil => simp
  | cons member members ih =>
    simp only [mem_cons, forall_eq_or_imp] at inside
    rw [foldl_cons, ih (by rw [setBit_length]; exact inside.2), setBit_bit inside.1, Bool.or_eq_true,
      decide_eq_true_eq, mem_cons, or_assoc]

theorem setRange_length (words : List Word) (place stop : Nat) : (setRange words place stop).length = words.length := by
  fun_induction setRange words place stop with
  | case1 words place more shift take mask ih => rw [ih, length_set]
  | case2 => rfl

theorem getLsbD_rangeMask {take : Nat} (le : take + shift ≤ 64) (place : Nat) :
    (if take = 64 then BitVec.allOnes 64 else ((1 : Word) <<< take - 1) <<< shift).getLsbD place =
      decide (shift ≤ place ∧ place < shift + take) := by
  split
  · rw [BitVec.getLsbD_allOnes]
    exact decide_eq_decide.mpr (by omega)
  · rw [BitVec.getLsbD_shiftLeft, getLsbD_mask (by omega), ← decide_not, ← Bool.decide_and, ← Bool.decide_and]
    exact decide_eq_decide.mpr (by omega)

theorem bit_set_mask {words : List Word} {place : Nat} (inside : place / 64 < words.length) {mask : Word} {take : Nat}
    (small : take ≤ 64 - place % 64)
    (marks : ∀ inner, mask.getLsbD inner = decide (place % 64 ≤ inner ∧ inner < place % 64 + take)) (other : Nat) :
    bit (words.set (place / 64) (words.getD (place / 64) 0 ||| mask)) other =
      (bit words other || decide (place ≤ other ∧ other < place + take)) := by
  unfold bit
  by_cases same : place / 64 = other / 64
  · rw [← same, getD_eq_getElem?_getD, getElem?_set_self inside, Option.getD_some, BitVec.getLsbD_or, marks]
    congr 1
    exact decide_eq_decide.mpr (by omega)
  · rw [getD_eq_getElem?_getD, getElem?_set_ne same, ← getD_eq_getElem?_getD, decide_eq_false (by omega),
      Bool.or_false]

/-- `set_range` sets the bits of the range and leaves every other one. -/
theorem setRange_bit (inside : stop ≤ 64 * words.length) (other : Nat) :
    bit (setRange words place stop) other = (bit words other || decide (place ≤ other ∧ other < stop)) := by
  fun_induction setRange words place stop with
  | case1 words place more shift take mask ih =>
    have word := @bit_set_mask words place (by omega) mask take (min_le_left _ _) (getLsbD_rangeMask (by omega)) other
    rw [ih (by rw [length_set]; exact inside), word, Bool.or_assoc, ← Bool.decide_or]
    congr 2
    exact propext (by omega)
  | case2 words place done => rw [decide_eq_false (by omega), Bool.or_false]

theorem mem_onesOf :
    place ∈ onesOf base rest ↔ ∃ inner, rest.getLsbD inner = true ∧ base + inner = place := by
  fun_induction onesOf base rest with
  | case1 =>
    constructor
    · exact fun absurd_ => absurd absurd_ not_mem_nil
    · rintro ⟨inner, set, -⟩
      rw [show BitVec.getLsbD (0 : Word) inner = false from BitVec.getLsbD_zero] at set
      cases set
  | case2 rest some_ ih =>
    have lowest := (trailingZeros_isNth some_).1.1
    rw [mem_cons, ih]
    constructor
    · rintro (rfl | ⟨inner, set, rfl⟩)
      · exact ⟨_, lowest, rfl⟩
      · rw [getLsbD_clearLowest some_, Bool.and_eq_true] at set
        exact ⟨inner, set.1, rfl⟩
    rintro ⟨inner, set, rfl⟩
    by_cases here : inner = trailingZeros rest
    · exact .inl (by rw [here])
    · exact .inr ⟨inner, by rw [getLsbD_clearLowest some_, set, decide_eq_true here]; rfl, rfl⟩

theorem onesOf_sorted (base : Nat) (rest : Word) : (onesOf base rest).Pairwise (· < ·) := by
  fun_induction onesOf base rest with
  | case1 => exact .nil
  | case2 rest some_ ih =>
    refine pairwise_cons.mpr ⟨fun place member => ?_, ih⟩
    obtain ⟨inner, set, rfl⟩ := mem_onesOf.mp member
    rw [getLsbD_clearLowest some_, Bool.and_eq_true, decide_eq_true_eq] at set
    -- nothing is set below the lowest one
    have first := (trailingZeros_isNth some_).1
    have ge : trailingZeros rest ≤ inner := by
      by_contra lt
      rw [not_of_tally_eq_zero first.2 (not_le.mp lt)] at set
      cases set.1
    omega

theorem mem_ones : place ∈ ones words ↔ bit words place = true := by
  rw [ones, mem_flatMap]
  constructor
  · rintro ⟨⟨word, index⟩, member, listed⟩
    obtain ⟨inner, set, rfl⟩ := mem_onesOf.mp listed
    have found := mem_zipIdx_iff_getElem?.mp member
    have lt : inner < 64 := BitVec.lt_of_getLsbD set
    rw [mul_comm, bit_add lt, getD_eq_getElem?_getD, found]
    exact set
  intro set
  have inside : place < 64 * words.length := by
    by_contra past
    rw [bit_past (not_lt.mp past)] at set
    cases set
  have found := getElem?_eq_getElem (show place / 64 < words.length by omega)
  refine ⟨(_, place / 64), mem_zipIdx_iff_getElem?.mpr found, mem_onesOf.mpr ⟨place % 64, ?_, by omega⟩⟩
  rw [bit, getD_eq_getElem?_getD, found] at set
  exact set

theorem ones_sorted (words : List Word) : (ones words).Pairwise (· < ·) := by
  rw [ones, pairwise_flatMap]
  refine ⟨fun entry _ => onesOf_sorted _ _, ?_⟩
  refine pairwise_iff_getElem.mpr fun one other lt lt' less first member second member' => ?_
  rw [getElem_zipIdx] at member member'
  obtain ⟨inner, set, rfl⟩ := mem_onesOf.mp member
  obtain ⟨inner', set', rfl⟩ := mem_onesOf.mp member'
  have small : inner < 64 := BitVec.lt_of_getLsbD set
  omega

variable {rows : Nat}

theorem length_ones (words : List Word) (tail : ∀ place, rows ≤ place → bit words place = false) :
    (ones words).length = tally (bit words) rows := by
  refine (tally_eq_length ((ones_sorted words).imp ne_of_lt) (fun place => mem_ones.symm) fun place member => ?_).symm
  by_contra past
  rw [mem_ones, tail place (not_lt.mp past)] at member
  cases member

theorem sorted_ext {other : List Nat} (sorted : one.Pairwise (· < ·)) (sorted' : other.Pairwise (· < ·))
    (same : ∀ place, place ∈ one ↔ place ∈ other) : one = other :=
  List.Perm.eq_of_pairwise (fun _ _ _ _ less more => absurd (less.trans more) (lt_irrefl _)) sorted sorted'
    ((perm_ext_iff_of_nodup (sorted.imp ne_of_lt) (sorted'.imp ne_of_lt)).mpr same)

namespace Rids

/-- A set as the constructors leave it: the form its count calls for, and members of its table only. -/
inductive Valid : Rids → Prop
  | full {rows : Nat} (positive : 0 < rows) : Valid { rows, body := .full }
  | sparse {rows : Nat} {members : List Nat} (sorted : members.Pairwise (· < ·))
    (below : ∀ member ∈ members, member < rows)
      (form : shape rows members.length = .sparse) : Valid { rows, body := .sparse members }
  | dense {rows : Nat} {words : List Word} (length : words.length = (rows + 63) / 64)
      (tail : ∀ place, rows ≤ place → bit words place = false) (form : shape rows (tally (bit words) rows) = .dense) :
      Valid { rows, body := .dense words (tally (bit words) rows) }

theorem lt_rows (holds : contains rids rid = true) : rid < rids.rows := by
  by_contra past
  rw [contains, if_pos (not_lt.mp past)] at holds
  cases holds

namespace Valid
variable {rids : Rids} (valid : rids.Valid)
include valid

theorem mem_members : rid ∈ rids.members ↔ rids.contains rid = true := by
  cases valid with
  | full positive => simp [members, contains]
  | @sparse rows members sorted below form =>
    simp only [Rids.members, contains]
    split
    · exact ⟨fun member => absurd (below rid member) (by omega), fun absurd_ => by cases absurd_⟩
    · exact contains_iff_mem.symm
  | @dense rows words length tail form =>
    simp only [Rids.members, contains, mem_ones]
    split
    · rename_i past
      rw [tail rid past]
    · rfl

theorem sorted : rids.members.Pairwise (· < ·) := by
  cases valid with
  | full positive => exact pairwise_lt_range
  | sparse sorted => exact sorted
  | dense => exact ones_sorted _

theorem len_eq : rids.len = rids.members.length := by
  cases valid with
  | full positive => simp [len, members]
  | sparse => rfl
  | dense length tail => exact (length_ones _ tail).symm

theorem shape_len : shape rids.rows rids.len = rids.form := by
  cases valid with
  | full positive => exact if_pos ⟨positive, rfl⟩
  | sparse _ _ form | dense _ _ form => exact form

/-- A set has one value: with the same rows and the same members it is the same set. -/
theorem ext (valid' : other.Valid) (rows : rids.rows = other.rows)
    (same : ∀ rid, rids.contains rid = true ↔ other.contains rid = true) : rids = other := by
  have listed : rids.members = other.members := sorted_ext valid.sorted valid'.sorted fun rid => by
    rw [valid.mem_members, valid'.mem_members, same]
  have form : rids.form = other.form := by
    rw [← valid.shape_len, ← valid'.shape_len, valid.len_eq, valid'.len_eq, listed, rows]
  cases valid with
  | full =>
    cases valid' with
    | full => cases rows; rfl
    | _ => cases form
  | sparse =>
    cases valid' with
    | sparse => cases rows; cases listed; rfl
    | _ => cases form
  | @dense rows words length tail =>
    cases valid' with
    | @dense rows words' length' tail' =>
      subst rows
      have agree : words = words' := words_ext (by rw [length, length']) fun place => Bool.eq_iff_iff.mpr (by
        rw [← mem_ones, ← mem_ones]
        exact iff_of_eq (congrArg (place ∈ ·) listed))
      rw [agree]
    | _ => cases form

end Valid

/-- The word of `any_between` at an index holds the bits of it that are between the two rows. -/
theorem getLsbD_between {inner : Nat} (ge : low / 64 ≤ index) (le : index ≤ high / 64)
    (small : inner < 64) : (between words low high index).getLsbD inner =
      (bit words (64 * index + inner) && decide (low ≤ 64 * index + inner ∧ 64 * index + inner ≤ high)) := by
  have above : (BitVec.allOnes 64 <<< (low % 64)).getLsbD inner = decide (low % 64 ≤ inner) := by
    rw [BitVec.getLsbD_shiftLeft, BitVec.getLsbD_allOnes, ← decide_not, ← Bool.decide_and, ← Bool.decide_and]
    exact decide_eq_decide.mpr (by omega)
  have below : (BitVec.allOnes 64 >>> (63 - high % 64)).getLsbD inner = decide (inner ≤ high % 64) := by
    rw [BitVec.getLsbD_ushiftRight, BitVec.getLsbD_allOnes]
    exact decide_eq_decide.mpr (by omega)
  rw [bit_add small, between]
  split <;> split
  · rw [BitVec.getLsbD_and, BitVec.getLsbD_and, above, below, Bool.and_assoc, ← Bool.decide_and]
    exact congrArg _ (decide_eq_decide.mpr (by omega))
  · rw [BitVec.getLsbD_and, below]
    exact congrArg _ (decide_eq_decide.mpr (by omega))
  · rw [BitVec.getLsbD_and, above]
    exact congrArg _ (decide_eq_decide.mpr (by omega))
  · rw [decide_eq_true (by omega), Bool.and_true]

theorem word_ne_zero {word : Word} : word ≠ 0 ↔ ∃ inner < 64, word.getLsbD inner = true := by
  constructor
  · intro some_
    obtain ⟨here, lt⟩ := trailingZeros_isNth some_
    exact ⟨_, lt, here.1⟩
  · rintro ⟨inner, -, set⟩ rfl
    rw [show BitVec.getLsbD (0 : Word) inner = false from BitVec.getLsbD_zero] at set
    cases set

/-- The first member from a row on, in order, is up to another row when any member is between them. -/
theorem dropWhile_any (sorted : members.Pairwise (· < ·)) (low high : Nat) :
    (members.dropWhile (· < low)).head?.any (· ≤ high) = true ↔ ∃ member ∈ members, low ≤ member ∧ member ≤ high := by
  induction members with
  | nil => simp
  | cons member members ih =>
    obtain ⟨least, sorted⟩ := pairwise_cons.mp sorted
    by_cases before : member < low
    · rw [dropWhile_cons_of_pos (by simpa using before), ih sorted]
      simp only [mem_cons, exists_eq_or_imp]
      exact ⟨.inr, fun found => found.resolve_left (by omega)⟩
    rw [dropWhile_cons_of_neg (by simpa using before)]
    simp only [head?_cons, Option.any_some, decide_eq_true_eq, mem_cons, exists_eq_or_imp]
    refine ⟨fun le => .inl ⟨by omega, le⟩, ?_⟩
    rintro (here | ⟨other, among, here⟩)
    · exact here.2
    · have := least other among
      omega

variable {rids : Rids}

theorem Valid.anyBetween (valid : rids.Valid) (low high : Nat) :
    rids.anyBetween low high = true ↔ ∃ rid, low ≤ rid ∧ rid ≤ high ∧ rids.contains rid = true := by
  have bounded : (∃ rid, low ≤ rid ∧ rid ≤ high ∧ rids.contains rid = true) ↔
      ∃ rid, rids.contains rid = true ∧ low ≤ rid ∧ rid ≤ min high (rids.rows - 1) := by
    constructor
    · rintro ⟨rid, ge, le, holds⟩
      have := lt_rows holds
      exact ⟨rid, holds, ge, by omega⟩
    · rintro ⟨rid, holds, ge, le⟩
      exact ⟨rid, ge, by omega, holds⟩
  rw [bounded]
  unfold Rids.anyBetween
  dsimp only
  split
  · refine iff_of_false Bool.false_ne_true ?_
    rintro ⟨rid, holds, ge, le⟩
    have := lt_rows holds
    omega
  rename_i some_
  generalize high_eq : min high (rids.rows - 1) = high' at some_ ⊢
  cases valid with
  | @full rows positive =>
    dsimp only at some_ high_eq ⊢
    exact ⟨fun _ => ⟨low, by simp [contains]; omega, le_rfl, by omega⟩, fun _ => rfl⟩
  | @sparse rows members sorted below form =>
    dsimp only at some_ high_eq ⊢
    rw [dropWhile_any sorted]
    refine exists_congr fun rid => and_congr_left fun inside => ?_
    rw [contains, if_neg (by dsimp only; omega)]
    exact contains_iff_mem.symm
  | @dense rows words length tail form =>
    dsimp only at some_ high_eq ⊢
    rw [any_eq_true]
    constructor
    · rintro ⟨index, member, found⟩
      rw [decide_eq_true_eq] at found
      obtain ⟨inner, small, set⟩ := word_ne_zero.mp found
      rw [mem_range'_1] at member
      rw [getLsbD_between (by omega) (by omega) small, Bool.and_eq_true, decide_eq_true_eq] at set
      refine ⟨64 * index + inner, ?_, set.2⟩
      rw [contains, if_neg (by dsimp only; omega)]
      exact set.1
    rintro ⟨rid, holds, ge, le⟩
    rw [contains, if_neg (by dsimp only; omega)] at holds
    have whole : 64 * (rid / 64) + rid % 64 = rid := by omega
    refine ⟨rid / 64, mem_range'_1.mpr (by omega), ?_⟩
    rw [decide_eq_true_eq, word_ne_zero]
    refine ⟨rid % 64, by omega, ?_⟩
    rw [getLsbD_between (by omega) (by omega) (by omega), whole, decide_eq_true ⟨ge, le⟩, Bool.and_true]
    exact holds

/-- A set over a table that holds exactly these rows. -/
structure Is (rids : Rids) (rows : Nat) (holds : Nat → Prop) : Prop where
  valid : rids.Valid
  rows : rids.rows = rows
  contains : ∀ rid, rids.contains rid = true ↔ holds rid

theorem Is.unique {other : Rids} (is : one.Is rows holds) (is' : other.Is rows holds) :
    one = other :=
  is.valid.ext is'.valid (is.rows.trans is'.rows.symm) fun rid => (is.contains rid).trans (is'.contains rid).symm

theorem Is.congr (is : rids.Is rows holds)
    (same : ∀ rid, holds rid ↔ holds' rid) : rids.Is rows holds' :=
  ⟨is.valid, is.rows, fun rid => (is.contains rid).trans (same rid)⟩

theorem is_full (rows : Nat) : (full rows).Is rows (· < rows) := by
  rw [full]
  split
  · rename_i zero
    subst zero
    exact ⟨.sparse .nil (fun _ member => absurd member not_mem_nil) rfl, rfl, fun rid => by simp [none, contains]⟩
  · rename_i some_
    exact ⟨.full (Nat.pos_of_ne_zero some_), rfl, fun rid => by simp [contains]⟩

theorem shape_full {members : Nat} : shape rows members = .full ↔ 0 < rows ∧ members = rows := by
  unfold shape
  split
  · rename_i full_
    simp [full_]
  · rename_i part
    refine iff_of_false ?_ part
    split <;> simp

theorem settleDense_is {rows : Nat} {words : List Word} (length : words.length = (rows + 63) / 64)
    (tail : ∀ place, rows ≤ place → bit words place = false) :
    (settleDense rows words).Is rows (bit words · = true) := by
  have count : (words.map countOnes).sum = tally (bit words) rows := by
    rw [← tally_all, tally_eq_of_none (by omega) tail]
  have inside {rid : Nat} (set : bit words rid = true) : rid < rows := by
    by_contra past
    rw [tail rid (not_lt.mp past)] at set
    cases set
  unfold settleDense
  simp only [count]
  cases form : shape rows (tally (bit words) rows) with
  | full =>
    obtain ⟨positive, all⟩ := shape_full.mp form
    refine (is_full rows).congr fun rid => ⟨fun lt => ?_, inside⟩
    have none_ : tally (fun place => !bit words place) rows = 0 := by
      rw [tally_not, all, Nat.sub_self]
    simpa using not_of_tally_eq_zero none_ lt
  | sparse =>
    have valid : Valid { rows, body := .sparse (ones words) } :=
      .sparse (ones_sorted words) (fun rid member => inside (mem_ones.mp member)) (by rw [length_ones words tail, form])
    exact ⟨valid, rfl, fun rid => valid.mem_members.symm.trans mem_ones⟩
  | dense =>
    have valid : Valid { rows, body := .dense words (tally (bit words) rows) } := .dense length tail form
    exact ⟨valid, rfl, fun rid => valid.mem_members.symm.trans mem_ones⟩

theorem bitmap_bit (below : ∀ member ∈ members, member < rows) (place : Nat) :
    bit (bitmap rows members) place = true ↔ place ∈ members := by
  rw [bitmap, foldl_setBit_bit fun member among => by
    have := below member among
    rw [length_replicate]
    omega]
  rw [bit_replicate]
  simp

theorem settleSparse_is (sorted : members.Pairwise (· < ·))
    (below : ∀ member ∈ members, member < rows) : (settleSparse rows members).Is rows (· ∈ members) := by
  have once : members.Nodup := sorted.imp ne_of_lt
  unfold settleSparse
  cases form : shape rows members.length with
  | full =>
    obtain ⟨positive, all⟩ := shape_full.mp form
    refine (is_full rows).congr fun rid => ⟨fun lt => ?_, below rid⟩
    -- as many members as rows, each once, leave no row out
    have count := tally_eq_length (p := fun place => decide (place ∈ members)) once
      (fun place => decide_eq_true_iff) below
    have none_ : tally (fun place => !decide (place ∈ members)) rows = 0 := by
      rw [tally_not, count, all, Nat.sub_self]
    simpa using not_of_tally_eq_zero none_ lt
  | sparse =>
    have valid : Valid { rows, body := .sparse members } := .sparse sorted below form
    exact ⟨valid, rfl, fun rid => valid.mem_members.symm⟩
  | dense =>
    have bits := bitmap_bit below
    have tail (place : Nat) (past : rows ≤ place) : bit (bitmap rows members) place = false := by
      rw [Bool.eq_false_iff]
      intro set
      have := below place ((bits place).mp set)
      omega
    have count : tally (bit (bitmap rows members)) rows = members.length := tally_eq_length once bits below
    have valid : Valid { rows, body := .dense (bitmap rows members) members.length } := by
      rw [← count] at form ⊢
      exact .dense (by rw [bitmap, foldl_setBit_length, length_replicate]) tail form
    exact ⟨valid, rfl, fun rid => valid.mem_members.symm.trans (mem_ones.trans (bits rid))⟩

theorem fromWords_is (length : words.length = (rows + 63) / 64)
    (tail : ∀ place, rows ≤ place → bit words place = false) :
    ∃ rids, fromWords rows words = .ok rids ∧ rids.Is rows (bit words · = true) := by
  refine ⟨_, ?_, settleDense_is length tail⟩
  have clear : (rows % 64 ≠ 0 && words.getLast?.any fun (last : Word) => last >>> (rows % 64) ≠ 0) = false := by
    have none_ := (BitVector.tailSet_iff length).mpr tail
    rw [BitVector.tailSet] at none_
    by_cases whole : rows % 64 = 0
    · simp [whole]
    rw [getLast?_eq_getElem?, show words.length - 1 = rows / 64 by omega]
    rw [getD_eq_getElem?_getD] at none_
    cases last : words[rows / 64]? with
    | none => simp
    | some word =>
      rw [last] at none_
      exact none_
  rw [fromWords, if_neg (by omega), clear]
  rfl

theorem Valid.held (valid : rids.Valid) (parent : Nat) : rids.held parent = rids.contains parent := by
  cases valid with
  | full positive | dense => rfl
  | @sparse rows members sorted below form =>
    have valid : Valid { rows, body := .sparse members } := .sparse sorted below form
    have bits := bitmap_bit below parent
    rw [Bool.eq_iff_iff, ← valid.mem_members]
    exact bits

variable {one other : Rids}

theorem bit_zipWith {left right : List Word} (same : left.length = right.length) (place : Nat) :
    bit (left.zipWith (· &&& ·) right) place = (bit left place && bit right place) := by
  simp only [bit, getD_eq_getElem?_getD, getElem?_zipWith]
  by_cases inside : place / 64 < left.length
  · simp [getElem?_eq_getElem inside, getElem?_eq_getElem (same ▸ inside)]
  · simp [getElem?_eq_none (not_lt.mp inside)]

theorem contains_of_full (all : one.isFull = true) (inside : rid < one.rows) : one.contains rid = true := by
  cases body : one.body <;> simp_all [isFull, contains]

theorem Valid.bit_words (valid : one.Valid) : one.words.length = (one.rows + 63) / 64 ∧
    ∀ place, bit one.words place = true ↔ one.contains place = true := by
  have below : ∀ member ∈ one.members, member < one.rows := fun member among =>
    lt_rows (valid.mem_members.mp among)
  simp only [← valid.mem_members]
  cases valid with
  | dense length tail form => exact ⟨length, fun place => mem_ones.symm⟩
  | full | sparse => exact ⟨(foldl_setBit_length _ _).trans length_replicate, bitmap_bit below⟩

theorem Valid.filter_is {members : List Nat} (valid : one.Valid) (body : one.body = .sparse members)
    (held : Nat → Bool) :
    (settleSparse one.rows (members.filter held)).Is one.rows fun rid => one.contains rid = true ∧ held rid = true := by
  have listed : one.members = members := by simp [Rids.members, body]
  rw [← listed]
  refine (settleSparse_is (valid.sorted.filter _) fun member among => ?_).congr fun rid => ?_
  · exact lt_rows (valid.mem_members.mp (mem_filter.mp among).1)
  · exact mem_filter.trans (and_congr_left' valid.mem_members)

section
variable (valid : one.Valid) (valid' : other.Valid) (same : one.rows = other.rows)
include valid valid' same

theorem Valid.intersect : ∃ both, one.intersect other = .ok both ∧
    both.Is one.rows fun rid => one.contains rid = true ∧ other.contains rid = true := by
  rw [Rids.intersect, sameTable, if_pos same]
  refine ⟨_, rfl, ?_⟩
  dsimp only
  split
  · rename_i body
    refine ⟨valid', same.symm, fun rid => (and_iff_right_of_imp fun held => ?_).symm⟩
    exact contains_of_full (by rw [isFull, body]) (same ▸ lt_rows held)
  · rename_i body _
    refine ⟨valid, rfl, fun rid => (and_iff_left_of_imp fun held => ?_).symm⟩
    exact contains_of_full (by rw [isFull, body]) (same ▸ lt_rows held)
  · rename_i left _ right _ body body'
    obtain ⟨length, bits⟩ := valid.bit_words
    obtain ⟨length', bits'⟩ := valid'.bit_words
    simp only [words, body] at length bits
    simp only [words, body', ← same] at length' bits'
    have held (rid : Nat) : bit (left.zipWith (· &&& ·) right) rid = true ↔
        one.contains rid = true ∧ other.contains rid = true := by
      rw [bit_zipWith (length.trans length'.symm), Bool.and_eq_true, bits, bits']
    refine (settleDense_is (by simp [length, length']) fun place past => ?_).congr held
    exact Bool.eq_false_iff.mpr fun set => absurd (lt_rows ((held place).mp set).1) (not_lt.mpr past)
  · rename_i body _
    exact valid.filter_is body _
  · rename_i body _ _
    exact (same ▸ valid'.filter_is body _).congr fun _ => and_comm

theorem Valid.union : ∃ either, one.union other = .ok either ∧
    either.Is one.rows fun rid => one.contains rid = true ∨ other.contains rid = true := by
  have inside {rid : Nat} : one.contains rid = true ∨ other.contains rid = true → rid < one.rows :=
    (Or.elim · lt_rows fun held => same ▸ lt_rows held)
  rw [Rids.union, sameTable, if_pos same]
  refine ⟨_, rfl, ?_⟩
  dsimp only
  split
  · rename_i all
    refine (is_full one.rows).congr fun rid => ⟨fun lt => ?_, inside⟩
    exact (Bool.or_eq_true_iff.mp all).imp (contains_of_full · lt) (contains_of_full · (same ▸ lt))
  obtain ⟨length, bits⟩ := valid.bit_words
  have set (place : Nat) : bit (other.members.foldl setBit one.words) place = true ↔
      one.contains place = true ∨ other.contains place = true := by
    rw [foldl_setBit_bit fun member among => ?_, bits, valid'.mem_members]
    have := inside (.inr (valid'.mem_members.mp among))
    omega
  refine (settleDense_is ((foldl_setBit_length _ _).trans length) fun place past => ?_).congr set
  exact Bool.eq_false_iff.mpr fun held => absurd (inside ((set place).mp held)) (not_lt.mpr past)

/-- Two sets over one table have one intersection and one union in either order, each in the one form of its rows. -/
theorem combine_exactly : ∃ both either,
    one.intersect other = .ok both ∧ other.intersect one = .ok both ∧
      one.union other = .ok either ∧ other.union one = .ok either ∧
      (both.Is one.rows fun rid => one.contains rid = true ∧ other.contains rid = true) ∧
      either.Is one.rows fun rid => one.contains rid = true ∨ other.contains rid = true := by
  obtain ⟨both, taken, is⟩ := valid.intersect valid' same
  obtain ⟨both', swapped, is'⟩ := valid'.intersect valid same.symm
  obtain ⟨either, joined, all⟩ := valid.union valid' same
  obtain ⟨either', swapped', all'⟩ := valid'.union valid same.symm
  rw [← same] at is' all'
  cases is.unique (is'.congr fun _ => and_comm)
  cases all.unique (all'.congr fun _ => or_comm)
  exact ⟨both, either, taken, swapped, joined, swapped', is, all⟩

end

/-- A list of two rows and a bitmap of three, of which they share one. -/
theorem combine_exactly_list_bitmap : ∃ words both either,
    let list : Rids := ⟨600, .sparse [7, 8]⟩
    let dense : Rids := ⟨600, .dense words 3⟩
    list.intersect dense = .ok both ∧ dense.intersect list = .ok both ∧
      list.union dense = .ok either ∧ dense.union list = .ok either ∧
      (both.Is 600 fun rid => rid = 7) ∧ either.Is 600 fun rid => rid ∈ [7, 8, 9, 500] := by
  have list := @settleSparse_is [7, 8] 600 (by decide) (by decide)
  have dense := @settleSparse_is [7, 9, 500] 600 (by decide) (by decide)
  obtain ⟨both, either, taken, swapped, joined, swapped', is, all⟩ := combine_exactly list.valid dense.valid rfl
  refine ⟨_, both, either, taken, swapped, joined, swapped', is.congr fun rid => ?_, all.congr fun rid => ?_⟩
  · rw [list.contains, dense.contains]
    simp only [List.mem_cons, List.not_mem_nil, or_false]
    omega
  · rw [list.contains, dense.contains]
    simp only [List.mem_cons, List.not_mem_nil, or_false]
    omega

end Rids
end Rudb.Graph
