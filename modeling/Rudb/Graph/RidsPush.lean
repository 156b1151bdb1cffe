import Rudb.Graph.RidsProofs

/-! Pushing a set through a link keeps exactly the rows on the other side of its members. -/
namespace Rudb.Graph
open Rudb.Lib List

section scan
variable {bits : List Word} {place : Nat}

variable {inner : Nat}

theorem shifted_zero (lt : place % 64 + inner < 64) :
    (~~~(bits.getD (place / 64) 0) >>> (place % 64)).getLsbD inner = !bit bits (place + inner) := by
  have same : place + inner = 64 * (place / 64) + (place % 64 + inner) := by omega
  rw [BitVec.getLsbD_ushiftRight, BitVec.getLsbD_not, decide_eq_true lt, Bool.true_and, same, bit_add lt]

theorem shifted_zero_past (ge : 64 ≤ place % 64 + inner) :
    (~~~(bits.getD (place / 64) 0) >>> (place % 64)).getLsbD inner = false := by
  rw [BitVec.getLsbD_ushiftRight]
  exact BitVec.getLsbD_of_ge _ _ ge

theorem tally_shifted (le : place % 64 + inner ≤ 64) :
    tally (~~~(bits.getD (place / 64) 0) >>> (place % 64)).getLsbD inner =
      tally (fun other => !bit bits (place + other)) inner :=
  tally_congr fun _ lt => shifted_zero (by omega)

/-- `past_zeros` ends just past the zero that has so many between it and the place. -/
theorem pastZerosFrom_eq
    (here : IsNth (fun place => !bit bits place) (tally (fun place => !bit bits place) place + left) target)
    (lt : target < 64 * bits.length) : pastZerosFrom bits place left = some (target + 1) := by
  fun_induction pastZerosFrom bits place left with
  | case1 place left inside shift zeros found many =>
    obtain ⟨⟨set, count⟩, small⟩ := nthSet_isNth many
    have within : place % 64 + nthSet zeros left < 64 := by
      by_contra past
      rw [shifted_zero_past (not_lt.mp past)] at set
      cases set
    have there : IsNth (fun place => !bit bits place) (tally (fun place => !bit bits place) place + left)
        (place + nthSet zeros left) := by
      refine ⟨(shifted_zero within).symm.trans set, ?_⟩
      rw [tally_add, ← tally_shifted within.le]
      exact congrArg _ count
    rw [there.unique here]
  | case2 place left inside shift zeros found few ih =>
    refine ih ?_
    have rest : tally (fun other => !bit bits (place + other)) (64 - place % 64) = found := by
      rw [← tally_shifted (by omega), ← tally_eq_of_none (show 64 - place % 64 ≤ 64 by omega) fun inner past =>
        shifted_zero_past (by omega)]
      rfl
    rwa [tally_add, rest, add_assoc, Nat.add_sub_cancel' (not_lt.mp few)]
  | case3 place left outside =>
    have before := here.lt_tally (show target < place by omega)
    omega

theorem getLsbD_of_lt_trailingZeros (lt : inner < trailingZeros word) : word.getLsbD inner = false := by
  by_cases none_ : word = 0
  · rw [none_]
    exact BitVec.getLsbD_zero
  · exact not_of_tally_eq_zero (trailingZeros_isNth none_).1.2 lt

/-- A bit of the ones that start at a place, up to the first zero of the word. -/
theorem bit_of_lt_trailingZeros {inner : Nat}
    (lt : inner < trailingZeros (~~~(bits.getD (place / 64) 0 >>> (place % 64)))) (within : place % 64 + inner < 64) :
    bit bits (place + inner) = true := by
  have clear := getLsbD_of_lt_trailingZeros lt
  rwa [BitVec.getLsbD_not, decide_eq_true (by omega), Bool.true_and, shifted_bit within, Bool.not_eq_false'] at clear

theorem bit_trailingZeros (within : place % 64 + trailingZeros (~~~(bits.getD (place / 64) 0 >>> (place % 64))) < 64) :
    bit bits (place + trailingZeros (~~~(bits.getD (place / 64) 0 >>> (place % 64)))) = false := by
  have some_ : ~~~(bits.getD (place / 64) 0 >>> (place % 64)) ≠ 0 := by
    intro zero
    rw [zero, show trailingZeros 0 = 64 by decide] at within
    omega
  have set := (trailingZeros_isNth some_).1.1
  rwa [BitVec.getLsbD_not, decide_eq_true (by omega), Bool.true_and, shifted_bit within, Bool.not_eq_true'] at set

/-- The ones from a place on end at the first zero, or at the length. -/
theorem onesEnd_eq (ge : place ≤ stop) (le : stop ≤ len)
    (run : ∀ other, place ≤ other → other < stop → bit bits other = true) (ends : stop < len → bit bits stop = false) :
    onesEnd bits len place = stop := by
  fun_induction onesEnd bits len place with
  | case1 place more shift word found small =>
    have named : found = trailingZeros (~~~(bits.getD (place / 64) 0 >>> (place % 64))) := rfl
    have clear := @bit_trailingZeros bits place (by omega)
    rcases lt_trichotomy stop (place + found) with before | here | after
    · by_cases last : stop = len
      · omega
      · have set := @bit_of_lt_trailingZeros bits place (stop - place) (by omega) (by omega)
        rw [Nat.add_sub_cancel' ge, ends (by omega)] at set
        cases set
    · omega
    · rw [run (place + found) (by omega) after] at clear
      cases clear
  | case2 place more shift word found large ih =>
    have named : found = trailingZeros (~~~(bits.getD (place / 64) 0 >>> (place % 64))) := rfl
    by_cases inside : place + (64 - shift) ≤ stop
    · exact ih inside fun other after => run other (by omega)
    have last : stop = len := by
      by_contra early
      have set := @bit_of_lt_trailingZeros bits place (stop - place) (by omega) (by omega)
      rw [Nat.add_sub_cancel' ge, ends (by omega)] at set
      cases set
    rw [onesEnd, if_neg (by omega), last]
  | case3 place done => omega

end scan

theorem upBefore_le {parentsOf : List Nat} (member : Nat) : upBefore parentsOf member ≤ upTo parentsOf member := by
  unfold upBefore
  split
  · exact Nat.zero_le _
  · exact upTo_mono (by omega)

theorem upTo_le_upBefore {parentsOf : List Nat} {one other : Nat} (lt : one < other) :
    upTo parentsOf one ≤ upBefore parentsOf other := by
  rw [upBefore, if_neg (by omega)]
  exact upTo_mono (by omega)

namespace Runs
variable {parentsOf : List Nat} {parents : Nat} {vector : BitVector} (runs : Runs parentsOf parents vector)
include runs

/-- A walk finds the run of a member from the run of any parent before it. -/
theorem runStart {parent : Nat} (le : parent ≤ member) (lt : member < parents) :
    Rids.runStart vector parent (parent + upBefore parentsOf parent) member =
      some (member + upBefore parentsOf member) := by
  unfold Rids.runStart
  split
  · have before : upBefore parentsOf member = upTo parentsOf (member - 1) := if_neg (by omega)
    have ends : member - 1 + upTo parentsOf (member - 1) + 1 = member + upBefore parentsOf member := by omega
    split
    · rw [runs.select0 (by omega), Option.map_some, ends]
    obtain ⟨here, below⟩ := runs.parent (show member - 1 < parents by omega)
    have room := runs.sound.len_le
    have count : tally (fun place => !bit vector.words place) (parent + upBefore parentsOf parent) = parent := by
      by_cases first : parent = 0
      · simp [first, upBefore]
      · obtain ⟨previous, -⟩ := runs.parent (show parent - 1 < parents by omega)
        rw [upBefore, if_neg first, show parent + upTo parentsOf (parent - 1) =
          parent - 1 + upTo parentsOf (parent - 1) + 1 by
          omega, tally_succ, previous.2, if_pos previous.1, Nat.sub_add_cancel (by omega)]
    have nth : tally (fun place => !bit vector.words place) (parent + upBefore parentsOf parent) +
      (member - parent - 1) =
        member - 1 := by
      omega
    rw [pastZeros, pastZerosFrom_eq (by rw [nth]; exact here) (by omega), ends]
  · rw [le_antisymm le (by omega)]

/-- The run of a member is its children. -/
theorem onesFrom (lt : member < parents) :
    onesFrom vector.words (member + upBefore parentsOf member) vector.len =
      upTo parentsOf member - upBefore parentsOf member := by
  obtain ⟨zero, below⟩ := runs.parent lt
  have le := @upBefore_le parentsOf member
  have stop : onesEnd vector.words vector.len (member + upBefore parentsOf member) = member + upTo parentsOf member := by
    refine onesEnd_eq (by omega) below.le (fun place after before => ?_) fun _ => by simpa using zero.1
    have owned := (mem_range_iff runs.sorted (place - member) member).mp ⟨by omega, by omega⟩
    exact (runs.marks place).mpr ⟨place - member, member, owned, by omega⟩
  rw [Graph.onesFrom, stop]
  omega

end Runs

/-- What a push gives: exactly the children it is to keep, or every child when it stopped early. -/
structure Pushed.Exact (pushed : Pushed) (children : Nat) (keeps : Nat → Prop) (stopping : Bool) : Prop where
  kept : pushed.stopped = false → pushed.rids.Is children keeps
  all : pushed.stopped = true → pushed.rids.Is children (· < children)
  finishes : stopping = false → pushed.stopped = false

namespace Rids

theorem setRange_self (words : List Word) (place : Nat) : setRange words place place = words := by
  rw [setRange, if_neg (lt_irrefl _)]

namespace RunWalk
variable (walk : RunWalk) (listed : Bool) (mark child run : Nat)

theorem keep_list : (walk.keep listed mark child run).list =
    if listed then walk.list ++ range' child run else walk.list := by
  unfold keep
  split
  · rfl
  · rename_i empty
    simp [Nat.eq_zero_of_not_pos empty]

theorem keep_words : (walk.keep listed mark child run).words =
    if listed then walk.words else setRange walk.words child (child + run) := by
  unfold keep
  split
  · rfl
  · rename_i empty
    simp [Nat.eq_zero_of_not_pos empty, setRange_self]

theorem keep_asked (asked : walk.asked = true) : (walk.keep listed mark child run).asked = true := by
  unfold keep
  split
  · simp [asked]
  · exact asked

end RunWalk

def childrenIn (parentsOf : List Nat) (members : List Nat) : List Nat :=
  members.flatMap fun member => List.range' (upBefore parentsOf member)
    (upTo parentsOf member - upBefore parentsOf member)

variable {parentsOf : List Nat} {members : List Nat}

theorem mem_childrenIn (sorted : parentsOf.Pairwise (· ≤ ·)) :
    child ∈ childrenIn parentsOf members ↔ ∃ member ∈ members, parentsOf[child]? = some member := by
  rw [childrenIn, mem_flatMap]
  refine exists_congr fun member => and_congr_right fun _ => ?_
  rw [← mem_range_iff sorted, mem_range'_1]
  omega

theorem childrenIn_sorted (parentsOf : List Nat) (sorted : members.Pairwise (· < ·)) :
    (childrenIn parentsOf members).Pairwise (· < ·) := by
  rw [childrenIn, pairwise_flatMap]
  refine ⟨fun member _ => pairwise_lt_range', sorted.imp fun {one other} less first among second among' => ?_⟩
  have := @upTo_le_upBefore parentsOf _ _ less
  rw [mem_range'_1] at among among'
  omega

/-- The walk over the runs keeps the children of the members, unless the early stop breaks it. -/
theorem walkRuns_eq (runs : Runs parentsOf parents vector)
    (sorted : members.Pairwise (· < ·)) (inside : ∀ member ∈ members, walk.parent ≤ member ∧ member < parents)
    (start : walk.place = walk.parent + upBefore parentsOf walk.parent)
    (room : listed = false → parentsOf.length ≤ 64 * walk.words.length)
    (result : walkRuns vector listed mark walk members = (walk', stopped)) :
    (walk.asked = true → stopped = false) ∧ (stopped = false →
      (listed = true → walk'.list = walk.list ++ childrenIn parentsOf members) ∧
      (listed = false → walk'.words.length = walk.words.length ∧
        ∀ place, bit walk'.words place = true ↔ bit walk.words place = true ∨
          place ∈ childrenIn parentsOf members)) := by
  induction members generalizing walk with
  | nil =>
    cases result
    simp [childrenIn]
  | cons member members ih =>
    obtain ⟨least, sorted⟩ := pairwise_cons.mp sorted
    obtain ⟨ge, lt⟩ := inside member mem_cons_self
    have below := (runs.parent lt).2
    have le := @upBefore_le parentsOf member
    have fits := @upTo_le parentsOf member
    have parent : (if member > walk.parent then member else walk.parent) = member := by
      split <;> omega
    simp only [walkRuns, start, runs.runStart ge lt, parent] at result
    rw [if_neg (by omega), runs.onesFrom lt, Nat.add_sub_cancel_left] at result
    generalize run_eq : upTo parentsOf member - upBefore parentsOf member = run at result
    split at result
    · rename_i broken
      cases result
      refine ⟨fun asked => ?_, fun whole => by cases whole⟩
      rw [asked] at broken
      cases broken.2.1
    have next : member + upBefore parentsOf member + run + 1 = member + 1 + upBefore parentsOf (member + 1) := by
      rw [upBefore.eq_def parentsOf (member + 1), if_neg (by omega), Nat.add_sub_cancel]
      omega
    have length : (walk.keep listed mark (upBefore parentsOf member) run).words.length = walk.words.length := by
      rw [RunWalk.keep_words]
      split
      · rfl
      · rw [setRange_length]
    have later (other : Nat) (among : other ∈ members) : member + 1 ≤ other ∧ other < parents :=
      ⟨least other among, (inside other (mem_cons_of_mem _ among)).2⟩
    obtain ⟨asked, kept⟩ := ih sorted (by exact later) (by exact next)
      (fun bits => by rw [length]; exact room bits) result
    refine ⟨fun was => asked (RunWalk.keep_asked _ _ _ _ _ was), fun whole => ⟨fun list => ?_, fun bits => ?_⟩⟩
    · rw [(kept whole).1 list]
      rw [RunWalk.keep_list, if_pos list, append_assoc]
      simp [childrenIn, run_eq]
    obtain ⟨same, bit_eq⟩ := (kept whole).2 bits
    refine ⟨same.trans length, fun place => ?_⟩
    have := room bits
    rw [bit_eq]
    rw [RunWalk.keep_words, bits, if_neg Bool.false_ne_true, setRange_bit (by omega), Bool.or_eq_true, decide_eq_true_eq,
      or_assoc]
    simp [childrenIn, run_eq]

def Reaches (parentsOf : List Nat) (rids : Rids) (child : Nat) : Prop :=
  ∃ parent, parentsOf[child]? = some parent ∧ rids.contains parent = true

theorem Reaches.lt (reaches : Reaches parentsOf rids child) : child < parentsOf.length := by
  obtain ⟨parent, found, -⟩ := reaches
  exact (List.getElem?_eq_some_iff.mp found).1

theorem pushRuns_exact (runs : Runs parentsOf parents vector)
    {rids : Rids} (valid : rids.Valid) (rows : rids.rows = parents) (parts : Nat) (stopping : Bool) :
    (rids.pushRuns vector parentsOf.length parts stopping).Exact parentsOf.length (Reaches parentsOf rids) stopping := by
  unfold pushRuns
  dsimp only
  generalize decide (rids.len * parentsOf.length / max rids.rows 1 * sparseRatio < parentsOf.length) = listed
  generalize (parentsOf.length + stopAfter - 1) / stopAfter = mark
  have inside : ∀ member ∈ rids.members, 0 ≤ member ∧ member < parents := fun member among =>
    ⟨Nat.zero_le _, rows ▸ lt_rows (valid.mem_members.mp among)⟩
  have same (child : Nat) : child ∈ childrenIn parentsOf rids.members ↔ Reaches parentsOf rids child := by
    rw [mem_childrenIn runs.sorted]
    refine exists_congr fun member => ?_
    rw [valid.mem_members, and_comm]
  generalize result : walkRuns vector listed mark _ rids.members = walked
  obtain ⟨walk, stopped⟩ := walked
  obtain ⟨asked, kept⟩ := walkRuns_eq runs valid.sorted inside rfl (fun bits => by simp [bits]; omega) result
  cases stopped with
  | true =>
    refine ⟨fun whole => absurd whole Bool.noConfusion, fun _ => is_full _, fun whole => ?_⟩
    cases asked (by rw [whole]; rfl)
  | false =>
    obtain ⟨list, bits⟩ := kept rfl
    refine ⟨fun _ => ?_, fun absurd_ => ?_, fun _ => ?_⟩
    · cases listed with
      | true =>
        rw [list rfl]
        exact (settleSparse_is (childrenIn_sorted parentsOf valid.sorted) fun child among =>
          ((same child).mp among).lt).congr same
      | false =>
        obtain ⟨length, bit_eq⟩ := bits rfl
        simp only [Bool.false_eq_true, if_false] at length bit_eq ⊢
        have marks (place : Nat) : bit walk.words place = true ↔ Reaches parentsOf rids place := by
          rw [bit_eq, bit_replicate, same]
          simp
        refine (settleDense_is (by rw [length, length_replicate]) fun place past => ?_).congr marks
        rw [Bool.eq_false_iff]
        intro set
        have := ((marks place).mp set).lt
        omega
    · cases listed <;> cases absurd_
    · cases listed <;> rfl

end Rids
end Rudb.Graph
