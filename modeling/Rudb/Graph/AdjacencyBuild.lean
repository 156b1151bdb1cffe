import Rudb.Graph.Adjacency
import Rudb.Graph.RidsParts

/-! What the counting sorts of an adjacency make: the children in the order of their parents, dealt by
ranges or at once, and the runs of their parents. -/
namespace Rudb.Graph.Adjacency
open Rudb.Lib Rudb.Encoding List

/-- The children that have a parent, each behind it, in the order of the parents. -/
def ordered (parentsOf : List Nat) (parents : Nat) : List (Nat × Nat) := dealt Prod.fst (entries parentsOf) parents

def owners (parentsOf : List Nat) (parents : Nat) : List Nat := (ordered parentsOf parents).map Prod.fst

def grouped (parentsOf : List Nat) (parents : Nat) : List Nat := (ordered parentsOf parents).map Prod.snd

variable {parentsOf : List Nat} {parents : Nat}

theorem mem_entries :
    (parent, child) ∈ entries parentsOf ↔ parentsOf[child]? = some parent ∧ parent ≠ noParent := by
  rw [entries, mem_filter, mem_zipIdx_iff_getElem?, decide_eq_true_eq]

section
variable (below : Below parentsOf parents)
include below

theorem entries_below : ∀ entry ∈ entries parentsOf, entry.1 < parents := by
  rintro ⟨parent, child⟩ member
  obtain ⟨found, there⟩ := mem_entries.mp member
  exact (below parent (mem_of_getElem? found)).resolve_left there

/-- The counting pass over children whose parents are all there. -/
theorem countParents_eq (bucket : Nat → Nat) (counts : List Nat) (offset : Nat) :
    countParents parents bucket counts parentsOf =
      .ok (countNext (fun entry : Nat × Nat => bucket entry.1) counts
        ((parentsOf.zipIdx offset).filter (·.1 ≠ noParent))) := by
  induction parentsOf generalizing counts offset with
  | nil => rfl
  | cons parent rest ih =>
    simp only [Below, mem_cons, forall_eq_or_imp] at below
    rw [countParents, zipIdx_cons]
    by_cases absent : parent = noParent
    · rw [if_pos absent, ih below.2 _ (offset + 1), filter_cons_of_neg (by simpa using absent)]
    · rw [if_neg absent, if_neg (Nat.not_le_of_lt (below.1.resolve_left absent)), ih below.2 _ (offset + 1),
        filter_cons_of_pos (by simpa using absent)]
      rfl

/-- The counts of the pass, added up, are where each bucket's children start. -/
theorem exists_counts (bucket : Nat → Nat) (limit : Nat) :
    ∃ counts, countParents parents bucket (replicate (limit + 1) 0) parentsOf = .ok counts ∧
      sums 0 counts = Lib.starts (fun entry => bucket entry.1) limit (entries parentsOf) :=
  ⟨_, countParents_eq below bucket _ 0, rfl⟩

end

theorem owners_sorted (parentsOf : List Nat) (parents : Nat) : (owners parentsOf parents).Pairwise (· ≤ ·) := by
  rw [owners, pairwise_map, ordered, dealt, pairwise_flatMap]
  constructor
  · intro parent _
    refine pairwise_of_forall_mem_list fun one among other among' => ?_
    simp only [mem_filter, decide_eq_true_eq] at among among'
    omega
  · refine pairwise_lt_range.imp fun {parent parent'} less one among other among' => ?_
    simp only [mem_filter, decide_eq_true_eq] at among among'
    omega

variable {entry : Nat × Nat}

theorem mem_ordered : entry ∈ ordered parentsOf parents ↔ entry ∈ entries parentsOf ∧ entry.1 < parents := by
  simp only [ordered, dealt, mem_flatMap, mem_range, mem_filter, decide_eq_true_eq]
  constructor
  · rintro ⟨parent, lt, member, rfl⟩
    exact ⟨member, lt⟩
  · rintro ⟨member, lt⟩
    exact ⟨entry.1, lt, member, rfl⟩

theorem owners_below : ∀ parent ∈ owners parentsOf parents, parent < parents := by
  intro parent member
  obtain ⟨entry, among, rfl⟩ := mem_map.mp member
  exact (mem_ordered.mp among).2

theorem length_ordered (below : Below parentsOf parents) :
    (ordered parentsOf parents).length = (entries parentsOf).length := by
  rw [ordered, length_dealt, before_all (entries_below below)]

section
variable (below : Below parentsOf parents) (parent : Nat)
include below

theorem countP_owners :
    (owners parentsOf parents).countP (· < parent) = before Prod.fst (entries parentsOf) parent := by
  rw [owners, countP_map, ordered, countP_dealt]
  refine countP_congr fun entry member => ?_
  simp [entries_below below entry member]

theorem upTo_owners : upTo (owners parentsOf parents) parent = before Prod.fst (entries parentsOf) (parent + 1) := by
  rw [← countP_owners below]
  exact countP_congr fun owner _ => by simp

theorem upBefore_owners : upBefore (owners parentsOf parents) parent = before Prod.fst (entries parentsOf) parent := by
  unfold upBefore
  split
  · rename_i zero
    rw [zero, before_zero]
  · rw [upTo_owners below, Nat.sub_add_cancel (by omega)]

end

def childrenOfParent (parentsOf : List Nat) (parent : Nat) : List Nat :=
  (List.range parentsOf.length).filter fun child => parentsOf[child]? = some parent

theorem entries_of (there : parent ≠ noParent) :
    ((entries parentsOf).filter (·.1 = parent)).map Prod.snd = childrenOfParent parentsOf parent := by
  refine sorted_ext ?_ (pairwise_lt_range.filter _) fun child => ?_
  · rw [pairwise_map]
    refine List.Pairwise.filter _ (List.Pairwise.filter _ (pairwise_iff_getElem.mpr fun one other lt lt' less => ?_))
    simpa using less
  simp only [mem_map, mem_filter, decide_eq_true_eq, childrenOfParent, mem_range]
  constructor
  · rintro ⟨⟨owner, child⟩, ⟨member, rfl⟩, rfl⟩
    have found := (mem_entries.mp member).1
    exact ⟨(List.getElem?_eq_some_iff.mp found).1, found⟩
  · rintro ⟨-, found⟩
    exact ⟨(parent, child), ⟨mem_entries.mpr ⟨found, there⟩, rfl⟩, rfl⟩

/-- The ones of the parents before one are marked, each run after the children and the zeros before it. -/
def Marked (counts : Nat → Nat) (limit : Nat) (words : List Word) : Prop :=
  ∀ place, bit words place = true ↔ ∃ parent < limit, counts parent + parent ≤ place ∧
    place < counts (parent + 1) + parent

theorem marked_blank (counts : Nat → Nat) (size : Nat) : Marked counts 0 (replicate size 0) := by
  intro place
  rw [bit_replicate]
  simp

variable {words : List Word}

theorem Marked.step (marked : Marked counts limit words)
    (room : counts (limit + 1) + limit ≤ 64 * words.length) :
    Marked counts (limit + 1) (markOnes words (counts limit + limit) (counts (limit + 1) + limit)) := by
  intro place
  have inside : ∀ one ∈ range' (counts limit + limit) (counts (limit + 1) + limit - (counts limit + limit)),
      one < 64 * words.length := by
    intro one member
    rw [mem_range'_1] at member
    omega
  rw [markOnes, foldl_setBit_bit inside, marked, mem_range'_1]
  constructor
  · rintro (⟨parent, lt, range⟩ | range)
    · exact ⟨parent, by omega, range⟩
    · exact ⟨limit, by omega, by omega⟩
  rintro ⟨parent, lt, range⟩
  by_cases last : parent = limit
  · subst last
    exact .inr (by omega)
  · exact .inl ⟨parent, by omega, range⟩

theorem Marked.fold {span : Nat}
    (marked : Marked counts limit words) (monotone : Monotone counts)
    (room : counts (limit + span) + (limit + span) ≤ 64 * words.length)
    (agree : ∀ words, ∀ index < span, mark words index =
      markOnes words (counts (limit + index) + (limit + index)) (counts (limit + index + 1) + (limit + index))) :
    Marked counts (limit + span) ((range span).foldl mark words) ∧
      ((range span).foldl mark words).length = words.length := by
  induction span with
  | zero => exact ⟨marked, rfl⟩
  | succ span ih =>
    have more : counts (limit + span) ≤ counts (limit + (span + 1)) := monotone (by omega)
    obtain ⟨marked', length⟩ := ih (by omega) fun words index lt => agree words index (by omega)
    rw [range_succ, foldl_concat, agree _ span (by omega)]
    refine ⟨marked'.step ?_, by rw [markOnes, foldl_setBit_length, length]⟩
    rw [add_assoc limit]
    omega

/-- All of them marked are the runs of the grouped children. -/
theorem Marked.marks (below : Below parentsOf parents)
    (marked : Marked (before Prod.fst (entries parentsOf)) parents words) : Marks (owners parentsOf parents) words := by
  intro place
  rw [marked]
  have range (child parent : Nat) := mem_range_iff (owners_sorted parentsOf parents) child parent
  simp only [upTo_owners below, upBefore_owners below] at range
  constructor
  · rintro ⟨parent, lt, ge, less⟩
    exact ⟨place - parent, parent, (range _ _).mp ⟨by omega, by omega⟩, by omega⟩
  · rintro ⟨child, parent, found, rfl⟩
    have := (range _ _).mpr found
    exact ⟨parent, owners_below parent (mem_of_getElem? found), by omega, by omega⟩

structure Holds (adjacency : Adjacency) (parentsOf : List Nat) (parents : Nat) : Prop where
  children : adjacency.children = parentsOf.length
  below : ∀ parent ∈ parentsOf, parent = noParent ∨ parent < parents
  runs : Runs (owners parentsOf parents) parents adjacency.starts
  rows : ∀ place child, (grouped parentsOf parents)[place]? = some child →
    tailAt adjacency.rows adjacency.width place = .ok child
  parents : adjacency.parents = parents

/-- While 32 bits count the children that have a parent and name the words of their runs, and the child
table is one there can be. -/
structure Counted (parentsOf : List Nat) (parents : Nat) : Prop where
  below : ∀ parent ∈ parentsOf, parent = noParent ∨ parent < parents
  few : (entries parentsOf).length < 2 ^ 32
  short : (entries parentsOf).length + parents ≤ 2 ^ 38
  children : parentsOf.length < 2 ^ 58

theorem length_owners (below : Below parentsOf parents) :
    (owners parentsOf parents).length = (entries parentsOf).length := by
  rw [owners, length_map, length_ordered below]

theorem lt_width (lt : child < parentsOf.length) : child < 2 ^ widthFor parentsOf.length := by
  have := Graph.lt_widthFor (parentsOf.length - 1)
  unfold Graph.widthFor at this
  unfold widthFor
  omega

theorem grouped_lt (member : child ∈ grouped parentsOf parents) : child < parentsOf.length := by
  obtain ⟨⟨parent, other⟩, among, rfl⟩ := mem_map.mp member
  exact (List.getElem?_eq_some_iff.mp (mem_entries.mp (mem_ordered.mp among).1).1).1

theorem pack_holds (counted : Counted parentsOf parents)
    (length : words.length = ((entries parentsOf).length + parents + 63) / 64)
    (marked : Marked (before Prod.fst (entries parentsOf)) parents words) :
    ∃ adjacency, pack parentsOf.length parents (entries parentsOf).length (grouped parentsOf parents) words =
      .ok adjacency ∧
      adjacency.Holds parentsOf parents := by
  obtain ⟨below, few, short, children⟩ := counted
  have width : widthFor parentsOf.length ≤ 64 := Graph.widthFor_le (show parentsOf.length - 1 < 2 ^ 64 by omega)
  have count : (grouped parentsOf parents).length = (entries parentsOf).length := by
    rw [grouped, length_map, length_ordered below]
  have room : (grouped parentsOf parents).length * widthFor parentsOf.length < 2 ^ 64 := by
    have := Nat.mul_le_mul_left (grouped parentsOf parents).length width
    omega
  have positive : 0 < widthFor parentsOf.length := Graph.widthFor_pos _
  obtain ⟨rows, packed, -, read⟩ := tailAt_packLinear positive width (fun child member =>
    lt_width (grouped_lt member)) room
  rw [← length_owners below] at length few short
  obtain ⟨vector, made, runs, -⟩ := (marked.marks below).runs length (owners_sorted parentsOf parents)
    owners_below few short
  rw [pack, packed]
  rw [← length_owners below, made]
  exact ⟨_, rfl, rfl, below, runs, read, rfl⟩

theorem room_of_length (length : words.length = ((entries parentsOf).length + parents + 63) / 64)
    (le : limit ≤ parents) :
    before Prod.fst (entries parentsOf) limit + limit ≤ 64 * words.length := by
  have : before Prod.fst (entries parentsOf) limit ≤ (entries parentsOf).length := countP_le_length
  omega

theorem buildDirect_holds (counted : Counted parentsOf parents) :
    ∃ adjacency, buildDirect parentsOf parents = .ok adjacency ∧ adjacency.Holds parentsOf parents := by
  have inside := entries_below counted.below
  obtain ⟨counts, counted_, sums_eq⟩ := exists_counts counted.below id parents
  rw [buildDirect, counted_]
  simp only [Except.bind, sums_eq, id]
  rw [starts_getD le_rfl, before_all inside,
    placeNext_eq inside (fun place lt => starts_getElem? lt.le) length_replicate]
  have room := room_of_length (@length_replicate Word (((entries parentsOf).length + parents + 63) / 64) 0)
    (le_refl parents)
  have agree (words : List Word) (parent : Nat) (lt : parent < parents) :
      markOnes words ((Lib.starts Prod.fst parents (entries parentsOf)).getD parent 0 + parent)
        ((Lib.starts Prod.fst parents (entries parentsOf)).getD (parent + 1) 0 + parent) =
      markOnes words (before Prod.fst (entries parentsOf) (0 + parent) + (0 + parent))
        (before Prod.fst (entries parentsOf) (0 + parent + 1) + (0 + parent)) := by
    rw [starts_getD lt.le, starts_getD lt, zero_add]
  obtain ⟨marked, length⟩ := (marked_blank _ _).fold monotone_before (by rwa [zero_add]) agree
  rw [zero_add] at marked
  exact pack_holds counted (by rw [length, length_replicate]) marked

section ranges
variable {width shift : Nat}

/-- A child dealt with its parent's place within its range above its own row. -/
def pairOf (width shift : Nat) (entry : Nat × Nat) : Nat := (entry.1 &&& (1 <<< shift - 1)) <<< width ||| entry.2

theorem pairOf_parts (small : entry.2 < 2 ^ width) :
    pairOf width shift entry >>> width = entry.1 % 2 ^ shift ∧
      pairOf width shift entry &&& (2 ^ width - 1) = entry.2 := by
  rw [pairOf, Nat.one_shiftLeft, Nat.and_two_pow_sub_one_eq_mod, ← Nat.shiftLeft_add_eq_or_of_lt small, Nat.shiftLeft_eq,
    Nat.shiftRight_eq_div_pow, Nat.and_two_pow_sub_one_eq_mod]
  refine ⟨?_, ?_⟩
  · rw [mul_comm, Nat.mul_add_div (Nat.two_pow_pos width), Nat.div_eq_of_lt small, add_zero]
  · rw [Nat.mul_add_mod_self_right, Nat.mod_eq_of_lt small]

theorem entry_small (member : entry ∈ entries parentsOf) : entry.2 < 2 ^ widthFor parentsOf.length :=
  lt_width (List.getElem?_eq_some_iff.mp (mem_entries.mp (show (entry.1, entry.2) ∈ entries parentsOf from member)).1).1

theorem range_iff {range index parent : Nat} (lt : index < 2 ^ shift) :
    (parent >>> shift = range ∧ parent % 2 ^ shift = index) ↔ parent = range * 2 ^ shift + index := by
  rw [Nat.shiftRight_eq_div_pow]
  constructor
  · rintro ⟨rfl, rfl⟩
    exact (Nat.div_add_mod' parent (2 ^ shift)).symm
  rintro rfl
  rw [mul_comm, Nat.mul_add_div (Nat.two_pow_pos shift), Nat.div_eq_of_lt lt, add_zero, Nat.mul_add_mod_self_left,
    Nat.mod_eq_of_lt lt]
  exact ⟨rfl, rfl⟩

def rangePairs (parentsOf : List Nat) (shift range : Nat) : List Nat :=
  ((entries parentsOf).filter (·.1 >>> shift = range)).map (pairOf (widthFor parentsOf.length) shift)

/-- The pairs of a range, sorted, are the children of the range's first parents in their order. -/
theorem range_dealt {range index : Nat} (le : index ≤ 2 ^ shift) :
    (dealt (· >>> widthFor parentsOf.length) (rangePairs parentsOf shift range) index).map
      (· &&& (2 ^ widthFor parentsOf.length - 1)) =
        ((List.range index).flatMap fun place =>
          (entries parentsOf).filter (·.1 = range * 2 ^ shift + place)).map Prod.snd := by
  rw [dealt, map_flatMap, map_flatMap]
  refine flatMap_congr fun place member => ?_
  have lt := (mem_range.mp member).trans_le le
  rw [rangePairs, filter_map, map_map, filter_filter]
  simp only [Function.comp_def]
  have same : (entries parentsOf).filter (fun entry =>
      decide (pairOf (widthFor parentsOf.length) shift entry >>> widthFor parentsOf.length = place) &&
        decide (entry.1 >>> shift = range)) = (entries parentsOf).filter (·.1 = range * 2 ^ shift + place) := by
    refine filter_congr fun entry member => ?_
    rw [← Bool.decide_and, decide_eq_decide, (pairOf_parts (entry_small member)).1, and_comm, range_iff lt]
  rw [same]
  exact map_congr_left fun entry member => (pairOf_parts (entry_small (mem_of_mem_filter member))).2

theorem range_before {range : Nat} (le : index ≤ 2 ^ shift) :
    before Prod.fst (entries parentsOf) (range * 2 ^ shift) +
        before (· >>> widthFor parentsOf.length) (rangePairs parentsOf shift range) index =
      before Prod.fst (entries parentsOf) (range * 2 ^ shift + index) := by
  have lengths := congrArg length (@range_dealt parentsOf shift range index le)
  rw [length_map, length_map, length_dealt] at lengths
  rw [lengths, ← length_dealt, ← length_dealt (range * 2 ^ shift + index), dealt_add, length_append]

theorem before_range (range : Nat) : before (fun entry : Nat × Nat => entry.1 >>> shift) (entries parentsOf) range =
      before Prod.fst (entries parentsOf) (range * 2 ^ shift) := by
  refine countP_congr fun entry _ => ?_
  simp only [decide_eq_true_eq, Nat.shiftRight_eq_div_pow]
  exact Nat.div_lt_iff_lt_mul (Nat.two_pow_pos shift)

theorem before_next (range : Nat) : before Prod.fst (entries parentsOf) ((range + 1) * 2 ^ shift) =
      before Prod.fst (entries parentsOf) (range * 2 ^ shift) + (rangePairs parentsOf shift range).length := by
  rw [← before_range, before_succ, before_range, rangePairs, length_map]

theorem rangePairs_below (below : Below parentsOf parents) {range : Nat} : ∀ pair ∈ rangePairs parentsOf shift range,
      pair >>> widthFor parentsOf.length < min (2 ^ shift) (parents - range * 2 ^ shift) := by
  intro pair member
  obtain ⟨entry, among, rfl⟩ := mem_map.mp member
  obtain ⟨among, same⟩ := mem_filter.mp among
  have inside := entries_below below entry among
  have small := Nat.mod_lt entry.1 (Nat.two_pow_pos shift)
  have here := (@range_iff shift range (entry.1 % 2 ^ shift) entry.1 small).mp ⟨by simpa using same, rfl⟩
  rw [(pairOf_parts (entry_small among)).1]
  omega

/-- After some ranges: their children grouped by parent, and the pairs of the ranges left. -/
structure Sorted (parentsOf : List Nat) (parents shift ranges range : Nat) (state : List Nat × List Word) : Prop where
  rows : state.1 = (dealt Prod.fst (entries parentsOf) (min parents (range * 2 ^ shift))).map Prod.snd ++
    ((dealt (fun entry : Nat × Nat => entry.1 >>> shift) (entries parentsOf) ranges).map
      (pairOf (widthFor parentsOf.length) shift)).drop (before Prod.fst (entries parentsOf) (range * 2 ^ shift))
  length : state.2.length = ((entries parentsOf).length + parents + 63) / 64
  marked : Marked (before Prod.fst (entries parentsOf)) (min parents (range * 2 ^ shift)) state.2

/-- What lies behind the children grouped so far: the pairs of this range, and those of the ones after it. -/
theorem Sorted.drop {ranges range : Nat} (lt : range < ranges) (first : range * 2 ^ shift ≤ parents)
    (sorted : Sorted parentsOf parents shift ranges range state) :
    state.1.drop (before Prod.fst (entries parentsOf) (range * 2 ^ shift)) = rangePairs parentsOf shift range ++
      ((dealt (fun entry : Nat × Nat => entry.1 >>> shift) (entries parentsOf) ranges).map
        (pairOf (widthFor parentsOf.length) shift)).drop
          (before Prod.fst (entries parentsOf) ((range + 1) * 2 ^ shift)) := by
  have rows := sorted.rows
  have split := @dealt_drop (Nat × Nat) (fun entry => entry.1 >>> shift) (entries parentsOf) ranges range lt
  rw [before_range, before_range] at split
  rw [min_eq_right first] at rows
  rw [rows, drop_left' (by rw [length_map, length_dealt]), ← map_drop, split, map_append, map_drop,
    rangePairs]

theorem Sorted.step (counted : Counted parentsOf parents) {ranges range : Nat} (lt : range < ranges)
    (first : range * 2 ^ shift ≤ parents)
    (sorted : Sorted parentsOf parents shift ranges range state) : Sorted parentsOf parents shift ranges (range + 1)
      (sortRange (widthFor parentsOf.length) shift parents
        (Lib.starts (fun entry : Nat × Nat => entry.1 >>> shift) ranges (entries parentsOf)) state range) := by
  have next : (range + 1) * 2 ^ shift = range * 2 ^ shift + 2 ^ shift := Nat.succ_mul _ _
  have stop : min parents ((range + 1) * 2 ^ shift) =
      range * 2 ^ shift + min (2 ^ shift) (parents - range * 2 ^ shift) := by
    omega
  have behind := sorted.drop lt first
  obtain ⟨rows, length, marked⟩ := sorted
  rw [min_eq_right first] at rows marked
  have held : (state.1.drop (before Prod.fst (entries parentsOf) (range * 2 ^ shift))).take
      (before Prod.fst (entries parentsOf) ((range + 1) * 2 ^ shift) - before Prod.fst
        (entries parentsOf) (range * 2 ^ shift)) =
        rangePairs parentsOf shift range := by
    rw [behind, before_next, Nat.add_sub_cancel_left, take_left]
  have agree (words : List Word) (index : Nat) (less : index < min (2 ^ shift) (parents - range * 2 ^ shift)) :
      markOnes words
        (before Prod.fst (entries parentsOf) (range * 2 ^ shift) + (Lib.starts (· >>> widthFor parentsOf.length)
          (min (2 ^ shift) (parents - range * 2 ^ shift)) (rangePairs parentsOf shift range)).getD index 0 +
            (range * 2 ^ shift + index))
        (before Prod.fst (entries parentsOf) (range * 2 ^ shift) + (Lib.starts (· >>> widthFor parentsOf.length)
          (min (2 ^ shift) (parents - range * 2 ^ shift)) (rangePairs parentsOf shift range)).getD (index + 1) 0 +
            (range * 2 ^ shift + index)) =
      markOnes words (before Prod.fst (entries parentsOf) (range * 2 ^ shift + index) + (range * 2 ^ shift + index))
        (before Prod.fst (entries parentsOf) (range * 2 ^ shift + index + 1) + (range * 2 ^ shift + index)) := by
    rw [starts_getD less.le, starts_getD less, range_before (by omega), range_before (by omega), add_assoc]
  have room := room_of_length length (show range * 2 ^ shift + min (2 ^ shift) (parents - range * 2 ^ shift) ≤ parents by
    omega)
  have filled := marked.fold monotone_before room agree
  have sort := @placeNext_eq Nat Nat (· >>> widthFor parentsOf.length) (· &&& (2 ^ widthFor parentsOf.length - 1)) _ _
    (@rangePairs_below parentsOf parents shift counted.below range) _ _
    (fun place lt => starts_getElem? lt.le) rfl
  unfold sortRange
  dsimp only
  rw [starts_getD lt.le, starts_getD lt, before_range, before_range, Nat.one_shiftLeft, Nat.shiftLeft_eq, held, sort,
    range_dealt (by omega)]
  refine ⟨?_, filled.2.trans length, by rw [stop]; exact filled.1⟩
  rw [stop, dealt_add, map_append, append_assoc, before_next, ← drop_drop, behind, drop_left, before_next,
    rows, take_left' (by rw [length_map, length_dealt])]

/-- The ranges one after another, from the pairs as they were dealt. -/
theorem sorted_ranges (counted : Counted parentsOf parents) {ranges range : Nat} (le : range ≤ ranges)
    (inside : ranges ≤ parents / 2 ^ shift + 1) : Sorted parentsOf parents shift ranges range ((List.range range).foldl
      (sortRange (widthFor parentsOf.length) shift parents
        (Lib.starts (fun entry : Nat × Nat => entry.1 >>> shift) ranges (entries parentsOf)))
      ((dealt (fun entry : Nat × Nat => entry.1 >>> shift) (entries parentsOf) ranges).map
        (pairOf (widthFor parentsOf.length) shift),
          List.replicate (((entries parentsOf).length + parents + 63) / 64) 0)) := by
  induction range with
  | zero =>
    refine ⟨by simp [dealt], length_replicate, ?_⟩
    rw [zero_mul, Nat.min_zero]
    exact marked_blank _ _
  | succ range ih =>
    rw [range_succ, foldl_concat]
    exact (ih (by omega)).step counted (by omega)
      ((Nat.le_div_iff_mul_le (Nat.two_pow_pos shift)).mp (show range ≤ parents / 2 ^ shift by omega))

/-- The build by ranges groups the children as the direct one does. -/
theorem build_holds (counted : Counted parentsOf parents) :
    ∃ adjacency, build parentsOf parents = .ok adjacency ∧ adjacency.Holds parentsOf parents := by
  unfold build
  dsimp only
  generalize parents.size - rangeBits = shift
  split
  · exact buildDirect_holds counted
  have last : parents < (parents >>> shift + 1) * 2 ^ shift := by
    rw [Nat.shiftRight_eq_div_pow]
    exact Nat.lt_mul_of_div_lt (Nat.lt_succ_self _) (Nat.two_pow_pos shift)
  have few : parents >>> shift + 1 ≤ parents / 2 ^ shift + 1 := by
    rw [Nat.shiftRight_eq_div_pow]
  have inside : ∀ entry ∈ entries parentsOf, entry.1 >>> shift < parents >>> shift + 1 := by
    intro entry member
    rw [Nat.shiftRight_eq_div_pow, Nat.div_lt_iff_lt_mul (Nat.two_pow_pos shift)]
    exact (entries_below counted.below entry member).trans last
  generalize parents >>> shift + 1 = ranges at last few inside
  obtain ⟨counts, counted_, sums_eq⟩ := exists_counts counted.below (· >>> shift) ranges
  have slots (place : Nat) (lt : place < ranges) :
      ((Lib.starts (fun entry : Nat × Nat => entry.1 >>> shift) ranges (entries parentsOf)).take ranges)[place]? =
        some (before (fun entry : Nat × Nat => entry.1 >>> shift) (entries parentsOf) place) := by
    rw [getElem?_take_of_lt lt, starts_getElem? lt.le]
  rw [counted_]
  simp only [Except.bind, sums_eq]
  rw [starts_getD le_rfl, before_all inside, placeNext_eq inside slots length_replicate]
  obtain ⟨rows, length, marked⟩ := @sorted_ranges parentsOf parents shift counted ranges ranges le_rfl few
  rw [min_eq_left last.le] at rows marked
  rw [drop_eq_nil_of_le, append_nil] at rows
  · have packed := pack_holds counted length marked
    rw [show grouped parentsOf parents = _ from rows.symm] at packed
    exact packed
  · rw [length_map, length_dealt, before_range]

end ranges

end Rudb.Graph.Adjacency
