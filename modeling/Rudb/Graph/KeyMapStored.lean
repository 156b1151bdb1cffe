import Mathlib.Data.Int.Interval
import Rudb.Graph.KeyMapProofs

/-! A key map built over a column, held in memory or read back from its payload, resolves the column. -/
namespace Rudb.Graph.KeyMap
open Rudb.Lib Rudb.Encoding LittleEndian List Bool Except

variable {column : List (Option Int)}

/-- What a map carries for its payload besides a body that fits. -/
structure Recorded (map : KeyMap) (column : List (Option Int)) : Prop where
  rows : map.observed.rows = (keysOf column).length
  total : map.observed.rows + map.observed.nulls = column.length
  ends : Extremes.Of (keysOf column) (map.observed.min, map.observed.max)
  low : 0 < map.observed.rows → map.observed.min = some map.base
  high : ∀ base range, map.span = some (base, range) → 0 < map.observed.rows →
    0 < range ∧ map.observed.max = some (base + range - 1)
  count : ∀ base count, map.body = .identity base count → count = map.observed.rows
  some_ : map.form = .dense ∨ map.form = .permuted → 0 < map.observed.rows

structure Built (column : List (Option Int)) (map : KeyMap) : Prop where
  build : build column = .ok map
  buildFrom : buildFrom column = .ok map
  distinct : map.observed.distinct = true ↔ (keysOf column).Nodup
  fits : map.observed.distinct = true → (map.form = .dense ∨ map.form = .permuted → (keysOf column).length < 2 ^ 32) →
    Fits column map.body ∧ map.Recorded column

theorem scan_pure (each : σ → Option Int → σ) (column : List (Option Int)) (state : σ) :
    scan (fun state key => .ok (each state key)) column state = .ok (column.foldl each state) := by
  induction column generalizing state with
  | nil => rfl
  | cons key rest ih => exact ih (each state key)

theorem scan_observe (column : List (Option Int)) : ∃ observer : Observer, observer.observed = observe column ∧
    scan (fun (observer : Observer) key => .ok (observer.push key)) column Observer.new = .ok observer :=
  ⟨_, rfl, scan_pure Observer.push column Observer.new⟩

theorem scan_held (column : List (Option Int)) :
    scan (fun (held : List (Option Int)) key => .ok (held ++ [key])) column [] = .ok column := by
  rw [scan_pure fun (held : List (Option Int)) key => held ++ [key], foldl_append_eq_append]
  simp [← flatMap_def]

theorem observed_rows (column : List (Option Int)) : (observe column).rows = (keysOf column).length :=
  (saw_fold column).rows

/-- The build that scans makes what the build that holds the column makes. -/
theorem buildFrom_eq (inside : (observe column).distinct = true → ∀ base range,
    plan (observe column) = .ok (.permuted base range) → ∀ key ∈ keysOf column, Inside base range key) :
      buildFrom column = build column := by
  obtain ⟨observer, saw, scanned⟩ := scan_observe column
  have total : (observe column).rows + (observe column).nulls = column.length := (saw_fold column).total
  simp only [buildFrom, build, scanned, Except.bind, saw]
  cases distinct : (observe column).distinct with
  | false => rfl
  | true =>
  cases planned : plan (observe column) with
  | error => rfl
  | ok plan =>
    cases plan with
    | empty | identity => rfl
    | dense base range =>
      dsimp only [dense]
      cases scan _ column (DenseBits.new base range) <;> rfl
    | sorted base => simp only [scan_held]
    | permuted base range =>
      have inside := inside distinct base range planned
      obtain ⟨bits, fresh, run, once, holds⟩ := markUntil_eq (holds_new base range) nodup_nil inside
      obtain ⟨bits', seen, run', holds', repeats⟩ := scan_markRow (holds_new base range)
        (show (false = true ↔ ¬([] : List Int).Nodup) by simp) column inside
      rw [nil_append] at once repeats
      rw [← once] at repeats
      simp only [show markUntil _ (column.filterMap id) = _ from run, run', total, scan_placeRow]
      cases fresh with
      | false =>
        obtain rfl : seen = true := repeats.mpr false_ne_true
        rfl
      | true =>
        obtain rfl : seen = false := eq_false_iff.mpr fun set => repeats.mp set rfl
        obtain rfl : bits = bits' := (holds rfl).unique holds'
        cases placeAll (Permutation.new bits column.length) 0 column <;> rfl

/-- A column that the first pass saw a repeat in gets a map of nothing. -/
theorem build_repeated (distinct : (observe column).distinct = false) :
    build column = .ok (nothing (observe column)) := by
  simp only [build, distinct]
  rfl

section planned
variable {base : Int} {range count : Nat} (distinct : (observe column).distinct = true)
include distinct

theorem build_empty (plan_eq : plan (observe column) = .ok .empty) : build column = .ok (nothing (observe column)) := by
  simp only [build, distinct, plan_eq, Except.bind]
  rfl

theorem build_identity (plan_eq : plan (observe column) = .ok (.identity base count)) :
    build column = .ok { body := .identity base count, observed := observe column } := by
  simp only [build, distinct, plan_eq, Except.bind]
  rfl

theorem build_dense (plan_eq : plan (observe column) = .ok (.dense base range))
    (inside : ∀ key ∈ keysOf column, Inside base range key) :
    ∃ bits : DenseBits, bits.Holds base range (keysOf column) ∧
      build column = .ok { body := bits.finish, observed := observe column } := by
  obtain ⟨bits, run, holds⟩ := scan_push (holds_new base range) column inside
  refine ⟨bits, holds, ?_⟩
  simp only [build, distinct, plan_eq, Except.bind, dense, run]
  rfl

theorem build_sorted (plan_eq : plan (observe column) = .ok (.sorted base)) {body : Body}
    (made : sorted column base (observe column).rows = .ok (body, once)) :
    build column = .ok { body, observed := { observe column with distinct := once } } := by
  simp only [build, distinct, plan_eq, Except.bind, made]
  rfl

/-- The permuted form finds a repeat while it marks, and without one places the rows. -/
theorem build_permuted (plan_eq : plan (observe column) = .ok (.permuted base range))
    (inside : ∀ key ∈ keysOf column, Inside base range key) :
    (¬(keysOf column).Nodup → build column = .ok (nothing { observe column with distinct := false })) ∧
    ((keysOf column).Nodup → ∃ bits : DenseBits, bits.Holds base range (keysOf column) ∧
      ∀ permutation body, placeAll (Permutation.new bits column.length) 0 column = .ok permutation →
        permutation.finish = .ok body → build column = .ok { body, observed := observe column }) := by
  obtain ⟨bits, fresh, run, once, holds⟩ := markUntil_eq (holds_new base range) nodup_nil inside
  rw [nil_append] at once holds
  constructor
  · intro repeated
    obtain rfl : fresh = false := eq_false_iff.mpr fun set => repeated (once.mp set)
    simp only [build, distinct, plan_eq, Except.bind, run]
    rfl
  · intro apart_
    obtain rfl : fresh = true := once.mpr apart_
    refine ⟨bits, holds rfl, fun permutation body placed finished => ?_⟩
    simp only [build, distinct, plan_eq, Except.bind, run, placed, finished]
    rfl

end planned

theorem keysOf_getElem? (full : none ∉ column) (rid : Nat) (key : Int) :
    column[rid]? = some (some key) ↔ (keysOf column)[rid]? = some key := by
  have all : (keysOf column).map some = column := by
    rw [keysOf, map_filterMap_some_eq_filter_map_isSome, List.map_id, filter_eq_self]
    exact fun key member => Option.isSome_iff_ne_none.mpr (ne_of_mem_of_not_mem member full)
  nth_rewrite 1 [← all]
  simp

theorem full_of_length (same : (keysOf column).length = column.length) : none ∉ column := by
  intro member
  simpa using filterMap_length_eq_length.mp same none member

variable {keys : List Int}

/-- Rising keys that fill their range are the base and what follows it. -/
theorem rising_filled (rising : keys.Pairwise (· < ·)) (between : ∀ key ∈ keys, low ≤ key ∧ key ≤ high)
    (filled : high - low + 1 = keys.length) (rid : Nat) (key : Int) :
    keys[rid]? = some key ↔ rid < keys.length ∧ key = low + rid := by
  -- as many keys as there are numbers in the range are all of them
  have all : keys.toFinset = Finset.Icc low high := by
    refine Finset.eq_of_subset_of_card_le (fun key member =>
      Finset.mem_Icc.mpr (between key (mem_toFinset.mp member))) ?_
    rw [Int.card_Icc, toFinset_card_of_nodup (rising.imp Int.ne_of_lt)]
    omega
  have listed : keys = (List.range keys.length).map fun place : Nat => low + place := by
    refine rising.eq_of_mem_iff (pairwise_map.mpr (pairwise_lt_range.imp fun lt => by omega)) fun key => ?_
    rw [← mem_toFinset, all, Finset.mem_Icc, mem_map]
    refine ⟨fun inside => ⟨(key - low).toNat, mem_range.mpr (by omega), by omega⟩, ?_⟩
    rintro ⟨place, lt, rfl⟩
    have := mem_range.mp lt
    omega
  rw [listed, getElem?_map, length_map, length_range]
  by_cases lt : rid < keys.length <;> simp [lt, eq_comm]

variable {range : Nat} {bits : DenseBits} {base : Int}

theorem DenseBits.Holds.set (holds : bits.Holds base range keys) (inside : ∀ key ∈ keys, Inside base range key)
    (member : key ∈ keys) :
    bit bits.bits (key - base).toNat = true ∧ (key - base).toNat < 64 * bits.bits.length := by
  obtain ⟨small, ge, lt⟩ := inside key member
  have length := holds.length
  refine ⟨(holds.bit_iff _).mpr ?_, by omega⟩
  rwa [show base + ((key - base).toNat : Int) = key by omega]

/-- Marks of distinct keys are as many as the keys. -/
theorem DenseBits.Holds.tally_all
    (holds : bits.Holds base range keys) (once : keys.Nodup) (inside : ∀ key ∈ keys, Inside base range key) :
    tally (bit bits.bits) (64 * bits.bits.length) = keys.length := by
  have count : keys.length = (keys.map fun key => (key - base).toNat).length := (length_map _).symm
  rw [count]
  refine tally_eq_length ?_ (fun place => ?_) fun place member => ?_
  · refine once.map_on fun one member other member' same => ?_
    have above := (inside one member).2.1
    have above' := (inside other member').2.1
    omega
  · rw [mem_map]
    constructor
    · exact fun set => ⟨_, (holds.bit_iff place).mp set, by omega⟩
    · rintro ⟨key, member, rfl⟩
      exact (holds.set inside member).1
  · obtain ⟨key, member', rfl⟩ := mem_map.mp member
    exact (holds.set inside member').2

section
variable (holds : bits.Holds base range (keysOf column))
include holds

/-- The bitmap of a finished marking, for a column with fewer than 2^32 keys. -/
theorem DenseBits.Holds.marked
    (once : (keysOf column).Nodup) (inside : ∀ key ∈ keysOf column, Inside base range key) (narrow : range < 2 ^ 64)
    (low : IsI128 base) (high : IsI128 (base + range - 1)) (few : (keysOf column).length < 2 ^ 32) :
    Marked column base range bits.bits (Rank.build bits.bits) :=
  ⟨narrow, low, high, holds.length, holds.bit_iff, fun key member => (inside key member).2, rfl, by
    rwa [holds.tally_all once inside]⟩

/-- In a rising column without nulls the rank of a key is its row. -/
theorem ranks_of_rising
    (full : none ∉ column) (rising : (keysOf column).Pairwise (· < ·))
    (inside : ∀ key ∈ keysOf column, Inside base range key) :
    Ranks column base bits.bits .ok := by
  intro rid key found
  rw [keysOf_getElem? full] at found
  have value {index : Nat} (lt : index < (keysOf column).length) :
      (keysOf column).getD index 0 = (keysOf column)[index] := by
    rw [getD_eq_getElem _ _ lt]
  have above {index : Nat} (lt : index < (keysOf column).length) : base ≤ (keysOf column)[index] :=
    (inside _ (getElem_mem lt)).2.1
  obtain ⟨lt, rfl⟩ := List.getElem?_eq_some_iff.mp found
  refine congrArg ok (@tally_rising _ (keysOf column).length
    (fun index => ((keysOf column).getD index 0 - base).toNat) (fun one other less lt' => ?_) (fun place => ?_) _ _
    lt.le (fun one less => ?_) fun one ge lt' => ?_)
  · have order := List.pairwise_iff_getElem.mp rising one other (by omega) lt' less
    have ge := above (less.trans lt')
    rw [value (by omega), value lt']
    omega
  · rw [holds.bit_iff]
    constructor
    · intro member
      obtain ⟨index, lt', same⟩ := mem_iff_getElem.mp member
      exact ⟨index, lt', by rw [value lt']; omega⟩
    rintro ⟨index, lt', same⟩
    rw [value lt'] at same
    have ge := above lt'
    rw [← same, show base + (((keysOf column)[index] - base).toNat : Int) = (keysOf column)[index] by omega]
    exact getElem_mem lt'
  · have order := List.pairwise_iff_getElem.mp rising one rid (by omega) lt less
    have ge := above (less.trans lt)
    rw [value (by omega)]
    omega
  · rw [value lt']
    rcases lt_or_eq_of_le ge with less | same
    · have order := List.pairwise_iff_getElem.mp rising rid one lt lt' less
      omega
    · subst same
      omega

/-- The rows placed and packed for a marked column, which fits when the rank index has not wrapped. -/
theorem placed_fits
    (once : (keysOf column).Nodup) (inside : ∀ key ∈ keysOf column, Inside base range key) (narrow : range < 2 ^ 64)
    (low : IsI128 base) (high : IsI128 (base + range - 1)) (short : column.length < 2 ^ 58) :
    ∃ permutation ridWidth perm, placeAll (Permutation.new bits column.length) 0 column = .ok permutation ∧
      permutation.finish = .ok (.permuted base range bits.bits (Rank.build bits.bits) ridWidth perm) ∧
      ((keysOf column).length < 2 ^ 32 →
        Fits column (.permuted base range bits.bits (Rank.build bits.bits) ridWidth perm)) := by
  have total := holds.tally_all once inside
  have base_eq : (Permutation.new bits column.length).base = base := holds.base_eq
  have count : (Permutation.new bits column.length).places.length = (keysOf column).length := by
    rw [Permutation.new, length_replicate, ← tally_all, total]
  -- a key's bit is set, so fewer ones are below it than there are
  have room : ∀ key ∈ keysOf column, (Permutation.new bits column.length).spot key <
      (Permutation.new bits column.length).places.length := fun key member => by
    obtain ⟨set, lt⟩ := holds.set inside member
    have less := IsNth.lt_tally (p := bit bits.bits) ⟨set, rfl⟩ lt
    have le : (Rank.build bits.bits).rank bits.bits (key - base).toNat ≤ tally (bit bits.bits) (key - base).toNat :=
      Rank.rank_le rfl lt
    rw [Permutation.spot, base_eq]
    exact le.trans_lt (by omega)
  obtain ⟨places, run, length, known, _, placed⟩ := placeAll_eq column (Permutation.new bits column.length) 0
    (fun key member => base_eq ▸ inside key member) room
  have ridsSmall : column.length - 1 < 2 ^ 64 := by omega
  have fit : ∀ rid ∈ places, rid < 2 ^ Graph.widthFor (column.length - 1) := fun rid member => by
    refine Nat.lt_of_le_of_lt ?_ (lt_widthFor _)
    rcases known rid member with old | new
    · rw [(mem_replicate.mp old).2]
      exact Nat.zero_le _
    · omega
  have short' : places.length * Graph.widthFor (column.length - 1) < 2 ^ 64 := by
    have le : (keysOf column).length ≤ column.length := length_filterMap_le _ _
    have := Nat.mul_le_mul_left places.length (widthFor_le ridsSmall)
    omega
  obtain ⟨perm, packed, permLength, read⟩ := tailAt_packLinear (widthFor_pos _) (widthFor_le ridsSmall) fit short'
  refine ⟨_, Graph.widthFor (column.length - 1), perm, run, ?_, fun few => ?_⟩
  · show (packLinear places (Graph.widthFor (column.length - 1))).map _ = _
    rw [packed]
    simp [Except.map, Permutation.new, widthFor, holds.base_eq, holds.range_eq]
  have marked := holds.marked once inside narrow low high few
  have spot {key : Int} (member : key ∈ keysOf column) :
      (Permutation.new bits column.length).spot key = tally (bit bits.bits) (key - base).toNat := by
    rw [Permutation.spot, base_eq]
    exact marked.counts.rank (holds.set inside member).2
  refine .permuted marked (widthFor_pos _) (widthFor_le ridsSmall) (by rw [permLength, length, count])
    fun rid key found => ?_
  have member := mem_keysOf.mpr ⟨rid, found⟩
  have here := placed once (fun one member other member' same => by
    rw [spot member, spot member'] at same
    have place := IsNth.unique (p := bit bits.bits) ⟨(holds.set inside member).1, same⟩
      ⟨(holds.set inside member').1, rfl⟩
    have above := (inside one member).2.1
    have above' := (inside other member').2.1
    omega) rid key found
  rw [spot member, Nat.zero_add] at here
  exact read _ _ here

end

theorem rising_of_chains (differ : keys.IsChain (· ≠ ·)) (order : keys.IsChain (· ≤ ·)) : keys.Pairwise (· < ·) := by
  refine List.IsChain.pairwise (isChain_iff_getElem.mpr fun index lt => ?_)
  have ne := isChain_iff_getElem.mp differ index lt
  have le := isChain_iff_getElem.mp order index lt
  omega

theorem built_nothing (none_ : keysOf column = []) : Built column (nothing (observe column)) := by
  have saw := saw_fold column
  have distinct : (observe column).distinct = true := saw.distinct.mpr (by rw [none_]; exact isChain_nil)
  have rows : (observe column).rows = 0 := saw.rows.trans (congrArg length none_)
  have plan_eq : plan (observe column) = .ok .empty := by rw [plan, if_pos rows]
  have built := build_empty distinct plan_eq
  refine ⟨built, (buildFrom_eq (by simp [plan_eq])).trans built, by rw [none_]; simpa [nothing] using distinct,
    fun _ _ => ⟨?_, ?_⟩⟩
  · refine .identity (by decide) (by simp) (by decide) (Nat.zero_le _) fun rid key => ?_
    constructor
    · intro found
      have member := mem_keysOf.mpr ⟨rid, found⟩
      rw [none_] at member
      cases member
    · rintro ⟨lt, _⟩
      exact absurd lt (Nat.not_lt_zero _)
  refine ⟨saw.rows, saw.total, saw.ends, ?_, ?_, ?_, by simp [form, nothing]⟩
  · intro some_
    exact absurd rows some_.ne'
  · intro _ _ _ some_
    exact absurd rows some_.ne'
  · intro base count same
    obtain ⟨-, rfl⟩ : 0 = base ∧ 0 = count := by simpa [nothing] using same
    exact rows.symm

/-- A column with keys, from the least to the greatest of them. -/
structure Ranged (column : List (Option Int)) (low high : Int) : Prop where
  min_eq : (observe column).min = some low
  max_eq : (observe column).max = some high
  low_mem : low ∈ keysOf column
  high_mem : high ∈ keysOf column
  between : ∀ key ∈ keysOf column, low ≤ key ∧ key ≤ high
  keys_i128 : ∀ key ∈ keysOf column, IsI128 key
  narrow : high - low + 1 < 2 ^ 64
  short : column.length < 2 ^ 58

/-- What a positional column is. -/
theorem positional (distinct : (observe column).distinct = true) (order : (observe column).sorted = true)
    (full : (observe column).nulls = 0) : none ∉ column ∧ (keysOf column).Pairwise (· < ·) := by
  have saw := saw_fold column
  have rows := observed_rows column
  have total : (observe column).rows + (observe column).nulls = column.length := saw.total
  exact ⟨full_of_length (by omega), rising_of_chains (saw.distinct.mp distinct) (saw.sorted.mp order)⟩

namespace Ranged
variable {low high : Int} (ranged : Ranged column low high)
include ranged

theorem inside (key : Int) (member : key ∈ keysOf column) : Inside low (high - low + 1).toNat key := by
  have narrow := ranged.narrow
  have between := ranged.between key member
  unfold Inside
  omega

theorem le : low ≤ high := (ranged.between low ranged.low_mem).2

theorem rows : 0 < (observe column).rows := by
  rw [observed_rows]
  exact length_pos_of_mem ranged.low_mem

/-- The plan of a column with keys, by the three questions it asks. -/
theorem plan_eq : plan (observe column) = .ok (
    if ((observe column).distinct && (observe column).sorted && (observe column).nulls == 0) &&
        (high - low + 1).toNat == (observe column).rows then .identity low (observe column).rows
    else if ((observe column).distinct && (observe column).sorted && (observe column).nulls == 0) &&
        decide ((high - low + 1).toNat / (observe column).rows < denseThreshold) then .dense low (high - low + 1).toNat
    else if (observe column).distinct && decide ((high - low + 1).toNat / (observe column).rows < denseThreshold) then
      .permuted low (high - low + 1).toNat
    else .sorted low) := by
  rw [plan, if_neg ranged.rows.ne', ranged.min_eq, ranged.max_eq]
  simp only [rangeOf_eq ranged.le ranged.narrow, Except.map]

/-- What goes with a body whose base is the least key and whose span, if it has one, ends at the greatest. -/
theorem recorded {body : Body} (base : KeyMap.base { body, observed := { observe column with distinct := once } } = low)
    (span : KeyMap.span { body, observed := { observe column with distinct := once } } ∈
      [none, some (low, (high - low + 1).toNat)])
    (count : ∀ base count, body = .identity base count → count = (observe column).rows) :
    KeyMap.Recorded { body, observed := { observe column with distinct := once } } column := by
  have saw := saw_fold column
  refine ⟨saw.rows, saw.total, saw.ends, fun _ => ?_, fun base range spans _ => ?_, count, fun _ => ranged.rows⟩
  · rw [base]
    exact ranged.min_eq
  obtain ⟨rfl, rfl⟩ : base = low ∧ range = (high - low + 1).toNat := by simpa [spans] using span
  have le := ranged.le
  refine ⟨by omega, ranged.max_eq.trans ?_⟩
  congr 1
  omega

theorem built_identity (distinct : (observe column).distinct = true) (order : (observe column).sorted = true)
    (full : (observe column).nulls = 0) (filled : (high - low + 1).toNat = (observe column).rows)
    (plan_eq : plan (observe column) = .ok (.identity low (observe column).rows)) :
    Built column { body := .identity low (observe column).rows, observed := observe column } := by
  have built := build_identity distinct plan_eq
  obtain ⟨full', rising⟩ := positional distinct order full
  have rows := observed_rows column
  have le := ranged.le
  have narrow := ranged.narrow
  refine ⟨built, (buildFrom_eq (by simp [plan_eq])).trans built,
    iff_of_true distinct (rising.imp fun lt => Int.ne_of_lt lt), fun _ _ => ⟨?_, ?_⟩⟩
  · refine .identity (ranged.keys_i128 low ranged.low_mem) (fun _ => ?_) (by omega) ?_ fun rid key => ?_
    · rw [show low + ((observe column).rows : Int) - 1 = high by omega]
      exact ranged.keys_i128 high ranged.high_mem
    · exact rows.trans_le (length_filterMap_le _ _)
    · rw [keysOf_getElem? full', rows]
      exact rising_filled rising ranged.between (by omega) rid key
  refine ranged.recorded rfl (by simp [KeyMap.span, filled]) fun base count same => ?_
  obtain ⟨-, rfl⟩ : low = base ∧ (observe column).rows = count := by simpa using same
  rfl

theorem high_i128 : IsI128 (low + ((high - low + 1).toNat : Int) - 1) := by
  have le := ranged.le
  rw [show low + ((high - low + 1).toNat : Int) - 1 = high by omega]
  exact ranged.keys_i128 high ranged.high_mem

section
variable (distinct : (observe column).distinct = true)
include distinct

theorem built_dense (order : (observe column).sorted = true)
    (full : (observe column).nulls = 0) (plan_eq : plan (observe column) = .ok (.dense low (high - low + 1).toNat)) :
    ∃ map, Built column map := by
  obtain ⟨bits, holds, built⟩ := build_dense distinct plan_eq ranged.inside
  obtain ⟨full', rising⟩ := positional distinct order full
  have once : (keysOf column).Nodup := rising.imp fun lt => Int.ne_of_lt lt
  have narrow := ranged.narrow
  have body : bits.finish = .dense low (high - low + 1).toNat bits.bits (Rank.build bits.bits) := by
    rw [DenseBits.finish, holds.base_eq, holds.range_eq]
  rw [body] at built
  refine ⟨_, built, (buildFrom_eq (by simp [plan_eq])).trans built, iff_of_true distinct once, fun _ few => ⟨?_, ?_⟩⟩
  · exact .dense (holds.marked once ranged.inside (by omega) (ranged.keys_i128 low ranged.low_mem) ranged.high_i128
      (few (.inl rfl))) full' (ne_nil_of_mem (mem_of_getElem? (mem_keysOf.mp ranged.low_mem).choose_spec))
      (ranks_of_rising holds full' rising ranged.inside)
  · exact ranged.recorded rfl (by simp [KeyMap.span]) (by simp)

theorem built_permuted
    (plan_eq : plan (observe column) = .ok (.permuted low (high - low + 1).toNat)) : ∃ map, Built column map := by
  have same := buildFrom_eq fun _ base range planned => by
    cases plan_eq.symm.trans planned
    exact ranged.inside
  by_cases once : (keysOf column).Nodup
  · obtain ⟨bits, holds, builds⟩ := (build_permuted distinct plan_eq ranged.inside).2 once
    have narrow := ranged.narrow
    obtain ⟨permutation, ridWidth, perm, placed, finished, fits⟩ := placed_fits holds once ranged.inside (by omega)
      (ranged.keys_i128 low ranged.low_mem) ranged.high_i128 ranged.short
    have built := builds permutation _ placed finished
    refine ⟨_, built, same.trans built, iff_of_true distinct once, fun _ few => ⟨fits (few (.inr rfl)), ?_⟩⟩
    exact ranged.recorded rfl (by simp [KeyMap.span]) (by simp)
  · have built := (build_permuted distinct plan_eq ranged.inside).1 once
    exact ⟨_, built, same.trans built, iff_of_false false_ne_true once, fun set => absurd set false_ne_true⟩

theorem built_sorted (plan_eq : plan (observe column) = .ok (.sorted low)) : ∃ map, Built column map := by
  obtain ⟨keyWidth, keys, ridWidth, perm, made, packed⟩ := sorted_eq ranged.short ranged.inside (observe column).rows
  have built := build_sorted distinct plan_eq made
  have narrow := ranged.narrow
  refine ⟨_, built, (buildFrom_eq (by simp [plan_eq])).trans built, apart_iff ranged.inside, fun apart_ _ => ⟨?_, ?_⟩⟩
  · rw [observed_rows]
    exact .sorted (ranged.keys_i128 low ranged.low_mem) ranged.keys_i128 (fun key member =>
      (ranged.between key member).1)
      (fun key member => by have := ranged.between key member; omega) apart_ packed
  · exact ranged.recorded rfl (by simp [KeyMap.span]) (by simp)

end

end Ranged

theorem exists_built (keys_i128 : ∀ key ∈ keysOf column, IsI128 key)
    (narrow : ∀ one ∈ keysOf column, ∀ other ∈ keysOf column, other - one + 1 < 2 ^ 64)
    (short : column.length < 2 ^ 58) :
    ∃ map, Built column map := by
  by_cases none_ : keysOf column = []
  · exact ⟨_, built_nothing none_⟩
  have saw := saw_fold column
  obtain ⟨low, high, ranged⟩ : ∃ low high, Ranged column low high := by
    obtain ⟨low, high, ends, low_mem, high_mem, between⟩ := saw.ends.exists_ends none_
    exact ⟨low, high, congrArg Prod.fst ends, congrArg Prod.snd ends, low_mem, high_mem, between, keys_i128,
      narrow low low_mem high high_mem, short⟩
  cases distinct : (observe column).distinct with
  | false =>
    have built := build_repeated distinct
    refine ⟨_, built, (buildFrom_eq (by simp [distinct])).trans built,
      iff_of_false (by rw [nothing, distinct]; exact false_ne_true) fun once => ?_,
      fun set => absurd (distinct.symm.trans set) false_ne_true⟩
    have chain : (observe column).distinct = true := saw.distinct.mpr once.isChain
    rw [distinct] at chain
    cases chain
  | true =>
    have plan_eq := ranged.plan_eq
    split at plan_eq
    · rename_i conditions
      simp only [and_eq_true, beq_iff_eq] at conditions
      exact ⟨_, ranged.built_identity distinct conditions.1.1.2 conditions.1.2 conditions.2 plan_eq⟩
    split at plan_eq
    · rename_i conditions
      simp only [and_eq_true, beq_iff_eq] at conditions
      exact ranged.built_dense distinct conditions.1.1.2 conditions.1.2 plan_eq
    · split at plan_eq
      · exact ranged.built_permuted distinct plan_eq
      · exact ranged.built_sorted distinct plan_eq

/-- What the header tells the reader of the body. -/
def headed (observed : Observed) (base : Int) : Observed :=
  { observed with min := if observed.rows > 0 then some base else none, max := none }

theorem decode_header {map : KeyMap} (low : IsI128 map.base) (rows : map.observed.rows < 2 ^ 64)
    (nulls : map.observed.nulls < 2 ^ 64) (typeTag : UInt8) (body : List UInt8) : decode (map.header typeTag ++ body) =
      (readBody map.form map.base (headed map.observed map.base) body).map (·, typeTag) := by
  generalize bytes_eq : map.header typeTag ++ body = bytes
  obtain ⟨last, last_eq⟩ : ∃ last, last = [UInt8.ofNat map.form.tag, typeTag, flagByte map.observed.distinct,
      flagByte map.observed.sorted, layout, 0, 0, 0] ++ body := ⟨_, rfl⟩
  have split : bytes = toBytes 16 (map.base % 2 ^ 128).toNat ++ (toBytes 8 map.observed.rows ++
      (toBytes 8 map.observed.nulls ++ last)) := by
    rw [← bytes_eq, header, last_eq]
    simp
  have first : read 16 0 bytes = (map.base % 2 ^ 128).toNat := by
    rw [split]
    refine read_front ?_ _
    omega
  have second : read 8 16 bytes = map.observed.rows := by
    rw [split]
    exact read_append (length_toBytes 16 _) rows _
  have third : read 8 24 bytes = map.observed.nulls := by
    rw [split, ← append_assoc]
    exact read_append (by simp) nulls _
  have front : bytes.drop 32 = last := by
    rw [split, ← append_assoc, ← append_assoc]
    exact drop_left' (by simp)
  have byte (index : Nat) : bytes.getD (32 + index) 0 = last.getD index 0 := by
    rw [getD_eq_getElem?_getD, ← getElem?_drop, front, ← getD_eq_getElem?_getD]
  have behind : bytes.drop headerBytes = body := by
    rw [show headerBytes = 32 + 8 from rfl, ← drop_drop, front, last_eq]
    rfl
  have long : ¬bytes.length < headerBytes := by
    simp only [split, last_eq, headerBytes, length_append, length_toBytes, length_cons, length_nil]
    omega
  rw [last_eq] at byte
  have base : Int.bmod ((map.base % 2 ^ 128).toNat : Int) (2 ^ 128) = map.base := by
    unfold IsI128 at low
    rw [Int.toNat_of_nonneg (Int.emod_nonneg _ (by decide))]
    refine (Int.emod_bmod map.base (2 ^ 128)).trans (Int.bmod_eq_of_le ?_ ?_)
    · omega
    · omega
  have form : Form.fromTag (bytes.getD 32 0).toNat = .ok map.form := by
    rw [byte 0]
    cases map.form <;> rfl
  have tag : bytes.getD 33 0 = typeTag := byte 1
  have distinct : flag (bytes.getD 34 0) = .ok map.observed.distinct := by
    rw [byte 2]
    cases map.observed.distinct <;> rfl
  have sorted : flag (bytes.getD 35 0) = .ok map.observed.sorted := by
    rw [byte 3]
    cases map.observed.sorted <;> rfl
  have version : bytes.getD 36 0 = layout := byte 4
  rw [decode, if_neg long]
  simp only [form, distinct, sorted, version, ne_eq, not_true_eq_false, if_false, first, second, third, base,
    behind, tag]
  rfl

/-- The maximum the reader works out is the one that was observed. -/
theorem largest_eq (fits : IsI128 key) (same : base + distance = key) (message : String) :
    largest base distance message = .ok (some key) := by
  rw [largest, checkedAdd, if_pos (same.symm ▸ fits), same]

/-- The words, the rank index and the range of a bitmap, read back. -/
theorem denseBytes_eq {bits : List Word} (marked : Marked column base range bits rank) (rest : List UInt8) :
    let body := denseBytes range bits rank ++ rest
    8 ≤ body.length ∧ read 8 0 body = range ∧ (body.drop 8).length = bits.length * 8 + rank.write.length + rest.length ∧
      readWords range (body.drop 8) = bits ∧ (body.drop 8).drop ((range + 63) / 64 * 8) = rank.write ++ rest := by
  have size := length_flatMap_words bits
  have split : denseBytes range bits rank ++ rest = toBytes 8 range ++
      (bits.flatMap (fun word => toBytes 8 word.toNat) ++ (rank.write ++ rest)) := by
    simp [denseBytes]
  have behind : (denseBytes range bits rank ++ rest).drop 8 =
      bits.flatMap (fun word => toBytes 8 word.toNat) ++ (rank.write ++ rest) := by
    rw [split]
    exact drop_left' (length_toBytes 8 range)
  refine ⟨?_, ?_, ?_, ?_, ?_⟩
  · rw [split, length_append, length_toBytes]
    omega
  · exact read_front marked.narrow _
  · rw [behind, length_append, length_append]
    omega
  · rw [behind, readWords, ← marked.length]
    exact numbers_words bits _
  · rw [behind, ← marked.length]
    exact drop_left' size

section stored
variable {map : KeyMap} (recorded : map.Recorded column)
include recorded

theorem Recorded.no_rows (none_ : ¬0 < map.observed.rows) : map.observed.min = none ∧ map.observed.max = none := by
  have keys : keysOf column = [] := length_eq_zero_iff.mp (recorded.rows.symm.trans (by omega))
  exact ⟨recorded.ends.fst_eq_none.mpr keys, recorded.ends.snd_eq_none.mpr keys⟩

/-- A map of the same body, with the observation that the header and the body give together. -/
theorem Recorded.map_eq {body : Body} (same : map.body = body) {max : Option Int} (top : map.observed.max = max) :
    ({ body, observed :=
      { rows := map.observed.rows, nulls := map.observed.nulls, distinct := map.observed.distinct
        sorted := map.observed.sorted, min := (headed map.observed map.base).min, max } } : KeyMap) = map := by
  have min : (headed map.observed map.base).min = map.observed.min := by
    unfold headed
    split
    · rename_i some_
      exact (recorded.low some_).symm
    · rename_i none_
      exact (recorded.no_rows none_).1.symm
  rw [min, ← same, ← top]

theorem Recorded.read_identity {count : Nat} (body : map.body = .identity map.base count)
    (high : 0 < count → IsI128 (map.base + count - 1)) :
    readBody map.form map.base (headed map.observed map.base) [] = .ok map := by
  have form : map.form = .identity := by rw [KeyMap.form, body]
  obtain rfl := recorded.count map.base count body
  have max : (if map.observed.rows > 0 then
      largest map.base (map.observed.rows - 1) "an identity key map's range overflows" else .ok none) =
      .ok map.observed.max := by
    by_cases some_ : 0 < map.observed.rows
    · rw [if_pos some_, (recorded.high map.base map.observed.rows (by rw [KeyMap.span, body]) some_).2]
      exact largest_eq (high some_) (by omega) _
    · rw [if_neg some_, (recorded.no_rows some_).2]
  rw [form]
  refine (congrArg (Except.map _) max).trans ?_
  exact congrArg Except.ok (recorded.map_eq body rfl)

theorem Recorded.read_dense {bits : List Word}
    (body : map.body = .dense map.base range bits rank) (marked : Marked column map.base range bits rank) :
    readBody map.form map.base (headed map.observed map.base) (denseBytes range bits rank) = .ok map := by
  have form : map.form = .dense := by rw [KeyMap.form, body]
  have top := (recorded.high map.base range (by rw [KeyMap.span, body]) (recorded.some_ (.inl form))).2
  obtain ⟨long, range_eq, length, words, behind⟩ := denseBytes_eq marked []
  rw [append_nil] at long range_eq length words behind
  rw [append_nil] at behind
  have size := marked.length
  rw [form]
  simp only [readBody, readDense, range_eq, words, behind]
  rw [if_neg (by omega), if_neg (by rw [length]; omega), marked.built, Rank.read_write]
  rw [largest_eq marked.high (by omega), ← marked.built]
  exact congrArg ok (recorded.map_eq body top)

theorem Recorded.read_permuted {bits : List Word}
    (body : map.body = .permuted map.base range bits rank ridWidth perm)
    (marked : Marked column map.base range bits rank)
    (positive : 0 < ridWidth) (le : ridWidth ≤ 64) (permLength : perm.length = tailLen (keysOf column).length ridWidth) :
    readBody map.form map.base (headed map.observed map.base) (denseBytes range bits rank ++
      UInt8.ofNat ridWidth :: perm) =
      .ok map := by
  have form : map.form = .permuted := by rw [KeyMap.form, body]
  have top := (recorded.high map.base range (by rw [KeyMap.span, body]) (recorded.some_ (.inr form))).2
  obtain ⟨long, range_eq, length, words, behind⟩ := denseBytes_eq marked (UInt8.ofNat ridWidth :: perm)
  have size := marked.length
  obtain ⟨blocks, superblocks⟩ := Rank.build_shape bits
  have shaped : rank.write.length = (Rank.shape ((range + 63) / 64)).2 * 4 + (Rank.shape ((range + 63) / 64)).1 * 2 := by
    rw [marked.built, Rank.write, length_append, length_flatMap_toBytes, length_flatMap_toBytes,
      blocks, superblocks, size]
  have width : (UInt8.ofNat ridWidth).toNat = ridWidth := UInt8.toNat_ofNat_of_lt' (by show ridWidth < 256; omega)
  have byte : ((denseBytes range bits rank ++ UInt8.ofNat ridWidth :: perm).drop 8).getD
      ((range + 63) / 64 * 8 + rank.write.length) 0 = UInt8.ofNat ridWidth := by
    rw [getD_eq_getElem?_getD, ← getElem?_drop, behind, getElem?_append_right le_rfl, Nat.sub_self]
    rfl
  have tail : ((denseBytes range bits rank ++ UInt8.ofNat ridWidth :: perm).drop 8).drop
      ((range + 63) / 64 * 8 + rank.write.length + 1) = perm := by
    rw [add_assoc, ← drop_drop, behind, ← drop_drop, drop_left' rfl]
    rfl
  rw [form]
  simp only [readBody, readPermuted, range_eq, words, ← shaped, behind, byte, width, tail]
  rw [if_neg (by omega), if_neg (by rw [length]; simp only [length_cons]; omega), take_left' rfl, marked.built,
    Rank.read_write]
  simp only [Except.bind]
  rw [if_neg (by omega), if_neg, largest_eq marked.high (by omega), ← marked.built]
  · exact congrArg Except.ok (recorded.map_eq body top)
  · rw [permLength, ← recorded.rows]
    exact fun differ => differ rfl

theorem Recorded.last_eq (above : ∀ key ∈ keysOf column, base ≤ key)
    (last : (inOrder base column).getLast? = some (place, rid)) :
    map.observed.max = some (base + place) ∧ base + (place : Int) ∈ keysOf column := by
  obtain ⟨key, found, same⟩ := mem_inOrder.mp (mem_of_getLast? last)
  have member := mem_keysOf.mpr ⟨rid, found⟩
  have ge := above key member
  obtain ⟨low, high, ends, low_mem, high_mem, between⟩ := recorded.ends.exists_ends (ne_nil_of_mem member)
  obtain ⟨rid', found'⟩ := mem_keysOf.mp high_mem
  have most := fst_le_last column (mem_inOrder.mpr ⟨high, found', rfl⟩ : ((high - base).toNat,
    rid') ∈ inOrder base column)
  rw [last, Option.elim_some] at most
  have le := (between key member).2
  have key_eq : base + (place : Int) = key := by omega
  refine ⟨(congrArg Prod.snd ends).trans (congrArg some ?_), key_eq ▸ member⟩
  omega

theorem Recorded.read_sorted {keys : List UInt8}
    (body : map.body = .sorted map.base keyWidth keys ridWidth perm (keysOf column).length)
    (keys_i128 : ∀ key ∈ keysOf column, IsI128 key) (above : ∀ key ∈ keysOf column, map.base ≤ key)
    (packed : Packed column map.base keyWidth keys ridWidth perm) :
    readBody map.form map.base (headed map.observed map.base)
      (UInt8.ofNat keyWidth :: UInt8.ofNat ridWidth :: (keys ++ perm)) = .ok map := by
  obtain ⟨keyPos, keyLe, ridPos, ridLe, keysLength, permLength, read⟩ := packed
  have form : map.form = .sorted := by rw [KeyMap.form, body]
  have keyWidth_eq : (UInt8.ofNat keyWidth).toNat = keyWidth := UInt8.toNat_ofNat_of_lt' (by show keyWidth < 256; omega)
  have ridWidth_eq : (UInt8.ofNat ridWidth).toNat = ridWidth := UInt8.toNat_ofNat_of_lt' (by show ridWidth < 256; omega)
  have rows : (headed map.observed map.base).rows = (keysOf column).length := recorded.rows
  have keysSize : ((keysOf column).length * keyWidth % 2 ^ 64 + 7) / 8 = keys.length := keysLength.symm
  have permSize : ((keysOf column).length * ridWidth % 2 ^ 64 + 7) / 8 = perm.length := permLength.symm
  have max : (if (keysOf column).length > 0 then
      (tailAt keys keyWidth ((keysOf column).length - 1)).bind fun last =>
        largest map.base last "a sorted key map's largest key overflows" else .ok none) = .ok map.observed.max := by
    by_cases some_ : 0 < (keysOf column).length
    · have inside : (keysOf column).length - 1 < (inOrder map.base column).length := by
        rw [length_inOrder]
        omega
      have last : (inOrder map.base column).getLast? = some (inOrder map.base column)[(keysOf column).length - 1] := by
        rw [getLast?_eq_getElem?, length_inOrder, getElem?_eq_getElem inside]
      obtain ⟨top, member⟩ := recorded.last_eq above last
      rw [if_pos some_, (read _ _ (getElem?_eq_getElem inside)).1, top]
      exact largest_eq (keys_i128 _ member) rfl _
    · rw [if_neg some_, (recorded.no_rows (recorded.rows ▸ some_)).2]
  rw [form]
  simp only [readBody, readSorted, getD_cons_zero, getD_cons_succ, keyWidth_eq, ridWidth_eq, rows, keysSize, permSize,
    drop_succ_cons, drop_zero, take_left' rfl, drop_left' rfl]
  rw [if_neg (by simp only [length_cons]; omega), if_neg (by omega),
    if_neg (by rw [length_append]; exact fun differ => differ rfl)]
  refine (congrArg (Except.map _) max).trans ?_
  rw [← recorded.rows] at body ⊢
  exact congrArg Except.ok (recorded.map_eq body rfl)

theorem Recorded.decode_encode (fits : Fits column map.body) (short : column.length < 2 ^ 58) (typeTag : UInt8) :
    ∃ bytes, map.encode typeTag = .ok bytes ∧ decode bytes = .ok (map, typeTag) := by
  have total := recorded.total
  have whole {body : List UInt8} (low : IsI128 map.base) (written : map.writeBody = .ok body)
      (read : readBody map.form map.base (headed map.observed map.base) body = .ok map) :
      ∃ bytes, map.encode typeTag = .ok bytes ∧ decode bytes = .ok (map, typeTag) := by
    refine ⟨map.header typeTag ++ body, by rw [encode, written]; rfl, ?_⟩
    rw [decode_header low (by omega) (by omega), read]
    rfl
  have narrow {width : Nat} (le : width ≤ 64) (message : String) : widthByte width message = .ok (UInt8.ofNat width) :=
    if_pos (by omega)
  obtain ⟨body, observed⟩ := map
  cases fits with
  | identity low high => exact whole low rfl (recorded.read_identity rfl high)
  | dense marked => exact whole marked.low rfl (recorded.read_dense rfl marked)
  | sorted low keys_i128 above near apart_ packed =>
    refine whole low ?_ (recorded.read_sorted rfl keys_i128 above packed)
    simp only [writeBody, narrow packed.keyWidth_le, narrow packed.ridWidth_le]
    rfl
  | permuted marked positive le length =>
    refine whole marked.low ?_ (recorded.read_permuted rfl marked positive le length)
    simp only [writeBody, narrow le]
    rfl

end stored

/-- A key map over a column whose keys span less than 2^64 values: both builds make it, it is distinct
when no key occurs twice, and then it resolves the column and is read back as it was written, while 32
bits count the keys of a bitmap. -/
theorem key_map_resolves {column : List (Option Int)} (keys_i128 : ∀ key ∈ keysOf column, IsI128 key)
    (narrow : ∀ one ∈ keysOf column, ∀ other ∈ keysOf column, other - one + 1 < 2 ^ 64)
    (short : column.length < 2 ^ 58) :
    ∃ map, build column = .ok map ∧ buildFrom column = .ok map ∧
      (map.observed.distinct = true ↔ (keysOf column).Nodup) ∧
      (map.observed.distinct = true → (map.form = .dense ∨ map.form = .permuted → (keysOf column).length < 2 ^ 32) →
        map.Resolves column ∧ ∀ typeTag, ∃ bytes, map.encode typeTag = .ok bytes ∧
          decode bytes = .ok (map, typeTag)) := by
  obtain ⟨map, built⟩ := exists_built keys_i128 narrow short
  refine ⟨map, built.build, built.buildFrom, built.distinct, fun distinct few => ?_⟩
  obtain ⟨fits, recorded⟩ := built.fits distinct few
  exact ⟨fits.resolves (built.distinct.mp distinct), recorded.decode_encode fits short⟩

/-- A column of each form, a null and a key out of order among them. -/
theorem key_map_resolves_few : (∃ map, build [some 5, some 6] = .ok map ∧ buildFrom [some 5, some 6] = .ok map ∧
      (map.observed.distinct = true ↔ (keysOf [some 5, some 6]).Nodup) ∧
      (map.observed.distinct = true → (map.form = .dense ∨ map.form = .permuted →
        (keysOf [some 5, some 6]).length < 2 ^ 32) →
        map.Resolves [some 5, some 6] ∧
          ∀ typeTag, ∃ bytes, map.encode typeTag = .ok bytes ∧ decode bytes = .ok (map, typeTag))) ∧
    ∃ map, build [some 9, none, some 3] = .ok map ∧ buildFrom [some 9, none, some 3] = .ok map ∧
      (map.observed.distinct = true ↔ (keysOf [some 9, none, some 3]).Nodup) ∧ (map.observed.distinct = true →
        (map.form = .dense ∨ map.form = .permuted → (keysOf [some 9, none, some 3]).length < 2 ^ 32) →
        map.Resolves [some 9, none, some 3] ∧
          ∀ typeTag, ∃ bytes, map.encode typeTag = .ok bytes ∧ decode bytes = .ok (map, typeTag)) :=
  ⟨key_map_resolves (by decide) (by decide) (by decide), key_map_resolves (by decide) (by decide) (by decide)⟩

/-- The numbers below a count and one more, after a gap. -/
def gapped (count : Nat) : List (Option Int) :=
  (List.range count).map (fun (key : Nat) => some (key : Int)) ++ [some ((count : Int) + 1)]

theorem keysOf_gapped (count : Nat) :
    keysOf (gapped count) = (List.range count).map (fun (key : Nat) => (key : Int)) ++ [(count : Int) + 1] := by
  simp [keysOf, gapped, filterMap_append, filterMap_map]

theorem mem_gapped {count : Nat} :
    key ∈ keysOf (gapped count) ↔ (0 ≤ key ∧ key < count) ∨ key = count + 1 := by
  rw [keysOf_gapped, mem_append, mem_map, mem_singleton]
  refine or_congr_left ⟨?_, fun inside => ⟨key.toNat, by rw [mem_range]; omega, by omega⟩⟩
  rintro ⟨place, member, rfl⟩
  have := mem_range.mp member
  omega

theorem rising_gapped (count : Nat) : (keysOf (gapped count)).Pairwise (· < ·) := by
  rw [keysOf_gapped, pairwise_append, pairwise_map]
  refine ⟨pairwise_lt_range.imp fun lt => by omega, pairwise_singleton _ _, fun one member other member' => ?_⟩
  obtain ⟨place, inside, rfl⟩ := mem_map.mp member
  have := mem_range.mp inside
  rw [mem_singleton.mp member']
  omega

/-- Where the count before the last word wraps to zero, the last key resolves to the first row. -/
theorem lookup_wraps {count : Nat} (positive : 0 < count) (short : count < 2 ^ 57) (wraps : count % 2 ^ 32 = 0) :
    ∃ map, build (gapped count) = .ok map ∧ map.lookup (count + 1) = .ok (some 0) := by
  have saw := saw_fold (gapped count)
  have length : (gapped count).length = count + 1 := by simp [gapped]
  have keys : (keysOf (gapped count)).length = count + 1 := by simp [keysOf_gapped]
  have rows : (observe (gapped count)).rows = count + 1 := saw.rows.trans keys
  have nulls : (observe (gapped count)).nulls = 0 := by
    have total : (observe (gapped count)).rows + (observe (gapped count)).nulls = (gapped count).length := saw.total
    omega
  have rising := rising_gapped count
  have distinct : (observe (gapped count)).distinct = true :=
    saw.distinct.mpr (rising.imp fun lt => Int.ne_of_lt lt).isChain
  have order : (observe (gapped count)).sorted = true := saw.sorted.mpr (rising.imp fun lt => Int.le_of_lt lt).isChain
  obtain ⟨low, high, ends, low_mem, high_mem, between⟩ := saw.ends.exists_ends
    (ne_nil_of_mem (mem_gapped.mpr (.inr rfl)))
  have first := (between 0 (mem_gapped.mpr (.inl (by omega)))).1
  have last := (between ((count : Int) + 1) (mem_gapped.mpr (.inr rfl))).2
  obtain rfl : low = 0 := by have := mem_gapped.mp low_mem; omega
  obtain rfl : high = count + 1 := by have := mem_gapped.mp high_mem; omega
  have ranged : Ranged (gapped count) 0 (count + 1) :=
    ⟨congrArg Prod.fst ends, congrArg Prod.snd ends, low_mem, high_mem, between, fun key member => by
      have := mem_gapped.mp member
      unfold IsI128
      omega, by omega, by omega⟩
  have range : ((count : Int) + 1 - 0 + 1).toNat = count + 2 := by omega
  have plan_eq : plan (observe (gapped count)) = .ok (.dense 0 (count + 2)) := by
    have one : (count + 2) / (count + 1) < denseThreshold := by
      rw [denseThreshold, Nat.div_lt_iff_lt_mul (by omega)]
      omega
    rw [ranged.plan_eq, distinct, order, nulls, rows, range]
    simp [one]
  have inside := ranged.inside
  obtain ⟨bits, holds, built⟩ := build_dense distinct plan_eq inside
  refine ⟨_, built, ?_⟩
  have size := holds.length
  have set : bit bits.bits (count + 1) = true := (holds.bit_iff _).mpr (mem_gapped.mpr (.inr (by push_cast; omega)))
  have gap : bit bits.bits count = false := eq_false_iff.mpr fun set => by
    have := mem_gapped.mp ((holds.bit_iff count).mp set)
    omega
  have all : tally (bit bits.bits) count = count := by
    rw [tally_congr (q := fun _ => true) fun place lt => (holds.bit_iff place).mpr (mem_gapped.mpr (.inl (by omega)))]
    exact (Nat.count_eq_card_filter_range _ _).trans (by simp)
  have rank : (Rank.build bits.bits).rank bits.bits (count + 1) = 0 := by
    have here : bit bits.bits (64 * (count / 64) + 0) = (bits.bits.getD (count / 64) 0).getLsbD 0 := bit_add (by decide)
    have word : 64 * (count / 64) = count := by omega
    rw [Rank.rank_wraps rfl (by omega), show (count + 1) / 64 = count / 64 by omega,
      show (count + 1) % 64 = 1 by omega, ahead,
      word, all, wraps, tally_succ, tally_zero, ← here, word, add_zero, gap]
    rfl
  have place : offset ((count : Int) + 1) 0 = some (count + 1) := by
    rw [offset_eq (by omega) (by omega)]
    congr 1
  simp only [lookup, DenseBits.finish]
  rw [holds.base_eq, holds.range_eq, place]
  simp only [ranked]
  rw [if_neg (by omega), if_pos set, rank]
  rfl

/-- Keys 0 to 2^32 - 1 and then 2^32 + 1: the last, in row 2^32, resolves to row 0. -/
theorem many_keys_lost : ∃ map, build (gapped (2 ^ 32)) = .ok map ∧ map.lookup (2 ^ 32 + 1) = .ok (some 0) ∧
      (gapped (2 ^ 32))[2 ^ 32]? = some (some (2 ^ 32 + 1)) := by
  obtain ⟨map, built, answer⟩ := lookup_wraps (show 0 < 2 ^ 32 by decide) (by decide) (by decide)
  refine ⟨map, built, answer, ?_⟩
  rw [gapped]
  simp

end Rudb.Graph.KeyMap
