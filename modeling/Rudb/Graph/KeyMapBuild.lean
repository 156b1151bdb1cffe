import Mathlib.Data.List.Chain
import Rudb.Graph.KeyMap
import Rudb.Graph.LinkAnswers
import Rudb.Lib.Extremes

/-! What a build sees of a column, and what it marks and places for it. -/
namespace Rudb.Graph.KeyMap
open Rudb.Lib Rudb.Encoding List Option Bool Prod

variable {column : List (Option Int)}

abbrev keysOf (column : List (Option Int)) : List Int := column.filterMap id

/-- What the observer says after a column. -/
structure Observer.Saw (observer : Observer) (column : List (Option Int)) : Prop where
  rows : observer.observed.rows = (keysOf column).length
  total : observer.observed.rows + observer.observed.nulls = column.length
  distinct : observer.observed.distinct = true ↔ (keysOf column).IsChain (· ≠ ·)
  sorted : observer.observed.sorted = true ↔ (keysOf column).IsChain (· ≤ ·)
  ends : Extremes.Of (keysOf column) (observer.observed.min, observer.observed.max)
  previous : observer.previous = (keysOf column).getLast?

/-- One more key goes on a chain when it follows from the last. -/
theorem isChain_concat (keys : List Int) (key : Int) :
    (keys ++ [key]).IsChain r ↔ keys.IsChain r ∧ ∀ last ∈ keys.getLast?, r last key := by
  simp [isChain_append]

/-- A key pushed changes each flag by its own comparison with the key before. -/
theorem Observer.push_some (observer : Observer) (key : Int) :
    observer.push (some key) =
      { observed :=
          { rows := observer.observed.rows + 1, nulls := observer.observed.nulls
            distinct := observer.observed.distinct && decide (∀ last ∈ observer.previous, last ≠ key)
            sorted := observer.observed.sorted && decide (∀ last ∈ observer.previous, last ≤ key)
            min := (Extremes.open_ (observer.observed.min, observer.observed.max) key).1
            max := (Extremes.open_ (observer.observed.min, observer.observed.max) key).2 }
        previous := some key } := by
  have low : some (observer.observed.min.elim key (Min.min · key)) =
      (Extremes.open_ (observer.observed.min, observer.observed.max) key).1 := by
    cases observer.observed.min with
    | none => rfl
    | some held =>
      simp only [Extremes.open_, Option.elim, Option.some.injEq]
      split <;> omega
  have high : some (observer.observed.max.elim key (Max.max · key)) =
      (Extremes.open_ (observer.observed.min, observer.observed.max) key).2 := by
    cases observer.observed.max with
    | none => rfl
    | some held =>
      simp only [Extremes.open_, Option.elim, Option.some.injEq]
      split <;> omega
  simp only [Observer.push, low, high]
  cases observer.previous with
  | none => simp
  | some last =>
    dsimp only
    split
    · have differ : last ≠ key := by omega
      have above : ¬last ≤ key := by omega
      simp [differ, above]
    split
    · rename_i equal
      simp [equal]
    rename_i above differ
    have differ' : last ≠ key := fun equal => differ equal.symm
    have below : last ≤ key := by omega
    simp [differ', below]

theorem Observer.Saw.push {observer : Observer} (saw : observer.Saw column) (key : Option Int) :
    (observer.push key).Saw (column ++ [key]) := by
  obtain ⟨rows, total, distinct, sorted, ends, previous⟩ := saw
  cases key with
  | none =>
    have keys : keysOf (column ++ [none]) = keysOf column := by simp [keysOf]
    rw [← keys] at rows distinct sorted ends previous
    refine ⟨rows, ?_, distinct, sorted, ends, previous⟩
    rw [length_append, ← total]
    rfl
  | some key =>
    have keys : keysOf (column ++ [some key]) = keysOf column ++ [key] := by simp [keysOf]
    rw [Observer.push_some]
    refine ⟨?_, ?_, ?_, ?_, ?_, ?_⟩
    · rw [keys, length_append, ← rows]
      rfl
    · rw [length_append, length_singleton]
      dsimp only
      omega
    · rw [keys, isChain_concat, ← previous, ← distinct, and_eq_true, decide_eq_true_iff]
    · rw [keys, isChain_concat, ← previous, ← sorted, and_eq_true, decide_eq_true_iff]
    · rw [keys]
      exact ends.snoc key
    · rw [keys, getLast?_concat]

theorem saw_fold (column : List (Option Int)) : (column.foldl Observer.push Observer.new).Saw column := by
  induction column using reverseRecOn with
  | nil => exact ⟨rfl, rfl, by simp [Observer.new], by simp [Observer.new], .none, rfl⟩
  | append_singleton column key ih =>
    rw [foldl_append]
    exact ih.push key

theorem rangeOf_eq (le : low ≤ high) (narrow : high - low + 1 < 2 ^ 64) :
    rangeOf low high = .ok (high - low + 1).toNat := by
  rw [rangeOf, if_pos (by omega)]
  congr 1
  omega

section
variable {key base : Int} (ge : base ≤ key) (near : key - base < 2 ^ 64)
include ge near

theorem offset_eq : offset key base = some (key - base).toNat := by
  rw [offset, checkedSub, if_pos (by unfold IsI128; omega), bind_some, toU64, if_pos (by omega)]

theorem offsetOf_eq : offsetOf key base = .ok (key - base).toNat := by
  have whole : toU64 (key - base) = some (key - base).toNat := if_pos (by omega)
  rw [offsetOf, checkedSub, if_pos (by unfold IsI128; omega)]
  simp only [whole]

end

/-- A bitmap over a range that has the keys so far. -/
structure DenseBits.Holds (dense : DenseBits) (base : Int) (range : Nat) (keys : List Int) : Prop where
  base_eq : dense.base = base
  range_eq : dense.range = range
  length : dense.bits.length = (range + 63) / 64
  bit_iff : ∀ place, bit dense.bits place = true ↔ base + (place : Int) ∈ keys

/-- A key that a range of less than 2^64 values from the base covers. -/
def Inside (base : Int) (range : Nat) (key : Int) : Prop := range < 2 ^ 64 ∧ base ≤ key ∧ key < base + range

theorem Inside.offsetOf {base : Int} {range : Nat} (inside : Inside base range key) :
    offsetOf key base = .ok (key - base).toNat :=
  offsetOf_eq inside.2.1 (by have := inside.1; have := inside.2.2; omega)

variable {base : Int} {range : Nat} {keys : List Int}

theorem holds_new (base : Int) (range : Nat) : (DenseBits.new base range).Holds base range [] := by
  refine ⟨rfl, rfl, length_replicate, fun place => ?_⟩
  rw [DenseBits.new, bit_replicate]
  simp

theorem scan_keys (step : σ → Int → Except String σ) (column : List (Option Int)) (state : σ) :
    scan (fun state key => key.elim (.ok state) (step state)) column state = (keysOf column).foldlM step state := by
  induction column generalizing state with
  | nil => rfl
  | cons key rest ih =>
    cases key with
    | none => exact ih state
    | some key => exact congrArg (Except.bind _) (funext ih)

section
variable {dense : DenseBits} (holds : dense.Holds base range keys)
include holds

theorem DenseBits.Holds.setBit (inside : Inside base range key) :
    DenseBits.Holds { dense with bits := Graph.setBit dense.bits (key - base).toNat } base range (keys ++ [key]) := by
  obtain ⟨base_eq, range_eq, length, bit_iff⟩ := holds
  obtain ⟨small, ge, lt⟩ := inside
  refine ⟨base_eq, range_eq, by rw [setBit_length, length], fun place => ?_⟩
  rw [setBit_bit (by omega), or_eq_true, bit_iff, decide_eq_true_iff, mem_append, mem_singleton]
  exact or_congr_right ⟨fun here => by omega, fun here => by omega⟩

theorem scan_push (column : List (Option Int)) (inside : ∀ key ∈ keysOf column, Inside base range key) :
    ∃ dense', scan (fun dense key => key.elim (.ok dense) dense.push) column dense = .ok dense' ∧
      dense'.Holds base range (keys ++ keysOf column) := by
  rw [scan_keys]
  generalize keysOf column = more at inside ⊢
  induction more generalizing dense keys with
  | nil => exact ⟨dense, rfl, by simpa using holds⟩
  | cons key more ih =>
    rw [forall_mem_cons] at inside
    obtain ⟨dense', run, holds'⟩ := ih (holds.setBit inside.1) inside.2
    refine ⟨dense', ?_, by simpa using holds'⟩
    rw [holds.base_eq] at run
    rw [foldlM_cons, DenseBits.push, holds.base_eq, inside.1.offsetOf]
    exact run

theorem DenseBits.Holds.mark (inside : Inside base range key) :
    ∃ dense', dense.mark key = .ok (dense', decide (key ∉ keys)) ∧ dense'.Holds base range (keys ++ [key]) := by
  refine ⟨_, ?_, holds.setBit inside⟩
  have fresh : (!bit dense.bits (key - base).toNat) = decide (key ∉ keys) := by
    have ge := inside.2.1
    rw [Bool.eq_iff_iff, Bool.not_eq_true', ← Bool.not_eq_true, holds.bit_iff, decide_eq_true_iff]
    exact not_congr (iff_of_eq (congrArg (· ∈ keys) (by omega)))
  rw [DenseBits.mark, holds.base_eq, inside.offsetOf]
  exact congrArg Except.ok (Prod.ext rfl fresh)

/-- Marking until a repeat ends fresh when no key repeats. -/
theorem markUntil_eq (once : keys.Nodup) (inside : ∀ key ∈ more, Inside base range key) :
    ∃ dense' fresh, markUntil dense more = .ok (dense', fresh) ∧ (fresh = true ↔ (keys ++ more).Nodup) ∧
      (fresh = true → dense'.Holds base range (keys ++ more)) := by
  induction more generalizing dense keys with
  | nil => exact ⟨dense, true, rfl, by simpa using once, fun _ => by simpa using holds⟩
  | cons key more ih =>
    rw [forall_mem_cons] at inside
    obtain ⟨dense', marked, holds'⟩ := holds.mark inside.1
    rw [markUntil, marked]
    by_cases fresh : key ∈ keys
    · refine ⟨dense', false, by simp [Except.bind, fresh], ?_, by simp⟩
      simp only [false_eq_true, false_iff]
      intro nodup
      exact disjoint_of_nodup_append nodup fresh mem_cons_self
    have once' : (keys ++ [key]).Nodup := concat_eq_append ▸ once.concat fresh
    obtain ⟨dense'', fresh', run, iff, holds''⟩ := ih holds' once' inside.2
    rw [append_assoc] at iff holds''
    exact ⟨dense'', fresh', by simpa [Except.bind, fresh] using run, iff, holds''⟩

end

theorem DenseBits.Holds.unique {other : DenseBits} (holds : one.Holds base range keys)
    (holds' : other.Holds base range keys) : one = other := by
  obtain ⟨base_eq, range_eq, length, bit_iff⟩ := holds
  obtain ⟨base_eq', range_eq', length', bit_iff'⟩ := holds'
  have bits : one.bits = other.bits := words_ext (by omega) fun place => by
    rw [Bool.eq_iff_iff, bit_iff, bit_iff']
  cases one
  cases other
  simp_all

/-- The scan that marks sees a repeat when some key repeats. -/
theorem scan_markRow {dense : DenseBits} (holds : dense.Holds base range keys)
    (seen : repeated = true ↔ ¬keys.Nodup) (column : List (Option Int))
    (inside : ∀ key ∈ keysOf column, Inside base range key) :
    ∃ dense' repeated', scan markRow column (dense, repeated) = .ok (dense', repeated') ∧
      dense'.Holds base range (keys ++ keysOf column) ∧ (repeated' = true ↔ ¬(keys ++ keysOf column).Nodup) := by
  unfold markRow
  rw [scan_keys fun (state : DenseBits × Bool) key => (state.1.mark key).map fun marked =>
    (marked.1, state.2 || !marked.2)]
  generalize keysOf column = more at inside ⊢
  induction more generalizing dense repeated keys with
  | nil => exact ⟨dense, repeated, rfl, by simpa using holds, by simpa using seen⟩
  | cons key more ih =>
    rw [forall_mem_cons] at inside
    obtain ⟨dense', marked, holds'⟩ := holds.mark inside.1
    have seen' : (repeated || !decide (key ∉ keys)) = true ↔ ¬(keys ++ [key]).Nodup := by
      rw [or_eq_true, seen, nodup_append]
      by_cases member : key ∈ keys <;> simp [member]
    obtain ⟨dense'', repeated', run, holds'', seen''⟩ := ih holds' seen' inside.2
    rw [foldlM_cons, marked]
    exact ⟨dense'', repeated', run, by simpa using holds'', by simpa using seen''⟩

/-- The scan that places is the placing of a held column. -/
theorem scan_placeRow (column : List (Option Int)) (permutation : Permutation) (rid : Nat) :
    scan placeRow column (permutation, rid) = (placeAll permutation rid column).map (·, rid + column.length) := by
  induction column generalizing permutation rid with
  | nil => rfl
  | cons key rest ih =>
    have count : rid + 1 + rest.length = rid + (key :: rest).length := by
      rw [length_cons]
      omega
    cases key with
    | none =>
      rw [← count]
      exact ih permutation (rid + 1)
    | some key =>
      rw [scan, placeAll, placeRow, elim_some]
      cases permutation.place key rid with
      | error error => rfl
      | ok permutation =>
        rw [← count]
        exact ih permutation (rid + 1)

def Permutation.spot (permutation : Permutation) (key : Int) : Nat :=
  permutation.rank.rank permutation.bits (key - permutation.base).toNat

structure Permutation.Places (permutation : Permutation) (first : Nat) (column : List (Option Int)) (places : List Nat) :
    Prop where
  length : places.length = permutation.places.length
  known : ∀ rid ∈ places, rid ∈ permutation.places ∨ rid < first + column.length
  others : ∀ place, (∀ key ∈ keysOf column, permutation.spot key ≠ place) → places[place]? = permutation.places[place]?
  placed : (keysOf column).Nodup → (∀ one ∈ keysOf column, ∀ other ∈ keysOf column,
    permutation.spot one = permutation.spot other → one = other) →
    ∀ index key, column[index]? = some (some key) → places[permutation.spot key]? = some (first + index)

theorem placeAll_eq (column : List (Option Int)) (permutation : Permutation) (first : Nat)
    (inside : ∀ key ∈ keysOf column, Inside permutation.base range key)
    (room : ∀ key ∈ keysOf column, permutation.spot key < permutation.places.length) :
    ∃ places, placeAll permutation first column = .ok { permutation with places } ∧
      permutation.Places first column places := by
  induction column generalizing permutation first with
  | nil => exact ⟨permutation.places, rfl, rfl, fun rid member => .inl member, fun _ _ => rfl, by simp⟩
  | cons key rest ih =>
    cases key with
    | none =>
      obtain ⟨places, run, length, known, others, placed⟩ := ih permutation (first + 1) inside room
      refine ⟨places, run, length, fun rid member => (known rid member).imp_right fun lt => ?_, others,
        fun once apart index key found => ?_⟩
      · rw [length_cons]
        omega
      cases index with
      | zero => simp at found
      | succ index =>
        rw [placed once apart index key found]
        congr 1
        omega
    | some key =>
      have here := room key mem_cons_self
      have step : permutation.place key first =
          .ok { permutation with places := permutation.places.set (permutation.spot key) first } := by
        rw [Permutation.place, (inside key mem_cons_self).offsetOf]
        exact if_pos here
      obtain ⟨places, run, length, known, others, placed⟩ :=
        ih { permutation with places := permutation.places.set (permutation.spot key) first } (first + 1)
          (fun key member => inside key (mem_cons_of_mem _ member))
          fun key member => by
            rw [length_set]
            exact room key (mem_cons_of_mem _ member)
      refine ⟨places, ?_, ?_, fun rid member => ?_, fun place none_ => ?_, fun once apart index key' found => ?_⟩
      · rw [placeAll, step]
        exact run
      · rw [length, length_set]
      · rw [length_cons]
        rcases known rid member with old | lt
        · rcases mem_or_eq_of_mem_set old with old | rfl
          · exact .inl old
          · exact .inr (by omega)
        · exact .inr (by omega)
      · rw [others place fun key member => none_ key (mem_cons_of_mem _ member),
          getElem?_set_ne (none_ key mem_cons_self)]
      · have once' := nodup_cons.mp once
        cases index with
        | zero =>
          obtain rfl : key = key' := by simpa using found
          have untouched : ∀ other ∈ keysOf rest, permutation.spot other ≠ permutation.spot key :=
            fun other member same => by
            have equal := apart other (mem_cons_of_mem _ member) key mem_cons_self same
            exact once'.1 (equal ▸ member)
          have kept := others (permutation.spot key) untouched
          rw [kept, getElem?_set_self here]
          rfl
        | succ index =>
          have later := placed once'.2 (fun one member other member' => apart one (mem_cons_of_mem _ member) other
            (mem_cons_of_mem _ member')) index key' found
          refine later.trans ?_
          congr 1
          omega

def pairsOf (base : Int) (first : Nat) (column : List (Option Int)) : List (Nat × Nat) :=
  (column.zipIdx first).filterMap fun row => row.1.map fun key => ((key - base).toNat, row.2)

theorem pairs_eq (column : List (Option Int)) (first : Nat) (inside : ∀ key ∈ keysOf column, Inside base range key) :
    pairs base first column = .ok (pairsOf base first column) := by
  induction column generalizing first with
  | nil => rfl
  | cons key rest ih =>
    cases key with
    | none => exact ih (first + 1) inside
    | some key =>
      rw [pairs, (inside key (by simp [keysOf])).offsetOf, ih (first + 1) fun key member => inside key (by
        simpa [keysOf] using Or.inr member)]
      simp [pairsOf, Except.bind, Except.map]

theorem mem_pairsOf :
    (place, rid) ∈ pairsOf base 0 column ↔ ∃ key, column[rid]? = some (some key) ∧ (key - base).toNat = place := by
  simp only [pairsOf, mem_filterMap, mem_zipIdx_iff_getElem?, map_eq_some_iff, Prod.mk.injEq]
  constructor
  · rintro ⟨⟨key?, rid'⟩, found, key, rfl, same, rfl⟩
    exact ⟨key, found, same⟩
  · rintro ⟨key, found, same⟩
    exact ⟨(some key, rid), found, key, rfl, same, rfl⟩

theorem fst_pairsOf (column : List (Option Int)) (first : Nat) :
    (pairsOf base first column).map fst = (keysOf column).map fun key => (key - base).toNat := by
  induction column generalizing first with
  | nil => rfl
  | cons key rest ih =>
    have tail := ih (first + 1)
    cases key with
    | none | some key => simpa [pairsOf, keysOf] using tail

instance : Std.Total pairLe := ⟨fun one other => by unfold pairLe; omega⟩

instance : IsTrans (Nat × Nat) pairLe := ⟨fun one other third => by unfold pairLe; omega⟩

def inOrder (base : Int) (column : List (Option Int)) : List (Nat × Nat) := (pairsOf base 0 column).insertionSort pairLe

theorem mem_inOrder :
    (place, rid) ∈ inOrder base column ↔ ∃ key, column[rid]? = some (some key) ∧ (key - base).toNat = place := by
  rw [inOrder, (perm_insertionSort pairLe _).mem_iff, mem_pairsOf]

theorem length_inOrder (column : List (Option Int)) : (inOrder base column).length = (keysOf column).length := by
  rw [inOrder]
  simpa using congrArg length (@fst_pairsOf base column 0)

theorem rising_inOrder (apart_ : apart (inOrder base column) = true) :
    ((inOrder base column).map fst).Pairwise (· < ·) := by
  have order : (inOrder base column).Pairwise pairLe := pairwise_insertionSort pairLe _
  have differ := of_decide_eq_true apart_
  rw [pairwise_map, ← @isChain_iff_pairwise _ fun one other : Nat × Nat => one.1 < other.1, isChain_iff_getElem]
  intro index lt
  have le := (isChain_iff_getElem.mp order.isChain) index lt
  have ne := (isChain_iff_getElem.mp differ) index lt
  unfold pairLe at le
  omega

theorem apart_iff (inside : ∀ key ∈ keysOf column, Inside base range key) :
    apart (inOrder base column) = true ↔ (keysOf column).Nodup := by
  have firsts : ((inOrder base column).map fst).Perm ((keysOf column).map fun key => (key - base).toNat) := by
    rw [← fst_pairsOf column 0]
    exact (perm_insertionSort pairLe _).map fst
  have injective : ((keysOf column).map fun key => (key - base).toNat).Nodup ↔ (keysOf column).Nodup := by
    refine ⟨fun once => List.Nodup.of_map _ once, fun once => once.map_on fun one member other member' same => ?_⟩
    have above := (inside one member).2.1
    have above' := (inside other member').2.1
    omega
  rw [← injective, ← firsts.nodup_iff]
  constructor
  · intro apart_
    exact (rising_inOrder apart_).imp fun lt => lt.ne
  · intro once
    refine decide_eq_true ?_
    exact (pairwise_map.mp once).isChain

theorem fst_le_last (column : List (Option Int)) (member : pair ∈ inOrder base column) :
    pair.1 ≤ (inOrder base column).getLast?.elim 0 fst := by
  have order : (inOrder base column).Pairwise pairLe := pairwise_insertionSort pairLe _
  cases ending : (inOrder base column).getLast? with
  | none => rw [getLast?_eq_none_iff.mp ending] at member; cases member
  | some last =>
    obtain ⟨front, split⟩ := getLast?_eq_some_iff.mp ending
    rw [split] at order member
    rcases mem_append.mp member with here | here
    · have le := (pairwise_append.mp order).2.2 pair here last (mem_singleton_self last)
      unfold pairLe at le
      simp only [elim_some]
      omega
    · rw [mem_singleton.mp here]
      exact le_rfl

/-- The keys and rows of the sorted form, packed and read back where they lie. -/
structure Packed (column : List (Option Int)) (base : Int) (keyWidth : Nat) (keys : List UInt8) (ridWidth : Nat)
    (perm : List UInt8) : Prop where
  keyWidth_pos : 0 < keyWidth
  keyWidth_le : keyWidth ≤ 64
  ridWidth_pos : 0 < ridWidth
  ridWidth_le : ridWidth ≤ 64
  keys_length : keys.length = tailLen (keysOf column).length keyWidth
  perm_length : perm.length = tailLen (keysOf column).length ridWidth
  read : ∀ (index : Nat) pair, (inOrder base column)[index]? = some pair →
    tailAt keys keyWidth index = .ok pair.1 ∧ tailAt perm ridWidth index = .ok pair.2

theorem sorted_eq (short : column.length < 2 ^ 58) (inside : ∀ key ∈ keysOf column, Inside base range key) (rows : Nat) :
    ∃ keyWidth keys ridWidth perm, sorted column base rows =
        .ok (.sorted base keyWidth keys ridWidth perm rows, apart (inOrder base column)) ∧
      Packed column base keyWidth keys ridWidth perm := by
  have count : (inOrder base column).length < 2 ^ 58 := by
    rw [length_inOrder]
    exact (length_filterMap_le _ _).trans_lt short
  have room (width : Nat) (le : width ≤ 64) : (inOrder base column).length * width < 2 ^ 64 := by
    have := Nat.mul_le_mul_left (inOrder base column).length le
    omega
  have lastSmall : (inOrder base column).getLast?.elim 0 fst < 2 ^ 64 := by
    cases ending : (inOrder base column).getLast? with
    | none => exact Nat.two_pow_pos 64
    | some last =>
      obtain ⟨key, found, same⟩ := mem_inOrder.mp (show (last.1, last.2) ∈ inOrder base column from
        mem_of_getLast? ending)
      obtain ⟨small, ge, lt⟩ := inside key (mem_filterMap.mpr ⟨some key, mem_of_getElem? found, rfl⟩)
      simp only [elim_some]
      omega
  have keysFit : ∀ value ∈ (inOrder base column).map fst,
      value < 2 ^ Graph.widthFor ((inOrder base column).getLast?.elim 0 fst) := fun value member => by
    obtain ⟨pair, here, rfl⟩ := mem_map.mp member
    exact (fst_le_last column here).trans_lt (lt_widthFor _)
  have ridsFit : ∀ value ∈ (inOrder base column).map snd, value < 2 ^ Graph.widthFor (column.length - 1) :=
    fun value member => by
      obtain ⟨⟨place, rid⟩, here, rfl⟩ := mem_map.mp member
      obtain ⟨key, found, same⟩ := mem_inOrder.mp here
      obtain ⟨lt, same'⟩ := List.getElem?_eq_some_iff.mp found
      exact Nat.lt_of_le_of_lt (by omega) (lt_widthFor _)
  have ridsSmall : column.length - 1 < 2 ^ 64 := by omega
  obtain ⟨keys, packed, keysLength, keysRead⟩ := tailAt_packLinear (widthFor_pos _) (widthFor_le lastSmall) keysFit
    (by rw [length_map]; exact room _ (widthFor_le lastSmall))
  obtain ⟨perm, packed', permLength, permRead⟩ := tailAt_packLinear (widthFor_pos _) (widthFor_le ridsSmall) ridsFit
    (by rw [length_map]; exact room _ (widthFor_le ridsSmall))
  refine ⟨_, keys, _, perm, ?_, widthFor_pos _, widthFor_le lastSmall, widthFor_pos _, widthFor_le ridsSmall, ?_, ?_,
    fun index pair found => ⟨keysRead index pair.1 ?_, permRead index pair.2 ?_⟩⟩
  · rw [sorted, pairs_eq column 0 inside]
    simp only [Except.bind, widthFor, show (pairsOf base 0 column).insertionSort pairLe = inOrder base column from rfl,
      packed, packed', Except.map]
  · rw [keysLength, length_map, length_inOrder]
  · rw [permLength, length_map, length_inOrder]
  · rw [getElem?_map, found]
    rfl
  · rw [getElem?_map, found]
    rfl

end Rudb.Graph.KeyMap
