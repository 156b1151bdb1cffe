import Mathlib
import Rudb.Exec.RecursiveProofs

/-! A recursion with a key keeps one row for each key: the key as it was first made, the last row for the
other columns, and the aggregates over every row that was ever made for it. The next round reads the rows
that are not what they were. -/
namespace Rudb.Exec
open Rudb.Common Lib List Prod

section Cells
variable {Value State : Type}

theorem length_replaceFrom (columns : List Nat) (row kept : List Value) (start : Nat) :
    ((row.zipIdx start).foldl
      (fun kept cell => if columns.contains cell.2 then kept else kept.set cell.2 cell.1) kept).length =
        kept.length := by
  induction row generalizing kept start with
  | nil => rfl
  | cons value row ih =>
    rw [zipIdx_cons, foldl_cons, ih, apply_ite length, length_set, ite_self]

theorem replaceFrom_getElem? (columns : List Nat) (row kept : List Value) (start column : Nat)
    (fits : start + row.length = kept.length) :
    ((row.zipIdx start).foldl
      (fun kept cell => if columns.contains cell.2 then kept else kept.set cell.2 cell.1) kept)[column]? =
      if column < start ∨ columns.contains column then kept[column]? else row[column - start]? := by
  induction row generalizing kept start with
  | nil =>
    split
    · rfl
    · simp only [length_nil] at fits
      simp only [zipIdx_nil, foldl_nil, getElem?_nil]
      exact getElem?_eq_none (by omega)
  | cons value row ih =>
    simp only [length_cons] at fits
    have length : (if columns.contains start then kept else kept.set start value).length = kept.length := by
      rw [apply_ite List.length, length_set, ite_self]
    have apart (ne : start ≠ column) :
        (if columns.contains start then kept else kept.set start value)[column]? = kept[column]? := by
      split
      · rfl
      · exact getElem?_set_ne ne
    rw [zipIdx_cons, foldl_cons, ih _ _ (by rw [length]; omega)]
    rcases lt_trichotomy column start with before | rfl | behind
    · rw [apart (by omega)]
      simp [before, show column < start + 1 by omega]
    · cases held : columns.contains column with
      | true => simp
      | false => simp [show column < kept.length by omega]
    rw [apart (by omega)]
    obtain ⟨more, rfl⟩ := Nat.exists_eq_add_of_lt behind
    rw [show start + more + 1 - (start + 1) = more by omega, show start + more + 1 - start = more + 1 by omega,
      getElem?_cons_succ]
    have far : ¬ start + more + 1 < start + 1 ∧ ¬ start + more + 1 < start := by omega
    simp [far.2]

theorem length_replace (kept row : List Value) (columns : List Nat) : (replace kept row columns).length = kept.length :=
  length_replaceFrom columns row kept 0

/-- A row that is as wide takes every column but those that are kept. -/
theorem replace_getElem? (wide : row.length = kept.length) (columns : List Nat) (column : Nat) :
    (replace kept row columns)[column]? = if columns.contains column then kept[column]? else row[column]? := by
  rw [replace, replaceFrom_getElem? columns row kept 0 column (by omega)]
  simp

/-- Two rows that differ in no column but an aggregate's. -/
def Agrees (folds : List (Fold Value State)) (one other : List Value) : Prop :=
  one.length = other.length ∧ ∀ column, column ∉ folds.map Fold.into → one[column]? = other[column]?

section
variable (folds) (states : List State) (row : List Value)

theorem length_answers : (answers folds states row).length = row.length := by
  induction folds generalizing states row with
  | nil => rfl
  | cons fold folds ih =>
    cases states with
    | nil => rfl
    | cons state states => rw [answers, ih, length_set]

theorem answers_agrees : Agrees folds (answers folds states row) row := by
  refine ⟨length_answers _ _ _, fun column outside => ?_⟩
  induction folds generalizing states row with
  | nil => rfl
  | cons fold folds ih =>
    simp only [map_cons, mem_cons, not_or] at outside
    cases states with
    | nil => rfl
    | cons state states =>
      rw [answers, ih _ _ outside.2]
      exact getElem?_set_ne fun is => outside.1 is.symm

end

theorem answers_congr
    (full : states.length = folds.length) (agrees : Agrees folds one other) :
    answers folds states one = answers folds states other := by
  induction folds generalizing states one other with
  | nil =>
    have same : one = other := ext_getElem? fun column => agrees.2 column (by simp)
    rw [same]
  | cons fold folds ih =>
    cases states with
    | nil => cases full
    | cons state states =>
      refine ih (Nat.succ.inj full) ⟨by simp [agrees.1], fun column outside => ?_⟩
      by_cases here : fold.into = column
      · subst here
        rw [getElem?_set_self', getElem?_set_self']
        by_cases inside : fold.into < one.length
        · rw [getElem?_eq_getElem inside, getElem?_eq_getElem (agrees.1 ▸ inside)]
          rfl
        · rw [getElem?_eq_none (by omega), getElem?_eq_none (by have := agrees.1; omega)]
      · rw [getElem?_set_ne here, getElem?_set_ne here]
        exact agrees.2 column (by simp [Ne.symm here, outside])

theorem length_updateAll (args : List Value)
    (full : states.length = folds.length) : (updateAll folds states args).length = folds.length := by
  induction folds generalizing states args with
  | nil => cases states <;> rfl
  | cons fold folds ih =>
    cases states with
    | nil => cases full
    | cons state states => rw [updateAll, length_cons, length_cons, ih _ (Nat.succ.inj full)]

end Cells

namespace Fixpoint
variable {Value State : Type} (fixpoint : Fixpoint Value State)

def sameKey (one other : List Value) : Bool := fixpoint.keys.eq (fixpoint.keyOf one) (fixpoint.keyOf other)

def group (made : List (List Value)) (first : List Value) : List (List Value) := made.filter (fixpoint.sameKey first)

/-- The key columns of a first row and the others of the last one with its key. -/
def lastRow (made : List (List Value)) (first : List Value) : List Value :=
  replace (first.take fixpoint.width) (((fixpoint.group made first).getLast?.getD first).take fixpoint.width)
    fixpoint.key

def statesOf (made : List (List Value)) (first : List Value) : List State :=
  (fixpoint.group made first).foldl (fun states row => updateAll fixpoint.folds states (row.drop fixpoint.width))
    (fixpoint.folds.map Fold.new)

/-- The row a key has once some rows were made: the key as it was first made, what the aggregates answer
over all of the key's rows, and the last of them for the rest. -/
def entry (made : List (List Value)) (first : List Value) : List Value :=
  answers fixpoint.folds (fixpoint.statesOf made first) (fixpoint.lastRow made first)

def Wide (row : List Value) : Prop := row.length = fixpoint.width + (fixpoint.folds.map Fold.args).sum

variable {fixpoint} {made : List (List Value)} {first row : List Value}

theorem Wide.take (wide : fixpoint.Wide row) : (row.take fixpoint.width).length = fixpoint.width := by
  rw [length_take, wide]
  omega

theorem group_concat : fixpoint.group (made ++ [row]) first =
    fixpoint.group made first ++ if fixpoint.sameKey first row then [row] else [] := by
  rw [group, filter_append, ← group, filter_singleton, cond_eq_ite]

theorem group_other (other : fixpoint.sameKey first row = false) :
    fixpoint.group (made ++ [row]) first = fixpoint.group made first := by
  rw [group_concat, other, if_neg Bool.false_ne_true, append_nil]

theorem lastRow_same (same : fixpoint.sameKey first row = true) : fixpoint.lastRow (made ++ [row]) first =
    replace (first.take fixpoint.width) (row.take fixpoint.width) fixpoint.key := by
  rw [lastRow, group_concat, if_pos same, getLast?_concat, Option.getD_some]

theorem statesOf_same (same : fixpoint.sameKey first row = true) : fixpoint.statesOf (made ++ [row]) first =
    updateAll fixpoint.folds (fixpoint.statesOf made first) (row.drop fixpoint.width) := by
  rw [statesOf, group_concat, if_pos same, foldl_append]
  rfl

theorem entry_of_group (same : fixpoint.group made first = fixpoint.group prior first) :
    fixpoint.entry made first = fixpoint.entry prior first := by
  rw [entry, entry, statesOf, statesOf, lastRow, lastRow, same]

theorem length_statesOf : (fixpoint.statesOf made first).length = fixpoint.folds.length := by
  rw [statesOf]
  induction fixpoint.group made first using reverseRecOn with
  | nil => simp
  | append_singleton rows row ih =>
    rw [foldl_append]
    exact length_updateAll _ ih

section
variable (wideFirst : fixpoint.Wide first) (wide : ∀ row ∈ made, fixpoint.Wide row)
include wideFirst wide

/-- The last row has a key's columns from the first row, whatever came last. -/
theorem lastRow_getElem? (column : Nat) : (fixpoint.lastRow made first).length = fixpoint.width ∧
      (fixpoint.key.contains column = true → (fixpoint.lastRow made first)[column]? =
        (first.take fixpoint.width)[column]?) := by
  have last : fixpoint.Wide ((fixpoint.group made first).getLast?.getD first) := by
    cases is : (fixpoint.group made first).getLast? with
    | none => exact wideFirst
    | some row => exact wide row (mem_of_mem_filter (mem_of_getLast? is))
  refine ⟨by rw [lastRow, length_replace, wideFirst.take], fun held => ?_⟩
  rw [lastRow, replace_getElem? (last.take.trans wideFirst.take.symm), if_pos held]

/-- A later row of a key put over what the key has is the last row with all of them, but for the
aggregates' columns. -/
theorem replace_agrees (wideRow : fixpoint.Wide row) (same : fixpoint.sameKey first row = true)
    (agrees : Agrees fixpoint.folds kept (fixpoint.lastRow made first))
    (inside : ∀ column, column ∉ fixpoint.folds.map Fold.into → columns.contains column = fixpoint.key.contains column) :
    Agrees fixpoint.folds (replace kept (row.take fixpoint.width) columns) (fixpoint.lastRow (made ++ [row]) first) := by
  have width : kept.length = fixpoint.width := agrees.1.trans (lastRow_getElem? wideFirst wide 0).1
  rw [lastRow_same same]
  refine ⟨by rw [length_replace, length_replace, width, wideFirst.take], fun column outside => ?_⟩
  rw [replace_getElem? (wideRow.take.trans width.symm), replace_getElem? (wideRow.take.trans wideFirst.take.symm),
    inside column outside]
  split
  · rename_i held
    rw [agrees.2 column outside, (lastRow_getElem? wideFirst wide column).2 held]
  · rfl

end

theorem lastRow_first (same : fixpoint.sameKey row row = true) :
    fixpoint.lastRow (made ++ [row]) row = row.take fixpoint.width := by
  rw [lastRow_same same]
  refine ext_getElem? fun column => ?_
  rw [replace_getElem? rfl, ite_self]

/-- What was noted of the rows there were before: each that was touched once, with what it held, and the
others are as they were. -/
structure Notes (before : List (List Value)) (state : Touching Value State) : Prop where
  length : state.first.length = before.length
  marks : ∀ slot < before.length, state.first[slot]? = some (decide (slot ∈ state.touched.map Prod.fst))
  nodup : (state.touched.map Prod.fst).Nodup
  held : ∀ entry ∈ state.touched, entry.1 < state.table.rows.length ∧ entry.2 = before[entry.1]?
  new : ∀ slot, before.length ≤ slot → slot < state.table.rows.length → slot ∈ state.touched.map Prod.fst
  grows : before.length ≤ state.table.rows.length
  still : ∀ slot < before.length, slot ∉ state.touched.map Prod.fst → state.table.rows[slot]? = before[slot]?

namespace Notes
variable {before : List (List Value)} {state : Touching Value State} {slot : Nat}

theorem untouched (table : Keyed Value State) : Notes table.rows (Fixpoint.untouched table) where
  length := length_replicate
  marks slot lt := by simp [Fixpoint.untouched, lt]
  nodup := .nil
  held _ member := by cases member
  new slot ge lt := absurd lt (Nat.not_lt.mpr ge)
  grows := le_rfl
  still _ _ _ := rfl

section
variable (notes : Notes before state) (lt : slot < state.table.rows.length)
include notes lt

/-- Touching a row notes it the first time, and only if it was there before. -/
theorem touch_cases :
    (slot < before.length ∧ slot ∉ state.touched.map fst ∧ state.touch slot =
      { state with first := state.first.set slot true, touched := state.touched ++ [(slot, state.table.rows[slot]?)] }) ∨
      (slot ∈ state.touched.map fst ∧ state.touch slot = state) := by
  rw [Touching.touch]
  by_cases old : slot < before.length
  · rw [notes.marks slot old]
    by_cases noted : slot ∈ state.touched.map fst
    · exact .inr ⟨noted, if_neg (by simp [noted])⟩
    · exact .inl ⟨old, noted, if_pos (by simp [noted])⟩
  · rw [getElem?_eq_none (notes.length ▸ not_lt.mp old)]
    exact .inr ⟨notes.new slot (not_lt.mp old) lt, if_neg nofun⟩

theorem mem_touch (other : Nat) :
    other ∈ (state.touch slot).touched.map fst ↔ other ∈ state.touched.map fst ∨ other = slot := by
  rcases notes.touch_cases lt with ⟨-, -, is⟩ | ⟨noted, is⟩ <;> rw [is]
  · simp [or_comm]
  · exact (or_iff_left_of_imp fun here => here ▸ noted).symm

theorem touch (change : List Value → List Value) (states : List (List State)) : Notes before { state.touch slot with
      table := { state.table with rows := state.table.rows.modify slot change, states := states } } := by
  have mem := notes.mem_touch lt
  refine ⟨?_, fun other old => ?_, ?_, fun entry member => ?_, fun other ge less => ?_, ?_, fun other old outside => ?_⟩
  · rcases notes.touch_cases lt with ⟨-, -, is⟩ | ⟨-, is⟩ <;> simp [is, notes.length]
  · simp only [mem]
    rcases notes.touch_cases lt with ⟨-, -, is⟩ | ⟨noted, is⟩ <;> rw [is]
    · by_cases here : slot = other
      · subst here
        simp [notes.length, old]
      · simp [getElem?_set_ne here, notes.marks other old, Ne.symm here]
    rw [notes.marks other old]
    by_cases here : other = slot
    · simp [here, noted]
    · simp [here]
  · rcases notes.touch_cases lt with ⟨-, new, is⟩ | ⟨-, is⟩ <;> rw [is]
    · rw [map_append]
      exact concat_eq_append ▸ notes.nodup.concat new
    · exact notes.nodup
  · simp only [length_modify]
    rcases notes.touch_cases lt with ⟨old, new, is⟩ | ⟨-, is⟩ <;> rw [is] at member
    · rcases mem_append.mp member with there | last
      · exact notes.held entry there
      · rw [mem_singleton.mp last]
        exact ⟨lt, notes.still slot old new⟩
    · exact notes.held entry member
  · simp only [length_modify] at less
    exact (mem other).mpr (.inl (notes.new other ge less))
  · simpa using notes.grows
  · simp only [mem, not_or] at outside
    simp only [getElem?_modify, Ne.symm outside.2, if_false]
    rw [notes.still other old outside.1]
    simp

end

theorem push (notes : Notes before state) (kept : List Value) (slots : List (List Value × Nat))
    (states : List (List State)) :
    Notes before { state with
      touched := state.touched ++ [(state.table.rows.length, none)]
      table := ⟨state.table.rows ++ [kept], slots, states⟩ } := by
  have beyond : state.table.rows.length ∉ state.touched.map fst := by
    intro member
    obtain ⟨entry, there, is⟩ := mem_map.mp member
    have := (notes.held entry there).1
    omega
  have grows := notes.grows
  refine ⟨notes.length, fun other old => ?_, ?_, fun entry member => ?_, fun other ge less => ?_,
    ?_, fun other old outside => ?_⟩
  · rw [notes.marks other old]
    simp [show other ≠ state.table.rows.length by omega]
  · rw [map_append]
    exact concat_eq_append ▸ notes.nodup.concat beyond
  · simp only [length_append, length_singleton]
    rcases mem_append.mp member with there | last
    · obtain ⟨less, is⟩ := notes.held entry there
      exact ⟨by omega, is⟩
    · rw [mem_singleton.mp last]
      exact ⟨by simp, (getElem?_eq_none grows).symm⟩
  · simp only [length_append, length_singleton] at less
    simp only [map_append, mem_append, map_cons, map_nil, mem_singleton]
    by_cases last : other = state.table.rows.length
    · exact .inr last
    · exact .inl (notes.new other ge (by omega))
  · simp only [length_append, length_singleton]
    omega
  · simp only [map_append, mem_append, not_or] at outside
    rw [getElem?_append_left (by omega)]
    exact notes.still other old outside.1

end Notes

abbrev firstRows (fixpoint : Fixpoint Value State) (made : List (List Value)) : List (List Value) :=
  firsts fixpoint.sameKey made

/-- What a table holds while rows are put into it: a row for each key, right but for the columns of the
aggregates, whose states are right. -/
structure Holds (fixpoint : Fixpoint Value State) (made : List (List Value)) (table : Keyed Value State) : Prop where
  slots : table.slots = ((fixpoint.firstRows made).map fixpoint.keyOf).zipIdx
  length : table.rows.length = (fixpoint.firstRows made).length
  rows : ∀ (slot : Nat) first kept, (fixpoint.firstRows made)[slot]? = some first → table.rows[slot]? = some kept →
    Agrees fixpoint.folds kept (fixpoint.lastRow made first)
  states : fixpoint.folds ≠ [] → table.states = (fixpoint.firstRows made).map (fixpoint.statesOf made)

section Lawful
variable (lawful : fixpoint.keys.Lawful)
include lawful

variable {table : Keyed Value State}

theorem slotOf_cases (holds : Holds fixpoint made table) (row : List Value) :
    (∃ slot first, fixpoint.slotOf table (fixpoint.keyOf row) = some slot ∧
      (fixpoint.firstRows made)[slot]? = some first ∧ fixpoint.sameKey first row = true) ∨
    fixpoint.slotOf table (fixpoint.keyOf row) = none ∧
      ∀ first ∈ fixpoint.firstRows made, fixpoint.sameKey first row = false := by
  rw [slotOf, holds.slots, lawful.finds_eq]
  cases found : ((fixpoint.firstRows made).map fixpoint.keyOf).zipIdx.find? fun entry =>
      fixpoint.keys.eq entry.1 (fixpoint.keyOf row) with
  | none =>
    refine .inr ⟨rfl, fun first member => ?_⟩
    obtain ⟨slot, at'⟩ := getElem?_of_mem (mem_map_of_mem member)
    have other := find?_eq_none.mp found (fixpoint.keyOf first, slot) (mem_zipIdx_iff_getElem?.mpr at')
    rwa [Bool.not_eq_true] at other
  | some entry =>
    have among := mem_zipIdx_iff_getElem?.mp (mem_of_find?_eq_some found)
    rw [getElem?_map] at among
    obtain ⟨first, at', is⟩ := Option.map_eq_some_iff.mp among
    have same := find?_some found
    rw [← is] at same
    exact .inl ⟨_, first, rfl, at', same⟩

theorem firstRows_apart {other : Nat} (ne : one ≠ other)
    (at' : (fixpoint.firstRows made)[one]? = some first) (there : (fixpoint.firstRows made)[other]? = some second) :
    fixpoint.sameKey first second = false := by
  have apart := pairwise_iff_getElem.mp (@firsts_pairwise _ fixpoint.sameKey made)
  obtain ⟨lt, rfl⟩ := List.getElem?_eq_some_iff.mp at'
  obtain ⟨lt', rfl⟩ := List.getElem?_eq_some_iff.mp there
  rcases Nat.lt_or_gt_of_ne ne with less | more
  · exact apart one other lt lt' less
  by_contra same
  have back : fixpoint.sameKey _ _ = true := lawful.eq_symm ((Bool.not_eq_false _).mp same)
  rw [apart other one lt' lt more] at back
  cases back

theorem firstRows_same {slot : Nat} (at' : (fixpoint.firstRows made)[slot]? = some first)
    (same : fixpoint.sameKey first row = true) : fixpoint.firstRows (made ++ [row]) = fixpoint.firstRows made ∧
      ∀ other second, (fixpoint.firstRows made)[other]? = some second → other ≠ slot →
        fixpoint.sameKey second row = false := by
  constructor
  · rw [firstRows, firsts_concat, pushNew, if_pos]
    exact any_eq_true.mpr ⟨first, mem_of_getElem? at', same⟩
  intro other second there ne
  by_contra is
  rw [Bool.not_eq_false] at is
  have both : fixpoint.sameKey second first = true := lawful.eq_trans is (lawful.eq_symm same)
  rw [firstRows_apart lawful ne there at'] at both
  cases both

omit lawful in
theorem firstRows_new (new : ∀ first ∈ fixpoint.firstRows made, fixpoint.sameKey first row = false) :
    fixpoint.firstRows (made ++ [row]) = fixpoint.firstRows made ++ [row] := by
  rw [firstRows, firsts_concat, pushNew]
  simpa [any_eq_true] using new

omit lawful in
theorem touch_table (state : Touching Value State) (slot : Nat) : (state.touch slot).table = state.table := by
  rw [Touching.touch]
  split <;> rfl

/-- While the rows of a round are put in: what the table holds, what was noted, and that a key that was
not touched got no row. -/
structure Mid (fixpoint : Fixpoint Value State) (before : List (List Value)) (prior made : List (List Value))
    (state : Touching Value State) : Prop where
  notes : Notes before state
  holds : Holds fixpoint made state.table
  quiet : ∀ (slot : Nat) first, slot ∉ state.touched.map Prod.fst → (fixpoint.firstRows made)[slot]? = some first →
    fixpoint.group made first = fixpoint.group prior first

variable {before prior : List (List Value)} {state : Touching Value State} {slot : Nat}

theorem Mid.old (mid : Mid fixpoint before prior made state) (at' : (fixpoint.firstRows made)[slot]? = some first)
    (same : fixpoint.sameKey first row = true)
    (right : ∀ kept, Agrees fixpoint.folds kept (fixpoint.lastRow made first) →
      Agrees fixpoint.folds (change kept) (fixpoint.lastRow (made ++ [row]) first))
    (updated : fixpoint.folds ≠ [] → states = state.table.states.modify slot fun states =>
      updateAll fixpoint.folds states (row.drop fixpoint.width)) :
    Mid fixpoint before prior (made ++ [row]) { state.touch slot with
      table := { state.table with rows := state.table.rows.modify slot change, states := states } } := by
  obtain ⟨keys, others⟩ := firstRows_same lawful at' same
  have lt : slot < state.table.rows.length := mid.holds.length ▸ (List.getElem?_eq_some_iff.mp at').1
  refine ⟨mid.notes.touch lt change states, ⟨?_, ?_, fun other second kept there is => ?_, fun some_ => ?_⟩,
    fun other second outside there => ?_⟩
  · rw [keys, ← mid.holds.slots]
  · rw [keys, length_modify, mid.holds.length]
  · rw [keys] at there
    by_cases here : other = slot
    · subst here
      cases there.symm.trans at'
      simp only [getElem?_modify_eq] at is
      obtain ⟨held, at'', rfl⟩ := Option.map_eq_some_iff.mp is
      exact right held (mid.holds.rows other _ held there at'')
    · simp only [getElem?_modify_ne _ _ (Ne.symm here)] at is
      rw [lastRow, group_other (others other second there here)]
      exact mid.holds.rows other second kept there is
  · rw [keys]
    simp only [updated some_, mid.holds.states some_]
    refine ext_getElem? fun other => ?_
    by_cases here : slot = other
    · subst here
      rw [getElem?_modify_eq, getElem?_map, getElem?_map, at', Option.map_some, Option.map_some,
        statesOf_same same]
      rfl
    rw [getElem?_modify_ne _ _ here, getElem?_map, getElem?_map]
    cases there : (fixpoint.firstRows made)[other]? with
    | none => rfl
    | some second =>
      rw [Option.map_some, Option.map_some, statesOf, statesOf,
        group_other (others other second there (Ne.symm here))]
  · rw [keys] at there
    simp only [mid.notes.mem_touch lt, not_or] at outside
    rw [group_other (others other second there outside.2)]
    exact mid.quiet other second outside.1 there

omit lawful in
theorem Mid.new (mid : Mid fixpoint before prior made state)
    (new : ∀ first ∈ fixpoint.firstRows made, fixpoint.sameKey first row = false)
    (right : Agrees fixpoint.folds kept (fixpoint.lastRow (made ++ [row]) row))
    (added : fixpoint.folds ≠ [] → states = state.table.states ++ [fixpoint.statesOf (made ++ [row]) row]) :
    Mid fixpoint before prior (made ++ [row]) { state with
      touched := state.touched ++ [(state.table.rows.length, none)]
      table := ⟨state.table.rows ++ [kept], state.table.slots ++ [(fixpoint.keyOf row, state.table.rows.length)],
        states⟩ } := by
  have keys := firstRows_new new
  have length := mid.holds.length
  refine ⟨mid.notes.push _ _ _, ⟨?_, ?_, fun other second held there is => ?_, fun some_ => ?_⟩,
    fun other second outside there => ?_⟩
  · rw [keys, map_append, zipIdx_append, ← mid.holds.slots, List.length_map, ← length]
    simp
  · rw [keys, List.length_append, List.length_append, length]
    rfl
  · rw [keys] at there
    by_cases last : other < state.table.rows.length
    · simp only [List.getElem?_append_left last] at is
      rw [List.getElem?_append_left (length ▸ last)] at there
      rw [lastRow, group_other (new second (mem_of_getElem? there)), ← lastRow]
      exact mid.holds.rows other second held there is
    have lt := (List.getElem?_eq_some_iff.mp is).1
    simp only [List.length_append, List.length_singleton] at lt
    have at' : other = state.table.rows.length := by omega
    subst at'
    simp only [getElem?_concat_length, Option.some.injEq] at is
    rw [length, getElem?_concat_length, Option.some.injEq] at there
    exact is ▸ there ▸ right
  · rw [keys]
    simp only [added some_, mid.holds.states some_, map_append, map_cons, map_nil]
    congr 1
    refine map_congr_left fun second member => ?_
    rw [statesOf, statesOf, group_other (new second member)]
  · simp only [map_append, mem_append, map_cons, map_nil, mem_singleton, not_or] at outside
    rw [keys] at there
    have lt := (List.getElem?_eq_some_iff.mp there).1
    simp only [List.length_append, List.length_singleton] at lt
    rw [List.getElem?_append_left (by omega)] at there
    rw [group_other (new second (mem_of_getElem? there))]
    exact mid.quiet other second outside.1 there

omit lawful in
theorem put_new {key : List Value} (new : fixpoint.slotOf table key = none) :
    fixpoint.put table key kept =
      { table with rows := table.rows ++ [kept], slots := table.slots ++ [(key, table.rows.length)] } := by
  rw [put, new]

theorem Mid.applyRow (none_ : fixpoint.folds = []) (wide : ∀ other ∈ made, fixpoint.Wide other)
    (wideRow : fixpoint.Wide row)
    (mid : Mid fixpoint before prior made state) :
    Mid fixpoint before prior (made ++ [row]) (fixpoint.applyRow state row) := by
  have whole : row.take fixpoint.width = row := by
    rw [take_of_length_le]
    rw [wideRow, none_]
    simp
  rw [Fixpoint.applyRow]
  rcases slotOf_cases lawful mid.holds row with ⟨slot, first, found, at', same⟩ | ⟨none, new⟩
  · have wideFirst := wide first (mem_of_mem_firsts (mem_of_getElem? at'))
    have right (kept : List Value) (agrees : Agrees fixpoint.folds kept (fixpoint.lastRow made first)) :
        Agrees fixpoint.folds (replace kept (row.take fixpoint.width) fixpoint.key)
          (fixpoint.lastRow (made ++ [row]) first) := replace_agrees wideFirst wide wideRow same agrees fun _ _ => rfl
    rw [whole] at right
    simp only [found, touch_table]
    exact mid.old lawful at' same right (fun some_ => absurd none_ some_)
  · simp only [none, put_new none]
    refine mid.new new ?_ fun some_ => absurd none_ some_
    rw [lastRow_first (lawful.eq_refl _), whole]
    exact ⟨rfl, fun _ _ => rfl⟩

omit lawful in
theorem modify_concat (values : List α) (value : α) (change : α → α) :
    (values ++ [value]).modify values.length change = values ++ [change value] := by
  induction values with
  | nil => rfl
  | cons head values ih => simpa using ih

theorem Mid.foldRow (wide : ∀ other ∈ made, fixpoint.Wide other) (wideRow : fixpoint.Wide row)
    (some_ : fixpoint.folds ≠ [])
    (mid : Mid fixpoint before prior made state) :
    Mid fixpoint before prior (made ++ [row]) (fixpoint.foldRow state row) := by
  have others (column : Nat) (outside : column ∉ fixpoint.folds.map Fold.into) :
      (fixpoint.folds.map Fold.into ++ fixpoint.key).contains column = fixpoint.key.contains column := by
    rw [contains_append, Bool.or_eq_right_iff_imp]
    exact fun is => absurd (contains_iff_mem.mp is) outside
  rw [Fixpoint.foldRow]
  rcases slotOf_cases lawful mid.holds row with ⟨slot, first, found, at', same⟩ | ⟨none, new⟩
  · have wideFirst := wide first (mem_of_mem_firsts (mem_of_getElem? at'))
    simp only [found, touch_table, Option.getD_some]
    exact mid.old lawful at' same (fun kept agrees => replace_agrees wideFirst wide wideRow same agrees others)
      fun _ => rfl
  · have states : state.table.states.length = state.table.rows.length := by
      rw [mid.holds.states some_, length_map, mid.holds.length]
    simp only [none, put_new none, Option.getD_none, length_append, length_singleton, Nat.add_sub_cancel]
    rw [modify_concat, ← states, modify_concat]
    have none_ : fixpoint.group made row = [] := by
      refine filter_eq_nil_iff.mpr fun other member is => ?_
      obtain ⟨held, among, first⟩ := @exists_mem_firsts _ fixpoint.sameKey (fun row => lawful.eq_refl _) _ _ member
      have both : fixpoint.sameKey held row = true := lawful.eq_trans first (lawful.eq_symm is)
      rw [new held among] at both
      cases both
    rw [states]
    refine mid.new new ?_ fun _ => ?_
    · rw [lastRow_first (lawful.eq_refl _), takeOthers]
      refine ⟨length_replace _ _ _, fun column _ => ?_⟩
      rw [replace_getElem? rfl, ite_self]
    · rw [statesOf_same (lawful.eq_refl _), statesOf, none_]
      rfl

variable {rows : List (List Value)}

omit lawful in
theorem Mid.foldl
    (one : ∀ {made : List (List Value)} {state : Touching Value State} {row : List Value},
      (∀ other ∈ made, fixpoint.Wide other) → fixpoint.Wide row → Mid fixpoint before prior made state →
      Mid fixpoint before prior (made ++ [row]) (step state row))
    (wide : ∀ other ∈ made ++ rows, fixpoint.Wide other) (mid : Mid fixpoint before prior made state) :
    Mid fixpoint before prior (made ++ rows) (rows.foldl step state) := by
  induction rows generalizing made state with
  | nil => simpa using mid
  | cons row rows ih =>
    have next := one (fun other member => wide other (mem_append_left _ member)) (wide row (by simp)) mid
    have rest := ih (by simpa using wide) next
    simpa using rest

/-- What a table holds between rounds: the row of each key. -/
structure Kept (fixpoint : Fixpoint Value State) (made : List (List Value)) (table : Keyed Value State) : Prop where
  slots : table.slots = ((fixpoint.firstRows made).map fixpoint.keyOf).zipIdx
  rows : table.rows = (fixpoint.firstRows made).map (fixpoint.entry made)
  states : fixpoint.folds ≠ [] → table.states = (fixpoint.firstRows made).map (fixpoint.statesOf made)

omit lawful in
theorem Kept.mid (kept : Kept fixpoint made table) : Mid fixpoint table.rows made made (untouched table) where
  notes := .untouched table
  holds := by
    refine ⟨kept.slots, ?_, fun slot first held at' is => ?_, kept.states⟩
    · change table.rows.length = _
      rw [kept.rows, length_map]
    change table.rows[slot]? = some held at is
    rw [kept.rows, getElem?_map, at'] at is
    rw [← Option.some.inj is]
    exact answers_agrees _ _ _
  quiet _ _ _ _ := rfl

omit lawful in
theorem foldl_modify_getElem? (change : Nat → α → α) {places : List (Nat × β)}
    (nodup : (places.map fst).Nodup) (values : List α) (place : Nat) :
    (places.foldl (fun values at' => values.modify at'.1 (change at'.1)) values)[place]? =
      if place ∈ places.map fst then values[place]?.map (change place) else values[place]? := by
  induction places generalizing values with
  | nil => simp
  | cons head places ih =>
    simp only [map_cons, nodup_cons] at nodup
    rw [foldl_cons, ih nodup.2]
    by_cases here : head.1 = place
    · subst here
      rw [if_neg nodup.1, getElem?_modify_eq, if_pos (by simp)]
      rfl
    · rw [getElem?_modify_ne _ _ here]
      simp only [map_cons, mem_cons, Ne.symm here, false_or]

omit lawful in
theorem finishRows_getElem? (notes : Notes before state) (slot : Nat) :
    (fixpoint.finishRows state).rows[slot]? = if slot ∈ state.touched.map fst then
      state.table.rows[slot]?.map (answers fixpoint.folds (state.table.states.getD slot []))
        else state.table.rows[slot]? :=
  foldl_modify_getElem? (fun slot row => answers fixpoint.folds (state.table.states.getD slot []) row) notes.nodup _ _

omit lawful in
/-- A key that no row was made for has the row it had. -/
theorem Mid.still_entry (kept : Kept fixpoint prior table)
    (mid : Mid fixpoint table.rows prior (prior ++ rows) state) (outside : slot ∉ state.touched.map fst)
    (at' : (fixpoint.firstRows (prior ++ rows))[slot]? = some first) :
    state.table.rows[slot]? = some (fixpoint.entry (prior ++ rows) first) := by
  have lt : slot < table.rows.length := by
    by_contra beyond
    exact outside (mid.notes.new slot (by omega) (mid.holds.length ▸ (List.getElem?_eq_some_iff.mp at').1))
  have before : (fixpoint.firstRows prior)[slot]? = some first := by
    rw [kept.rows, List.length_map] at lt
    obtain ⟨more, eq⟩ := @ firsts_prefix _ fixpoint.sameKey prior rows
    rwa [firstRows, ← eq, List.getElem?_append_left lt] at at'
  rw [mid.notes.still slot lt outside, kept.rows, getElem?_map, before, Option.map_some,
    entry_of_group (mid.quiet slot first outside at')]

omit lawful in
/-- Without aggregates the rows are right as soon as they are in. -/
theorem Mid.kept (none_ : fixpoint.folds = []) (mid : Mid fixpoint before prior made state) :
    Kept fixpoint made state.table := by
  refine ⟨mid.holds.slots, ext_getElem? fun slot => ?_, mid.holds.states⟩
  rw [getElem?_map]
  cases at' : (fixpoint.firstRows made)[slot]? with
  | none =>
    rw [Option.map_none, getElem?_eq_none_iff, mid.holds.length]
    exact getElem?_eq_none_iff.mp at'
  | some first =>
    have lt : slot < state.table.rows.length := mid.holds.length ▸ (List.getElem?_eq_some_iff.mp at').1
    have agrees := mid.holds.rows slot first _ at' (List.getElem?_eq_getElem lt)
    have same : fixpoint.entry made first = fixpoint.lastRow made first := by
      rw [entry, none_]
      rfl
    rw [List.getElem?_eq_getElem lt, Option.map_some, same]
    exact congrArg some (ext_getElem? fun column => agrees.2 column (by simp [none_]))

omit lawful in
/-- With aggregates they are once the answers are in. -/
theorem Mid.finish {table : Keyed Value State} (kept : Kept fixpoint prior table) {rows : List (List Value)}
    (some_ : fixpoint.folds ≠ []) (mid : Mid fixpoint table.rows prior (prior ++ rows) state) :
    Kept fixpoint (prior ++ rows) (fixpoint.finishRows state) := by
  refine ⟨mid.holds.slots, ext_getElem? fun slot => ?_, mid.holds.states⟩
  rw [finishRows_getElem? mid.notes, getElem?_map]
  cases at' : (fixpoint.firstRows (prior ++ rows))[slot]? with
  | none =>
    have beyond : state.table.rows[slot]? = none := by
      rw [getElem?_eq_none_iff, mid.holds.length]
      exact getElem?_eq_none_iff.mp at'
    rw [beyond, Option.map_none, Option.map_none, ite_self]
  | some first =>
    have lt : slot < state.table.rows.length := mid.holds.length ▸ (List.getElem?_eq_some_iff.mp at').1
    split
    · have agrees := mid.holds.rows slot first _ at' (List.getElem?_eq_getElem lt)
      have states : state.table.states.getD slot [] = fixpoint.statesOf (prior ++ rows) first := by
        rw [mid.holds.states some_, getD_eq_getElem?_getD, getElem?_map, at']
        rfl
      rw [List.getElem?_eq_getElem lt, Option.map_some, Option.map_some, states, answers_congr length_statesOf agrees]
      rfl
    · rename_i outside
      exact mid.still_entry kept outside at'

/-- A row that a round made new or left other than it was. -/
def Changes (fixpoint : Fixpoint Value State) (before after : List (List Value)) (slot : Nat) : Prop :=
  ∀ old new, before[slot]? = some old → after[slot]? = some new → fixpoint.keys.eq old new = false

/-- What the next round reads: one row for each key whose row changed. -/
def Reads (fixpoint : Fixpoint Value State) (before after working : List (List Value)) : Prop :=
  ∃ slots : List Nat, slots.Nodup ∧ (∀ slot, slot ∈ slots ↔ slot < after.length ∧ Changes fixpoint before after slot) ∧
    working = slots.filterMap (after[·]?)

/-- The rows that were noted and differ are those that changed. -/
theorem changed_reads {after : List (List Value)} (notes : Notes before state)
    (length : after.length = state.table.rows.length)
    (still : ∀ slot < before.length, slot ∉ state.touched.map fst → after[slot]? = before[slot]?)
    (wide : ∀ (slot : Nat) old new, before[slot]? = some old → after[slot]? = some new → old.length = new.length) :
    Reads fixpoint before after (fixpoint.changed state.touched after) := by
  have differs (entry : Nat × Option (List Value)) (among : entry ∈ state.touched) :
      (entry.2.all fun old => !(old.zip (after.getD entry.1 [])).all fun pair => fixpoint.keys.same pair.1 pair.2) =
        true ↔ Changes fixpoint before after entry.1 := by
    obtain ⟨lt, held⟩ := notes.held entry among
    rw [← length] at lt
    rw [held, Changes, getD_eq_getElem?_getD, getElem?_eq_getElem lt]
    cases old : before[entry.1]? with
    | none => simp
    | some old' =>
      have same := wide entry.1 old' after[entry.1] old (getElem?_eq_getElem lt)
      simp [Keys.eq, same]
  refine ⟨_, ?_, fun slot => ?_, filterMap_map.symm⟩
  · exact (filter_sublist.map fst).nodup notes.nodup
  simp only [mem_map, mem_filter]
  constructor
  · rintro ⟨entry, ⟨among, is⟩, rfl⟩
    exact ⟨length ▸ (notes.held entry among).1, (differs entry among).mp is⟩
  rintro ⟨lt, changes⟩
  have touched : slot ∈ state.touched.map fst := by
    by_contra outside
    by_cases old : slot < before.length
    · have eq := changes before[slot] before[slot] (getElem?_eq_getElem old)
        ((still slot old outside).trans (getElem?_eq_getElem old))
      rw [lawful.eq_refl] at eq
      cases eq
    · exact outside (notes.new slot (by omega) (length ▸ lt))
  obtain ⟨entry, among, rfl⟩ := mem_map.mp touched
  exact ⟨entry, ⟨among, (differs entry among).mpr changes⟩, rfl⟩

omit lawful in
theorem Kept.width (wide : ∀ row ∈ made, fixpoint.Wide row) (kept : Kept fixpoint made table)
    (at' : table.rows[slot]? = some kept') : kept'.length = fixpoint.width := by
  rw [kept.rows, getElem?_map] at at'
  obtain ⟨first, there, rfl⟩ := Option.map_eq_some_iff.mp at'
  rw [entry, length_answers]
  exact (lastRow_getElem? (wide first (mem_of_mem_firsts (mem_of_getElem? there))) wide 0).1

/-- A round's rows put into a table leave the row of each key there, and the next round reads those that
changed. -/
theorem apply_kept (distinct : fixpoint.all = false)
    (wide : ∀ row ∈ prior ++ rows, fixpoint.Wide row) (kept : Kept fixpoint prior table) :
    Kept fixpoint (prior ++ rows) (fixpoint.apply table rows).1 ∧
      Reads fixpoint table.rows (fixpoint.apply table rows).1.rows (fixpoint.apply table rows).2 := by
  have priorWide : ∀ row ∈ prior, fixpoint.Wide row := fun row member => wide row (mem_append_left _ member)
  by_cases none_ : fixpoint.folds = []
  · have mid : Mid fixpoint table.rows prior (prior ++ rows) (rows.foldl fixpoint.applyRow (untouched table)) :=
      Mid.foldl (fun made row mid => mid.applyRow lawful none_ made row) wide kept.mid
    have after := mid.kept none_
    simp only [apply, none_, isEmpty_nil, Bool.not_true, Bool.false_eq_true, if_false, distinct]
    refine ⟨after, changed_reads lawful mid.notes rfl mid.notes.still fun slot old new there here => ?_⟩
    rw [kept.width priorWide there, after.width wide here]
  have mid : Mid fixpoint table.rows prior (prior ++ rows) (rows.foldl fixpoint.foldRow (untouched table)) :=
    Mid.foldl (fun made row mid => mid.foldRow lawful made row none_) wide kept.mid
  have after := mid.finish kept none_
  have some_ : (!fixpoint.folds.isEmpty) = true := by simpa using none_
  simp only [apply, some_, if_true, fold, distinct, Bool.false_eq_true, if_false]
  refine ⟨after, changed_reads lawful mid.notes ?_ (fun slot lt outside => ?_) fun slot old new there here => ?_⟩
  · rw [after.rows, length_map, mid.holds.length]
  · rw [finishRows_getElem? mid.notes, if_neg outside]
    exact mid.notes.still slot lt outside
  · rw [kept.width priorWide there, after.width wide here]

/-- The table of a keyed recursion after so many rounds, and what the next one reads. -/
def keyedAfter (fixpoint : Fixpoint Value State) (anchor : List (List Value)) : (rounds : Nat) →
    Keyed Value State × List (List Value)
  | 0 => fixpoint.apply {} anchor
  | rounds + 1 =>
    let reached := fixpoint.keyedAfter anchor rounds
    fixpoint.apply reached.1 (fixpoint.round reached.2 reached.1.rows)

/-- Every row the anchor and so many rounds made. -/
def keyedMade (fixpoint : Fixpoint Value State) (anchor : List (List Value)) : (rounds : Nat) → List (List Value)
  | 0 => anchor
  | rounds + 1 =>
    let reached := fixpoint.keyedAfter anchor rounds
    fixpoint.keyedMade anchor rounds ++ fixpoint.round reached.2 reached.1.rows

/-- The rows of the table a round was put into. -/
def keyedBefore (fixpoint : Fixpoint Value State) (anchor : List (List Value)) : (rounds : Nat) → List (List Value)
  | 0 => []
  | rounds + 1 => (fixpoint.keyedAfter anchor rounds).1.rows

theorem keyedAfter_kept (distinct : fixpoint.all = false)
    (wideAnchor : ∀ row ∈ anchor, fixpoint.Wide row)
    (wideRound : ∀ working soFar, ∀ row ∈ fixpoint.round working soFar, fixpoint.Wide row) (rounds : Nat) :
    (∀ row ∈ fixpoint.keyedMade anchor rounds, fixpoint.Wide row) ∧
      Kept fixpoint (fixpoint.keyedMade anchor rounds) (fixpoint.keyedAfter anchor rounds).1 ∧
      Reads fixpoint (fixpoint.keyedBefore anchor rounds) (fixpoint.keyedAfter anchor rounds).1.rows
        (fixpoint.keyedAfter anchor rounds).2 := by
  induction rounds with
  | zero =>
    have empty : Kept fixpoint [] ({} : Keyed Value State) := ⟨rfl, rfl, fun _ => rfl⟩
    exact ⟨wideAnchor, apply_kept lawful distinct wideAnchor empty⟩
  | succ rounds ih =>
    have wide : ∀ row ∈ fixpoint.keyedMade anchor (rounds + 1), fixpoint.Wide row := by
      intro row member
      exact (mem_append.mp member).elim (ih.1 row) (wideRound _ _ row)
    exact ⟨wide, apply_kept lawful distinct wide ih.2.1⟩

omit lawful in
/-- A keyed loop that ends answers the table some number of rounds left. -/
theorem keyedFrom_some {anchor out : List (List Value)} {rounds count : Nat}
    (ends : fixpoint.keyedFrom rounds (fixpoint.keyedAfter anchor count).1 (fixpoint.keyedAfter anchor count).2 =
    some out) :
    ∃ last, out = (fixpoint.keyedAfter anchor last).1.rows ∧ (fixpoint.keyedAfter anchor last).2 = [] := by
  induction rounds generalizing count with
  | zero =>
    rw [keyedFrom] at ends
    split at ends
    · rename_i empty
      exact ⟨count, (Option.some.inj ends).symm, isEmpty_iff.mp empty⟩
    · cases ends
  | succ rounds ih =>
    rw [keyedFrom] at ends
    split at ends
    · rename_i empty
      exact ⟨count, (Option.some.inj ends).symm, isEmpty_iff.mp empty⟩
    · exact @ih (count + 1) ends

omit lawful in
theorem keyed_some (ends : fixpoint.keyed rounds anchor = some out) :
    ∃ last, out = (fixpoint.keyedAfter anchor last).1.rows ∧
      if fixpoint.once then last = 1 else (fixpoint.keyedAfter anchor last).2 = [] := by
  rw [keyed] at ends
  split at ends
  · rename_i once
    exact ⟨1, (Option.some.inj ends).symm, by rw [if_pos once]⟩
  · rename_i many
    obtain ⟨last, is, done⟩ := @keyedFrom_some _ _ fixpoint anchor out rounds 0 ends
    exact ⟨last, is, by rwa [if_neg many]⟩

end Lawful

end Fixpoint

open Fixpoint in
/-- Without `ALL`, in a run over plain values: a recursion without a key that ends lists the least set of rows that
holds the anchor's and is closed under a round, each where it was first made, and with a wanted count the first of
them; one with a key holds after every round the row of each key, and the next round reads one for each that
changed. -/
theorem recursion_reaches_fixpoint {State : Type} {naming : Naming} {held : Set Value} (plain : Plain naming held)
    (fixpoint : Fixpoint held State) (keys : fixpoint.keys = keysOf naming held) (distinct : fixpoint.all = false)
    (anchor : List (List held)) :
    (∀ round, Distributes fixpoint round → ∀ rounds out,
      { fixpoint with wanted := none }.listed rounds anchor = some out →
      IsLeast (Closed round (fixpoint.keys.rowsOf anchor)) (fixpoint.keys.rowsOf out) ∧
      out.Pairwise (fun one other => fixpoint.keys.eq one other = false) ∧
      ∃ count, out = firsts fixpoint.keys.eq (fixpoint.made anchor count)) ∧
    (∀ rounds out, { fixpoint with wanted := none }.listed rounds anchor = some out →
      ∀ wanted, { fixpoint with wanted := some wanted }.listed rounds anchor = some (out.take wanted)) ∧
    ((∀ row ∈ anchor, fixpoint.Wide row) →
      (∀ working soFar, ∀ row ∈ fixpoint.round working soFar, fixpoint.Wide row) →
      (∀ count,
        (fixpoint.keyedAfter anchor count).1.rows =
          (fixpoint.firstRows (fixpoint.keyedMade anchor count)).map (fixpoint.entry (fixpoint.keyedMade anchor count)) ∧
        Reads fixpoint (fixpoint.keyedBefore anchor count) (fixpoint.keyedAfter anchor count).1.rows
          (fixpoint.keyedAfter anchor count).2) ∧
      ∀ rounds out, fixpoint.keyed rounds anchor = some out →
        ∃ last, out = (fixpoint.keyedAfter anchor last).1.rows ∧
          if fixpoint.once then last = 1 else (fixpoint.keyedAfter anchor last).2 = []) := by
  have lawful : fixpoint.keys.Lawful := keys ▸ keysOf_lawful plain
  refine ⟨fun round distributes rounds out ends => ?_, fun rounds out ends wanted => ?_, fun wideAnchor wideRound =>
    ⟨fun count => ?_, fun rounds out ends => keyed_some ends⟩⟩
  · obtain ⟨_, from', rfl⟩ := Option.map_eq_some_iff.mp ends
    obtain ⟨count, is, done⟩ := listedFrom_some from'
    have reached : fixpoint.next^[count] (fixpoint.start anchor) = fixpoint.after anchor count := rfl
    have empty : (fixpoint.after anchor count).working = [] := done.resolve_right (by simp [enough])
    have first := (@after_out _ _ fixpoint anchor lawful distinct count).2
    have found := @rounds_after _ _ fixpoint anchor lawful distinct round distributes count
    have out_eq : _ = (fixpoint.after anchor count).out := is
    rw [empty] at found
    have none_ : fixpoint.keys.rowsOf [] = ∅ := by simp [Keys.rowsOf]
    rw [none_] at found
    rw [out_eq]
    exact ⟨found.isLeast, first ▸ firsts_pairwise _, count, first⟩
  · obtain ⟨full, from', rfl⟩ := Option.map_eq_some_iff.mp ends
    obtain ⟨short, is, same⟩ := @listedFrom_wanted _ _ fixpoint rounds wanted _ _ from'
    exact Option.map_eq_some_iff.mpr ⟨short, is, same⟩
  · obtain ⟨_, kept, reads⟩ := keyedAfter_kept lawful distinct wideAnchor wideRound count
    exact ⟨kept.rows, reads⟩

section Floats

def listOf (bits : UInt64) : Value := .nested .list [.other [91], .float ⟨bits⟩, .other [93]]

/-- `Display` of such lists. -/
def naming : Naming := ⟨id, fun _ => writeList fun _ => []⟩

/-- Values with no list but `[0.0]`. -/
def someHeld : Set Value := {value | ∀ kind parts, value = .nested kind parts → value = listOf 0}

def double (bits : UInt64) : someHeld := ⟨.double ⟨bits⟩, by simp [someHeld]⟩

def zeroList : someHeld := ⟨listOf 0, by simp [someHeld]⟩

theorem someHeld_plain : Plain naming someHeld where
  nan kind parts number member among := by
    have is := member kind parts rfl
    cases is
    simp only [mem_cons, reduceCtorEq, Part.float.injEq, not_mem_nil, or_false, false_or] at among
    rw [among]
    decide
  zero kind parts parts' member member' _ := by
    have is := (member kind parts rfl).trans (member' kind parts' rfl).symm
    cases is
    rfl

def notNumbers : Fixpoint someHeld Unit where
  keys := keysOf naming someHeld
  all := false
  key := [0]
  folds := []
  width := 1
  wanted := none
  once := false
  round working _ := working.map fun _ => [double 0x7FF8000000000000]

/-- The two zeros are one row and every NaN is one, and a list of one zero alone is a row of its own. The first two
are listed when two are wanted, and all three with the value as a key. -/
theorem recursion_reaches_fixpoint_floats :
    let anchor := [[double 0], [double 0x8000000000000000], [zeroList]]
    let rows := [[double 0], [zeroList], [double 0x7FF8000000000000]]
    IsLeast (Closed (fun made => {row | made.Nonempty ∧ row ∈ notNumbers.keys.rowsOf [[double 0x7FF8000000000000]]})
        (notNumbers.keys.rowsOf anchor)) (notNumbers.keys.rowsOf rows) ∧
      { notNumbers with wanted := some 2 }.listed 2 anchor = some [[double 0], [zeroList]] ∧
      (notNumbers.keyedAfter anchor 1).1.rows = rows := by
  intro anchor rows
  have lawful : notNumbers.keys.Lawful := keysOf_lawful someHeld_plain
  have distributes : Fixpoint.Distributes notNumbers
      fun made => {row | made.Nonempty ∧ row ∈ notNumbers.keys.rowsOf [[double 0x7FF8000000000000]]} := by
    refine ⟨fun working soFar => ?_, fun one other => ?_, by simp⟩
    · cases working with
      | nil => simp [notNumbers, Keys.rowsOf]
      | cons row rest =>
        have held : (notNumbers.keys.rowsOf (row :: rest)).Nonempty := ⟨row, row, mem_cons_self, lawful.eq_refl row⟩
        ext other
        rw [Set.mem_ofPred_eq, and_iff_right held]
        simp [Keys.rowsOf, notNumbers]
    · ext row
      simp only [Set.union_nonempty, Set.mem_union, Set.mem_ofPred_eq, or_and_right]
  obtain ⟨listed, wanted, keyed⟩ := recursion_reaches_fixpoint someHeld_plain notNumbers rfl rfl anchor
  have ends : { notNumbers with wanted := none }.listed 2 anchor = some rows := by decide +kernel
  refine ⟨(listed _ distributes 2 _ ends).1, wanted 2 _ ends 2, ?_⟩
  rw [((keyed (by simp [Fixpoint.Wide, notNumbers, anchor]) (by simp [Fixpoint.Wide, notNumbers])).1 1).1]
  decide +kernel

/-- Two lists of one zero each compare equal and are hashed as they are written, so both are listed. -/
theorem signed_zeros_listed_twice :
    let zero : (Set.univ : Set Value) := ⟨listOf 0, trivial⟩
    let negative : (Set.univ : Set Value) := ⟨listOf 0x8000000000000000, trivial⟩
    let fixpoint : Fixpoint (Set.univ : Set Value) Unit :=
      ⟨keysOf naming Set.univ, false, [], [], 1, none, false, fun _ _ => []⟩
    fixpoint.listed 1 [[zero], [negative]] = some [[zero], [negative]] ∧
      fixpoint.keys.eq [zero] [negative] = true := by
  decide +kernel

end Floats

end Rudb.Exec
