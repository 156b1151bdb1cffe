import Mathlib
import Rudb.Lib.RankSelect

/-! Items dealt into buckets by counting: a pass that counts, a pass that adds the counts up, and a pass
that puts each item at the next slot of its bucket. -/
namespace Rudb.Lib
open List Option
variable {α β : Type} {bucket : α → Nat} {value : α → β} {items : List α}

def countNext (bucket : α → Nat) (counts : List Nat) (items : List α) : List Nat :=
  items.foldl (fun counts item => counts.modify (bucket item + 1) (· + 1)) counts

def sums (total : Nat) : List Nat → List Nat
  | [] => []
  | count :: rest => (total + count) :: sums (total + count) rest

/-- Each item at the next slot of its bucket. -/
def placeNext (bucket : α → Nat) (value : α → β) (state : List Nat × List β) (items : List α) : List Nat × List β :=
  items.foldl (fun state item =>
    (state.1.modify (bucket item) (· + 1), state.2.set (state.1.getD (bucket item) 0) (value item))) state

def dealt (bucket : α → Nat) (items : List α) (limit : Nat) : List α :=
  (List.range limit).flatMap fun place => items.filter (bucket · = place)

def before (bucket : α → Nat) (items : List α) (place : Nat) : Nat := items.countP (bucket · < place)

theorem countP_lt_succ (p : α → Bool) (place : Nat) :
    items.countP (fun item => p item && decide (bucket item < place + 1)) =
      items.countP (fun item => p item && decide (bucket item < place)) +
        (items.filter (bucket · = place)).countP p := by
  rw [countP_filter]
  induction items with
  | nil => rfl
  | cons item items ih =>
    simp only [countP_cons, ih]
    rcases lt_trichotomy (bucket item) place with less | same | more
    · simp [less, Nat.lt_succ_of_lt less, less.ne]
      omega
    · simp [same]
      omega
    have ne : bucket item ≠ place := by omega
    have notLess : ¬bucket item < place := by omega
    have notLess' : ¬bucket item < place + 1 := by omega
    simp [ne, notLess, notLess']

theorem before_succ (place : Nat) :
    before bucket items (place + 1) = before bucket items place + (items.filter (bucket · = place)).length := by
  simpa [before] using @countP_lt_succ _ bucket items (fun _ => true) place

@[simp] theorem before_zero : before bucket items 0 = 0 := by simp [before]

theorem monotone_before : Monotone (before bucket items) :=
  monotone_nat_of_le_succ fun place => by rw [before_succ]; omega

theorem before_all (inside : ∀ item ∈ items, bucket item < limit) : before bucket items limit = items.length := by
  rw [before, countP_eq_length]
  exact fun item member => decide_eq_true (inside item member)

theorem dealt_succ (limit : Nat) :
    dealt bucket items (limit + 1) = dealt bucket items limit ++ items.filter (bucket · = limit) := by
  simp [dealt, range_succ, flatMap_append]

theorem dealt_add (limit more : Nat) : dealt bucket items (limit + more) =
      dealt bucket items limit ++ (range more).flatMap fun index => items.filter (bucket · = limit + index) := by
  rw [dealt, range_add, flatMap_append, flatMap_map]
  rfl

/-- What passes among the items of the buckets before one. -/
theorem countP_dealt (p : α → Bool) (limit : Nat) :
    (dealt bucket items limit).countP p = items.countP fun item => p item && decide (bucket item < limit) := by
  induction limit with
  | zero => simp [dealt]
  | succ limit ih => rw [dealt_succ, countP_append, ih, countP_lt_succ]

theorem length_dealt (limit : Nat) : (dealt bucket items limit).length = before bucket items limit := by
  induction limit with
  | zero => simp [dealt]
  | succ limit ih => rw [dealt_succ, length_append, ih, before_succ]

/-- The items from a bucket on: its own, and those of the buckets after it. -/
theorem dealt_drop {limit place : Nat} (lt : place < limit) :
    (dealt bucket items limit).drop (before bucket items place) =
      items.filter (bucket · = place) ++ (dealt bucket items limit).drop (before bucket items (place + 1)) := by
  obtain ⟨more, rfl⟩ := Nat.exists_eq_add_of_lt lt
  rw [show place + more + 1 = place + 1 + more by omega, dealt_add (place + 1), ← length_dealt (place + 1), drop_left,
    dealt_succ, append_assoc, drop_left' (length_dealt place)]

/-- The items of a bucket lie behind those of the buckets before it. -/
theorem dealt_getElem? (lt : place < limit)
    (inside : index < (items.filter (bucket · = place)).length) :
    (dealt bucket items limit)[before bucket items place + index]? = (items.filter (bucket · = place))[index]? := by
  induction limit with
  | zero => exact absurd lt (Nat.not_lt_zero _)
  | succ limit ih =>
    rw [dealt_succ]
    rcases lt_or_eq_of_le (Nat.le_of_lt_succ lt) with less | rfl
    · have room : before bucket items place + index < (dealt bucket items limit).length := by
        have more : before bucket items (place + 1) ≤ before bucket items limit :=
          monotone_before (Nat.succ_le_of_lt less)
        rw [before_succ] at more
        rw [length_dealt]
        omega
      rw [getElem?_append_left room, ih less]
    · rw [getElem?_append_right (by rw [length_dealt]; omega), length_dealt, Nat.add_sub_cancel_left]

theorem countNext_getElem? (counts : List Nat) (items : List α) (place : Nat) :
    (countNext bucket counts items)[place]? = counts[place]?.map (· + items.countP (bucket · + 1 = place)) := by
  induction items generalizing counts with
  | nil => simp [countNext]
  | cons item items ih =>
    rw [countNext, foldl_cons, ← countNext, ih, getElem?_modify]
    cases counts[place]? with
    | none => rfl
    | some count =>
      by_cases here : bucket item + 1 = place
      · simp [here]
        omega
      · simp [here]

theorem length_countNext (counts : List Nat) (items : List α) :
    (countNext bucket counts items).length = counts.length := by
  induction items generalizing counts with
  | nil => rfl
  | cons item items ih => rw [countNext, foldl_cons, ← countNext, ih, length_modify]

theorem sums_getElem? (total : Nat) (counts : List Nat) (lt : place < counts.length) :
    (sums total counts)[place]? = some (total + (counts.take (place + 1)).sum) := by
  induction counts generalizing total place with
  | nil => simp at lt
  | cons count counts ih =>
    cases place with
    | zero => simp [sums]
    | succ place =>
      rw [sums, getElem?_cons_succ, ih _ (by simpa using lt), take_succ_cons, sum_cons, add_assoc]

def starts (bucket : α → Nat) (limit : Nat) (items : List α) : List Nat :=
  sums 0 (countNext bucket (List.replicate (limit + 1) 0) items)

theorem starts_getElem? (le : place ≤ limit) :
    (starts bucket limit items)[place]? = some (before bucket items place) := by
  have counted (place : Nat) (le : place ≤ limit) : (countNext bucket (replicate (limit + 1) 0) items)[place]? =
      some (items.countP (bucket · + 1 = place)) := by
    rw [countNext_getElem?, getElem?_replicate_of_lt (by omega), map_some, zero_add]
  rw [starts, sums_getElem? 0 _ (by rw [length_countNext, length_replicate]; omega), zero_add]
  congr 1
  induction place with
  | zero =>
    rw [take_add_one, counted 0 le]
    simp
  | succ place ih =>
    rw [take_add_one, counted (place + 1) le, sum_append, ih (by omega), before_succ]
    simp [countP_eq_length_filter]

theorem starts_getD (le : place ≤ limit) :
    (starts bucket limit items).getD place 0 = before bucket items place := by
  rw [getD_eq_getElem?_getD, starts_getElem? le, getD_some]

/-- The slots and the places filled after some of the items. -/
structure Placing (bucket : α → Nat) (value : α → β) (items : List α) (limit : Nat) (done : List α)
    (state : List Nat × List β) : Prop where
  slots : ∀ place < limit, state.1[place]? = some (before bucket items place + (done.filter (bucket · = place)).length)
  length : state.2.length = items.length
  filled : ∀ place < limit, ∀ (index : Nat) item, (done.filter (bucket · = place))[index]? = some item →
    state.2[before bucket items place + index]? = some (value item)

/-- The items of a bucket end where the next bucket starts. -/
theorem before_add_lt (inside : ∀ item ∈ items, bucket item < limit) (lt : place < limit)
    (small : index < (items.filter (bucket · = place)).length) : before bucket items place + index < items.length := by
  have more : before bucket items (place + 1) ≤ before bucket items limit := monotone_before (Nat.succ_le_of_lt lt)
  rw [before_succ, before_all inside] at more
  omega

theorem Placing.step
    (inside : ∀ item ∈ items, bucket item < limit) (split : items = done ++ item :: rest)
    (placing : Placing bucket value items limit done state) : Placing bucket value items limit (done ++ [item])
      (state.1.modify (bucket item) (· + 1), state.2.set (state.1.getD (bucket item) 0) (value item)) := by
  obtain ⟨slots, length, filled⟩ := placing
  have here : bucket item < limit := inside item (by rw [split]; simp)
  have slot : state.1.getD (bucket item) 0 =
      before bucket items (bucket item) + (done.filter (bucket · = bucket item)).length := by
    rw [getD_eq_getElem?_getD, slots _ here, getD_some]
  -- the items of a bucket that are done are the first of it
  have first (place : Nat) : (done.filter (bucket · = place)).length +
    ((item :: rest).filter (bucket · = place)).length =
      (items.filter (bucket · = place)).length := by
    rw [split, filter_append, length_append]
  have own : (done.filter (bucket · = bucket item)).length < (items.filter (bucket · = bucket item)).length := by
    have := first (bucket item)
    rw [filter_cons_of_pos (by simp), length_cons] at this
    omega
  refine ⟨fun place lt => ?_, by rw [length_set, length], fun place lt index found at_ => ?_⟩
  · rw [getElem?_modify, slots place lt]
    by_cases same : bucket item = place
    · simp [same]
      omega
    · simp [same]
  rw [slot]
  by_cases same : bucket item = place
  · subst same
    rw [filter_append, filter_cons_of_pos (by simp), filter_nil] at at_
    rcases lt_or_ge index (done.filter (bucket · = bucket item)).length with less | ge
    · rw [getElem?_append_left less] at at_
      rw [List.getElem?_set_ne (by omega)]
      exact filled _ lt index found at_
    rw [getElem?_append_right ge, getElem?_singleton] at at_
    split at at_
    · obtain rfl : item = found := Option.some.inj at_
      rw [show index = (done.filter (bucket · = bucket item)).length by omega]
      exact getElem?_set_self (by rw [length]; exact before_add_lt inside here own)
    · cases at_
  · rw [filter_append, filter_cons_of_neg (by simpa using same), filter_nil, append_nil] at at_
    have small := (List.getElem?_eq_some_iff.mp at_).1
    rw [List.getElem?_set_ne]
    · exact filled place lt index found at_
    -- the slot is in another bucket's stretch
    have within := first place
    rcases Nat.lt_or_gt_of_ne same with less | more
    · have upTo : before bucket items (bucket item + 1) ≤ before bucket items place :=
        monotone_before (Nat.succ_le_of_lt less)
      rw [before_succ] at upTo
      omega
    have upTo : before bucket items (place + 1) ≤ before bucket items (bucket item) :=
      monotone_before (Nat.succ_le_of_lt more)
    rw [before_succ] at upTo
    omega

theorem placing_fold
    (inside : ∀ item ∈ items, bucket item < limit) (split : items = done ++ rest)
    (placing : Placing bucket value items limit done state) :
    Placing bucket value items limit items (placeNext bucket value state rest) := by
  induction rest generalizing done state with
  | nil =>
    rw [append_nil] at split
    exact split ▸ placing
  | cons item rest ih => exact ih (by rw [split, append_assoc]; rfl) (placing.step inside split)

/-- Dealt from where the buckets start, the items come out in the order of their buckets. -/
theorem placeNext_eq {limit : Nat} (inside : ∀ item ∈ items, bucket item < limit) {slots : List Nat} {out : List β}
    (slots_eq : ∀ place < limit, slots[place]? = some (before bucket items place)) (length : out.length = items.length) :
    (placeNext bucket value (slots, out) items).2 = (dealt bucket items limit).map value := by
  have start : Placing bucket value items limit [] (slots, out) :=
    ⟨fun place lt => slots_eq place lt, length, fun place lt index item at_ => by simp at at_⟩
  obtain ⟨-, length', filled⟩ := placing_fold inside rfl start
  refine ext_getElem? fun index => ?_
  rcases Nat.lt_or_ge index items.length with lt | ge
  · have first : before bucket items 0 ≤ index := by
      rw [before_zero]
      exact Nat.zero_le index
    have last : index < before bucket items limit := by rwa [before_all inside]
    obtain ⟨place, -, small, above, below⟩ := exists_falls (Nat.zero_le limit) first last
    rw [before_succ] at below
    obtain ⟨inner, rfl⟩ : ∃ inner, index = before bucket items place + inner := ⟨_, (Nat.add_sub_of_le above).symm⟩
    have within : inner < (items.filter (bucket · = place)).length := by omega
    rw [filled place small inner _ (getElem?_eq_getElem within), getElem?_map, dealt_getElem? small within,
      getElem?_eq_getElem within, map_some]
  · rw [getElem?_eq_none (by omega), getElem?_eq_none]
    rw [length_map, length_dealt, before_all inside]
    exact ge

end Rudb.Lib
