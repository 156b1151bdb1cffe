import Mathlib.Data.Nat.Count
import Mathlib.Data.Finset.Card
import Mathlib.Data.List.Range

/-! Counting the places below a bound where a predicate holds, finding the place of a count, and the
search for the block of places a count falls in. -/
namespace Rudb.Lib
open List

def tally (p : Nat → Bool) (bound : Nat) : Nat := Nat.count (fun place => p place = true) bound

/-- The place that passes and has so many passing places before it. -/
def IsNth (p : Nat → Bool) (nth place : Nat) : Prop := p place = true ∧ tally p place = nth

def places (p : Nat → Bool) (bound : Nat) : List Nat := (List.range bound).filter p

section tally
variable {p : Nat → Bool} {place bound : Nat}

@[simp] theorem tally_zero : tally p 0 = 0 := Nat.count_zero _

theorem tally_succ : tally p (bound + 1) = tally p bound + if p bound then 1 else 0 := Nat.count_succ _ _

theorem tally_add (first rest : Nat) : tally p (first + rest) =
    tally p first + tally (fun place => p (first + place)) rest :=
  Nat.count_add _ _ _

theorem tally_mono (le : one ≤ other) : tally p one ≤ tally p other := Nat.count_monotone _ le

/-- Where nothing passes, no place does. -/
theorem not_of_tally_eq_zero (zero : tally p bound = 0) (lt : place < bound) : p place = false := by
  by_contra set
  have more := tally_mono (p := p) (Nat.succ_le_of_lt lt)
  rw [tally_succ, if_pos (by simpa using set)] at more
  omega

theorem tally_le : tally p bound ≤ bound := Nat.count_le _

theorem tally_congr (same : ∀ place < bound, p place = q place) : tally p bound = tally q bound := by
  induction bound with
  | zero => rfl
  | succ bound ih =>
    rw [tally_succ, tally_succ, ih fun place lt => same place (by omega), same bound (by omega)]

/-- The places that do not pass are the others. -/
theorem tally_not : tally (fun place => !p place) bound = bound - tally p bound := by
  induction bound with
  | zero => rfl
  | succ bound ih =>
    have le := @tally_le p bound
    rw [tally_succ, tally_succ, ih]
    cases p bound
    · simp
      omega
    · simp

theorem tally_add_not : tally p bound + tally (fun place => !p place) bound = bound := by
  have le := @tally_le p bound
  rw [tally_not]
  omega

/-- Where nothing passes from a place on, the count stays. -/
theorem tally_eq_of_none (le : bound ≤ other) (none_ : ∀ place, bound ≤ place → p place = false) :
    tally p other = tally p bound := by
  obtain ⟨rest, rfl⟩ := Nat.exists_eq_add_of_le le
  clear le
  induction rest with
  | zero => rfl
  | succ rest ih => rw [← add_assoc, tally_succ, ih, none_ _ (Nat.le_add_right _ _)]; rfl

theorem IsNth.unique (one : IsNth p nth place) (two : IsNth p nth other) : place = other :=
  Nat.count_injective one.1 two.1 (one.2.trans two.2.symm)

theorem IsNth.lt (here : IsNth p nth place) (count : nth < tally p bound) : place < bound := by
  by_contra past
  have le := tally_mono (p := p) (not_lt.mp past)
  rw [here.2] at le
  omega

theorem IsNth.lt_tally (here : IsNth p nth place) (below : place < bound) : nth < tally p bound := by
  rw [← here.2]
  exact Nat.count_strict_mono here.1 below

theorem exists_isNth (count : nth < tally p bound) : ∃ place, IsNth p nth place := by
  induction bound with
  | zero => simp at count
  | succ bound ih =>
    by_cases before : nth < tally p bound
    · exact ih before
    rw [tally_succ] at count
    cases here : p bound with
    | false =>
      rw [here, if_neg (by simp)] at count
      omega
    | true =>
      rw [here, if_pos rfl] at count
      exact ⟨bound, here, by omega⟩

theorem places_succ : places p (bound + 1) = places p bound ++ if p bound then [bound] else [] := by
  unfold places
  rw [range_succ, filter_append]
  cases here : p bound <;> simp [here]

@[simp] theorem length_places : (places p bound).length = tally p bound := by
  induction bound with
  | zero => rfl
  | succ bound ih =>
    rw [places_succ, length_append, ih, tally_succ]
    cases p bound <;> simp

theorem places_nth (here : (places p bound)[nth]? = some place) : IsNth p nth place ∧ place < bound := by
  induction bound with
  | zero => simp [places] at here
  | succ bound ih =>
    rw [places_succ] at here
    by_cases before : nth < (places p bound).length
    · rw [getElem?_append_left before] at here
      exact ⟨(ih here).1, Nat.lt_succ_of_lt (ih here).2⟩
    rw [getElem?_append_right (not_lt.mp before)] at here
    cases passes : p bound with
    | false => simp [passes] at here
    | true =>
      rw [passes, if_pos rfl, getElem?_singleton] at here
      split at here
      · rename_i last
        cases here
        rw [length_places] at last before
        exact ⟨⟨passes, by omega⟩, by omega⟩
      · cases here

theorem places_getElem? (here : IsNth p nth place) (below : place < bound) : (places p bound)[nth]? = some place := by
  have inside : nth < (places p bound).length := by simpa using here.lt_tally below
  have found := getElem?_eq_getElem inside
  rw [found, (places_nth found).1.unique here]

/-- A search that finds each of the places that pass, and stops after the last. -/
theorem finds_iff {select : Nat → Option Nat}
    (finds : ∀ {nth}, nth < tally p bound → ∃ place, select nth = some place ∧ IsNth p nth place ∧ place < bound)
    (stops : ∀ {nth}, tally p bound ≤ nth → select nth = none) (nth place : Nat) :
    select nth = some place ↔ place < bound ∧ p place = true ∧ tally p place = nth := by
  constructor
  · intro found
    rcases lt_or_ge nth (tally p bound) with lt | past
    · obtain ⟨_, same, here, below⟩ := finds lt
      cases same.symm.trans found
      exact ⟨below, here⟩
    · rw [stops past] at found
      cases found
  · rintro ⟨below, here⟩
    obtain ⟨_, found, there, -⟩ := finds (IsNth.lt_tally here below)
    rw [found, there.unique here]

end tally

/-- Passing places listed once each are as many as the list is long. -/
theorem tally_eq_length {listed : List Nat} (once : listed.Nodup)
    (passes : ∀ place, p place = true ↔ place ∈ listed) (below : ∀ place ∈ listed, place < bound) :
    tally p bound = listed.length := by
  have same : (places p bound).Perm listed := by
    refine (perm_ext_iff_of_nodup (nodup_range.filter _) once).mpr fun place => ?_
    rw [mem_filter, mem_range, passes]
    exact ⟨And.right, fun member => ⟨below place member, member⟩⟩
  rw [← same.length_eq, length_places]

/-- Places that rise with their number: the count below one is how many have a smaller place. -/
theorem tally_rising {p : Nat → Bool} {count : Nat} {at' : Nat → Nat}
    (rising : ∀ one other, one < other → other < count → at' one < at' other)
    (passes : ∀ place, p place = true ↔ ∃ index < count, at' index = place) {index bound : Nat} (le : index ≤ count)
    (below : ∀ one < index, at' one < bound) (above : ∀ one, index ≤ one → one < count → bound ≤ at' one) :
    tally p bound = index := by
  have same : (Finset.range bound).filter (fun place => p place = true) = (Finset.range index).image at' := by
    ext place
    simp only [Finset.mem_filter, Finset.mem_range, Finset.mem_image, passes]
    constructor
    · rintro ⟨lt, one, lt', rfl⟩
      refine ⟨one, ?_, rfl⟩
      by_contra past
      have := above one (not_lt.mp past) lt'
      omega
    · rintro ⟨one, lt, rfl⟩
      exact ⟨below one lt, one, by omega, rfl⟩
  rw [tally, Nat.count_eq_card_filter_range, same, Finset.card_image_of_injOn, Finset.card_range]
  intro one member other member' equal
  simp only [Finset.coe_range, Set.mem_Iio] at member member'
  rcases lt_trichotomy one other with lt | rfl | gt
  · have := rising one other lt (by omega)
    omega
  · rfl
  · have := rising other one gt (by omega)
    omega

/-- The block a count falls in: no more are before it, and more are before the next one. -/
def Falls (before : Nat → Nat) (nth block : Nat) : Prop := before block ≤ nth ∧ nth < before (block + 1)

section
variable {before : Nat → Nat} (mono : Monotone before)
include mono

theorem Falls.le (here : Falls before nth block) (count : before other ≤ nth) : other ≤ block := by
  by_contra past
  have le : before (block + 1) ≤ before other := mono (by omega)
  have := here.2
  omega

theorem Falls.unique (one : Falls before nth block) (two : Falls before nth other) : block = other :=
  le_antisymm (two.le mono one.1) (one.le mono two.1)

end

theorem exists_falls (le : low ≤ high) (first : before low ≤ nth)
    (last : nth < before high) : ∃ block, low ≤ block ∧ block < high ∧ Falls before nth block := by
  induction high, le using Nat.le_induction with
  | base => omega
  | succ high le ih =>
    by_cases here : nth < before high
    · obtain ⟨block, ge, lt, falls⟩ := ih here
      exact ⟨block, ge, by omega, falls⟩
    · exact ⟨high, le, by omega, not_lt.mp here, last⟩

end Rudb.Lib
