import Mathlib.Order.Bounds.Basic
import Mathlib.Data.Set.Lattice

/-! Rounds that work only on what the round before added. When a round of a union is the union of the
rounds, they reach the least set that holds a start and is closed under a round. -/
namespace Rudb.Lib
variable {α : Type} {round : Set α → Set α} {start out working : Set α}

/-- The sets that hold a start and what a round of them makes. -/
def Closed (round : Set α → Set α) (start : Set α) : Set (Set α) := {set | start ⊆ set ∧ round set ⊆ set}

/-- What rounds so far have found, and what of it the next one works on. -/
structure Rounds (round : Set α → Set α) (start out working : Set α) : Prop where
  start_sub : start ⊆ out
  least : ∀ set ∈ Closed round start, out ⊆ set
  /-- A round of what was worked on is found. -/
  done : ∃ behind, out = behind ∪ working ∧ round behind ⊆ out

namespace Rounds

theorem begin' (nothing : round ∅ = ∅) : Rounds round start start start :=
  ⟨subset_rfl, fun _ closed => closed.1, ∅, by simp, by simp [nothing]⟩

/-- A round of what the next one works on, of which all that was not found is worked on next. -/
theorem next (union : ∀ one other, round (one ∪ other) = round one ∪ round other)
    (rounds : Rounds round start out working) (new : out ∪ made = out ∪ round working) :
    Rounds round start (out ∪ made) made := by
  obtain ⟨behind, split, found⟩ := rounds.done
  refine ⟨rounds.start_sub.trans Set.subset_union_left, fun set closed => ?_, out, rfl, ?_⟩
  · have inside : out ⊆ set := rounds.least set closed
    have working_sub : working ⊆ set := (split ▸ Set.subset_union_right : working ⊆ out).trans inside
    have mono : round set = round working ∪ round set := by rw [← union, Set.union_eq_self_of_subset_left working_sub]
    rw [new]
    exact Set.union_subset inside ((mono ▸ Set.subset_union_left : round working ⊆ round set).trans closed.2)
  · have image : round out = round behind ∪ round working := by rw [← union, ← split]
    rw [new, image]
    exact Set.union_subset (found.trans Set.subset_union_left) Set.subset_union_right

theorem isLeast (rounds : Rounds round start out ∅) : IsLeast (Closed round start) out := by
  obtain ⟨behind, split, found⟩ := rounds.done
  rw [Set.union_empty] at split
  subst split
  exact ⟨⟨rounds.start_sub, found⟩, fun set closed => rounds.least set closed⟩

end Rounds

end Rudb.Lib
