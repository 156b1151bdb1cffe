import Mathlib.Order.Basic
import Mathlib.Data.List.Basic
import Mathlib.Tactic.Order

/-! The smallest and the largest of some values, found in one pass over them. -/
namespace Extremes
variable {α : Type} [LinearOrder α]

/-- Two ends opened far enough for one more value. -/
def open_ (ends : Option α × Option α) (value : α) : Option α × Option α :=
  (some (match ends.1 with
    | none => value
    | some held => if value < held then value else held),
   some (match ends.2 with
    | none => value
    | some held => if held < value then value else held))

/-- Ends that are the smallest and the largest of the values, and none when there are no values. -/
inductive Of : List α → Option α × Option α → Prop
  | none : Of [] (none, none)
  | some {values : List α} {low high : α} (low_mem : low ∈ values) (high_mem : high ∈ values)
      (between : ∀ value ∈ values, low ≤ value ∧ value ≤ high) : Of values (some low, some high)

namespace Of
variable {values : List α} {ends : Option α × Option α}

section
variable (of : Of values ends)
include of

theorem snoc (value : α) : Of (values ++ [value]) (open_ ends value) := by
  cases of with
  | none => exact .some (by simp) (by simp) (by simp)
  | @some _ low high low_mem high_mem between =>
    refine .some ?_ ?_ fun other member => ?_
    · dsimp only
      split <;> simp [low_mem]
    · dsimp only
      split <;> simp [high_mem]
    dsimp only
    rcases List.mem_append.mp member with member | member
    · obtain ⟨above, below⟩ := between other member
      constructor <;> split <;> order
    · rw [List.mem_singleton.mp member]
      constructor <;> split <;> order

theorem foldl : Of (values ++ more) (more.foldl open_ ends) := by
  induction more generalizing values ends with
  | nil => simpa using of
  | cons value more ih => simpa using ih (of.snoc value)

/-- Values that there are have ends among them. -/
theorem exists_ends (some_ : values ≠ []) :
    ∃ low high, ends = (Option.some low, Option.some high) ∧ low ∈ values ∧ high ∈ values ∧
      ∀ value ∈ values, low ≤ value ∧ value ≤ high := by
  cases of with
  | none => exact absurd rfl some_
  | some low_mem high_mem between => exact ⟨_, _, rfl, low_mem, high_mem, between⟩

theorem fst_eq_none : ends.1 = Option.none ↔ values = [] := by
  cases of with
  | none => simp
  | some low_mem => simpa using List.ne_nil_of_mem low_mem

theorem snd_eq_none : ends.2 = Option.none ↔ values = [] := by
  cases of with
  | none => simp
  | some low_mem => simpa using List.ne_nil_of_mem low_mem

theorem fst_le (found : ends.1 = Option.some low) : low ∈ values ∧ ∀ value ∈ values, low ≤ value := by
  cases of with
  | none => cases found
  | some low_mem _ between =>
    cases found
    exact ⟨low_mem, fun value member => (between value member).1⟩

theorem le_snd (found : ends.2 = Option.some high) : high ∈ values ∧ ∀ value ∈ values, value ≤ high := by
  cases of with
  | none => cases found
  | some _ high_mem between =>
    cases found
    exact ⟨high_mem, fun value member => (between value member).2⟩

end

end Of
end Extremes
