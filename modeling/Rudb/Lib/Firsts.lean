import Mathlib.Data.List.Induction

/-! The first of each kind in a list, in the order they come, for a relation that says when two are of
one kind. -/
namespace Rudb.Lib
open List
variable {α : Type} (same : α → α → Bool)

def pushNew (held : List α) (value : α) : List α := if held.any (same · value) then held else held ++ [value]

def firsts (values : List α) : List α := values.foldl (pushNew same) []

variable {same}

theorem firsts_concat (values : List α) (value : α) :
    firsts same (values ++ [value]) = pushNew same (firsts same values) value := by
  rw [firsts, foldl_append]
  rfl

/-- What comes later adds firsts behind those there are. -/
theorem firsts_prefix (values later : List α) : firsts same values <+: firsts same (values ++ later) := by
  induction later using reverseRecOn with
  | nil => simp
  | append_singleton later value ih =>
    rw [← append_assoc, firsts_concat, pushNew]
    split
    · exact ih
    · exact ih.trans (prefix_append _ _)

theorem firsts_pairwise (values : List α) : (firsts same values).Pairwise fun one other => same one other = false := by
  induction values using reverseRecOn with
  | nil => exact .nil
  | append_singleton values value ih =>
    rw [firsts_concat, pushNew]
    split
    · exact ih
    rename_i new
    refine pairwise_append.mpr ⟨ih, pairwise_singleton _ _, fun held member other is => ?_⟩
    rw [mem_singleton.mp is]
    simpa using fun same_ => new (any_eq_true.mpr ⟨held, member, same_⟩)

theorem mem_of_mem_firsts (member : value ∈ firsts same values) : value ∈ values := by
  induction values using reverseRecOn with
  | nil => exact member
  | append_singleton values other ih =>
    rw [firsts_concat, pushNew] at member
    split at member
    · exact mem_append_left _ (ih member)
    · exact (mem_append.mp member).elim (fun held => mem_append_left _ (ih held))
        (mem_append_right _)

/-- Whatever is in the list, one of its kind is among the firsts. -/
theorem exists_mem_firsts (refl : ∀ value, same value value = true) {values : List α} {value : α}
    (member : value ∈ values) : ∃ held ∈ firsts same values, same held value = true := by
  induction values using reverseRecOn with
  | nil => cases member
  | append_singleton values other ih =>
    rw [firsts_concat, pushNew]
    split
    · rename_i held
      rcases mem_append.mp member with before | last
      · exact ih before
      · rw [mem_singleton.mp last]
        exact any_eq_true.mp held
    rcases mem_append.mp member with before | last
    · obtain ⟨held, among, is⟩ := ih before
      exact ⟨held, mem_append_left _ among, is⟩
    · rw [mem_singleton.mp last]
      exact ⟨other, mem_append_right _ (mem_singleton_self _), refl other⟩

end Rudb.Lib
