import Mathlib.Data.List.Basic

/-! What the elements of a list give one after the other, when each can fail, and what is left of it
under a filter when the elements or what they give change. -/
namespace Rudb.Lib
open List

variable {α β : Type}

def gather (each : α → Option (List β)) : List α → Option (List β)
  | [] => some []
  | one :: rest => (each one).bind fun first => (gather each rest).map (first ++ ·)

theorem gather_cons :
    gather each (one :: rest) = some out ↔
      ∃ first, each one = some first ∧ ∃ later, gather each rest = some later ∧ first ++ later = out := by
  simp [gather, Option.bind_eq_some_iff]

/-- Nothing fails where no element does. -/
theorem gather_some (each : α → List β) (list : List α) :
    gather (fun one => some (each one)) list = some (list.flatMap each) := by
  induction list with
  | nil => rfl
  | cons one rest ih => simp [gather, ih]

/-- Elements that give nothing that passes can go, and the others give what passes in another way. -/
theorem gather_filter {keep : α → Bool} {passes : β → Bool} {list : List α}
    {out : List β}
    (step : ∀ one ∈ list, ∀ first, each one = some first →
      if keep one then ∃ second, other one = some second ∧ second.filter passes = first.filter passes
      else first.filter passes = [])
    (run : gather each list = some out) :
    ∃ out', gather other (list.filter keep) = some out' ∧ out'.filter passes = out.filter passes := by
  induction list generalizing out with
  | nil =>
    cases run
    exact ⟨[], rfl, rfl⟩
  | cons one rest ih =>
    obtain ⟨first, given, later, remaining, rfl⟩ := gather_cons.mp run
    obtain ⟨later', run', same⟩ := ih (fun one member => step one (mem_cons_of_mem _ member)) remaining
    have here := step one mem_cons_self first given
    by_cases kept : keep one = true
    · rw [if_pos kept] at here
      obtain ⟨second, given', alike⟩ := here
      rw [filter_cons_of_pos kept]
      refine ⟨second ++ later', gather_cons.mpr ⟨second, given', later', run', rfl⟩, ?_⟩
      rw [filter_append, filter_append, alike, same]
    rw [if_neg kept] at here
    rw [filter_cons_of_neg kept]
    refine ⟨later', run', ?_⟩
    rw [filter_append, here, nil_append, same]

end Rudb.Lib
