import Mathlib
import Rudb.Storage.WaitDie

/-! When wait-die keeps row locks free of deadlock: as long as no handoff and no
late parking puts a transaction that holds rows behind an older one. -/
namespace Rudb.WaitDieProofs
open Rudb Park WaitDie Function Option

variable {s : Locks} {row : Nat} {txn waiter : TxnId} {word : Nat → LockWord}
  {queue : List Parked} {waiting : TxnId → Option Nat}

/-- The condition on a step. A writer parks behind a holder `Wait::allows` would
still let it wait for, and a row is let go only while everyone parked on it but
the oldest holds nothing. -/
def Ordered (s : Locks) : Event → Prop
  | .park txn => ∀ row holder, s.waiting txn = some row → (s.word row).holder = some holder →
      HoldsNothing s.word txn ∨ txn < holder
  | .release _ row => ∀ older younger, ⟨row, older, false⟩ ∈ s.queue →
      ⟨row, younger, false⟩ ∈ s.queue → older < younger → HoldsNothing s.word younger
  | _ => True

/-- Every wait goes from an older transaction to a younger one or starts at one
that holds nothing; the other fields say what a queue tells about the words. -/
structure Inv (word : Nat → LockWord) (queue : List Parked) (waiting : TxnId → Option Nat) : Prop where
  edge : ∀ row waiter holder, ⟨row, waiter, false⟩ ∈ queue → (word row).holder = some holder →
    HoldsNothing word waiter ∨ waiter < holder
  once : (queue.map Parked.me).Nodup
  granted : ∀ row txn, ⟨row, txn, true⟩ ∈ queue → (word row).holder = some txn
  awaited : ∀ row txn, ⟨row, txn, false⟩ ∈ queue →
    (word row).holder ≠ none ∧ (word row).waiters = true
  apart : ∀ txn row, waiting txn = some row → txn ∉ queue.map Parked.me

theorem not_mem_of_unparked (out : s.parked txn = false) : txn ∉ s.queue.map Parked.me := by
  simpa [Locks.parked] using out

theorem initial_inv : Inv initial.word initial.queue initial.waiting := by
  constructor
  · simp [initial]
  · exact List.nodup_nil
  · simp [initial]
  · simp [initial]
  · simp [initial]

theorem holdsNothing_update (nothing : HoldsNothing word waiter) (other : changed.holder ≠ some waiter) :
    HoldsNothing (update word row changed) waiter := by
  intro row'
  by_cases here : row' = row
  · simpa [here] using other
  · simpa [here] using nothing row'

theorem Inv.free_unparked (inv : Inv word queue waiting) (free : (word row).holder = none) :
    (⟨row, txn, mark⟩ : Parked) ∉ queue := by
  intro member
  cases mark with
  | false => exact (inv.awaited row txn member).1 free
  | true =>
    have named := inv.granted row txn member
    rw [free] at named
    contradiction

section
variable (inv : Inv word queue waiting)
include inv

/-- The word of a row nobody is parked on may change, as long as that hands the
row to nobody who is parked elsewhere. -/
theorem inv_update (unparked : ∀ txn mark, (⟨row, txn, mark⟩ : Parked) ∉ queue)
    (same : ∀ txn, txn ∈ queue.map Parked.me → changed.holder = some txn → (word row).holder = some txn) :
    Inv (update word row changed) queue waiting := by
  have elsewhere {row' txn mark} (member : (⟨row', txn, mark⟩ : Parked) ∈ queue) : row' ≠ row := by
    rintro rfl
    exact unparked txn mark member
  constructor
  · intro row' waiter holder member held
    rw [update_of_ne (elsewhere member)] at held
    refine (inv.edge row' waiter holder member held).imp (fun nothing => ?_) (fun older => older)
    apply holdsNothing_update nothing
    intro named
    exact nothing row (same waiter (List.mem_map.mpr ⟨_, member, rfl⟩) named)
  · exact inv.once
  · intro row' txn' member
    rw [update_of_ne (elsewhere member)]
    exact inv.granted row' txn' member
  · intro row' txn' member
    rw [update_of_ne (elsewhere member)]
    exact inv.awaited row' txn' member
  · exact inv.apart

theorem inv_take (out : txn ∉ queue.map Parked.me) (free : (word row).holder = none) :
    Inv (update word row ((word row).taken txn)) queue waiting := by
  apply inv_update inv (fun _ _ => inv.free_unparked free)
  intro txn' parked named
  cases some.inj named
  exact absurd parked out

theorem inv_waiting (goal : Option Nat) (out : goal ≠ none → txn ∉ queue.map Parked.me) :
    Inv word queue (update waiting txn goal) := by
  refine ⟨inv.edge, inv.once, inv.granted, inv.awaited, fun txn' row waits => ?_⟩
  by_cases here : txn' = txn
  · subst here
    exact out (by rw [update_self] at waits; simp [waits])
  · rw [update_of_ne here] at waits
    exact inv.apart txn' row waits

theorem inv_push (out : txn ∉ queue.map Parked.me) (idle : waiting txn = none) (held : (word row).holder ≠ none)
    (ordered : ∀ holder, (word row).holder = some holder → HoldsNothing word txn ∨ txn < holder) :
    Inv (update word row (word row).awaited) (queue ++ [⟨row, txn, false⟩]) waiting := by
  have same (row' : Nat) :
      (update word row (word row).awaited row').holder = (word row').holder := by
    by_cases here : row' = row
    · rw [here, update_self]; rfl
    · rw [update_of_ne here]
  have still {txn'} (nothing : HoldsNothing word txn') :
      HoldsNothing (update word row (word row).awaited) txn' := by
    intro row'
    rw [same]
    exact nothing row'
  constructor
  · intro row' waiter holder member named
    rw [same] at named
    rcases List.mem_append.mp member with old | new
    · exact (inv.edge row' waiter holder old named).imp still (fun older => older)
    · cases List.mem_singleton.mp new
      exact (ordered holder named).imp still (fun older => older)
  · rw [List.map_append, List.nodup_append]
    refine ⟨inv.once, by simp, fun u member v last same => ?_⟩
    rw [List.map_singleton, List.mem_singleton] at last
    rw [same, last] at member
    exact out member
  · intro row' txn' member
    rw [same]
    exact inv.granted row' txn' (by simpa using member)
  · intro row' txn' member
    by_cases here : row' = row
    · subst here
      simp [held, LockWord.awaited]
    · rw [update_of_ne here]
      exact inv.awaited row' txn' (by simpa [here] using member)
  · intro txn' row' waits
    have other : txn' ≠ txn := by
      rintro rfl
      simp [idle] at waits
    simpa [other] using inv.apart txn' row' waits

/-- No entry of the row is marked while a running transaction holds it. -/
theorem Inv.unmarked (out : txn ∉ queue.map Parked.me) (mine : (word row).holder = some txn) (txn' : TxnId) :
    (⟨row, txn', true⟩ : Parked) ∉ queue := by
  intro member
  have named := inv.granted row txn' member
  rw [mine, some.injEq] at named
  exact out (List.mem_map.mpr ⟨_, member, named.symm⟩)

/-- The row goes to the oldest waiter. Those left behind are younger than it, and
hold nothing by the condition. -/
theorem inv_handed (unmarked : ∀ txn, (⟨row, txn, true⟩ : Parked) ∉ queue)
    (found : Scanned row queue (some (best, heir)) more)
    (ordered : ∀ older younger, ⟨row, older, false⟩ ∈ queue → ⟨row, younger, false⟩ ∈ queue →
      older < younger → HoldsNothing word younger) :
    Inv (update word row (handed (word row) (some (best, heir)) more))
      (grant queue (some (best, heir))) waiting := by
  have ids : (grant queue (some (best, heir))).map Parked.me = queue.map Parked.me := by
    simpa [List.filterMap_eq_map] using
      filterMap_grant (fun parked => some parked.me) (fun _ => rfl) queue (some (best, heir))
  obtain ⟨parked, at_, waits, same⟩ := found.1
  have shape : parked = ⟨row, heir, false⟩ := by
    cases parked
    simp_all [Parked.awaits]
  rw [shape] at at_
  have first := List.mem_of_getElem? at_
  -- An unmarked entry stands at another index than the heir's, so it is not the heir's.
  have left {row' waiter} (member : ⟨row', waiter, false⟩ ∈ grant queue (some (best, heir))) :
      (⟨row', waiter, false⟩ : Parked) ∈ queue ∧ heir ≠ waiter := by
    obtain ⟨index, elsewhere, there⟩ := unmarked_of_mem_grant member
    refine ⟨List.mem_of_getElem? there, ?_⟩
    rintro rfl
    have one : (queue.map Parked.me)[index]? = some heir := by simp [there]
    have two : (queue.map Parked.me)[best]? = some heir := by simp [at_]
    have inside := (List.getElem?_eq_some_iff.mp one).1
    exact elsewhere ((List.getElem?_inj inside inv.once).mp (one.trans two.symm))
  have still {waiter} (other : heir ≠ waiter) (nothing : HoldsNothing word waiter) :
      HoldsNothing (update word row (handed (word row) (some (best, heir)) more)) waiter :=
    holdsNothing_update nothing (by simpa [handed] using other)
  constructor
  · intro row' waiter holder member held
    obtain ⟨old, other⟩ := left member
    by_cases here : row' = row
    · subst here
      left
      have older := (more_of_unmarked found member).2
      have strictly : heir < waiter := by
        rcases Nat.lt_or_eq_of_le older with younger | same
        · exact younger
        · exact absurd (TxnId.ext same) other
      exact still other (ordered heir waiter first old strictly)
    · rw [update_of_ne here] at held
      exact (inv.edge row' waiter holder old held).imp (still other) (fun older => older)
  · rw [ids]
    exact inv.once
  · intro row' txn member
    by_cases here : row' = row
    · subst here
      rw [update_self, (mem_grant at_ unmarked).mp member]
      rfl
    rw [update_of_ne here]
    obtain ⟨index, there⟩ := List.mem_iff_getElem?.mp member
    rw [getElem?_grant] at there
    split at there
    · rename_i same
      rw [← same, at_] at there
      simp only [map_some, some.injEq, Parked.mk.injEq] at there
      exact absurd there.1.symm here
    · exact inv.granted row' txn (List.mem_of_getElem? there)
  · intro row' txn member
    by_cases here : row' = row
    · subst here
      rw [update_self]
      exact ⟨by simp [handed], (more_of_unmarked found member).1⟩
    · rw [update_of_ne here]
      exact inv.awaited row' txn (left member).1
  · rw [ids]
    exact inv.apart

end

theorem inv_release (inv : Inv s.word s.queue s.waiting) (out : txn ∉ s.queue.map Parked.me)
    (mine : (s.word row).holder = some txn) (ordered : Ordered s (.release txn row)) :
    Inv (release s row).word (release s row).queue (release s row).waiting := by
  have unmarked := inv.unmarked out mine
  have freed (unwaited : ∀ txn, (⟨row, txn, false⟩ : Parked) ∉ s.queue) :
      Inv (update s.word row (s.word row).freed) s.queue s.waiting := by
    apply inv_update inv
    · intro txn mark
      cases mark with
      | false => exact unwaited txn
      | true => exact unmarked txn
    · simp [LockWord.freed]
  unfold release
  dsimp only
  split
  · have found := scan_spec row s.queue
    cases scanned : scan row s.queue 0 none false with
    | mk oldest more =>
      rw [scanned] at found
      cases oldest with
      | none => exact freed fun txn member => by simpa [Parked.awaits] using found.1 _ member
      | some first => exact inv_handed inv unmarked found ordered
  · rename_i quiet
    exact freed fun txn member => quiet (inv.awaited row txn member).2

theorem inv_swapRemove (inv : Inv word queue waiting) (at_ : queue[index]? = some entry) :
    Inv word (swapRemove queue index) waiting := by
  have perm := swapRemove_cons_perm at_
  have old {parked} (member : parked ∈ swapRemove queue index) : parked ∈ queue :=
    perm.mem_iff.mpr (List.mem_cons_of_mem _ member)
  have ids := perm.map Parked.me
  constructor
  · exact fun row waiter holder member => inv.edge row waiter holder (old member)
  · exact (List.nodup_cons.mp (ids.nodup_iff.mp inv.once)).2
  · exact fun row txn member => inv.granted row txn (old member)
  · exact fun row txn member => inv.awaited row txn (old member)
  · intro txn row waits member
    exact inv.apart txn row waits (ids.mem_iff.mpr (List.mem_cons_of_mem _ member))

theorem inv_leave (inv : Inv s.word s.queue s.waiting) (at_ : s.queue[index]? = some entry) :
    Inv (leave s row index).word (leave s row index).queue (leave s row index).waiting := by
  have gone := inv_swapRemove inv at_
  unfold leave
  dsimp only
  split
  · exact gone
  rename_i last
  apply inv_update gone
  · intro txn mark member
    exact last (List.any_eq_true.mpr ⟨_, member, by simp⟩)
  · exact fun txn _ named => named

theorem unparked_of_running (running : s.running txn = true) : txn ∉ s.queue.map Parked.me := by
  apply not_mem_of_unparked
  simp only [Locks.running, Bool.and_eq_true, Bool.not_eq_true'] at running
  exact running.1

/-- One step under the condition keeps every wait in order. -/
theorem next_inv (inv : Inv s.word s.queue s.waiting) (ordered : Ordered s event)
    (done : next s event = some s') : Inv s'.word s'.queue s'.waiting := by
  cases event with
  | claim txn row =>
    simp only [next, ite_none_right_eq_some, some.injEq] at done
    obtain ⟨⟨running, free⟩, rfl⟩ := done
    exact inv_take inv (unparked_of_running running) free
  | await txn row wait =>
    simp only [next] at done
    split at done
    · simp only [ite_none_right_eq_some, some.injEq] at done
      obtain ⟨⟨running, -, -⟩, rfl⟩ := done
      exact inv_waiting inv (some row) fun _ => unparked_of_running running
    · contradiction
  | take txn =>
    simp only [next] at done
    split at done
    · rename_i row waits
      simp only [ite_none_right_eq_some, some.injEq] at done
      obtain ⟨free, rfl⟩ := done
      exact inv_waiting (inv_take inv (inv.apart txn row waits) free) none (by simp)
    · contradiction
  | giveUp txn =>
    simp only [next] at done
    split at done
    · simp only [ite_none_right_eq_some, some.injEq] at done
      obtain ⟨-, rfl⟩ := done
      exact inv_waiting inv none (by simp)
    · contradiction
  | park txn =>
    simp only [next] at done
    split at done
    · rename_i row waits
      simp only [ite_none_right_eq_some, some.injEq] at done
      obtain ⟨held, rfl⟩ := done
      have idle : Inv s.word s.queue (update s.waiting txn none) :=
        inv_waiting inv none (by simp)
      exact inv_push idle (inv.apart txn row waits) (update_self ..) held
        (fun holder named => ordered row holder waits named)
    · contradiction
  | release txn row =>
    simp only [next, ite_none_right_eq_some, some.injEq] at done
    obtain ⟨⟨running, mine⟩, rfl⟩ := done
    exact inv_release inv (unparked_of_running running) mine ordered
  | wake txn =>
    simp only [next, bind_eq_bind, bind_eq_some_iff, ite_none_right_eq_some,
      some.injEq] at done
    obtain ⟨index, -, parked, at_, -, rfl⟩ := done
    exact inv_swapRemove inv at_
  | timeout txn =>
    simp only [next, bind_eq_bind, bind_eq_some_iff, ite_none_left_eq_some,
      some.injEq] at done
    obtain ⟨index, -, parked, at_, -, rfl⟩ := done
    exact inv_leave inv at_

theorem reachable_inv (reached : Reachable Ordered s) : Inv s.word s.queue s.waiting := by
  induction reached with
  | initial => exact initial_inv
  | step _ _ ordered done ih => exact next_inv ih ordered done

theorem lt_of_waits (inv : Inv s.word s.queue s.waiting) (awaited : ∃ txn, Waits s txn first)
    (chain : Relation.TransGen (Waits s) first last) : first < last := by
  have edge {a b} (busy : ∃ txn, Waits s txn a) (waits : Waits s a b) : a < b := by
    obtain ⟨_, row, -, held⟩ := busy
    obtain ⟨row', member, named⟩ := waits
    exact (inv.edge row' a b member named).resolve_left fun nothing => nothing row held
  induction chain with
  | single waits => exact edge awaited waits
  | tail chain waits ih =>
    obtain ⟨before, -, step⟩ := Relation.TransGen.tail'_iff.mp chain
    exact Nat.lt_trans ih (edge ⟨_, step⟩ waits)

/-- In every run whose parkings and handoffs keep transactions that hold rows
behind younger ones only, no cycle of waits forms. -/
theorem row_locks_acyclic (reached : Reachable Ordered s) (txn : TxnId) : ¬ Relation.TransGen (Waits s) txn txn := by
  intro cycle
  obtain ⟨before, -, last⟩ := Relation.TransGen.tail'_iff.mp cycle
  have grows := lt_of_waits (reachable_inv reached) ⟨before, last⟩ cycle
  exact Nat.lt_irrefl _ grows

theorem one_fits : 1 < 2 ^ 61 := by decide

theorem two_fits : 2 < 2 ^ 61 := by decide

def oldest : TxnId := ⟨1, one_fits⟩

def middle : TxnId := ⟨2, two_fits⟩

def youngest : TxnId := ⟨3, by decide⟩

private theorem reached_by (event : Event) (reached : Reachable ok s)
    (truthful : Truthful s event) (met : ok s event) (done : next s event = some s') : Reachable ok s' :=
  .step reached truthful met done

/-- A writer that holds nothing parks behind an older one: allowed, and no cycle. -/
theorem row_locks_acyclic_parked : ∃ s, Waits s middle oldest ∧ Reachable Ordered s ∧
      ∀ txn, ¬ Relation.TransGen (Waits s) txn txn := by
  have start : Reachable Ordered initial := .initial
  have claimed := reached_by (.claim oldest 0) start trivial trivial rfl
  have nothing : HoldsNothing (Function.update initial.word 0 ((initial.word 0).taken oldest))
      middle := holdsNothing_update (fun _ => by simp [initial]) (by decide)
  have admitted :=
    reached_by (.await middle 0 ⟨10, true⟩) claimed (fun _ => nothing) trivial rfl
  have parked := reached_by (.park middle) admitted trivial (fun _ _ _ _ => .inl nothing) rfl
  exact ⟨_, ⟨0, by decide, rfl⟩, parked, row_locks_acyclic parked⟩

/-- Handing a row to its oldest waiter leaves a younger one, which holds a row
itself, parked behind an older transaction. That one may then wait for the row
of the younger, because it is older. -/
theorem row_locks_deadlock : ∃ s, Reachable (fun _ _ => True) s ∧ Relation.TransGen (Waits s) oldest oldest := by
  have start : Reachable (fun _ _ => True) initial := .initial
  have claimed := reached_by (.claim youngest 0) start trivial trivial rfl
  have held := reached_by (.claim middle 1) claimed trivial trivial rfl
  -- The youngest holds row 0, the middle one holds row 1 and waits for row 0, then the oldest does.
  have admitted :=
    reached_by (.await middle 0 ⟨10, false⟩) held (fun holds => nomatch holds) trivial rfl
  have parked := reached_by (.park middle) admitted trivial trivial rfl
  have admitted :=
    reached_by (.await oldest 0 ⟨10, false⟩) parked (fun holds => nomatch holds) trivial rfl
  have parked := reached_by (.park oldest) admitted trivial trivial rfl
  -- The release hands row 0 to the oldest, which then waits for row 1.
  have handed := reached_by (.release youngest 0) parked trivial trivial rfl
  have woken := reached_by (.wake oldest) handed trivial trivial rfl
  have admitted :=
    reached_by (.await oldest 1 ⟨10, false⟩) woken (fun holds => nomatch holds) trivial rfl
  have parked := reached_by (.park oldest) admitted trivial trivial rfl
  refine ⟨_, parked, .tail (b := middle) (.single ?_) ?_⟩
  · exact ⟨1, by decide, rfl⟩
  · exact ⟨0, by decide, rfl⟩

end Rudb.WaitDieProofs
