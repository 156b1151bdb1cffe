import Mathlib.Data.List.Perm.Basic
import Rudb.Storage.Stamp

/-! Waiting on a row lock: the lock word, the queue of a bucket of the parking table, and what
`wait`, `take` and `release` do to them in one atomic access. `Handoff` interleaves these
accesses; `WaitDie` takes each call whole. Embeds park.rs. -/
namespace Rudb.Park
open Rudb List

/-- The lock word of a row: 0 when free, else the holder's id with `HELD` set,
beside the `WAITERS` and `DELTA` bits. -/
structure LockWord where
  holder : Option TxnId := none
  waiters : Bool := false
  delta : Bool := false
  deriving DecidableEq

namespace LockWord

/-- `me | (word & (WAITERS | DELTA))`: a free row taken for `txn`. -/
def taken (word : LockWord) (txn : TxnId) : LockWord := { word with holder := some txn }

/-- `word | WAITERS`. -/
def awaited (word : LockWord) : LockWord := { word with waiters := true }

/-- `word & !WAITERS`. -/
def unawaited (word : LockWord) : LockWord := { word with waiters := false }

/-- `word & DELTA`: the row let go with nobody parked on it. -/
def freed (word : LockWord) : LockWord := { delta := word.delta }

/-- What a parking transaction tries to put in the word: the row itself when it
was let go meanwhile, else the bit that makes the holder look for it. -/
def parking (word : LockWord) (txn : TxnId) : LockWord :=
  if word.holder.isNone then word.taken txn else word.awaited

end LockWord

/-- `Wait`: whether and how long a writer that finds a row held may wait for it. -/
structure Wait where
  timeout : Nat
  holdsNothing : Bool

/-- `Wait::NEVER`. -/
def Wait.never : Wait := ⟨0, false⟩

/-- `Wait::allows`: wait-die. A smaller id is an older transaction. -/
def Wait.allows (wait : Wait) (me holder : TxnId) : Bool :=
  wait.timeout != 0 && (wait.holdsNothing || decide (me < holder))

/-- A transaction parked on the row whose lock word is at `key`. -/
structure Parked where
  key : Nat
  me : TxnId
  granted : Bool
  deriving DecidableEq

/-- `parked.key == key && parked.me == me`. -/
def Parked.isAt (key : Nat) (me : TxnId) (parked : Parked) : Bool :=
  parked.key == key && parked.me == me

/-- `parked.key == key && !parked.granted`, a waiter a release still has to serve. -/
def Parked.awaits (key : Nat) (parked : Parked) : Bool := parked.key == key && !parked.granted

/-- The scan of `release`: the index and the id of the oldest waiter of `key` that
was not handed the row yet, and whether more are parked. -/
def scan (key : Nat) : List Parked → Nat → Option (Nat × TxnId) → Bool → Option (Nat × TxnId) × Bool
  | [], _, oldest, more => (oldest, more)
  | parked :: rest, index, oldest, more =>
    if parked.awaits key then
      match oldest with
      | some (best, id) =>
        if id < parked.me then scan key rest (index + 1) (some (best, id)) true
        else scan key rest (index + 1) (some (index, parked.me)) true
      | none => scan key rest (index + 1) (some (index, parked.me)) more
    else scan key rest (index + 1) oldest more

/-- The word `release` stores: the oldest waiter's id, with `WAITERS` while more
are parked, and 0 when none is, beside the `DELTA` the word has then. -/
def handed (word : LockWord) : Option (Nat × TxnId) → Bool → LockWord
  | none, _ => word.freed
  | some (_, id), more => ⟨some id, more, word.delta⟩

/-- `queue[at].granted = true` for the waiter the row was handed to. -/
def grant (queue : List Parked) : Option (Nat × TxnId) → List Parked
  | none => queue
  | some (index, _) => queue.modify index fun parked => { parked with granted := true }

/-- `Vec::swap_remove`: the last element takes the place of the one removed. -/
def swapRemove (queue : List α) (index : Nat) : List α :=
  match queue.getLast? with
  | none => []
  | some last => (queue.set index last).dropLast

theorem swapRemove_perm (queue : List α) (index : Nat) (inside : index < queue.length) :
    (swapRemove queue index).Perm (queue.eraseIdx index) := by
  induction queue generalizing index with
  | nil => simp at inside
  | cons head rest ih =>
    cases rest with
    | nil =>
      have zero : index = 0 := by simpa using inside
      simp [swapRemove, zero]
    | cons next rest =>
      have last : (head :: next :: rest).getLast? = (next :: rest).getLast? := by simp
      cases index with
      | zero =>
        -- The last element comes first, and what is left of the rest follows it.
        obtain ⟨init, final, split⟩ : ∃ init final, next :: rest = init ++ [final] :=
          ⟨_, _, (dropLast_concat_getLast (by simp : next :: rest ≠ [])).symm⟩
        rw [split]
        simp only [swapRemove, getLast?_cons, getLast?_append, set_cons_zero,
          eraseIdx_zero, tail_cons, Option.some_or, Option.getD_some]
        rw [← cons_append, dropLast_concat]
        exact (perm_append_singleton final init).symm
      | succ index =>
        have tail := ih index (by simpa using inside)
        simp only [swapRemove, last, set_cons_succ, eraseIdx_cons_succ] at tail ⊢
        cases found : (next :: rest).getLast? with
        | none => simp at found
        | some final =>
          simp only [found] at tail ⊢
          have full : (next :: rest).set index final ≠ [] := by simp
          rw [dropLast_cons_of_ne_nil full]
          exact tail.cons head

theorem swapRemove_cons_perm {queue : List α} (at_ : queue[index]? = some entry) :
    queue.Perm (entry :: swapRemove queue index) := by
  obtain ⟨inside, rfl⟩ := List.getElem?_eq_some_iff.mp at_
  have erased := (List.getElem_cons_eraseIdx_perm inside).symm
  exact erased.trans ((swapRemove_perm queue index inside).symm.cons _)

/-- What the scan of the prefix `front` left behind. -/
def Scanned (key : Nat) (front : List Parked) : Option (Nat × TxnId) → Bool → Prop
  | none, more => (∀ parked ∈ front, parked.awaits key = false) ∧ more = false
  | some (best, id), more =>
    (∃ parked, front[best]? = some parked ∧ parked.awaits key = true ∧ parked.me = id) ∧
    ∀ index parked, front[index]? = some parked → parked.awaits key = true →
      index = best ∨ (more = true ∧ id ≤ parked.me)

variable {best : Nat} {parked : Parked} {id : TxnId} {more : Bool}
  {oldest : Option (Nat × TxnId)}

private theorem scanned_skip (clear : parked.awaits key = false)
    (before : Scanned key front oldest more) : Scanned key (front ++ [parked]) oldest more := by
  cases oldest with
  | none =>
    refine ⟨fun other member => ?_, before.2⟩
    rcases mem_append.mp member with old | new
    · exact before.1 other old
    · rwa [mem_singleton.mp new]
  | some found =>
    obtain ⟨⟨first, place, waits, same⟩, least⟩ := before
    have inside := (List.getElem?_eq_some_iff.mp place).1
    refine ⟨⟨first, by rwa [List.getElem?_append_left inside], waits, same⟩, ?_⟩
    intro index other at_ awaits
    rw [getElem?_append] at at_
    split at at_
    · exact least index other at_ awaits
    · rw [mem_singleton.mp (mem_of_getElem? at_), clear] at awaits
      contradiction

private theorem scanned_first (waits : parked.awaits key = true) (before : Scanned key front none more) :
    Scanned key (front ++ [parked]) (some (front.length, parked.me)) more := by
  refine ⟨⟨parked, by simp, waits, rfl⟩, fun index other at_ awaits => ?_⟩
  rw [getElem?_append] at at_
  split at at_
  · rw [before.1 other (mem_of_getElem? at_)] at awaits
    contradiction
  obtain ⟨inside, -⟩ := List.getElem?_eq_some_iff.mp at_
  simp only [List.length_singleton] at inside
  omega

private theorem scanned_keep (younger : id < parked.me) (before : Scanned key front (some (best, id)) more) :
    Scanned key (front ++ [parked]) (some (best, id)) true := by
  obtain ⟨⟨first, place, awaits, same⟩, least⟩ := before
  have inside := (List.getElem?_eq_some_iff.mp place).1
  refine ⟨⟨first, by rwa [List.getElem?_append_left inside], awaits, same⟩, ?_⟩
  intro index other at_ otherWaits
  rw [getElem?_append] at at_
  split at at_
  · rcases least index other at_ otherWaits with same | ⟨-, older⟩
    · exact .inl same
    · exact .inr ⟨rfl, older⟩
  · rw [mem_singleton.mp (mem_of_getElem? at_)]
    exact Or.inr ⟨rfl, Nat.le_of_lt younger⟩

private theorem scanned_replace (waits : parked.awaits key = true) (older : ¬ id < parked.me)
    (before : Scanned key front (some (best, id)) more) :
    Scanned key (front ++ [parked]) (some (front.length, parked.me)) true := by
  obtain ⟨⟨first, place, awaits, same⟩, least⟩ := before
  have below : parked.me.val ≤ id.val := not_lt.mp older
  refine ⟨⟨parked, by simp, waits, rfl⟩, fun index other at_ otherWaits => ?_⟩
  rw [getElem?_append] at at_
  split at at_
  · right
    refine ⟨rfl, ?_⟩
    rcases least index other at_ otherWaits with rfl | ⟨-, least⟩
    · rw [place, Option.some.injEq] at at_
      rw [← at_, same]
      exact below
    · exact below.trans least
  obtain ⟨inside, -⟩ := List.getElem?_eq_some_iff.mp at_
  simp only [List.length_singleton] at inside
  omega

private theorem scan_from (key : Nat) (rest front : List Parked) (oldest : Option (Nat × TxnId))
    (more : Bool) (before : Scanned key front oldest more) :
    Scanned key (front ++ rest) (scan key rest front.length oldest more).1
      (scan key rest front.length oldest more).2 := by
  induction rest generalizing front oldest more with
  | nil => simpa [scan] using before
  | cons parked rest ih =>
    have step (oldest more) (done : Scanned key (front ++ [parked]) oldest more) :
        Scanned key (front ++ parked :: rest) (scan key rest (front.length + 1) oldest more).1
          (scan key rest (front.length + 1) oldest more).2 := by
      simpa using ih (front ++ [parked]) oldest more done
    simp only [scan]
    split
    · rename_i waits
      cases oldest with
      | none => exact step _ _ (scanned_first waits before)
      | some found =>
        dsimp only
        split
        · rename_i younger
          exact step _ _ (scanned_keep younger before)
        · rename_i older
          exact step _ _ (scanned_replace waits older before)
    · rename_i clear
      exact step _ _ (scanned_skip (by simpa using clear) before)

/-- The scan finds the oldest waiter that still waits, and reports more of them
exactly when a release has to leave `WAITERS` set for them. -/
theorem scan_spec (key : Nat) (queue : List Parked) :
    Scanned key queue (scan key queue 0 none false).1 (scan key queue 0 none false).2 := by
  exact scan_from key queue [] none false ⟨by simp, rfl⟩

theorem getElem?_grant (queue : List Parked) (best : Nat) (id : TxnId) (index : Nat) :
    (grant queue (some (best, id)))[index]? =
      if best = index then queue[index]?.map fun parked => { parked with granted := true }
      else queue[index]? := by
  simp only [grant, getElem?_modify]
  split <;> simp

/-- What marking the oldest waiter does to the marked entries of a row that has no
other marked one. -/
theorem mem_grant (first : queue[best]? = some ⟨key, heir, false⟩)
    (unmarked : ∀ txn, (⟨key, txn, true⟩ : Parked) ∉ queue) :
    (⟨key, txn, true⟩ : Parked) ∈ grant queue (some (best, heir)) ↔ txn = heir := by
  simp only [mem_iff_getElem?, getElem?_grant]
  constructor
  · rintro ⟨index, at_⟩
    split at at_
    · rename_i here
      rw [← here, first] at at_
      simpa [eq_comm] using at_
    · exact absurd (mem_of_getElem? at_) (unmarked txn)
  · rintro rfl
    exact ⟨best, by simp [first]⟩

theorem unmarked_of_mem_grant (member : (⟨key, txn, false⟩ : Parked) ∈ grant queue (some (best, heir))) :
    ∃ index, index ≠ best ∧ queue[index]? = some ⟨key, txn, false⟩ := by
  obtain ⟨index, at_⟩ := mem_iff_getElem?.mp member
  rw [getElem?_grant] at at_
  split at at_
  · cases place : queue[index]? with
    | none | some parked => simp [place] at at_
  · rename_i elsewhere
    exact ⟨index, fun here => elsewhere here.symm, at_⟩

/-- A waiter that is still unmarked after the handoff is one the scan counted in
`more`, and younger than the one that got the row. -/
theorem more_of_unmarked (found : Scanned key queue (some (best, heir)) more)
    (member : (⟨key, txn, false⟩ : Parked) ∈ grant queue (some (best, heir))) : more = true ∧ heir ≤ txn := by
  obtain ⟨index, elsewhere, at_⟩ := unmarked_of_mem_grant member
  exact (found.2 index _ at_ (by simp [Parked.awaits])).resolve_left elsewhere

/-- Marking a waiter touches nothing of the queue but the mark. -/
theorem filterMap_grant (f : Parked → Option α)
    (blind : ∀ parked : Parked, f { parked with granted := true } = f parked)
    (queue : List Parked) (oldest : Option (Nat × TxnId)) :
    (grant queue oldest).filterMap f = queue.filterMap f := by
  cases oldest with
  | none => rfl
  | some found =>
    obtain ⟨best, -⟩ := found
    simp only [grant]
    induction queue generalizing best with
    | nil => simp
    | cons head rest ih =>
      cases best with
      | zero => simp [filterMap_cons, blind]
      | succ best => simp [filterMap_cons, ih]

end Rudb.Park
