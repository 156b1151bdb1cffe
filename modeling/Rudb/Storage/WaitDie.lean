import Mathlib.Logic.Relation
import Rudb.Storage.Park

/-! Wait-die over all rows. Each step takes a whole call or a whole wake-up, so a row that is let
go has been handed on. `Wait::allows` is asked when `claim` finds the row held; who holds it when
the writer parks, or later, is not asked again. Embeds park.rs. -/
namespace Rudb.WaitDie
open Rudb Park

/-- Every lock word, every queue of the parking table, and the writers between the
check of `claim` and the queue. -/
structure Locks where
  word : Nat → LockWord
  queue : List Parked
  waiting : TxnId → Option Nat

/-- Whether the transaction's thread is asleep in a queue. -/
def Locks.parked (s : Locks) (txn : TxnId) : Bool := s.queue.any fun parked => parked.me == txn

/-- Whether the transaction can start a call of its own. -/
def Locks.running (s : Locks) (txn : TxnId) : Bool := !s.parked txn && (s.waiting txn).isNone

inductive Event where
  /-- `claim` takes a free row. -/
  | claim (txn : TxnId) (row : Nat)
  /-- `claim` finds the row held and may wait for its holder. -/
  | await (txn : TxnId) (row : Nat) (wait : Wait)
  /-- `wait` finds the row free before it parks, and takes it. -/
  | take (txn : TxnId)
  /-- `take` loses the row to someone else. -/
  | giveUp (txn : TxnId)
  | park (txn : TxnId)
  | release (txn : TxnId) (row : Nat)
  | wake (txn : TxnId)
  | timeout (txn : TxnId)

/-- `release` of one row, under the bucket when somebody is parked on it. -/
def release (s : Locks) (row : Nat) : Locks :=
  let word := s.word row
  if word.waiters then
    let (oldest, more) := scan row s.queue 0 none false
    { s with
      word := Function.update s.word row (handed word oldest more)
      queue := grant s.queue oldest }
  else { s with word := Function.update s.word row word.freed }

/-- The end of a wait at its deadline: the entry goes, and `WAITERS` with the last. -/
def leave (s : Locks) (row index : Nat) : Locks :=
  let queue := swapRemove s.queue index
  if queue.any fun parked => parked.key == row then { s with queue := queue }
  else { s with word := Function.update s.word row (s.word row).unawaited, queue := queue }

def next (s : Locks) : Event → Option Locks
  | .claim txn row =>
    if s.running txn ∧ (s.word row).holder = none then
      some { s with word := Function.update s.word row ((s.word row).taken txn) }
    else none
  | .await txn row wait =>
    match (s.word row).holder with
    | some holder =>
      if s.running txn ∧ holder ≠ txn ∧ wait.allows txn holder then
        some { s with waiting := Function.update s.waiting txn (some row) }
      else none
    | none => none
  | .take txn =>
    match s.waiting txn with
    | some row =>
      if (s.word row).holder = none then
        some { s with
          word := Function.update s.word row ((s.word row).taken txn)
          waiting := Function.update s.waiting txn none }
      else none
    | none => none
  | .giveUp txn =>
    match s.waiting txn with
    | some row =>
      if (s.word row).holder ≠ none then
        some { s with waiting := Function.update s.waiting txn none }
      else none
    | none => none
  | .park txn =>
    match s.waiting txn with
    | some row =>
      if (s.word row).holder ≠ none then
        some { s with
          word := Function.update s.word row (s.word row).awaited
          queue := s.queue ++ [⟨row, txn, false⟩]
          waiting := Function.update s.waiting txn none }
      else none
    | none => none
  | .release txn row =>
    if s.running txn ∧ (s.word row).holder = some txn then some (release s row) else none
  | .wake txn => do
    let index ← s.queue.findIdx? fun parked => parked.me == txn
    let parked ← s.queue[index]?
    if parked.granted then some { s with queue := swapRemove s.queue index } else none
  | .timeout txn => do
    let index ← s.queue.findIdx? fun parked => parked.me == txn
    let parked ← s.queue[index]?
    if parked.granted then none else some (leave s parked.key index)

/-- Nobody can be waiting on a transaction that holds nothing. -/
def HoldsNothing (word : Nat → LockWord) (txn : TxnId) : Prop := ∀ row, (word row).holder ≠ some txn

/-- What a writer says of itself in `Wait` is true. -/
def Truthful (s : Locks) : Event → Prop
  | .await txn _ wait => wait.holdsNothing = true → HoldsNothing s.word txn
  | _ => True

def initial : Locks := ⟨fun _ => {}, [], fun _ => none⟩

/-- The states that truthful steps which meet `ok` reach. -/
inductive Reachable (ok : Locks → Event → Prop) : Locks → Prop where
  | initial : Reachable ok initial
  | step : Reachable ok s → Truthful s event → ok s event → next s event = some s' →
      Reachable ok s'

/-- `waiter` is parked on a row that `holder` holds. -/
def Waits (s : Locks) (waiter holder : TxnId) : Prop :=
  ∃ row, ⟨row, waiter, false⟩ ∈ s.queue ∧ (s.word row).holder = some holder

end Rudb.WaitDie
