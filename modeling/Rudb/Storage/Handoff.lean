import Mathlib.Logic.Function.Basic
import Rudb.Storage.Park

/-! The row lock under every interleaving. A step is one atomic operation on the lock word or on
the mutex of its bucket, together with the plain code that follows it up to the next one; the
queue is only touched under the mutex. Embeds park.rs and `claim` of hot.rs. -/
namespace Rudb.Handoff
open Rudb Park

/-- The atomic operation a transaction makes next on the row, and the words it
read on the way there. -/
inductive Pc where
  /-- Not in the lock's code, and without the row. -/
  | idle
  /-- `claim` read a free row and tries to take it. -/
  | claiming (wait : Wait) (word : LockWord)
  /-- `wait` has `left` rereads to go, and locks the bucket after the last. -/
  | spinning (left : Nat)
  /-- `wait` saw the row free and calls `take`. -/
  | retaking
  /-- `take` read a free row and tries to take it. -/
  | taking (word : LockWord)
  /-- `wait` has the bucket and reads the word. -/
  | parking
  /-- `wait` has the bucket and tries to take the row or to set `WAITERS`. -/
  | parkTry (word : LockWord)
  /-- `wait` has the bucket and its entry is in the queue: it drops the bucket. -/
  | queued
  /-- Parked: woken by a release, by the deadline or for no reason, it locks the bucket. -/
  | asleep
  /-- Timed out as the last waiter of the row: it clears `WAITERS`. -/
  | clearing
  /-- Has the bucket and drops it on the way out of `wait` or `release`. -/
  | leaving (got : Bool)
  /-- Has the row. -/
  | holding
  /-- About to call `release`. -/
  | finishing
  /-- `release` read a word without `WAITERS` and tries to free the row. -/
  | releasing (word : LockWord)
  /-- `release` saw `WAITERS` and locks the bucket. -/
  | handing
  /-- `release` has the bucket and scanned the queue. -/
  | scanned (oldest : Option (Nat × TxnId)) (more : Bool)

namespace Pc

/-- Whether the transaction has the bucket's mutex. -/
def inBucket : Pc → Bool
  | parking | parkTry _ | queued | clearing | leaving _ | scanned _ _ => true
  | _ => false

/-- Whether the transaction acts as the row's holder: `claim` returned the row to
it, or `wait` is about to, and its `release` has not let go of the word yet. -/
def believes : Pc → Bool
  | leaving true | holding | finishing | releasing _ | handing | scanned _ _ => true
  | _ => false

/-- Whether the transaction's entry is in the queue. -/
def isQueued : Pc → Bool
  | queued | asleep => true
  | _ => false

end Pc

/-- The row's lock word, its bucket and where each transaction is. -/
structure Machine where
  word : LockWord
  queue : List Parked
  bucket : Option TxnId
  pc : TxnId → Pc

def Machine.goto (m : Machine) (txn : TxnId) (pc : Pc) : Machine :=
  { m with pc := Function.update m.pc txn pc }

/-- What can happen next. A step of `wait`, `take` or `release` is a `run`: its
compare-exchange may fail for no reason and its deadline may have passed. -/
inductive Event where
  | claim (txn : TxnId) (wait : Wait)
  | finish (txn : TxnId)
  | refuse (txn : TxnId)
  | run (txn : TxnId) (spurious late : Bool)
  | elsewhere (queue : List Parked)

/-- `SPINS`. -/
def spins : Nat := 64

/-- The head of the loop of `claim` with the word it just read. -/
def claimLoop (wait : Wait) (txn : TxnId) (word : LockWord) : Pc :=
  match word.holder with
  | some holder =>
    if holder = txn then .holding
    else if wait.allows txn holder then .spinning spins else .idle
  | none => .claiming wait word

/-- The head of the loop of `take`, which gives up on a row someone else took. -/
def takeLoop (word : LockWord) : Pc :=
  match word.holder with
  | some _ => .idle
  | none => .taking word

/-- The head of the loop of `release`. -/
def releaseLoop (word : LockWord) : Pc := if word.waiters then .handing else .releasing word

/-- `queue.push(Parked { key, me, granted: false, .. })`. -/
def push (key : Nat) (m : Machine) (txn : TxnId) : Machine :=
  { m with queue := m.queue ++ [Parked.mk key txn false] }.goto txn .queued

/-- The head of the parking loop of `wait` with the word it just read: nothing to
write when the row is held and `WAITERS` is set already. -/
def parkLoop (key : Nat) (m : Machine) (txn : TxnId) : Machine :=
  if m.word.parking txn = m.word then push key m txn else m.goto txn (.parkTry m.word)

/-- What a woken waiter does with the bucket locked. It has no entry only if the
`expect` of `wait` fails. -/
def check (key : Nat) (m : Machine) (txn : TxnId) (late : Bool) : Option Machine := do
  let index ← m.queue.findIdx? (Parked.isAt key txn)
  let parked ← m.queue[index]?
  if parked.granted then
    return { m with queue := swapRemove m.queue index }.goto txn (.leaving true)
  else if late then
    let queue := swapRemove m.queue index
    return { m with queue := queue }.goto txn
      (if queue.any (fun parked => parked.key == key) then .leaving false else .clearing)
  else
    return m.goto txn .queued

/-- One atomic operation of a transaction inside `claim`, `wait` or `release`. -/
def run (key : Nat) (m : Machine) (txn : TxnId) (spurious late : Bool) : Option Machine :=
  match m.pc txn with
  | .idle | .holding => none
  | .claiming wait word =>
    if m.word = word ∧ spurious = false then
      some ({ m with word := word.taken txn }.goto txn .holding)
    else some (m.goto txn (claimLoop wait txn m.word))
  | .spinning (left + 1) =>
    some (m.goto txn (if m.word.holder.isNone then .retaking else .spinning left))
  | .spinning 0 =>
    if m.bucket = none then some ({ m with bucket := some txn }.goto txn .parking) else none
  | .retaking => some (m.goto txn (takeLoop m.word))
  | .taking word =>
    if m.word = word ∧ spurious = false then
      some ({ m with word := word.taken txn }.goto txn .holding)
    else some (m.goto txn (takeLoop m.word))
  | .parking => some (parkLoop key m txn)
  | .parkTry word =>
    if m.word = word ∧ spurious = false then
      if word.holder.isNone then
        some ({ m with word := word.parking txn }.goto txn (.leaving true))
      else some (push key { m with word := word.parking txn } txn)
    else some (parkLoop key m txn)
  | .queued => some ({ m with bucket := none }.goto txn .asleep)
  | .asleep => if m.bucket = none then check key { m with bucket := some txn } txn late else none
  | .clearing => some ({ m with word := m.word.unawaited }.goto txn (.leaving false))
  | .leaving got =>
    some ({ m with bucket := none }.goto txn (if got then .holding else .idle))
  | .finishing => some (m.goto txn (releaseLoop m.word))
  | .releasing word =>
    if m.word = word ∧ spurious = false then
      some ({ m with word := word.freed }.goto txn .idle)
    else some (m.goto txn (releaseLoop m.word))
  | .handing =>
    if m.bucket = none then
      some ({ m with bucket := some txn }.goto txn
        (.scanned (scan key m.queue 0 none false).1 (scan key m.queue 0 none false).2))
    else none
  | .scanned oldest more =>
    some ({ m with word := handed m.word oldest more, queue := grant m.queue oldest }.goto txn
      (.leaving false))

/-- One step of the row's lock at `key`. `claim` starts by reading the word,
`finish` is the check of `commit_write` and `abort_write` that the row is held,
`refuse` lets go of a row that was claimed and failed the checks after that, and
`elsewhere` is what waits and releases of the bucket's other rows do to its queue. -/
def next (key : Nat) (m : Machine) : Event → Option Machine
  | .claim txn wait =>
    match m.pc txn with
    | .idle | .holding => some (m.goto txn (claimLoop wait txn m.word))
    | _ => none
  | .finish txn =>
    match m.pc txn with
    | .idle | .holding => some (if m.word.holder = some txn then m.goto txn .finishing else m)
    | _ => none
  | .refuse txn =>
    match m.pc txn with
    | .holding => some (m.goto txn .finishing)
    | _ => none
  | .run txn spurious late => run key m txn spurious late
  | .elsewhere queue =>
    if m.bucket = none ∧ (queue.filter fun parked => parked.key == key).Perm
        (m.queue.filter fun parked => parked.key == key) then
      some { m with queue := queue }
    else none

/-- A row nobody holds or waits for; the bucket may have waiters of other rows. -/
def Initial (key : Nat) (m : Machine) : Prop :=
  m.word.holder = none ∧ m.word.waiters = false ∧ (∀ parked ∈ m.queue, parked.key ≠ key) ∧
    m.bucket = none ∧ ∀ txn, m.pc txn = .idle

inductive Reachable (key : Nat) : Machine → Prop where
  | initial : Initial key m → Reachable key m
  | step : Reachable key m → next key m event = some m' → Reachable key m'

/-- The state after a list of events, if each of them can happen. -/
def steps (key : Nat) (m : Machine) : List Event → Option Machine
  | [] => some m
  | event :: rest => (next key m event).bind fun m' => steps key m' rest

theorem Reachable.steps (reached : Reachable key m) (done : steps key m events = some m') : Reachable key m' := by
  induction events generalizing m with
  | nil =>
    cases done
    exact reached
  | cons event rest ih =>
    obtain ⟨middle, first, done⟩ := Option.bind_eq_some_iff.mp done
    exact ih (.step reached first) done

end Rudb.Handoff
