import Mathlib.Data.Nat.Bitwise
import Mathlib.Tactic.Ring

/-! Stamps, transaction ids and lock words: the 64-bit vocabulary the head of a
table shares. A stamp is a commit timestamp while its top bit is clear and the
id of a transaction that has not finished while it is set. -/
namespace Rudb

/-- `UNCOMMITTED`, the bit that marks a timestamp as a transaction id. -/
def uncommitted : Nat := 2 ^ 63

/-- `ABORTED`, the stamp of an undo record whose writer aborted. It is nobody's
id and past every snapshot. -/
def aborted : Nat := 2 ^ 64 - 1

/-- `LIVE`, what `deleted` holds for a row nobody deleted. -/
def live : Nat := 2 ^ 64 - 1

/-- `BEFORE_ALL`, a commit before every snapshot. -/
def beforeAll : Nat := 1

/-- A transaction id. A lock word keeps the holder's id beside the waiter and
delta bits, so an id leaves the three top bits of the word clear. -/
structure TxnId where
  val : Nat
  fits : val < 2 ^ 61
  deriving DecidableEq

namespace TxnId

instance : LT TxnId := ⟨fun a b => a.val < b.val⟩
instance : LE TxnId := ⟨fun a b => a.val ≤ b.val⟩
instance (a b : TxnId) : Decidable (a < b) := inferInstanceAs (Decidable (a.val < b.val))

@[ext] theorem ext {b : TxnId} (same : a.val = b.val) : a = b := by
  cases a; cases b; cases same; rfl

/-- `txn | UNCOMMITTED`: the stamp of what the transaction has not finished. -/
def me (txn : TxnId) : Nat := txn.val ||| uncommitted

theorem me_eq (txn : TxnId) : txn.me = txn.val + 2 ^ 63 := by
  have fits := txn.fits
  have small : txn.val < 2 ^ 63 := by omega
  rw [me, Nat.lor_comm, add_comm]
  exact (Nat.two_pow_add_eq_or_of_lt small 1).symm

theorem me_ge (txn : TxnId) : 2 ^ 63 ≤ txn.me := by
  rw [me_eq]
  omega

theorem me_lt (txn : TxnId) : txn.me < 2 ^ 63 + 2 ^ 61 := by
  have fits := txn.fits
  rw [me_eq]
  omega

theorem me_inj {b : TxnId} (same : a.me = b.me) : a = b := by
  rw [me_eq, me_eq] at same
  exact ext (by omega)

theorem me_ne_aborted (txn : TxnId) : txn.me ≠ aborted := by
  have below := txn.me_lt
  unfold aborted
  omega

/-- The transaction a lock word holds. -/
def ofMe (word : Nat) : Option TxnId :=
  if fits : word - uncommitted < 2 ^ 61 then some ⟨word - uncommitted, fits⟩ else none

theorem ofMe_me (txn : TxnId) : ofMe txn.me = some txn := by
  have val : txn.me - uncommitted = txn.val := by
    rw [me_eq, uncommitted]
    omega
  have fits := txn.fits
  simp only [ofMe, val, dif_pos fits]

end TxnId

/-- `ts & UNCOMMITTED == 0` of a 64-bit stamp. -/
def isCommitted (ts : Nat) : Bool := decide (ts < uncommitted)

theorem isCommitted_iff : isCommitted ts = true ↔ ts < 2 ^ 63 := by
  rw [isCommitted, decide_eq_true_eq, uncommitted]

@[simp] theorem isCommitted_me (txn : TxnId) : isCommitted txn.me = false := by
  have := txn.me_ge
  rw [isCommitted, decide_eq_false_iff_not, uncommitted]
  omega

@[simp] theorem isCommitted_live : isCommitted live = false := by decide

theorem ne_me_of_isCommitted (committed : isCommitted ts = true) (txn : TxnId) : ts ≠ txn.me := by
  rintro rfl
  simp at committed

theorem live_ne_me (txn : TxnId) : live ≠ txn.me := (txn.me_ne_aborted).symm

theorem beforeAll_ne_me (txn : TxnId) : beforeAll ≠ txn.me := ne_me_of_isCommitted (by decide) txn

/-- `ts == me || (ts & UNCOMMITTED == 0 && ts <= snapshot)`: a reader stops at an
undo record it sees. -/
def sees (snapshot me ts : Nat) : Bool := ts == me || (isCommitted ts && decide (ts ≤ snapshot))

/-- `seen`: the visibility rule of a hot row. The subtraction wraps, so the 0 of a hole
fails the first test. -/
def seen (created deleted snapshot me : Nat) : Bool :=
  (decide ((created + (2 ^ 64 - 1)) % 2 ^ 64 < snapshot) || created == me) &&
    !(decide (deleted ≤ snapshot) || deleted == me)

/-- `Refusal`: why an update or a delete of a row was refused. -/
inductive Refusal where
  | gone
  | conflict
  | freezing
  | thawed
  deriving DecidableEq, Repr

end Rudb
