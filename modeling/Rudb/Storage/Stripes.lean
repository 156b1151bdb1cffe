import Rudb.Storage.Graveyard

/-! A table's stripes, each hot or frozen, and what moves one from the one form to the other: a
freeze, which keeps the rows and drops their history, and a thaw. What `fill` writes is given.
Embeds stripes.rs. -/
namespace Rudb.Stripes
open Rudb Rudb.Deletes Rudb.Undo Rudb.Hot

/-- `STILL`, `THAWING` and `THAWED`. -/
inductive Thaw where
  | still
  | thawing
  | thawed
  deriving DecidableEq

structure FrozenStripe where
  id : Nat
  rows : Nat
  checkpoint : Nat
  deletes : DeleteVector
  thaw : Thaw := .still
  graveyard : Option Graveyard := none

inductive Stripe where
  | frozen (stripe : FrozenStripe)
  | hot (stripe : HotStripe)

/-- `clip`: clears every bit from `rows` on. -/
def clip (mask : Mask) (rows : Nat) : Mask := fun i => decide (i < rows) && mask i

namespace FrozenStripe

/-- `Stripe::visible` of a frozen stripe. -/
def visible (stripe : FrozenStripe) (part snapshot : Nat) (txn : TxnId) : Mask :=
  let rows := min (stripe.rows - part * partRows) partRows
  let (gone, any) := stripe.deletes.mask part snapshot txn fun _ => false
  let mask : Mask := if any then fun i => !gone i else fun _ => true
  let mask :=
    if snapshot < stripe.checkpoint then
      match stripe.graveyard with
      | some graveyard => graveyard.patch part snapshot mask
      | none => mask
    else mask
  clip mask rows

/-- A delete with `delete_with`. -/
def delete (stripe : FrozenStripe) (slot snapshot : Nat) (txn : TxnId) : Except Failure FrozenStripe :=
  if slot < stripe.rows then
    if stripe.thaw = .still then
      match stripe.deletes.delete slot snapshot txn with
      | .ok deletes => .ok { stripe with deletes := deletes }
      | .error refusal => .error (.refused refusal)
    else .error .waits
  else .error (.refused .gone)

end FrozenStripe

namespace Stripe

/-- `visible`. -/
def visible (stripe : Stripe) (part snapshot : Nat) (txn : TxnId) : Mask :=
  match stripe with
  | hot stripe => stripe.mask part snapshot txn
  | frozen stripe => stripe.visible part snapshot txn

/-- Whether a reader sees the row at `slot`. -/
def shows (stripe : Stripe) (slot snapshot : Nat) (txn : TxnId) : Bool :=
  stripe.visible (slot / partRows) snapshot txn (slot % partRows)

/-- `StripeDirectory::delete` of a row of the stripe. -/
def delete (stripe : Stripe) (space : UndoSpace) (buffer : UndoBuffer) (slot snapshot : Nat) (txn : TxnId)
    (wait : Park.Wait) (handed : Option (HotStripe × UndoSpace)) : Except Failure (Stripe × UndoSpace × UndoBuffer) :=
  match stripe with
  | hot stripe =>
    match stripe.delete space buffer slot snapshot txn wait handed with
    | .ok (stripe, space, buffer) => .ok (hot stripe, space, buffer)
    | .error failure => .error failure
  | frozen stripe =>
    match stripe.delete slot snapshot txn with
    | .ok stripe => .ok (frozen stripe, space, buffer)
    | .error failure => .error failure

/-- What `StripeDirectory::commit` does to a slot of a hot stripe. -/
def commitSlot (txn : TxnId) (ts : Nat) (state : HotStripe × UndoSpace) (slot : Nat) : HotStripe × UndoSpace :=
  let (stripe, space) := state.1.commitWrite state.2 slot txn ts
  (stripe.commitInsert slot (slot + 1) txn ts, space)

/-- `StripeDirectory::commit` of rows of the stripe. -/
def commit (stripe : Stripe) (space : UndoSpace) (slots : List Nat) (txn : TxnId) (ts : Nat) : Stripe × UndoSpace :=
  match stripe with
  | hot stripe =>
    let (stripe, space) := slots.foldl (commitSlot txn ts) (stripe, space)
    (hot stripe, space)
  | frozen stripe => (frozen { stripe with deletes := stripe.deletes.commit txn ts }, space)

/-- What `StripeDirectory::abort` does to a slot of a hot stripe. -/
def abortSlot (txn : TxnId) (state : HotStripe × UndoSpace) (slot : Nat) : HotStripe × UndoSpace :=
  let (stripe, space) := state.1.abortWrite state.2 slot txn
  (stripe.abortInsert slot (slot + 1) txn, space)

/-- `StripeDirectory::abort` of rows of the stripe. -/
def abort (stripe : Stripe) (space : UndoSpace) (slots : List Nat) (txn : TxnId) : Stripe × UndoSpace :=
  match stripe with
  | hot stripe =>
    let (stripe, space) := slots.foldl (abortSlot txn) (stripe, space)
    (hot stripe, space)
  | frozen stripe => (frozen { stripe with deletes := stripe.deletes.abort txn }, space)

end Stripe

/-- `begin_thaw`. -/
def beginThaw (stripe : FrozenStripe) : Option FrozenStripe :=
  if stripe.thaw = .still ∧ stripe.graveyard.isNone then some { stripe with thaw := .thawing }
  else none

/-- `thaw`: `values` is what `fill` writes, slot by slot and column by column. -/
def thaw (stripe : FrozenStripe) (table : Nat) (widths : List Width)
    (values : List (Nat × Nat × Option Nat)) : HotStripe :=
  let hot := HotStripe.thawing stripe.id table widths stripe.rows
  let hot := values.foldl (fun hot (slot, column, value) => hot.write slot column value) hot
  hot.takeDeletes stripe.deletes stripe.checkpoint

end Rudb.Stripes
