import Mathlib
import Rudb.Storage.Deletes
import Rudb.Storage.Park
import Rudb.Storage.Undo

/-! A hot stripe: rows written in place, the values an update overwrites kept in undo records. A
lock word is its holder here. How it is handed on is `Handoff`'s: a writer that waits is given the
stripe as the row was let go to it, or none when its time ran out first. The undo space is the
database's, so the operations are given it. Embeds hot.rs. -/
namespace Rudb.Hot
open Rudb Rudb.Undo Rudb.Deletes

inductive Width where
  | one
  | two
  | four
  | eight
  | sixteen
  | text
  deriving DecidableEq

/-- `bytes`. -/
def Width.bytes : Width → Nat
  | one => 1
  | two => 2
  | four => 4
  | eight => 8
  | sixteen => 16
  | text => 16

/-- What a cell keeps of a value: its low bytes. -/
def Width.fit (width : Width) (value : Nat) : Nat := value % 256 ^ width.bytes

/-- What `column` keeps of a value. -/
def fit (widths : List Width) (column : Nat) (value : Option Nat) : Option Nat :=
  value.map (widths[column]?.getD .sixteen).fit

/-- `OPEN`, `SEALED`, `FREEZING` and `FROZEN`. -/
inductive Phase where
  | opened
  | sealed
  | freezing
  | frozen
  deriving DecidableEq

/-- A slot: what each array of the stripe holds for it. -/
structure HotRow where
  value : Nat → Option Nat := fun _ => none
  created : Nat := 0
  deleted : Nat := live
  lock : Option TxnId := none
  undo : UndoRef := 0

structure HotStripe where
  id : Nat
  table : Nat := 0
  widths : List Width
  reserved : Nat := 0
  row : Nat → HotRow := fun _ => {}
  phase : Phase := .opened
  changed : Nat := 0
  pending : Option DeleteVector := none
  thawed : Bool := false
  stamps : Nat → Nat → Nat := fun _ _ => 0
  erased : Nat → Nat := fun _ => 0

/-- A call that returns nothing: it is refused, it panics, or it waits for a thaw. -/
inductive Failure where
  | refused (refusal : Refusal)
  | panic
  | waits
  deriving DecidableEq

namespace HotRow

/-- `created.wrapping_sub(1) >= snapshot && created != me`: the row is not there for
a writer. -/
def absent (row : HotRow) (snapshot : Nat) (txn : TxnId) : Prop :=
  snapshot ≤ (row.created + (2 ^ 64 - 1)) % 2 ^ 64 ∧ row.created ≠ txn.me

instance (row : HotRow) (snapshot : Nat) (txn : TxnId) : Decidable (row.absent snapshot txn) :=
  inferInstanceAs (Decidable (_ ∧ _))

/-- `newest_change`: the timestamp of the newest record that is not aborted, or 0. -/
def newestChange (row : HotRow) (space : UndoSpace) : Nat :=
  match (space.chainRecords row.undo).find? fun record => record.ts != aborted with
  | some record => record.ts
  | none => 0

/-- What `walk_own` visits: the records of `me`, newest first. -/
def own (row : HotRow) (space : UndoSpace) (me : Nat) : List UndoRef :=
  (space.chain row.undo).takeWhile fun at_ => (space.mem at_).any fun record => record.ts == me

end HotRow

namespace HotStripe

/-- `with_undo` and `in_table`. -/
def new (id table : Nat) (widths : List Width) : HotStripe := { id, table, widths }

/-- `Rid`, the rid of a slot: the stripe's id over it. -/
def rid (stripe : HotStripe) (slot : Nat) : Nat := stripe.id * 2 ^ 32 + slot

def address (stripe : HotStripe) (slot : Nat) : Row := ⟨stripe.table, stripe.rid slot⟩

/-- `width`. -/
def width (stripe : HotStripe) : Nat := stripe.widths.length

def setRow (stripe : HotStripe) (slot : Nat) (row : HotRow) : HotStripe :=
  { stripe with row := Function.update stripe.row slot row }

/-- `is_freezing`. -/
def isFreezing (stripe : HotStripe) : Bool :=
  stripe.phase = .freezing || stripe.phase = .frozen

/-- `write` of a column that exists. -/
def write (stripe : HotStripe) (slot column : Nat) (value : Option Nat) : HotStripe :=
  let row := stripe.row slot
  stripe.setRow slot
    { row with value := Function.update row.value column (fit stripe.widths column value) }

/-- `stamped`. -/
def stamped (stripe : HotStripe) (ts : Nat) : HotStripe :=
  { stripe with changed := max stripe.changed ts }

/-- `restamp` of the `created` stamps of `first..stop`. -/
def restampCreated (stripe : HotStripe) (first stop old new : Nat) : HotStripe :=
  { stripe with
    row := fun slot =>
      if first ≤ slot ∧ slot < stop ∧ (stripe.row slot).created = old then
        { stripe.row slot with created := new }
      else stripe.row slot }

/-- `stamps[column][part].fetch_max(ts)`. -/
def raise (stripe : HotStripe) (column part ts : Nat) : HotStripe :=
  { stripe with
    stamps := fun c p => if c = column ∧ p = part then max (stripe.stamps c p) ts else stripe.stamps c p }

/-- `commit_insert`. -/
def commitInsert (stripe : HotStripe) (first stop : Nat) (txn : TxnId) (ts : Nat) : HotStripe :=
  let raised : HotStripe :=
    if first < stop then
      { stripe with
        stamps := fun column part =>
          if column < stripe.width ∧ first / partRows ≤ part ∧ part ≤ (stop - 1) / partRows
          then max (stripe.stamps column part) ts else stripe.stamps column part }
    else stripe
  (raised.restampCreated first stop txn.me ts).stamped ts

/-- `abort_insert`. -/
def abortInsert (stripe : HotStripe) (first stop : Nat) (txn : TxnId) : HotStripe :=
  stripe.restampCreated first stop txn.me 0

/-- The checks of `claim` once the row is the writer's. A refusal lets it go again. -/
def checked (stripe : HotStripe) (space : UndoSpace) (slot snapshot : Nat) (txn : TxnId) :
    HotStripe × UndoSpace × Option Refusal :=
  let row := stripe.row slot
  if stripe.isFreezing then (stripe, space, some .freezing)
  else if row.deleted ≠ live then (stripe, space, some (if row.deleted ≤ snapshot then .gone else .conflict))
  else if snapshot < row.newestChange space then (stripe, space, some .conflict)
  else (stripe.setRow slot { row with lock := some txn }, space, none)

/-- `claim`: the state it leaves and what it refuses with. `handed` is what `park::wait`
comes back to: the stripe as the row was let go to the writer, or none after `wait.timeout`. -/
def claim (stripe : HotStripe) (space : UndoSpace) (slot snapshot : Nat) (txn : TxnId) (wait : Park.Wait)
    (handed : Option (HotStripe × UndoSpace)) : HotStripe × UndoSpace × Option Refusal :=
  let row := stripe.row slot
  if row.absent snapshot txn then (stripe, space, some .gone)
  else match row.lock with
    | some holder =>
      if holder ≠ txn then
        if !wait.allows txn holder then (stripe, space, some .conflict)
        else match handed with
          | none => (stripe, space, some .conflict)
          | some (stripe, space) => stripe.checked space slot snapshot txn
      -- its own row, which it may have deleted
      else (stripe, space, if row.deleted = txn.me then some .gone else none)
    | none => stripe.checked space slot snapshot txn

/-- `push_undo`. Nobody else adds a record while the writer holds the row. -/
def pushUndo (stripe : HotStripe) (space : UndoSpace) (buffer : UndoBuffer) (slot : Nat)
    (kind : UndoKind) (txn : TxnId) (images : List Image) : Option (HotStripe × UndoSpace × UndoBuffer) :=
  let row := stripe.row slot
  match buffer.write space kind txn.me (stripe.address slot) row.undo images with
  | some (at_, buffer, space) => some (stripe.setRow slot { row with undo := at_ }, space, buffer)
  | none => none

/-- `delete_pending`. -/
def deletePending (stripe : HotStripe) (space : UndoSpace) (slot snapshot : Nat) (txn : TxnId) :
    Except Refusal HotStripe :=
  let row := stripe.row slot
  let mine := decide (row.lock = some txn)
  if row.absent snapshot txn then .error .gone
  else if row.lock ≠ none ∧ !mine then .error .conflict
  else if row.deleted = txn.me ∨ (row.deleted ≠ live ∧ row.deleted ≤ snapshot) then .error .gone
  else if row.deleted ≠ live ∨ (!mine ∧ snapshot < row.newestChange space) then .error .conflict
  else match (stripe.pending.getD default).delete slot snapshot txn with
    | .ok vector => .ok { stripe with pending := some vector }
    | .error refusal => .error refusal

/-- `delete`. -/
def delete (stripe : HotStripe) (space : UndoSpace) (buffer : UndoBuffer) (slot snapshot : Nat) (txn : TxnId)
    (wait : Park.Wait) (handed : Option (HotStripe × UndoSpace)) :
    Except Failure (HotStripe × UndoSpace × UndoBuffer) :=
  if stripeRows ≤ slot then .error .panic
  else match stripe.claim space slot snapshot txn wait handed with
    | (stripe, space, some .freezing) =>
      match stripe.deletePending space slot snapshot txn with
      | .ok stripe => .ok (stripe, space, buffer)
      | .error refusal => .error (.refused refusal)
    | (_, _, some refusal) => .error (.refused refusal)
    | (stripe, space, none) =>
      match stripe.pushUndo space buffer slot .delete txn [] with
      | some (stripe, space, buffer) =>
        .ok (stripe.setRow slot { stripe.row slot with deleted := txn.me }, space, buffer)
      | none => .error .panic

/-- The images of the records at `refs`, in the order of the records. -/
def imagesAt (space : UndoSpace) (refs : List UndoRef) : List Image :=
  (refs.filterMap space.mem).flatMap Record.images

/-- Stamps every record at `refs`. -/
def stampAll (space : UndoSpace) (refs : List UndoRef) (ts : Nat) : UndoSpace :=
  refs.foldl (fun space at_ => space.stamp at_ ts) space

/-- `release`. -/
def release (stripe : HotStripe) (slot : Nat) : HotStripe :=
  stripe.setRow slot { stripe.row slot with lock := none }

/-- `commit_write`. -/
def commitWrite (stripe : HotStripe) (space : UndoSpace) (slot : Nat) (txn : TxnId) (ts : Nat) :
    HotStripe × UndoSpace :=
  let stripe := { stripe with pending := stripe.pending.map (·.commit txn ts) }
  let row := stripe.row slot
  if row.lock ≠ some txn then (stripe, space)
  else
    let own := row.own space txn.me
    let part := slot / partRows
    let stripe := (imagesAt space own).foldl
      (fun stripe image => stripe.raise image.column part ts) (stripe.stamped ts)
    let stripe :=
      if row.deleted = txn.me then
        { stripe.setRow slot { row with deleted := ts } with
          erased := Function.update stripe.erased part (max (stripe.erased part) ts) }
      else stripe
    (stripe.release slot, stampAll space own ts)

/-- `abort_write`: the values go back newest first. -/
def abortWrite (stripe : HotStripe) (space : UndoSpace) (slot : Nat) (txn : TxnId) : HotStripe × UndoSpace :=
  let stripe := { stripe with pending := stripe.pending.map (·.abort txn) }
  let row := stripe.row slot
  if row.lock ≠ some txn then (stripe, space)
  else
    let own := row.own space txn.me
    let stripe := (imagesAt space own).foldl
      (fun stripe image => stripe.write slot image.column image.value) stripe
    let row := stripe.row slot
    let stripe :=
      if row.deleted = txn.me then stripe.setRow slot { row with deleted := live } else stripe
    (stripe.release slot, stampAll space own aborted)

/-- `mask`: the slots of `part` a reader sees. -/
def mask (stripe : HotStripe) (part snapshot : Nat) (txn : TxnId) : Mask :=
  let mask : Mask := fun i =>
    let row := stripe.row (part * partRows + i)
    seen row.created row.deleted snapshot txn.me
  match stripe.pending with
  | some pending =>
    let (gone, any) := pending.mask part snapshot txn fun _ => false
    if any then fun i => mask i && !gone i else mask
  | none => mask

/-- `thawing`, before the values are filled in. -/
def thawing (id table : Nat) (widths : List Width) (rows : Nat) : HotStripe :=
  { new id table widths with
    reserved := rows
    row := fun slot => if slot < min rows stripeRows then { created := beforeAll } else {}
    phase := .sealed
    thawed := true }

/-- `stamp` of `take_deletes`. -/
def stampDeleted (stripe : HotStripe) (slot ts : Nat) : HotStripe :=
  stripe.setRow slot { stripe.row slot with deleted := ts }

/-- The body of the loop of `take_deletes` over the entries. An uncommitted entry keeps
its transaction's id and takes the row lock for it. -/
def takeEntry (stripe : HotStripe) (entry : Nat × Nat) : HotStripe :=
  let stripe := stripe.stampDeleted entry.1 entry.2
  if isCommitted entry.2 then stripe.stamped entry.2
  else stripe.setRow entry.1 { stripe.row entry.1 with lock := TxnId.ofMe entry.2 }

/-- `take_deletes`. -/
def takeDeletes (stripe : HotStripe) (deletes : DeleteVector) (checkpoint : Nat) : HotStripe :=
  let stripe := deletes.base.slots.foldl (fun stripe slot => stripe.stampDeleted slot beforeAll) stripe
  deletes.recent.foldl takeEntry (stripe.stamped checkpoint)

end HotStripe

end Rudb.Hot
