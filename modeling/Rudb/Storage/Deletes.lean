import Mathlib.Data.List.Sort
import Mathlib.Data.Nat.Bitwise
import Rudb.Storage.Stamp

/-! The delete vector of a frozen stripe: the base from its last checkpoint, in the smallest of
three containers, and the sorted list of deletes since. Embeds deletes.rs. -/
namespace Rudb.Deletes
open Rudb List

/-- `STRIPE_ROWS`. -/
def stripeRows : Nat := 524288

/-- `PART_ROWS`. -/
def partRows : Nat := 8192

/-- `ARRAY_MAX`. -/
def arrayMax : Nat := 4096

/-- `BITMAP_WORDS`. -/
def bitmapWords : Nat := stripeRows / 64

/-- One bit a row of a part, for the 128 words of a mask. -/
abbrev Mask := Nat → Bool

/-- `set`. -/
def Mask.set (mask : Mask) (bit : Nat) : Mask := fun i => i == bit || mask i

/-- `Base`: the deletes a stripe had at its last checkpoint, in the smallest of three shapes. -/
inductive Base where
  | empty
  | array (slots : List Nat)
  | bitmap (words : List Nat)
  | runs (runs : List (Nat × Nat))
  deriving DecidableEq

/-- The loop of `runs_of` with the run it has open. -/
def runsFrom (first last : Nat) : List Nat → List (Nat × Nat)
  | [] => [(first, last)]
  | slot :: rest =>
    if last + 1 = slot then runsFrom first slot rest
    else (first, last) :: runsFrom slot slot rest

/-- `runs_of`: the runs of consecutive slots in `slots`, sorted and distinct. -/
def runsOf : List Nat → List (Nat × Nat)
  | [] => []
  | slot :: rest => runsFrom slot slot rest

/-- The slots `first..=last`. -/
def slotsOfRun (run : Nat × Nat) : List Nat := List.range' run.1 (run.2 + 1 - run.1)

namespace Base

/-- `words[slot / 64] |= 1 << (slot % 64)`. -/
def setBit (words : List Nat) (slot : Nat) : List Nat :=
  words.modify (slot / 64) fun word => word ||| 1 <<< (slot % 64)

/-- `of`: the base for `slots`, sorted and distinct, in the smallest container. -/
def of (slots : List Nat) : Base :=
  if slots = [] then empty
  else
    let spans := runsOf slots
    let array := if slots.length ≤ arrayMax then slots.length * 4 else 2 ^ 64 - 1
    let bitmap := bitmapWords * 8
    if spans.length * 8 < min array bitmap then .runs spans
    else if array ≤ bitmap then .array slots
    else .bitmap (slots.foldl setBit (List.replicate bitmapWords 0))

/-- `contains`. The searches of the sorted containers are written as what they find. -/
def contains (base : Base) (slot : Nat) : Bool :=
  match base with
  | empty => false
  | array slots => slots.contains slot
  | bitmap words => (words[slot / 64]?.getD 0).testBit (slot % 64)
  | .runs spans =>
    match spans.find? fun run => !decide (run.2 < slot) with
    | some run => decide (run.1 ≤ slot)
    | none => false

/-- `slots`: the deleted slots, sorted. -/
def slots : Base → List Nat
  | empty => []
  | array slots => slots
  | bitmap words => words.zipIdx.flatMap fun (word, at_) =>
      ((List.range 64).filter word.testBit).map (at_ * 64 + ·)
  | .runs spans => spans.flatMap slotsOfRun

/-- `mark`: sets the bits of the deleted slots of `part` and says whether it set any. -/
def mark (base : Base) (part : Nat) (mask : Mask) : Mask × Bool :=
  let start := part * partRows
  let stop := start + partRows
  match base with
  | empty => (mask, false)
  | array slots =>
    let inside := (slots.dropWhile (· < start)).takeWhile (· < stop)
    (inside.foldl (fun mask slot => mask.set (slot - start)) mask, !inside.isEmpty)
  | bitmap words =>
    let inside := (words.drop (start / 64)).take (partRows / 64)
    (fun i => mask i || (inside[i / 64]?.getD 0).testBit (i % 64), inside.any (· ≠ 0))
  | .runs spans =>
    let inside := (spans.dropWhile fun run => run.2 < start).takeWhile fun run => run.1 < stop
    (inside.foldl (fun mask run =>
        (slotsOfRun (max run.1 start, min run.2 (stop - 1))).foldl
          (fun mask slot => mask.set (slot - start)) mask) mask,
      !inside.isEmpty)

/-- What the comments of the containers promise. -/
def Sound : Base → Prop
  | empty => True
  | array slots => slots.Pairwise (· < ·)
  | bitmap words => words.length = bitmapWords ∧ ∀ word ∈ words, word < 2 ^ 64
  | .runs spans => (∀ run ∈ spans, run.1 ≤ run.2) ∧ spans.Pairwise fun a b => a.2 + 1 < b.1

end Base

/-- `visible` of deletes.rs: whether a delete stamped `ts` is visible to a reader whose own
deletes are stamped `me`. -/
def visibleTo (ts snapshot me : Nat) : Bool :=
  if isCommitted ts then decide (ts ≤ snapshot) else ts == me

/-- `visible` to a transaction. -/
abbrev visible (ts snapshot : Nat) (txn : TxnId) : Bool := visibleTo ts snapshot txn.me

/-- `DeleteVector`, a frozen stripe's deletes: the base and the list since, sorted by slot with one
entry a slot. -/
structure DeleteVector where
  base : Base := .empty
  recent : List (Nat × Nat) := []
  sorted : recent.Pairwise (fun a b => a.1 < b.1) := by simp

instance : Inhabited DeleteVector := ⟨{}⟩

/-- The place of `binary_search` for a slot that has no entry. -/
def insertEntry (entry : Nat × Nat) : List (Nat × Nat) → List (Nat × Nat)
  | [] => [entry]
  | head :: rest => if head.1 < entry.1 then head :: insertEntry entry rest else entry :: head :: rest

theorem mem_insertEntry : x ∈ insertEntry entry recent ↔ x = entry ∨ x ∈ recent := by
  induction recent with
  | nil => simp [insertEntry]
  | cons head rest ih =>
    simp only [insertEntry]
    split
    · simp only [mem_cons, ih]
      exact or_left_comm
    · simp

theorem insertEntry_sorted (sorted : recent.Pairwise fun a b => a.1 < b.1) (fresh : ∀ x ∈ recent, x.1 ≠ entry.1) :
    (insertEntry entry recent).Pairwise fun a b => a.1 < b.1 := by
  induction recent with
  | nil => simp [insertEntry]
  | cons head rest ih =>
    obtain ⟨above, restSorted⟩ := pairwise_cons.mp sorted
    have apart := fresh head (by simp)
    simp only [insertEntry]
    split
    · rename_i below
      refine pairwise_cons.mpr ⟨fun x member => ?_, ?_⟩
      · rcases mem_insertEntry.mp member with rfl | member
        · exact below
        · exact above x member
      · exact ih restSorted fun x member => fresh x (mem_cons_of_mem _ member)
    rename_i notBelow
    refine pairwise_cons.mpr ⟨fun x member => ?_, sorted⟩
    rcases mem_cons.mp member with rfl | member
    · omega
    · have later := above x member
      omega

namespace DeleteVector

/-- The entry `binary_search_by_key` finds. -/
def entryOf (vector : DeleteVector) (slot : Nat) : Option (Nat × Nat) :=
  vector.recent.find? fun entry => entry.1 == slot

/-- `is_deleted`, for a reader whose own deletes are stamped `me`. -/
def isDeletedTo (vector : DeleteVector) (slot snapshot me : Nat) : Bool :=
  vector.base.contains slot ||
    match vector.entryOf slot with
    | some entry => visibleTo entry.2 snapshot me
    | none => false

/-- `is_deleted`. -/
abbrev isDeleted (vector : DeleteVector) (slot snapshot : Nat) (txn : TxnId) : Bool :=
  vector.isDeletedTo slot snapshot txn.me

theorem entryOf_none (vector : DeleteVector) (none : vector.entryOf slot = none) : ∀ x ∈ vector.recent, x.1 ≠ slot := by
  simpa [entryOf] using none

/-- `delete`, by a transaction that stamps its deletes `me`. -/
def deleteBy (vector : DeleteVector) (slot snapshot me : Nat) : Except Refusal DeleteVector :=
  if vector.base.contains slot then .error .gone
  else
    match found : vector.entryOf slot with
    | some entry => .error (if visibleTo entry.2 snapshot me then .gone else .conflict)
    | none => .ok
      { vector with
        recent := insertEntry (slot, me) vector.recent
        sorted := insertEntry_sorted vector.sorted (vector.entryOf_none found) }

/-- `delete`. -/
abbrev delete (vector : DeleteVector) (slot snapshot : Nat) (txn : TxnId) : Except Refusal DeleteVector :=
  vector.deleteBy slot snapshot txn.me

/-- `commit`: stamps every delete that is stamped `me`. -/
def commitBy (vector : DeleteVector) (me ts : Nat) : DeleteVector where
  base := vector.base
  recent := vector.recent.map fun entry => if entry.2 = me then (entry.1, ts) else entry
  sorted := by
    refine vector.sorted.map _ fun a b below => ?_
    split <;> split <;> exact below

/-- `commit`: stamps every delete of `txn`. -/
abbrev commit (vector : DeleteVector) (txn : TxnId) (ts : Nat) : DeleteVector :=
  vector.commitBy txn.me ts

/-- `abort`: takes back every delete that is stamped `me`. -/
def abortBy (vector : DeleteVector) (me : Nat) : DeleteVector where
  base := vector.base
  recent := vector.recent.filter fun entry => entry.2 != me
  sorted := vector.sorted.filter _

/-- `abort`: takes back every delete of `txn`. -/
abbrev abort (vector : DeleteVector) (txn : TxnId) : DeleteVector := vector.abortBy txn.me

/-- `mask`, for a reader whose own deletes are stamped `me`. -/
def maskTo (vector : DeleteVector) (part snapshot me : Nat) (mask : Mask) : Mask × Bool :=
  let (mask, any) := vector.base.mark part mask
  let start := part * partRows
  let inside := (vector.recent.dropWhile fun entry => entry.1 < start).takeWhile
    fun entry => entry.1 < start + partRows
  let shown := inside.filter fun entry => visibleTo entry.2 snapshot me
  (shown.foldl (fun mask entry => mask.set (entry.1 - start)) mask, any || !shown.isEmpty)

/-- `mask`. -/
abbrev mask (vector : DeleteVector) (part snapshot : Nat) (txn : TxnId) (mask : Mask) : Mask × Bool :=
  vector.maskTo part snapshot txn.me mask

/-- `from_base`. -/
def fromBase (base : Base) : DeleteVector := { base }

/-- Whether `fold` moves a delete: it is committed at or before the horizon. -/
def folds (horizon ts : Nat) : Bool := isCommitted ts && decide (ts ≤ horizon)

/-- `fold`: how many deletes moved to the base, and the vector. The loop over the two sorted
lists takes from the left one on a tie. -/
def fold (vector : DeleteVector) (horizon : Nat) : Nat × DeleteVector :=
  let folded := (vector.recent.filter fun entry => folds horizon entry.2).map Prod.fst
  if folded = [] then (0, vector)
  else
    (folded.length,
      { base := .of (vector.base.slots.merge folded)
        recent := vector.recent.filter fun entry => !folds horizon entry.2
        sorted := vector.sorted.filter _ })

end DeleteVector

end Rudb.Deletes
