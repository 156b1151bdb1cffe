import Rudb.Storage.Hot

/-! What each operation on a hot stripe does when it goes through: one equation or one
inversion for each, so that nothing after this looks inside them again. -/
namespace Rudb.Hot
open Rudb Rudb.Undo Rudb.Deletes List Function

/-- The values of a row after writes to it, each fitted to its column. -/
def put (widths : List Width) (value : Nat → Option Nat) (changes : List (Nat × Option Nat)) : Nat → Option Nat :=
  changes.foldl (fun value change =>
    Function.update value change.1 (fit widths change.1 change.2)) value

/-- The stamps after a commit raised the columns of `images` in `part`. -/
def raised (stamps : Nat → Nat → Nat) (images : List Image) (part ts : Nat) (column at_ : Nat) : Nat :=
  if at_ = part ∧ column ∈ images.map Image.column then max (stamps column at_) ts
  else stamps column at_

@[simp] theorem raised_nil (stamps : Nat → Nat → Nat) (part ts : Nat) : raised stamps [] part ts = stamps := by
  funext column at_
  simp [raised]

namespace HotStripe

variable {stripe next : HotStripe}

section
variable (stripe slot)

@[simp] theorem setRow_self (row : HotRow) :
    (stripe.setRow slot row).row slot = row := update_self ..

@[simp] theorem setRow_setRow (first second : HotRow) :
    (stripe.setRow slot first).setRow slot second = stripe.setRow slot second := by
  simp [setRow]

theorem foldl_write (changes : List (Nat × Option Nat)) :
    changes.foldl (fun stripe change => stripe.write slot change.1 change.2) stripe = stripe.setRow slot
        { stripe.row slot with value := put stripe.widths (stripe.row slot).value changes } := by
  induction changes generalizing stripe with
  | nil => simp [put, setRow]
  | cons change rest ih =>
    rw [foldl_cons, ih]
    simp only [write, setRow_self, setRow_setRow]
    rfl

end

/-- An image as the change that puts it back. -/
def restoring (image : Image) : Nat × Option Nat := (image.column, image.value)

theorem foldl_write_images (stripe : HotStripe) (slot : Nat) (images : List Image) :
    images.foldl (fun stripe image => stripe.write slot image.column image.value) stripe =
      stripe.setRow slot
        { stripe.row slot with
          value := put stripe.widths (stripe.row slot).value (images.map restoring) } := by
  rw [← foldl_write, foldl_map]
  rfl

theorem foldl_raise (stripe : HotStripe) (images : List Image) (part ts : Nat) :
    images.foldl (fun stripe image => stripe.raise image.column part ts) stripe =
      { stripe with stamps := raised stripe.stamps images part ts } := by
  induction images generalizing stripe with
  | nil => rw [foldl_nil, raised_nil]
  | cons image rest ih =>
    rw [foldl_cons, ih]
    simp only [raise, mk.injEq, true_and, and_true]
    funext column at_
    simp only [raised, map_cons, mem_cons]
    by_cases here : at_ = part
    · by_cases this : column = image.column <;> by_cases later : column ∈ rest.map Image.column <;>
        simp [here, this, later]
    · simp [here]

/-- A commit of a row the transaction does not hold stamps its deletes since the freeze
began and nothing else. -/
theorem commitWrite_of_not_held (other : (stripe.row slot).lock ≠ some txn) :
    stripe.commitWrite space slot txn ts =
      ({ stripe with pending := stripe.pending.map (·.commit txn ts) }, space) :=
  if_pos other

theorem commitWrite_of_held (held : (stripe.row slot).lock = some txn) :
    stripe.commitWrite space slot txn ts =
      ({ stripe with
          pending := stripe.pending.map (·.commit txn ts)
          changed := max stripe.changed ts
          stamps := raised stripe.stamps (imagesAt space ((stripe.row slot).own space txn.me))
            (slot / partRows) ts
          erased := if (stripe.row slot).deleted = txn.me
            then update stripe.erased (slot / partRows)
              (max (stripe.erased (slot / partRows)) ts)
            else stripe.erased
          row := update stripe.row slot
            { stripe.row slot with
              deleted := if (stripe.row slot).deleted = txn.me then ts
                else (stripe.row slot).deleted
              lock := none } },
        stampAll space ((stripe.row slot).own space txn.me) ts) := by
  simp only [commitWrite, held, ne_eq, not_true, if_false, foldl_raise, stamped]
  split <;> simp [release, setRow]

theorem abortWrite_of_not_held (other : (stripe.row slot).lock ≠ some txn) :
    stripe.abortWrite space slot txn =
      ({ stripe with pending := stripe.pending.map (·.abort txn) }, space) :=
  if_pos other

theorem abortWrite_of_held (held : (stripe.row slot).lock = some txn) :
    stripe.abortWrite space slot txn =
      ({ stripe with
          pending := stripe.pending.map (·.abort txn)
          row := update stripe.row slot
            { stripe.row slot with
              value := put stripe.widths (stripe.row slot).value
                ((imagesAt space ((stripe.row slot).own space txn.me)).map restoring)
              deleted := if (stripe.row slot).deleted = txn.me then live
                else (stripe.row slot).deleted
              lock := none } },
        stampAll space ((stripe.row slot).own space txn.me) aborted) := by
  simp only [abortWrite, held, ne_eq, not_true, if_false, foldl_write_images]
  split <;> simp_all [release, setRow]

section
variable (stripe)

@[simp] theorem commitWrite_pending :
    (stripe.commitWrite space slot txn ts).1.pending = stripe.pending.map (·.commit txn ts) := by
  by_cases held : (stripe.row slot).lock = some txn
  · rw [commitWrite_of_held held]
  · rw [commitWrite_of_not_held held]

@[simp] theorem commitWrite_phase : (stripe.commitWrite space slot txn ts).1.phase = stripe.phase := by
  by_cases held : (stripe.row slot).lock = some txn
  · rw [commitWrite_of_held held]
  · rw [commitWrite_of_not_held held]

@[simp] theorem abortWrite_pending :
    (stripe.abortWrite space slot txn).1.pending = stripe.pending.map (·.abort txn) := by
  by_cases held : (stripe.row slot).lock = some txn
  · rw [abortWrite_of_held held]
  · rw [abortWrite_of_not_held held]

@[simp] theorem abortWrite_phase : (stripe.abortWrite space slot txn).1.phase = stripe.phase := by
  by_cases held : (stripe.row slot).lock = some txn
  · rw [abortWrite_of_held held]
  · rw [abortWrite_of_not_held held]

/-- A commit of inserts restamps the rows and raises the stamps of every column. -/
theorem commitInsert_eq (first stop : Nat) :
    stripe.commitInsert first stop txn ts =
      { stripe with
        row := (stripe.restampCreated first stop txn.me ts).row
        changed := max stripe.changed ts
        stamps := fun column part =>
          if first < stop ∧ column < stripe.width ∧ first / partRows ≤ part ∧ part ≤ (stop - 1) / partRows
          then max (stripe.stamps column part) ts else stripe.stamps column part } := by
  simp only [commitInsert]
  by_cases some_slot : first < stop <;> simp [some_slot, restampCreated, stamped]

end

/-- A delete refuses as its claim does, but for a freeze. One whose claim went through panics
when the undo space is used up, and is not refused. -/
theorem delete_refused_iff (inside : slot < stripeRows) (buffer : UndoBuffer) (refusal : Refusal)
    (answer : (stripe.claim space slot snapshot txn wait handed).2.2 = refused) (other : refused ≠ some .freezing) :
    stripe.delete space buffer slot snapshot txn wait handed = .error (.refused refusal) ↔ refused = some refusal := by
  rw [delete, if_neg (Nat.not_le.mpr inside)]
  generalize stripe.claim space slot snapshot txn wait handed = claimed at answer ⊢
  obtain ⟨next, nextSpace, claimed⟩ := claimed
  subst answer
  cases claimed with
  | none =>
    simp only [reduceCtorEq, iff_false]
    split <;> rintro ⟨⟩
  | some claimed => cases claimed <;> simp_all

end HotStripe

end Rudb.Hot
