import Rudb.Storage.DeletesProofs
import Rudb.Storage.HotProofs
import Rudb.Storage.Stripes

/-! A thaw turns a delete vector into `deleted` stamps and row locks. Each slot of the
hot stripe mirrors its slot of the vector from then on, through every commit and abort
of a transaction whose deletes the thaw took over, so readers and writers are answered
alike on either side, but for a writer that waits, which only a hot row has. -/
namespace Rudb.Deletes
open Rudb List Option

namespace DeleteVector

/-- What a thaw stamps a slot with. -/
def stamp (vector : DeleteVector) (slot : Nat) : Nat :=
  if vector.base.contains slot then beforeAll
  else match vector.entryOf slot with
    | some entry => entry.2
    | none => live

/-- What the operations keep: entries beside the base, stamped by a commit or by the
transaction that deletes the row. -/
structure Sound (vector : DeleteVector) : Prop where
  base : vector.base.Sound
  apart : ∀ entry ∈ vector.recent, vector.base.contains entry.1 = false
  stamps : ∀ entry ∈ vector.recent, isCommitted entry.2 = true ∨ ∃ txn : TxnId, entry.2 = txn.me

variable {vector : DeleteVector}

theorem ne_live_of_isCommitted (committed : isCommitted ts = true) : ts ≠ live := by
  rintro rfl
  simp at committed

theorem sound_commit (sound : vector.Sound) (committed : isCommitted ts = true) : (vector.commit txn ts).Sound := by
  refine ⟨sound.base, fun entry member => ?_, fun entry member => ?_⟩ <;>
    obtain ⟨old, held, rfl⟩ := mem_map.mp member
  · split <;> exact sound.apart old held
  · split
    · exact .inl committed
    · exact sound.stamps old held

theorem sound_abort (sound : vector.Sound) : (vector.abort txn).Sound where
  base := sound.base
  apart := fun entry member => sound.apart entry (mem_filter.mp member).1
  stamps := fun entry member => sound.stamps entry (mem_filter.mp member).1

/-- A stamp is a commit's, a transaction's that has not finished, or nobody's. -/
theorem stamp_cases (sound : vector.Sound) (slot : Nat) :
    isCommitted (vector.stamp slot) = true ∨ (∃ txn : TxnId, vector.stamp slot = txn.me) ∨
      vector.stamp slot = live := by
  simp only [stamp]
  split
  · exact .inl (by decide)
  cases found : vector.entryOf slot with
  | none => exact .inr (.inr rfl)
  | some entry =>
    rcases sound.stamps entry (vector.entryOf_eq_some.mp found).1 with committed | open_
    · exact .inl committed
    · exact .inr (.inl open_)

theorem entryOf_commit :
    (vector.commit txn ts).entryOf slot =
      (vector.entryOf slot).map fun entry => if entry.2 = txn.me then (entry.1, ts) else entry := by
  simp only [entryOf, commitBy, find?_map]
  congr 2
  funext entry
  simp only [Function.comp]
  split <;> rfl

theorem entryOf_abort : (vector.abort txn).entryOf slot = (vector.entryOf slot).filter fun entry =>
    entry.2 != txn.me := by
  apply ext
  simp only [entryOf_eq_some, filter_eq_some_iff, abortBy, mem_filter]
  tauto

theorem stamp_commit :
    (vector.commit txn ts).stamp slot =
      if vector.stamp slot = txn.me then ts else vector.stamp slot := by
  simp only [stamp, entryOf_commit, show (vector.commit txn ts).base = vector.base from rfl]
  split
  · rw [if_neg (beforeAll_ne_me txn)]
  cases vector.entryOf slot with
  | none => simp [live_ne_me]
  | some entry =>
    simp only [map_some]
    split <;> rfl

theorem stamp_abort :
    (vector.abort txn).stamp slot =
      if vector.stamp slot = txn.me then live else vector.stamp slot := by
  simp only [stamp, entryOf_abort, show (vector.abort txn).base = vector.base from rfl]
  split
  · rw [if_neg (beforeAll_ne_me txn)]
  cases vector.entryOf slot with
  | none => simp [live_ne_me]
  | some entry =>
    by_cases own : entry.2 = txn.me <;> simp [Option.filter, own]

/-- The `deleted` test of a hot row says of the stamp what the vector says of the slot. -/
theorem stamp_hides (sound : vector.Sound) (first : 1 ≤ snapshot) (last : isCommitted snapshot = true) :
    (decide (vector.stamp slot ≤ snapshot) || vector.stamp slot == txn.me) = vector.isDeleted slot snapshot txn := by
  have low := isCommitted_iff.mp last
  simp only [stamp, isDeletedTo]
  split
  · rename_i inside
    simp only [inside, Bool.true_or, Bool.or_eq_true, decide_eq_true_eq]
    exact .inl first
  rename_i outside
  simp only [outside, Bool.false_or]
  cases found : vector.entryOf slot with
  | none =>
    have above : ¬ live ≤ snapshot := by
      unfold live
      omega
    simp [above, live_ne_me]
  | some entry =>
    simp only [visibleTo]
    rcases sound.stamps entry (vector.entryOf_eq_some.mp found).1 with committed | ⟨writer, stamped⟩
    · simp [committed, ne_me_of_isCommitted committed txn]
    have above : ¬ writer.me ≤ snapshot := by
      have := writer.me_ge
      omega
    simp [stamped, above]

/-- What a vector refuses a delete with: a stamped row, gone if its delete is visible. -/
def refuses (vector : DeleteVector) (slot snapshot : Nat) (txn : TxnId) : Option Refusal :=
  if vector.stamp slot = live then none
  else some (if visible (vector.stamp slot) snapshot txn then .gone else .conflict)

theorem delete_refused (sound : vector.Sound) (first : 1 ≤ snapshot) (slot : Nat) (txn : TxnId) (refusal : Refusal) :
    vector.delete slot snapshot txn = .error refusal ↔ vector.refuses slot snapshot txn = some refusal := by
  have committed : isCommitted beforeAll = true := by decide
  have oldest : visible beforeAll snapshot txn = true := by
    simp only [visibleTo, committed, if_true, decide_eq_true_eq]
    exact first
  simp only [deleteBy, refuses, stamp]
  split
  · simp [show beforeAll ≠ live by decide]
  split
  · rename_i entry found
    have stamped : entry.2 ≠ live := by
      rcases sound.stamps entry (vector.entryOf_eq_some.mp found).1 with committed | ⟨writer, open_⟩
      · exact ne_live_of_isCommitted committed
      · rw [open_]
        exact (live_ne_me writer).symm
    simp [found, stamped]
  · rename_i found
    simp [found]

end DeleteVector

end Rudb.Deletes

namespace Rudb.Stripes
open Rudb Rudb.Deletes Rudb.Undo Rudb.Hot HotStripe

/-- Who holds a row a thaw stamps with `stamp`. -/
def holderOf (stamp : Nat) : Option TxnId :=
  if isCommitted stamp then none else TxnId.ofMe stamp

/-- The hot row answers as the slot of the vector does. -/
structure Mirrors (vector : DeleteVector) (slot : Nat) (row : HotRow) : Prop where
  created : row.created = beforeAll
  deleted : row.deleted = vector.stamp slot
  lock : row.lock = holderOf (vector.stamp slot)

/-- A stripe no row of which has undo records or an insert in flight, and that no freeze
began on. -/
structure Quiet (stripe : HotStripe) : Prop where
  undo : ∀ slot, (stripe.row slot).undo = 0
  created : ∀ slot (txn : TxnId), (stripe.row slot).created ≠ txn.me
  pending : stripe.pending = none
  phase : stripe.isFreezing = false

/-- The hot stripe answers as the frozen one. -/
structure Agrees (hot : HotStripe) (frozen : FrozenStripe) : Prop where
  quiet : Quiet hot
  mirrors : ∀ slot < frozen.rows, Mirrors frozen.deletes slot (hot.row slot)
  beyond : ∀ slot, frozen.rows ≤ slot → (hot.row slot).created = 0

variable {vector : DeleteVector} {slot snapshot ts : Nat} {txn : TxnId}

theorem holderOf_live : holderOf live = none := by decide

theorem holderOf_me (txn : TxnId) : holderOf txn.me = some txn := by
  simp [holderOf, TxnId.ofMe_me]

theorem holderOf_stamp (sound : vector.Sound) (slot : Nat) (txn : TxnId) :
    holderOf (vector.stamp slot) = some txn ↔ vector.stamp slot = txn.me := by
  rcases vector.stamp_cases sound slot with committed | ⟨writer, stamped⟩ | unstamped
  · have other := ne_me_of_isCommitted committed txn
    simp [holderOf, committed, other]
  · rw [stamped, holderOf_me, Option.some.injEq]
    exact ⟨congrArg _, TxnId.me_inj⟩
  · rw [unstamped, holderOf_live]
    simp [live_ne_me]

def takenRow (row : HotRow) (ts : Nat) : HotRow :=
  { row with
    deleted := ts
    lock := if isCommitted ts then row.lock else TxnId.ofMe ts }

section
variable (stripe : HotStripe)
include stripe

theorem takeEntry_row (entry : Nat × Nat) (slot : Nat) : (stripe.takeEntry entry).row slot =
      if slot = entry.1 then takenRow (stripe.row slot) entry.2 else stripe.row slot := by
  by_cases here : slot = entry.1
  · subst here
    simp only [takeEntry, stampDeleted, takenRow]
    split <;> simp [setRow, stamped]
  · simp only [takeEntry, stampDeleted]
    split <;> simp [setRow, stamped, here]

theorem foldl_takeEntry_row (entries : List (Nat × Nat)) (sorted : entries.Pairwise fun a b => a.1 < b.1) (slot : Nat) :
    (entries.foldl takeEntry stripe).row slot =
      match entries.find? fun entry => entry.1 == slot with
      | some entry => takenRow (stripe.row slot) entry.2
      | none => stripe.row slot := by
  induction entries generalizing stripe with
  | nil => rfl
  | cons entry rest ih =>
    obtain ⟨above, restSorted⟩ := List.pairwise_cons.mp sorted
    rw [List.foldl_cons, ih _ restSorted, List.find?_cons, takeEntry_row]
    by_cases here : slot = entry.1
    · subst here
      have later : rest.find? (fun other => other.1 == entry.1) = none := by
        rw [List.find?_eq_none]
        intro other member
        have := above other member
        simp only [beq_iff_eq]
        omega
      simp [later]
    · simp only [if_neg here, beq_eq_false_iff_ne.mpr (Ne.symm here)]

theorem foldl_stampDeleted_row (slots : List Nat) (ts slot : Nat) :
    (slots.foldl (fun stripe slot => stripe.stampDeleted slot ts) stripe).row slot =
      if slot ∈ slots then { stripe.row slot with deleted := ts } else stripe.row slot := by
  induction slots generalizing stripe with
  | nil => simp
  | cons first rest ih =>
    rw [List.foldl_cons, ih]
    by_cases here : slot = first
    · subst here
      simp [stampDeleted, setRow]
    · simp [stampDeleted, setRow, here]

/-- The stamps a thaw leaves on a row, whatever values were written into it. -/
theorem takeDeletes_row (vector : DeleteVector) (sound : vector.Sound)
    (checkpoint slot : Nat) (unstamped : (stripe.row slot).deleted = live) (free : (stripe.row slot).lock = none) :
    (stripe.takeDeletes vector checkpoint).row slot =
      { stripe.row slot with deleted := vector.stamp slot, lock := holderOf (vector.stamp slot) } := by
  simp only [takeDeletes]
  rw [foldl_takeEntry_row _ _ vector.sorted]
  simp only [stamped, foldl_stampDeleted_row, vector.base.mem_slots sound.base]
  change (match vector.entryOf slot with | some _ => _ | none => _) = _
  cases found : vector.entryOf slot with
  | none =>
    by_cases inside : vector.base.contains slot = true
    · simp [DeleteVector.stamp, inside, holderOf, free, show isCommitted beforeAll = true by decide]
    · simp [DeleteVector.stamp, inside, found, holderOf_live]
      rw [← unstamped, ← free]
  | some entry =>
    obtain ⟨member, rfl⟩ := vector.entryOf_eq_some.mp found
    have outside := sound.apart entry member
    simp [DeleteVector.stamp, outside, found, takenRow, holderOf, free]

end

/-- Values written into a stripe leave its stamps alone. -/
theorem foldl_write_row (values : List (Nat × Nat × Option Nat)) (stripe : HotStripe) (slot : Nat) :
    ∃ value, (values.foldl (fun hot (slot, column, value) => hot.write slot column value) stripe).row
      slot = { stripe.row slot with value := value } := by
  induction values generalizing stripe with
  | nil => exact ⟨_, rfl⟩
  | cons first rest ih =>
    obtain ⟨value, same⟩ := ih (stripe.write first.1 first.2.1 first.2.2)
    refine ⟨value, same.trans ?_⟩
    by_cases here : slot = first.1
    · subst here
      simp [write, setRow]
    · simp [write, setRow, here]

/-- No step of a thaw begins a freeze. -/
theorem thaw_frame (frozen : FrozenStripe) (table : Nat) (widths : List Width)
    (values : List (Nat × Nat × Option Nat)) : (thaw frozen table widths values).pending = none ∧
      (thaw frozen table widths values).isFreezing = false := by
  let still : HotStripe → Prop := fun stripe => stripe.pending = none ∧ stripe.isFreezing = false
  have filled := List.foldlRecOn (motive := still) values
    (fun hot (slot, column, value) => hot.write slot column value)
    (b := thawing frozen.id table widths frozen.rows) ⟨rfl, rfl⟩
    fun _ held _ _ => held
  have stamped := List.foldlRecOn (motive := still) frozen.deletes.base.slots
    (fun stripe slot => stripe.stampDeleted slot beforeAll) filled fun _ held _ _ => held
  refine List.foldlRecOn (motive := still) frozen.deletes.recent takeEntry stamped ?_
  intro stripe held entry _
  simp only [still, takeEntry]
  split <;> exact held

/-- The hot stripe of a thaw answers as the frozen stripe it was made from. -/
theorem thaw_agrees (frozen : FrozenStripe) (sound : frozen.deletes.Sound)
    (fits : frozen.rows ≤ stripeRows) (table : Nat) (widths : List Width)
    (values : List (Nat × Nat × Option Nat)) : Agrees (thaw frozen table widths values) frozen := by
  have rows slot : ∃ value, (thaw frozen table widths values).row slot =
      { value := value
        created := if slot < frozen.rows then beforeAll else 0
        deleted := frozen.deletes.stamp slot
        lock := holderOf (frozen.deletes.stamp slot) } := by
    obtain ⟨value, filled⟩ := foldl_write_row values (thawing frozen.id table widths frozen.rows) slot
    have blank : (thawing frozen.id table widths frozen.rows).row slot =
        { created := if slot < frozen.rows then beforeAll else 0 } := by
      simp only [thawing, min_eq_left fits]
      split <;> rfl
    rw [blank] at filled
    refine ⟨value, ?_⟩
    rw [thaw, takeDeletes_row _ _ sound _ _ (by rw [filled]) (by rw [filled]), filled]
  choose value row using rows
  obtain ⟨pending, phase⟩ := thaw_frame frozen table widths values
  refine ⟨⟨fun slot => by rw [row], fun slot txn => ?_, pending, phase⟩, fun slot inside => ?_,
    fun slot outside => by rw [row, if_neg (Nat.not_lt.mpr outside)]⟩
  · have top := txn.me_ge
    rw [row]
    simp only [beforeAll]
    split <;> omega
  · rw [row, if_pos inside]
    exact ⟨rfl, rfl, rfl⟩

/-- What a commit or an abort does to a row without undo records: a row `txn` holds goes
free, stamped `ts` if `txn` deleted it. -/
def finishRow (txn : TxnId) (ts : Nat) (row : HotRow) : HotRow :=
  if row.lock = some txn then
    { row with deleted := if row.deleted = txn.me then ts else row.deleted, lock := none }
  else row

/-- A step that finishes the row at the slot it is given and keeps the stripe quiet. -/
def Finishes (txn : TxnId) (ts : Nat) (step : HotStripe × UndoSpace → Nat → HotStripe × UndoSpace) : Prop :=
  ∀ state slot, Quiet state.1 → Quiet (step state slot).1 ∧
    ∀ other, (step state slot).1.row other =
      if other = slot then finishRow txn ts (state.1.row other) else state.1.row other

theorem own_of_undo (row : HotRow) (space : UndoSpace) (me : Nat) (none : row.undo = 0) : row.own space me = [] := by
  simp [HotRow.own, none]

theorem Quiet.of_rows (quiet : Quiet stripe) (pending : next.pending = none)
    (phase : next.phase = stripe.phase) (undo : ∀ slot, (next.row slot).undo = (stripe.row slot).undo)
    (created : ∀ slot, (next.row slot).created = (stripe.row slot).created) : Quiet next where
  undo := fun slot => (undo slot).trans (quiet.undo slot)
  created := fun slot txn => created slot ▸ quiet.created slot txn
  pending := pending
  phase := by
    have same := quiet.phase
    rwa [isFreezing, ← phase] at same

/-- Restamping a row the transaction did not insert changes nothing. -/
theorem restampCreated_row {stripe : HotStripe} (other : (stripe.row slot).created ≠ txn.me) :
    (stripe.restampCreated first stop txn.me ts).row slot = stripe.row slot :=
  if_neg fun stamped => other stamped.2.2

theorem finishRow_other {row : HotRow} (unheld : row.lock ≠ some txn) : finishRow txn ts row = row := if_neg unheld

theorem commitWrite_row (stripe : HotStripe) (space : UndoSpace) (txn : TxnId)
    (ts slot other : Nat) :
    (stripe.commitWrite space slot txn ts).1.row other =
      if other = slot then finishRow txn ts (stripe.row other) else stripe.row other := by
  by_cases held : (stripe.row slot).lock = some txn
  · rw [commitWrite_of_held held]
    by_cases here : other = slot
    · subst here
      simp [finishRow, held]
    · simp [here]
  rw [commitWrite_of_not_held held]
  split
  · rename_i here
    rw [finishRow_other (here ▸ held)]
  · rfl

theorem abortWrite_row (quiet : Quiet stripe) (space : UndoSpace) (txn : TxnId)
    (slot other : Nat) :
    (stripe.abortWrite space slot txn).1.row other =
      if other = slot then finishRow txn live (stripe.row other) else stripe.row other := by
  by_cases held : (stripe.row slot).lock = some txn
  · rw [abortWrite_of_held held, own_of_undo _ _ _ (quiet.undo slot)]
    by_cases here : other = slot
    · subst here
      simp [finishRow, held, imagesAt, put]
    · simp [here]
  rw [abortWrite_of_not_held held]
  split
  · rename_i here
    rw [finishRow_other (here ▸ held)]
  · rfl

theorem created_finishRow (row : HotRow) : (finishRow txn ts row).created = row.created := by
  rw [finishRow]
  split <;> rfl

theorem created_ne_of_finish {next : HotStripe} (quiet : Quiet stripe)
    (row : next.row other = if other = slot then finishRow txn ts (stripe.row other) else stripe.row other) :
    (next.row other).created ≠ txn.me := by
  have kept := quiet.created other txn
  rw [row]
  split
  · rwa [created_finishRow]
  · exact kept

theorem finishes_of_rows
    (rows : ∀ state slot other, Quiet state.1 → (step state slot).1.row other =
      if other = slot then finishRow txn ts (state.1.row other) else state.1.row other)
    (pending : ∀ state slot, state.1.pending = none → (step state slot).1.pending = none)
    (phase : ∀ state slot, (step state slot).1.phase = state.1.phase) : Finishes txn ts step := by
  intro state slot quiet
  refine ⟨quiet.of_rows (pending _ _ quiet.pending) (phase _ _) (fun other => ?_)
    (fun other => ?_), fun other => rows _ _ other quiet⟩ <;>
  · rw [rows _ _ _ quiet, finishRow]
    split
    · split <;> rfl
    · rfl

theorem commitSlot_finishes (txn : TxnId) (ts : Nat) : Finishes txn ts (Stripe.commitSlot txn ts) := by
  refine finishes_of_rows (fun state slot other quiet => ?_) (fun state slot none => ?_)
    fun state slot => ?_
  · have row := commitWrite_row state.1 state.2 txn ts slot other
    rw [← row]
    simp only [Stripe.commitSlot, commitInsert_eq]
    exact restampCreated_row (created_ne_of_finish quiet row)
  · simp [Stripe.commitSlot, commitInsert_eq, none]
  · simp [Stripe.commitSlot, commitInsert_eq]

theorem abortSlot_finishes (txn : TxnId) : Finishes txn live (Stripe.abortSlot txn) := by
  refine finishes_of_rows (fun state slot other quiet => ?_) (fun state slot none => ?_)
    fun state slot => ?_
  · have row := abortWrite_row quiet state.2 txn slot other
    rw [← row]
    exact restampCreated_row (created_ne_of_finish quiet row)
  · simp [Stripe.abortSlot, abortInsert, restampCreated, none]
  · simp [Stripe.abortSlot, abortInsert, restampCreated]

theorem finishRow_idem (row : HotRow) : finishRow txn ts (finishRow txn ts row) = finishRow txn ts row := by
  by_cases held : row.lock = some txn <;> simp [finishRow, held]

theorem foldl_finishes
    (finishes : Finishes txn ts step) (slots : List Nat) (state : HotStripe × UndoSpace)
    (quiet : Quiet state.1) :
    Quiet (slots.foldl step state).1 ∧ ∀ slot, (slots.foldl step state).1.row slot =
      if slot ∈ slots then finishRow txn ts (state.1.row slot) else state.1.row slot := by
  induction slots generalizing state with
  | nil => exact ⟨quiet, fun _ => by simp⟩
  | cons first rest ih =>
    obtain ⟨still, row⟩ := finishes state first quiet
    obtain ⟨done, rows⟩ := ih (step state first) still
    refine ⟨done, fun slot => ?_⟩
    rw [List.foldl_cons, rows, row]
    by_cases here : slot = first <;> by_cases later : slot ∈ rest <;>
      simp [here, later, finishRow_idem]

/-- Finishing the transaction that holds the row is restamping its entry. -/
theorem mirrors_finish {row : HotRow} (sound : vector.Sound) (mirrors : Mirrors vector slot row)
    (stamped : next.stamp slot = if vector.stamp slot = txn.me then ts else vector.stamp slot)
    (released : holderOf ts = none) : Mirrors next slot (finishRow txn ts row) := by
  have holder := holderOf_stamp sound slot txn
  by_cases own : vector.stamp slot = txn.me
  · have held : row.lock = some txn := mirrors.lock.trans (holder.mpr own)
    have deleted : row.deleted = txn.me := mirrors.deleted.trans own
    rw [finishRow, if_pos held]
    exact ⟨mirrors.created, by simp [stamped, own, deleted], by simp [stamped, own, released]⟩
  have other : row.lock ≠ some txn := fun held => own (holder.mp (mirrors.lock ▸ held))
  rw [finishRow_other other]
  rw [if_neg own] at stamped
  exact ⟨mirrors.created, stamped ▸ mirrors.deleted, stamped ▸ mirrors.lock⟩

/-- A transaction a thaw took deletes over from finishes: the rows it is told of are the
ones it wrote. -/
inductive Finish where
  | commit (txn : TxnId) (ts : Nat) (slots : List Nat)
  | abort (txn : TxnId) (slots : List Nat)

namespace Finish

def onVector (finish : Finish) (vector : DeleteVector) : DeleteVector :=
  match finish with
  | commit txn ts _ => vector.commit txn ts
  | abort txn _ => vector.abort txn

/-- `StripeDirectory::commit` or `abort`. -/
def onStripe (finish : Finish) (state : Stripe × UndoSpace) : Stripe × UndoSpace :=
  match finish with
  | commit txn ts slots => state.1.commit state.2 slots txn ts
  | abort txn slots => state.1.abort state.2 slots txn

/-- The rows are all the ones the transaction deleted, and a commit's stamp is a timestamp. -/
def Covers (finish : Finish) (vector : DeleteVector) : Prop :=
  match finish with
  | commit txn ts slots =>
    isCommitted ts = true ∧ ∀ slot, (slot, txn.me) ∈ vector.recent → slot ∈ slots
  | abort txn slots => ∀ slot, (slot, txn.me) ∈ vector.recent → slot ∈ slots

end Finish

theorem mem_of_stamp (own : vector.stamp slot = txn.me) : (slot, txn.me) ∈ vector.recent := by
  simp only [DeleteVector.stamp] at own
  split at own
  · exact absurd own (beforeAll_ne_me txn)
  cases found : vector.entryOf slot with
  | none =>
    rw [found] at own
    exact absurd own (live_ne_me txn)
  | some entry =>
    rw [found] at own
    obtain ⟨member, rfl⟩ := vector.entryOf_eq_some.mp found
    exact own ▸ member

variable {frozen : FrozenStripe} {hot : HotStripe}

/-- The rows a finish is told of and the vector after it. -/
theorem agrees_finish (agrees : Agrees hot frozen)
    (sound : frozen.deletes.Sound) {slots : List Nat} (finishes : Finishes txn ts step)
    (stamped : ∀ slot, next.stamp slot =
      if frozen.deletes.stamp slot = txn.me then ts else frozen.deletes.stamp slot)
    (released : holderOf ts = none)
    (covers : ∀ slot, (slot, txn.me) ∈ frozen.deletes.recent → slot ∈ slots) (space : UndoSpace) :
    Agrees (slots.foldl step (hot, space)).1 { frozen with deletes := next } := by
  obtain ⟨quiet, rows⟩ := foldl_finishes finishes slots (hot, space) agrees.quiet
  refine ⟨quiet, fun slot inside => ?_, fun slot outside => ?_⟩
  · have mirrors := mirrors_finish sound (agrees.mirrors slot inside) (stamped slot) released
    rw [rows]
    split
    · exact mirrors
    rename_i left
    have other : frozen.deletes.stamp slot ≠ txn.me := fun own => left (covers slot (mem_of_stamp own))
    have unheld : (hot.row slot).lock ≠ some txn := fun held =>
      other ((holderOf_stamp sound slot txn).mp ((agrees.mirrors slot inside).lock ▸ held))
    rwa [finishRow_other unheld] at mirrors
  · have hole := agrees.beyond slot outside
    rw [rows]
    split
    · rw [created_finishRow]
      exact hole
    · exact hole

theorem holderOf_committed (committed : isCommitted ts = true) : holderOf ts = none := by
  rw [holderOf, if_pos committed]

/-- A frozen stripe without a graveyard shows the rows its vector does not have. -/
theorem frozen_shows (frozen : FrozenStripe) (sound : frozen.deletes.base.Sound) (empty : frozen.graveyard = none) :
    (Stripe.frozen frozen).shows slot snapshot txn =
      (decide (slot < frozen.rows) && !frozen.deletes.isDeleted slot snapshot txn) := by
  have inside : slot % partRows < partRows := Nat.mod_lt _ (by decide)
  have place : slot / partRows * partRows + slot % partRows = slot := Nat.div_add_mod' ..
  have bits := frozen.deletes.maskTo_spec sound (slot / partRows) snapshot txn.me (fun _ => false) inside
  have some_bit := frozen.deletes.maskTo_any sound (slot / partRows) snapshot txn.me fun _ => false
  rw [place] at bits
  have rows : slot % partRows < min (frozen.rows - slot / partRows * partRows) partRows ↔
      slot < frozen.rows := by omega
  simp only [Stripe.shows, Stripe.visible, FrozenStripe.visible, empty, ite_self, clip, rows]
  congr 1
  split
  · exact congrArg not bits
  rename_i unmarked
  have shown : frozen.deletes.isDeleted slot snapshot txn = false := by
    by_contra gone
    exact unmarked (some_bit.mpr ⟨_, inside, by rw [place]; simpa using gone⟩)
  simp [shown]

theorem hot_shows (quiet : Quiet stripe) : (Stripe.hot stripe).shows slot snapshot txn =
      seen (stripe.row slot).created (stripe.row slot).deleted snapshot txn.me := by
  have place : slot / partRows * partRows + slot % partRows = slot := Nat.div_add_mod' ..
  simp only [Stripe.shows, Stripe.visible, mask, quiet.pending, place]

/-- Readers are answered alike. -/
theorem agrees_shows (agrees : Agrees hot frozen)
    (sound : frozen.deletes.Sound) (empty : frozen.graveyard = none) (first : 1 ≤ snapshot)
    (last : isCommitted snapshot = true) :
    (Stripe.hot hot).shows slot snapshot txn = (Stripe.frozen frozen).shows slot snapshot txn := by
  rw [hot_shows agrees.quiet, frozen_shows frozen sound.base empty, seen]
  by_cases inside : slot < frozen.rows
  · obtain ⟨created, deleted, -⟩ := agrees.mirrors slot inside
    have there : (beforeAll + (2 ^ 64 - 1)) % 2 ^ 64 < snapshot := first
    rw [created, deleted, DeleteVector.stamp_hides sound first last]
    simp only [there, inside, decide_true, Bool.true_or, Bool.true_and]
  have low := isCommitted_iff.mp last
  have hole := agrees.beyond slot (not_lt.mp inside)
  have past : ¬ (0 + (2 ^ 64 - 1)) % 2 ^ 64 < snapshot := by omega
  have nobody : (0 : Nat) ≠ txn.me := ne_me_of_isCommitted (by decide) txn
  rw [hole]
  simp only [past, inside, beq_eq_false_iff_ne.mpr nobody, decide_false, Bool.or_self,
    Bool.false_and]

/-- A delete of the slot by another transaction that has not finished, which a writer may wait for. -/
def Awaits (vector : DeleteVector) (slot : Nat) (txn : TxnId) (wait : Park.Wait) : Prop :=
  ∃ holder : TxnId, (slot, holder.me) ∈ vector.recent ∧ holder ≠ txn ∧ wait.allows txn holder = true

theorem stamp_of_mem (sound : vector.Sound) (member : (slot, txn.me) ∈ vector.recent) : vector.stamp slot = txn.me := by
  have found := vector.entryOf_eq_some.mpr ⟨member, rfl⟩
  simp [DeleteVector.stamp, sound.apart _ member, found]

theorem not_absent {row : HotRow} (mirrors : Mirrors vector slot row) (first : 1 ≤ snapshot) :
    ¬ row.absent snapshot txn := by
  rw [HotRow.absent, mirrors.created]
  exact fun absent => absurd absent.1 (Nat.not_le.mpr first)

section
variable {wait : Park.Wait} {stripe : HotStripe} (quiet : Quiet stripe) (sound : vector.Sound)
  (mirrors : Mirrors vector slot (stripe.row slot)) (first : 1 ≤ snapshot) (space : UndoSpace)
include sound mirrors

theorem stamp_of_lock {holder : TxnId} : (stripe.row slot).lock = some holder ↔ vector.stamp slot = holder.me := by
  rw [mirrors.lock]
  exact holderOf_stamp sound slot holder

include quiet

/-- A row that nobody holds is refused as the slot of the vector it mirrors. -/
theorem checked_refuses (free : (stripe.row slot).lock = none) :
    (stripe.checked space slot snapshot txn).2.2 = vector.refuses slot snapshot txn := by
  have unchanged : ¬ snapshot < (stripe.row slot).newestChange space := by
    simp [HotRow.newestChange, quiet.undo slot]
  simp only [checked, quiet.phase, mirrors.deleted, if_neg unchanged, DeleteVector.refuses]
  rcases DeleteVector.stamp_cases sound slot with committed | ⟨writer, open_⟩ | unstamped
  · simp [DeleteVector.ne_live_of_isCommitted committed, visibleTo, committed]
  · have held := (stamp_of_lock sound mirrors).mpr open_
    simp [free] at held
  · simp [unstamped]

include first

/-- A claim that does not come to be handed the row refuses as the vector does. -/
theorem claim_refuses (alone : handed = none ∨ ¬ Awaits vector slot txn wait) :
    (stripe.claim space slot snapshot txn wait handed).2.2 = vector.refuses slot snapshot txn := by
  simp only [claim, if_neg (not_absent mirrors first)]
  cases lock : (stripe.row slot).lock with
  | none => exact checked_refuses quiet sound mirrors space lock
  | some holder =>
    have stamped := (stamp_of_lock sound mirrors).mp lock
    have dead := (live_ne_me holder).symm
    by_cases own : holder = txn
    · subst own
      simp [mirrors.deleted, stamped, DeleteVector.refuses, visibleTo, dead]
    have other : holder.me ≠ txn.me := fun same => own (TxnId.me_inj same)
    have conflict : vector.refuses slot snapshot txn = some .conflict := by
      simp [DeleteVector.refuses, stamped, visibleTo, dead, other]
    simp only [conflict, ne_eq, own, not_false_eq_true, if_true]
    rcases alone with rfl | never
    · split <;> rfl
    · have barred : wait.allows txn holder = false :=
        Bool.eq_false_iff.mpr fun allowed => never ⟨holder, mem_of_stamp stamped, own, allowed⟩
      simp [barred]

omit quiet in
/-- A claim that is handed the row goes on from the stripe as the row was let go. -/
theorem claim_handed (awaits : Awaits vector slot txn wait) (handed : HotStripe × UndoSpace) :
    stripe.claim space slot snapshot txn wait (some handed) = handed.1.checked handed.2 slot snapshot txn := by
  obtain ⟨holder, member, other, allowed⟩ := awaits
  have lock := (stamp_of_lock sound mirrors).mpr (stamp_of_mem sound member)
  simp [claim, not_absent mirrors first, lock, other, allowed]

end

/-- A hot stripe refuses a delete with what its claim refuses with. -/
theorem hot_delete_refused (inside : slot < stripeRows) (sound : vector.Sound) (first : 1 ≤ snapshot)
    (space : UndoSpace) (buffer : UndoBuffer) (refusal : Refusal)
    (claimed : (hot.claim space slot snapshot txn wait handed).2.2 = vector.refuses slot snapshot txn) :
    (Stripe.hot hot).delete space buffer slot snapshot txn wait handed = .error (.refused refusal) ↔
      vector.delete slot snapshot txn = .error refusal := by
  have thawed : vector.refuses slot snapshot txn ≠ some .freezing := by
    rw [DeleteVector.refuses]
    split
    · rintro ⟨⟩
    · split <;> rintro ⟨⟩
  rw [DeleteVector.delete_refused sound first, ← delete_refused_iff inside buffer refusal claimed thawed, Stripe.delete]
  split <;> simp_all

/-- Each finish is told of all the rows its transaction deleted. -/
def Covered : DeleteVector → List Finish → Prop
  | _, [] => True
  | vector, finish :: rest => finish.Covers vector ∧ Covered (finish.onVector vector) rest

/-- Stripes that agree go on agreeing through every finish. -/
theorem finish_agrees (agrees : Agrees hot frozen)
    (sound : frozen.deletes.Sound) (finish : Finish) (covers : finish.Covers frozen.deletes)
    (space : UndoSpace) :
    ∃ next nextSpace, finish.onStripe (.hot hot, space) = (.hot next, nextSpace) ∧
      finish.onStripe (.frozen frozen, space) =
        (.frozen { frozen with deletes := finish.onVector frozen.deletes }, space) ∧
      Agrees next { frozen with deletes := finish.onVector frozen.deletes } ∧
      (finish.onVector frozen.deletes).Sound := by
  cases finish with
  | commit txn ts slots =>
    obtain ⟨committed, told⟩ := covers
    exact ⟨_, _, rfl, rfl, agrees_finish agrees sound (commitSlot_finishes txn ts)
      (fun slot => DeleteVector.stamp_commit) (holderOf_committed committed) told space,
      DeleteVector.sound_commit sound committed⟩
  | abort txn slots =>
    exact ⟨_, _, rfl, rfl, agrees_finish agrees sound (abortSlot_finishes txn)
      (fun slot => DeleteVector.stamp_abort) holderOf_live covers space,
      DeleteVector.sound_abort sound⟩

/-- A stripe after finishes, in order. -/
def stripeAfter (finishes : List Finish) (state : Stripe × UndoSpace) : Stripe × UndoSpace :=
  finishes.foldl (fun state finish => finish.onStripe state) state

def deletesAfter (finishes : List Finish) (vector : DeleteVector) : DeleteVector :=
  finishes.foldl (fun vector finish => finish.onVector vector) vector

/-- Stripes that agree go on agreeing through any finishes. -/
theorem finishes_agree (finishes : List Finish)
    (space coldSpace : UndoSpace) (agrees : Agrees hot frozen) (sound : frozen.deletes.Sound)
    (covered : Covered frozen.deletes finishes) :
    ∃ next nextSpace, stripeAfter finishes (.hot hot, space) = (.hot next, nextSpace) ∧
      stripeAfter finishes (.frozen frozen, coldSpace) =
        (.frozen { frozen with deletes := deletesAfter finishes frozen.deletes }, coldSpace) ∧
      Agrees next { frozen with deletes := deletesAfter finishes frozen.deletes } ∧
      (deletesAfter finishes frozen.deletes).Sound := by
  induction finishes generalizing hot frozen space with
  | nil => exact ⟨hot, space, rfl, rfl, agrees, sound⟩
  | cons finish rest ih =>
    obtain ⟨covers, later⟩ := covered
    obtain ⟨next, nextSpace, thawed, -, agree, sound⟩ := finish_agrees agrees sound finish covers space
    obtain ⟨-, -, -, left, -, -⟩ := finish_agrees agrees ‹_› finish covers coldSpace
    simp only [stripeAfter, List.foldl_cons, thawed, left]
    exact ih nextSpace agree sound later

/-- The hot stripe of a thaw shows every reader the rows the frozen stripe would show, right
after the thaw and after any commits and aborts of the transactions whose deletes it took
over. It refuses every writer as the delete vector would, but for one that waits for such a
transaction and is handed the row: that one is refused as the vector would refuse it after
what finished meanwhile. -/
theorem thaw_preserves_view {frozen begun : FrozenStripe} (begins : beginThaw frozen = some begun)
    (sound : frozen.deletes.Sound) (fits : frozen.rows ≤ stripeRows) (table : Nat)
    (widths : List Width) (values : List (Nat × Nat × Option Nat)) (space : UndoSpace)
    (buffer : UndoBuffer) (finishes : List Finish) (covered : Covered frozen.deletes finishes)
    (snapshot : Nat) (txn : TxnId) (first : 1 ≤ snapshot) (last : isCommitted snapshot = true) :
    let hot := stripeAfter finishes (.hot (thaw begun table widths values), space)
    let deletes := deletesAfter finishes frozen.deletes
    (∀ slot, hot.1.shows slot snapshot txn =
      (stripeAfter finishes (.frozen frozen, space)).1.shows slot snapshot txn) ∧
      ∀ slot < frozen.rows, ∀ wait,
        (∀ handed, handed = none ∨ ¬ Awaits deletes slot txn wait → ∀ refusal,
          hot.1.delete hot.2 buffer slot snapshot txn wait handed = .error (.refused refusal) ↔
            deletes.delete slot snapshot txn = .error refusal) ∧
        (Awaits deletes slot txn wait → ∀ meanwhile, Covered deletes meanwhile → ∀ next nextSpace,
          stripeAfter meanwhile hot = (.hot next, nextSpace) → (next.row slot).lock = none → ∀ refusal,
            hot.1.delete hot.2 buffer slot snapshot txn wait (some (next, nextSpace)) = .error (.refused refusal) ↔
              (deletesAfter meanwhile deletes).delete slot snapshot txn = .error refusal) := by
  simp only [beginThaw] at begins
  split at begins
  case isFalse => cases begins
  rename_i fresh
  have empty := Option.isNone_iff_eq_none.mp fresh.2
  cases begins
  have agrees : Agrees (thaw { frozen with thaw := .thawing } table widths values) frozen :=
    thaw_agrees frozen sound fits table widths values
  obtain ⟨hot, hotSpace, thawed, left, agree, soundNext⟩ := finishes_agree finishes space space agrees sound covered
  simp only [thawed, left]
  refine ⟨fun slot => agrees_shows agree soundNext empty first last, fun slot inside wait =>
    ⟨fun handed alone refusal => ?_, fun awaits meanwhile told next nextSpace ends free refusal => ?_⟩⟩
  · exact hot_delete_refused (inside.trans_le fits) soundNext first hotSpace buffer refusal
      (claim_refuses agree.quiet soundNext (agree.mirrors slot inside) first hotSpace alone)
  · obtain ⟨_, _, reached, -, later, soundLater⟩ := finishes_agree meanwhile hotSpace space agree soundNext told
    rw [reached] at ends
    cases ends
    refine hot_delete_refused (inside.trans_le fits) soundLater first hotSpace buffer refusal ?_
    rw [claim_handed soundNext (agree.mirrors slot inside) first hotSpace awaits]
    exact checked_refuses later.quiet soundLater (later.mirrors slot inside) nextSpace free

/-- A stripe of four rows: the first in the base, the second deleted at 4, and the others by
transactions that have not finished when the stripe is thawed. -/
def fourRows : FrozenStripe where
  id := 0
  rows := 4
  checkpoint := 2
  deletes := ⟨.array [0], [(1, 4), (2, TxnId.me ⟨9, by decide⟩), (3, TxnId.me ⟨8, by decide⟩)], by decide⟩

def waiter : TxnId := ⟨5, by decide⟩

/-- The one transaction commits before a writer comes, and the other aborts while it waits. -/
theorem thaw_preserves_view_four :
    let hot := stripeAfter [.commit ⟨9, by decide⟩ 6 [2]]
      (.hot (thaw { fourRows with thaw := .thawing } 0 [.eight] [(1, 0, some 7)]), UndoSpace.new)
    let deletes := deletesAfter [.commit ⟨9, by decide⟩ 6 [2]] fourRows.deletes
    (∀ slot, hot.1.shows slot 5 waiter =
        (stripeAfter [.commit ⟨9, by decide⟩ 6 [2]] (.frozen fourRows, UndoSpace.new)).1.shows slot 5 waiter) ∧
      (∀ slot < 4, ∀ refusal, hot.1.delete hot.2 {} slot 5 waiter .never none = .error (.refused refusal) ↔
        deletes.delete slot 5 waiter = .error refusal) ∧
      ∃ next nextSpace, stripeAfter [.abort ⟨8, by decide⟩ [3]] hot = (.hot next, nextSpace) ∧ ∀ refusal,
        hot.1.delete hot.2 {} 3 5 waiter ⟨1000, true⟩ (some (next, nextSpace)) = .error (.refused refusal) ↔
          (deletesAfter [.abort ⟨8, by decide⟩ [3]] deletes).delete 3 5 waiter = .error refusal := by
  have sound : fourRows.deletes.Sound := by
    refine ⟨by simp [fourRows, Base.Sound], by simp [fourRows, Base.contains], ?_⟩
    simp only [fourRows, List.mem_cons, List.not_mem_nil, or_false]
    rintro entry (rfl | rfl | rfl)
    · exact .inl (by decide)
    · exact .inr ⟨_, rfl⟩
    · exact .inr ⟨_, rfl⟩
  have told : Covered fourRows.deletes [.commit ⟨9, by decide⟩ 6 [2]] := by
    refine ⟨⟨by decide, fun slot member => ?_⟩, trivial⟩
    have apart : TxnId.me ⟨9, by decide⟩ ≠ 4 ∧ TxnId.me ⟨9, by decide⟩ ≠ TxnId.me ⟨8, by decide⟩ := by decide
    simpa [fourRows, apart] using member
  have view := thaw_preserves_view rfl sound (by decide) 0 [.eight] [(1, 0, some 7)] UndoSpace.new {}
    [.commit ⟨9, by decide⟩ 6 [2]] told 5 waiter (by decide) (by decide)
  refine ⟨view.1, fun slot inside => (view.2 slot inside .never).1 none (.inl rfl), _, _, rfl, ?_⟩
  refine (view.2 3 (by decide) ⟨1000, true⟩).2 ⟨⟨8, by decide⟩, by decide, by decide, by decide⟩ _ ?_ _ _ rfl rfl
  refine ⟨fun slot member => ?_, trivial⟩
  have entries : (slot, TxnId.me ⟨8, by decide⟩) ∈ [(1, 4), (2, 6), (3, TxnId.me ⟨8, by decide⟩)] := member
  have apart : TxnId.me ⟨8, by decide⟩ ≠ 4 ∧ TxnId.me ⟨8, by decide⟩ ≠ 6 := by decide
  simpa [apart] using entries

/-- The vector refuses a row whose delete has not finished. A writer that may wait for it
deletes the row of the hot stripe once that delete is aborted. -/
theorem waiting_delete_goes_through :
    ∃ handed space, stripeAfter [.abort ⟨8, by decide⟩ [3]]
        (.hot (thaw { fourRows with thaw := .thawing } 0 [.eight] []), UndoSpace.new) = (.hot handed, space) ∧
      ((Stripe.hot (thaw { fourRows with thaw := .thawing } 0 [.eight] [])).delete UndoSpace.new {} 3 5 waiter
        ⟨1000, true⟩ (some (handed, space))).isOk = true ∧
      fourRows.deletes.delete 3 5 waiter = .error .conflict :=
  ⟨_, _, rfl, by decide +kernel, by rfl⟩

end Rudb.Stripes
