import Rudb.Storage.DeletesProofs

/-! A delete vector as a plain map from slots to stamps: every call answers as it would on a
map that holds, for each slot, the stamp of its one delete. -/
namespace Rudb.Deletes
open Rudb List

namespace Base

/-- A base of slots of the stripe. -/
def Inside (base : Base) : Prop := ∀ slot, base.contains slot = true → slot < stripeRows

theorem slots_sorted (base : Base) (sound : base.Sound) : base.slots.Pairwise (· < ·) := by
  cases base with
  | empty => exact .nil
  | array slots => exact sound
  | bitmap words =>
    refine pairwise_flatMap.mpr ⟨fun word _ => ?_, ?_⟩
    · refine (pairwise_lt_range.filter _).map _ fun a b below => ?_
      omega
    have order : words.zipIdx.Pairwise fun a b => a.2 < b.2 := by
      refine pairwise_map.mp ?_
      rw [zipIdx_map_snd]
      exact pairwise_lt_range'
    refine order.imp fun {first second} below slot inFirst other inSecond => ?_
    simp only [mem_map, mem_filter, mem_range] at inFirst inSecond
    omega
  | runs spans =>
    refine pairwise_flatMap.mpr ⟨fun run _ => pairwise_lt_range', ?_⟩
    refine sound.2.imp fun below first inFirst second inSecond => ?_
    have low := mem_slotsOfRun.mp inFirst
    have high := mem_slotsOfRun.mp inSecond
    omega

/-- The merge of the slots of a base with slots it has not got is the base of all of them. -/
theorem of_merge (base : Base) (sound : base.Sound) (inside : base.Inside)
    (sorted : folded.Pairwise (· < ·)) (apart : ∀ slot ∈ folded, base.contains slot = false)
    (small : ∀ slot ∈ folded, slot < stripeRows) :
    (of (base.slots.merge folded)).Sound ∧ ∀ slot, (of (base.slots.merge folded)).contains slot = true ↔
      base.contains slot = true ∨ slot ∈ folded := by
  have held := base.slots_sorted sound
  have member : ∀ slot, slot ∈ base.slots.merge folded ↔ base.contains slot = true ∨ slot ∈ folded := by
    intro slot
    rw [mem_merge, base.mem_slots sound]
  have ordered : (base.slots.merge folded).Pairwise fun a b => decide (a ≤ b) = true := by
    refine pairwise_merge (fun a b c => ?_) (fun a b => ?_) _ _ ?_ ?_
    · simpa using le_trans
    · simpa using le_total a b
    · exact held.imp fun below => by simpa using below.le
    · exact sorted.imp fun below => by simpa using below.le
  have distinct : (base.slots.merge folded).Nodup := by
    rw [(merge_perm_append _).nodup_iff, nodup_append]
    refine ⟨held.imp ne_of_lt, sorted.imp ne_of_lt, ?_⟩
    rintro slot inBase _ inFolded rfl
    rw [base.mem_slots sound, apart slot inFolded] at inBase
    cases inBase
  have strict : (base.slots.merge folded).Pairwise (· < ·) :=
    (ordered.and distinct).imp fun pair => lt_of_le_of_ne (by simpa using pair.1) pair.2
  obtain ⟨whole, contains⟩ := of_spec _ strict fun slot held => by
    rcases (member slot).mp held with before | new
    · exact inside slot before
    · exact small slot new
  exact ⟨whole, fun slot => (contains slot).trans (member slot)⟩

end Base

/-- `txn | UNCOMMITTED`, for any id `delete` takes. -/
def ownStamp (txn : Nat) : Nat := txn ||| uncommitted

theorem ne_ownStamp (committed : isCommitted ts = true) : ts ≠ ownStamp txn := by
  have above : uncommitted ≤ txn ||| uncommitted := Nat.right_le_or
  rw [isCommitted, decide_eq_true_eq] at committed
  rw [ownStamp]
  omega

inductive Call where
  | delete (slot snapshot txn : Nat)
  | commit (txn ts : Nat)
  | abort (txn : Nat)
  | fold (horizon : Nat)

namespace Call

/-- What the calls assert: a slot of the stripe, an id and a timestamp under 2^63. -/
def Fits : Call → Prop
  | delete slot _ txn => slot < stripeRows ∧ txn < 2 ^ 63
  | commit _ ts => isCommitted ts = true
  | abort _ => True
  | fold _ => True

/-- The snapshot a call asks at, if it asks, is not below the folds made before. -/
def Asks (floor : Nat) : Call → Prop
  | delete _ snapshot _ => floor ≤ snapshot
  | _ => True

/-- The newest horizon folded up to. -/
def raise (floor : Nat) : Call → Nat
  | fold horizon => max floor horizon
  | _ => floor

end Call

/-- Calls that each fit and ask at no snapshot below an earlier fold. -/
def Allowed : Nat → List Call → Prop
  | _, [] => True
  | floor, call :: rest => call.Fits ∧ call.Asks floor ∧ Allowed (call.raise floor) rest

/-- Calls one after another: what they refuse and the state they leave. -/
def runCalls (step : σ → Call → Option Refusal × σ) (state : σ) :
    List Call → List (Option Refusal) × σ
  | [] => ([], state)
  | call :: rest =>
    let after := runCalls step (step state call).2 rest
    ((step state call).1 :: after.1, after.2)

/-- A call on the vector, with what it refuses. -/
def DeleteVector.call (vector : DeleteVector) : Call → Option Refusal × DeleteVector
  | .delete slot snapshot txn =>
    match vector.deleteBy slot snapshot (ownStamp txn) with
    | .ok vector => (none, vector)
    | .error refusal => (some refusal, vector)
  | .commit txn ts => (none, vector.commitBy (ownStamp txn) ts)
  | .abort txn => (none, vector.abortBy (ownStamp txn))
  | .fold horizon => (none, (vector.fold horizon).2)

/-- The reference: each slot with the stamp of its one delete. -/
abbrev Plain := Nat → Option Nat

namespace Plain

/-- The slots of a checkpoint are deleted before every snapshot. -/
def ofBase (base : Base) : Plain := fun slot => if base.contains slot then some 0 else none

def isDeleted (map : Plain) (slot snapshot txn : Nat) : Bool :=
  (map slot).any fun ts => sees snapshot (ownStamp txn) ts

/-- A delete of a slot that has one already. -/
def refusal (map : Plain) (slot snapshot txn : Nat) : Option Refusal :=
  (map slot).map fun ts => if sees snapshot (ownStamp txn) ts then .gone else .conflict

def call (map : Plain) : Call → Option Refusal × Plain
  | .delete slot snapshot txn =>
    (map.refusal slot snapshot txn,
      if (map slot).isSome then map else Function.update map slot (some (ownStamp txn)))
  | .commit txn ts =>
    (none, fun slot => (map slot).map fun held => if held = ownStamp txn then ts else held)
  | .abort txn => (none, fun slot => (map slot).filter fun held => held != ownStamp txn)
  | .fold _ => (none, map)

end Plain

/-- The rule of deletes.rs is the rule of a reader. -/
theorem visibleTo_eq_sees (ts snapshot txn : Nat) :
    visibleTo ts snapshot (ownStamp txn) = sees snapshot (ownStamp txn) ts := by
  rw [visibleTo, sees]
  by_cases committed : isCommitted ts = true
  · simp [committed, ne_ownStamp committed]
  · simp [committed]

/-- The vector holds what the map does: the list has the stamps of the slots outside the base,
and the base only commits the folds reached. -/
structure Agrees (vector : DeleteVector) (map : Plain) (floor : Nat) : Prop where
  base : vector.base.Sound
  inside : vector.base.Inside
  small : ∀ entry ∈ vector.recent, entry.1 < stripeRows
  entries : ∀ slot ts, (slot, ts) ∈ vector.recent ↔
    map slot = some ts ∧ vector.base.contains slot = false
  held : ∀ slot, vector.base.contains slot = true →
    ∃ ts, map slot = some ts ∧ isCommitted ts = true ∧ ts ≤ floor

namespace Agrees

variable {vector : DeleteVector} {map : Plain} {floor : Nat}

theorem start (base : Base) (sound : base.Sound) (inside : base.Inside) : Agrees (.fromBase base) (.ofBase base) 0 where
  base := sound
  inside := inside
  small := by simp [DeleteVector.fromBase]
  entries slot ts := by
    simp only [DeleteVector.fromBase, not_mem_nil, Plain.ofBase, false_iff, not_and]
    intro stamped
    split at stamped
    · rename_i inBase
      simp [inBase]
    · cases stamped
  held slot inBase := by
    refine ⟨0, ?_, by decide, le_rfl⟩
    have inBase : base.contains slot = true := inBase
    rw [Plain.ofBase, if_pos inBase]

section
variable (agrees : Agrees vector map floor)
include agrees

theorem entryOf_eq (outside : vector.base.contains slot = false) :
    vector.entryOf slot = (map slot).map fun ts => (slot, ts) := by
  cases stamped : map slot with
  | none =>
    rw [Option.map_none, DeleteVector.entryOf, find?_eq_none]
    rintro ⟨at_, ts⟩ member same
    simp only [beq_iff_eq] at same
    subst same
    rw [((agrees.entries at_ ts).mp member).1] at stamped
    cases stamped
  | some ts =>
    rw [Option.map_some, DeleteVector.entryOf_eq_some]
    exact ⟨(agrees.entries slot ts).mpr ⟨stamped, outside⟩, rfl⟩

/-- A reader past every fold sees a slot of the base as deleted, in the map as well. -/
theorem sees_held (txn : Nat) (late : floor ≤ snapshot) (inBase : vector.base.contains slot = true) :
    ∃ ts, map slot = some ts ∧ sees snapshot (ownStamp txn) ts = true := by
  obtain ⟨ts, stamped, committed, low⟩ := agrees.held slot inBase
  refine ⟨ts, stamped, ?_⟩
  simp [sees, committed, low.trans late]

theorem isDeleted_eq (late : floor ≤ snapshot) :
    vector.isDeletedTo slot snapshot (ownStamp txn) = map.isDeleted slot snapshot txn := by
  rw [DeleteVector.isDeletedTo, Plain.isDeleted]
  cases inBase : vector.base.contains slot with
  | true =>
    obtain ⟨ts, stamped, shown⟩ := agrees.sees_held txn late inBase
    rw [stamped, Option.any_some, shown, Bool.true_or]
  | false =>
    rw [agrees.entryOf_eq inBase]
    cases map slot with
    | none => rfl
    | some ts => exact visibleTo_eq_sees ts snapshot txn

/-- A delete is refused as the map refuses it, and otherwise both note it. -/
theorem delete (inside : slot < stripeRows) (late : floor ≤ snapshot) :
    let call := Call.delete slot snapshot txn
    (vector.call call).1 = (map.call call).1 ∧ Agrees (vector.call call).2 (map.call call).2 floor := by
  simp only [DeleteVector.call, Plain.call, Plain.refusal, DeleteVector.deleteBy]
  by_cases inBase : vector.base.contains slot = true
  · obtain ⟨ts, stamped, shown⟩ := agrees.sees_held txn late inBase
    simp only [inBase, if_true, stamped, Option.map_some, shown, Option.isSome_some]
    exact ⟨trivial, agrees⟩
  have outside : vector.base.contains slot = false := by simpa using inBase
  have found := agrees.entryOf_eq outside
  simp only [outside, Bool.false_eq_true, if_false]
  cases stamped : map slot with
  | some ts =>
    rw [stamped, Option.map_some] at found
    split
    · rename_i taken
      split at taken
      · cases taken
      · rename_i missing
        rw [found] at missing
        cases missing
    rename_i refused
    split at refused
    · rename_i entry here
      rw [found, Option.some.injEq] at here
      subst here
      cases refused
      simp only [Option.map_some, Option.isSome_some, if_true, visibleTo_eq_sees]
      exact ⟨trivial, agrees⟩
    · cases refused
  | none =>
    rw [stamped] at found
    split
    · rename_i taken
      split at taken
      · cases taken
      cases taken
      refine ⟨rfl, agrees.base, agrees.inside, fun entry member => ?_, fun other ts => ?_,
        fun other held => ?_⟩
      · rcases mem_insertEntry.mp member with rfl | before
        · exact inside
        · exact agrees.small entry before
      · rw [mem_insertEntry, agrees.entries]
        by_cases here : other = slot
        · subst here
          simp [stamped, outside, eq_comm]
        · simp [here]
      have away : other ≠ slot := by
        rintro rfl
        exact inBase held
      simpa [Function.update_of_ne away] using agrees.held other held
    · rename_i refused
      split at refused
      · rename_i entry here
        rw [found] at here
        cases here
      · cases refused

theorem commit (txn ts : Nat) : Agrees (vector.call (.commit txn ts)).2 (map.call (.commit txn ts)).2 floor := by
  refine ⟨agrees.base, agrees.inside, fun entry member => ?_, fun slot stamp => ?_, fun slot held => ?_⟩
  · obtain ⟨old, before, rfl⟩ := mem_map.mp member
    have small := agrees.small old before
    split <;> exact small
  · simp only [DeleteVector.call, DeleteVector.commitBy, Plain.call, mem_map, Prod.exists,
      Option.map_eq_some_iff]
    constructor
    · rintro ⟨at_, old, before, same⟩
      obtain ⟨stamped, outside⟩ := (agrees.entries at_ old).mp before
      by_cases own : old = ownStamp txn
      · rw [if_pos own] at same
        cases same
        exact ⟨⟨old, stamped, if_pos own⟩, outside⟩
      · rw [if_neg own] at same
        cases same
        exact ⟨⟨_, stamped, if_neg own⟩, outside⟩
    · rintro ⟨⟨old, stamped, same⟩, outside⟩
      refine ⟨slot, old, (agrees.entries slot old).mpr ⟨stamped, outside⟩, ?_⟩
      rw [← same]
      split <;> rfl
  · obtain ⟨old, stamped, committed, low⟩ := agrees.held slot held
    exact ⟨old, by simp [Plain.call, stamped, ne_ownStamp committed], committed, low⟩

theorem abort (txn : Nat) : Agrees (vector.call (.abort txn)).2 (map.call (.abort txn)).2 floor := by
  refine ⟨agrees.base, agrees.inside, fun entry member =>
    agrees.small entry (mem_filter.mp member).1, fun slot stamp => ?_, fun slot held => ?_⟩
  · simp only [DeleteVector.call, DeleteVector.abortBy, Plain.call, mem_filter,
      Option.filter_eq_some_iff, agrees.entries]
    tauto
  obtain ⟨old, stamped, committed, low⟩ := agrees.held slot held
  exact ⟨old, by simp [Plain.call, stamped, ne_ownStamp committed], committed, low⟩

/-- A fold moves committed deletes to the base and leaves the map alone. -/
theorem fold (horizon : Nat) : Agrees (vector.fold horizon).2 map (max floor horizon) := by
  have folding : ∀ slot, slot ∈ (vector.recent.filter fun entry =>
      DeleteVector.folds horizon entry.2).map Prod.fst ↔ ∃ ts, map slot = some ts ∧
        vector.base.contains slot = false ∧ isCommitted ts = true ∧ ts ≤ horizon := by
    intro slot
    simp only [mem_map, mem_filter, Prod.exists, agrees.entries, DeleteVector.folds,
      Bool.and_eq_true, decide_eq_true_eq]
    constructor
    · rintro ⟨_, ts, ⟨⟨stamped, outside⟩, committed, low⟩, rfl⟩
      exact ⟨ts, stamped, outside, committed, low⟩
    · rintro ⟨ts, stamped, outside, committed, low⟩
      exact ⟨slot, ts, ⟨⟨stamped, outside⟩, committed, low⟩, rfl⟩
  have sorted : ((vector.recent.filter fun entry =>
      DeleteVector.folds horizon entry.2).map Prod.fst).Pairwise (· < ·) :=
    (vector.sorted.filter _).map _ fun _ _ => id
  simp only [DeleteVector.fold]
  split
  · exact ⟨agrees.base, agrees.inside, agrees.small, agrees.entries, fun slot held =>
      (agrees.held slot held).imp fun _ facts =>
        ⟨facts.1, facts.2.1, facts.2.2.trans (le_max_left ..)⟩⟩
  obtain ⟨whole, contains⟩ := vector.base.of_merge agrees.base agrees.inside sorted
    (fun slot member => by
      obtain ⟨ts, -, outside, -⟩ := (folding slot).mp member
      exact outside)
    (fun slot member => by
      obtain ⟨entry, inside, rfl⟩ := mem_map.mp member
      exact agrees.small entry (mem_filter.mp inside).1)
  refine ⟨whole, fun slot held => ?_, fun entry member =>
    agrees.small entry (mem_filter.mp member).1, fun slot ts => ?_, fun slot held => ?_⟩
  · rcases (contains slot).mp held with before | new
    · exact agrees.inside slot before
    · obtain ⟨entry, inside, rfl⟩ := mem_map.mp new
      exact agrees.small entry (mem_filter.mp inside).1
  · rw [mem_filter, agrees.entries, and_assoc]
    refine and_congr_right fun stamped => ?_
    have out := not_congr (contains slot)
    rw [Bool.not_eq_true, not_or, Bool.not_eq_true, folding] at out
    rw [out]
    refine and_congr_right fun outside => ?_
    rw [Bool.not_eq_true', ← Bool.not_eq_true, DeleteVector.folds, Bool.and_eq_true,
      decide_eq_true_eq]
    refine not_congr ⟨fun low => ⟨ts, stamped, outside, low⟩, ?_⟩
    rintro ⟨other, again, -, low⟩
    rw [stamped, Option.some.injEq] at again
    rwa [again]
  · rcases (contains slot).mp held with before | new
    · exact (agrees.held slot before).imp fun _ facts =>
        ⟨facts.1, facts.2.1, facts.2.2.trans (le_max_left ..)⟩
    · obtain ⟨ts, stamped, -, committed, low⟩ := (folding slot).mp new
      exact ⟨ts, stamped, committed, low.trans (le_max_right ..)⟩

/-- One call is refused as the map refuses it, and leaves the two in agreement. -/
theorem step (fits : call.Fits) (asks : call.Asks floor) : (vector.call call).1 = (map.call call).1 ∧
      Agrees (vector.call call).2 (map.call call).2 (call.raise floor) := by
  cases call with
  | delete slot snapshot txn => exact agrees.delete fits.1 asks
  | commit txn ts => exact ⟨rfl, agrees.commit txn ts⟩
  | abort txn => exact ⟨rfl, agrees.abort txn⟩
  | fold horizon => exact ⟨rfl, agrees.fold horizon⟩

theorem run (allowed : Allowed floor calls) :
    (runCalls DeleteVector.call vector calls).1 = (runCalls Plain.call map calls).1 ∧
      Agrees (runCalls DeleteVector.call vector calls).2 (runCalls Plain.call map calls).2
        (calls.foldl Call.raise floor) := by
  induction calls generalizing vector map floor with
  | nil => exact ⟨rfl, agrees⟩
  | cons call rest ih =>
    obtain ⟨fits, asks, later⟩ := allowed
    obtain ⟨same, next⟩ := agrees.step fits asks
    obtain ⟨others, final⟩ := ih next later
    exact ⟨by rw [runCalls, runCalls, same, others], final⟩

end

end Agrees

/-- A delete vector answers as the plain map: along every run of calls whose folds stay at or
below the snapshots asked later, what is refused, what a reader past the folds sees, the bits
and the answer of `mask`, and the entries with their stamps are the map's. -/
theorem answers_as_plain_map (base : Base) (sound : base.Sound) (inside : base.Inside)
    (calls : List Call) (allowed : Allowed 0 calls) :
    let vector := runCalls DeleteVector.call (.fromBase base) calls
    let map := runCalls Plain.call (.ofBase base) calls
    let floor := calls.foldl Call.raise 0
    vector.1 = map.1 ∧
      (∀ slot snapshot txn, floor ≤ snapshot →
        vector.2.isDeletedTo slot snapshot (ownStamp txn) = map.2.isDeleted slot snapshot txn) ∧
      (∀ part snapshot txn mask, part < stripeRows / partRows → floor ≤ snapshot →
        (∀ i < partRows, (vector.2.maskTo part snapshot (ownStamp txn) mask).1 i =
          (mask i || map.2.isDeleted (part * partRows + i) snapshot txn)) ∧
        ((vector.2.maskTo part snapshot (ownStamp txn) mask).2 = true ↔
          ∃ i < partRows, map.2.isDeleted (part * partRows + i) snapshot txn = true)) ∧
      (∀ slot ts, (slot, ts) ∈ vector.2.recent ↔
        map.2 slot = some ts ∧ vector.2.base.contains slot = false) ∧
      (∀ slot, vector.2.base.contains slot = true →
        ∃ ts, map.2 slot = some ts ∧ isCommitted ts = true ∧ ts ≤ floor) ∧
      vector.2.recent.Pairwise (fun entry later => entry.1 < later.1) ∧
      ∀ entry ∈ vector.2.recent, vector.2.base.contains entry.1 = false := by
  obtain ⟨same, agrees⟩ := (Agrees.start base sound inside).run allowed
  refine ⟨same, fun slot snapshot txn late => agrees.isDeleted_eq late,
    fun part snapshot txn mask _ late =>
      ⟨fun i inside => by rw [DeleteVector.maskTo_spec _ agrees.base _ _ _ _ inside, agrees.isDeleted_eq late],
        by simp only [DeleteVector.maskTo_any _ agrees.base, agrees.isDeleted_eq late]⟩, agrees.entries, agrees.held,
    (runCalls DeleteVector.call _ calls).2.sorted, fun entry member => ?_⟩
  exact ((agrees.entries entry.1 entry.2).mp member).2

/-- Two transactions after one slot, over a base of one run: the second is refused while the
first is open, and finds the row gone once the commit is folded away. -/
theorem answers_as_plain_map_two :
    let vector := runCalls DeleteVector.call (.fromBase (.runs [(0, 5)]))
      [.delete 7 3 1, .delete 7 3 2, .commit 1 4, .fold 4, .delete 7 4 2]
    vector.1 = [none, some .conflict, none, none, some .gone] ∧
      vector.2.isDeletedTo 7 4 (ownStamp 9) = true := by
  have inside : (Base.runs [(0, 5)]).Inside := by
    intro slot held
    rw [Base.runs_contains (by simp [Base.Sound])] at held
    simp only [mem_singleton, exists_eq_left] at held
    exact held.2.trans_lt (by decide)
  have answers := answers_as_plain_map (.runs [(0, 5)]) (by simp [Base.Sound]) inside
    [.delete 7 3 1, .delete 7 3 2, .commit 1 4, .fold 4, .delete 7 4 2]
    (by simp [Allowed, Call.Fits, Call.Asks, Call.raise, stripeRows, isCommitted, uncommitted])
  obtain ⟨refusals, reads, -⟩ := answers
  exact ⟨refusals.trans (by decide), (reads 7 4 9 (by decide)).trans (by decide)⟩

end Rudb.Deletes
