import Mathlib

/-! The durable cut every lane of a log shares: the commits at or below it are there, and the ones
past a gap wait above it. Embeds cut.rs of rudb-txn. -/
namespace Rudb.Txn
open List

/-- `Cut`, under its lock. Timestamps have 64 bits. -/
structure Cut where
  at_ : Nat
  above : Finset Nat := ∅
  failed : Bool := false

namespace Cut

/-- `new`. -/
def new (at_ : Nat) : Cut := { at_ }

/-- The loop of `reached` and `raise`: each pass takes a timestamp out of `above`. -/
def advance : Nat → Cut → Cut
  | 0, cut => cut
  | fuel + 1, cut =>
    -- `checked_add`
    if cut.at_ + 1 < 2 ^ 64 ∧ cut.at_ + 1 ∈ cut.above then
      advance fuel { cut with at_ := cut.at_ + 1, above := cut.above.erase (cut.at_ + 1) }
    else cut

/-- The loop, which ends when `above` does at the latest. -/
def settle (cut : Cut) : Cut := advance cut.above.card cut

/-- `reached`. -/
def reached (cut : Cut) (ts : Nat) : Cut :=
  if ts ≤ cut.at_ then cut else { cut with above := insert ts cut.above }.settle

/-- `raise`. -/
def raise (cut : Cut) (ts : Nat) : Cut :=
  let cut := { cut with failed := false }
  if cut.at_ < ts then
    -- `split_off`, then `remove`
    { cut with at_ := ts, above := (cut.above.filter (ts ≤ ·)).erase ts }.settle
  else cut.settle

/-- `fail`. -/
def fail (cut : Cut) : Cut := { cut with failed := true }

/-- One look of `wait`: whether it returns, and with what. -/
def wait (cut : Cut) (ts : Nat) : Option (Except Unit Unit) :=
  if ts ≤ cut.at_ then some (.ok ()) else if cut.failed then some (.error ()) else none

/-- A call that moves the cut. -/
inductive Call where
  | reached (ts : Nat)
  | raise (ts : Nat)
  deriving DecidableEq

def Call.ts : Call → Nat
  | reached ts => ts
  | raise ts => ts

def call (cut : Cut) : Call → Cut
  | .reached ts => cut.reached ts
  | .raise ts => cut.raise ts

def run (cut : Cut) (calls : List Call) : Cut := calls.foldl call cut

/-- Whether calls say that the commit at `ts` is there. -/
def Covered (calls : List Call) (ts : Nat) : Prop :=
  .reached ts ∈ calls ∨ ∃ high, .raise high ∈ calls ∧ ts ≤ high

variable {cut : Cut} {start : Nat} {calls : List Call} {ts : Nat}

/-- What the loop does: it moves over timestamps that were above and takes them out. -/
theorem advance_spec (fuel : Nat) (cut : Cut) : cut.at_ ≤ (advance fuel cut).at_ ∧
      (∀ ts, cut.at_ < ts → ts ≤ (advance fuel cut).at_ → ts ∈ cut.above) ∧
      (∀ ts, (advance fuel cut).at_ < ts → (ts ∈ (advance fuel cut).above ↔ ts ∈ cut.above)) ∧
      ((∀ ts ∈ cut.above, cut.at_ < ts) → ∀ ts ∈ (advance fuel cut).above, (advance fuel cut).at_ < ts) ∧
      (advance fuel cut).failed = cut.failed := by
  induction fuel generalizing cut with
  | zero => exact ⟨le_rfl, fun ts low high => by simp only [advance] at high; omega, fun _ _ => Iff.rfl, id, rfl⟩
  | succ fuel ih =>
    rw [advance]
    split
    · rename_i next
      obtain ⟨grows, passed, kept, apart, failed⟩ :=
        ih { cut with at_ := cut.at_ + 1, above := cut.above.erase (cut.at_ + 1) }
      simp only at grows passed kept apart failed
      refine ⟨by omega, fun ts low high => ?_, fun ts high => ?_, fun all => apart fun ts member => ?_, failed⟩
      · by_cases here : ts = cut.at_ + 1
        · rw [here]
          exact next.2
        · exact Finset.mem_of_mem_erase (passed ts (by omega) high)
      · rw [kept ts high, Finset.mem_erase]
        exact and_iff_right (by omega)
      · obtain ⟨away, before⟩ := Finset.mem_erase.mp member
        have := all ts before
        omega
    · exact ⟨le_rfl, fun ts low high => by omega, fun _ _ => Iff.rfl, id, rfl⟩

theorem advance_stops (fuel : Nat) (cut : Cut) (enough : cut.above.card ≤ fuel)
    (small : ∀ ts ∈ cut.above, ts < 2 ^ 64) : (advance fuel cut).at_ + 1 ∉ (advance fuel cut).above := by
  induction fuel generalizing cut with
  | zero =>
    have none : cut.above = ∅ := Finset.card_eq_zero.mp (by omega)
    simp [advance, none]
  | succ fuel ih =>
    rw [advance]
    split
    · rename_i next
      refine ih _ ?_ fun ts member => small ts (Finset.mem_of_mem_erase member)
      rw [Finset.card_erase_of_mem next.2]
      omega
    · rename_i gap
      exact fun member => gap ⟨small _ member, member⟩

/-- A cut that `calls` led to from `start`, but for the loop. -/
structure Loose (start : Nat) (calls : List Call) (cut : Cut) : Prop where
  low : start ≤ cut.at_
  raised : ∀ high, .raise high ∈ calls → high ≤ cut.at_
  covered : ∀ ts, start < ts → ts ≤ cut.at_ → Covered calls ts
  above : ∀ ts, ts ∈ cut.above ↔ .reached ts ∈ calls ∧ cut.at_ < ts

/-- A cut that `calls` led to from `start`. -/
structure Exact (start : Nat) (calls : List Call) (cut : Cut) : Prop extends Loose start calls cut where
  stops : cut.at_ + 1 ∉ cut.above

theorem Loose.settle (loose : Loose start calls cut) (small : ∀ call ∈ calls, call.ts < 2 ^ 64) :
    Exact start calls cut.settle := by
  obtain ⟨grows, passed, kept, apart, -⟩ := advance_spec cut.above.card cut
  refine ⟨⟨loose.low.trans grows, fun high member => (loose.raised high member).trans grows,
    fun ts low high => ?_, fun ts => ?_⟩, advance_stops _ cut le_rfl fun ts member => ?_⟩
  · by_cases before : ts ≤ cut.at_
    · exact loose.covered ts low before
    · exact .inl ((loose.above ts).mp (passed ts (by omega) high)).1
  · constructor
    · intro member
      have high := apart (fun ts member => ((loose.above ts).mp member).2) ts member
      exact ⟨((loose.above ts).mp ((kept ts high).mp member)).1, high⟩
    · rintro ⟨member, high⟩
      exact (kept ts high).mpr ((loose.above ts).mpr ⟨member, grows.trans_lt high⟩)
  · exact small _ ((loose.above ts).mp member).1

theorem exact_new (start : Nat) : Exact start [] (new start) where
  low := le_rfl
  raised := by simp
  covered ts low high := by simp only [new] at high; omega
  above := by simp [new]
  stops := by simp [new]

theorem Covered.mono (covered : Covered calls ts) (call : Call) : Covered (calls ++ [call]) ts := by
  rcases covered with here | ⟨high, member, low⟩
  · exact .inl (mem_append_left _ here)
  · exact .inr ⟨high, mem_append_left _ member, low⟩

theorem Exact.reached (exact : Exact start calls cut) (small : ∀ call ∈ calls ++ [.reached ts], call.ts < 2 ^ 64) :
    Exact start (calls ++ [.reached ts]) (cut.reached ts) := by
  have raised : ∀ high, .raise high ∈ calls ++ [.reached ts] → high ≤ cut.at_ := fun high member =>
    exact.raised high (by simpa using member)
  have covered : ∀ other, start < other → other ≤ cut.at_ → Covered (calls ++ [.reached ts]) other :=
    fun other low high => (exact.covered other low high).mono _
  rw [Cut.reached]
  split
  · refine ⟨⟨exact.low, raised, covered, fun other => ?_⟩, exact.stops⟩
    rw [exact.above, mem_append, mem_singleton]
    refine and_congr_left fun high => ⟨.inl, ?_⟩
    rintro (member | same)
    · exact member
    · cases same
      omega
  rename_i beyond
  refine Loose.settle ⟨exact.low, raised, covered, fun other => ?_⟩ small
  simp only [Finset.mem_insert, exact.above, mem_append, mem_singleton, Call.reached.injEq]
  constructor
  · rintro (rfl | ⟨member, high⟩)
    · exact ⟨.inr rfl, not_le.mp beyond⟩
    · exact ⟨.inl member, high⟩
  · rintro ⟨member | rfl, high⟩
    · exact .inr ⟨member, high⟩
    · exact .inl rfl

theorem Exact.raise (exact : Exact start calls cut) (small : ∀ call ∈ calls ++ [.raise ts], call.ts < 2 ^ 64) :
    Exact start (calls ++ [.raise ts]) (cut.raise ts) := by
  have members : ∀ other, .reached other ∈ calls ++ [.raise ts] ↔ .reached other ∈ calls := by simp
  simp only [Cut.raise]
  split
  · rename_i beyond
    refine Loose.settle ⟨le_of_lt (exact.low.trans_lt beyond), fun high member => ?_,
      fun other low high => .inr ⟨ts, by simp, high⟩, fun other => ?_⟩ small
    · rcases mem_append.mp member with before | last
      · exact le_of_lt ((exact.raised high before).trans_lt beyond)
      · cases mem_singleton.mp last
        exact le_rfl
    rw [members, Finset.mem_erase, Finset.mem_filter, exact.above]
    constructor
    · rintro ⟨away, ⟨member, -⟩, high⟩
      exact ⟨member, lt_of_le_of_ne high (Ne.symm away)⟩
    · rintro ⟨member, high⟩
      exact ⟨high.ne', ⟨member, beyond.trans high⟩, high.le⟩
  · rename_i under
    refine Loose.settle ⟨exact.low, fun high member => ?_, fun other low high =>
      (exact.covered other low high).mono _, fun other => ?_⟩ small
    · rcases mem_append.mp member with before | last
      · exact exact.raised high before
      · cases mem_singleton.mp last
        exact not_lt.mp under
    · rw [members]
      exact exact.above other

/-- Along any calls the cut stays exact. -/
theorem Exact.run (exact : Exact start done cut)
    (small : ∀ call ∈ done ++ calls, call.ts < 2 ^ 64) : Exact start (done ++ calls) (cut.run calls) := by
  induction calls generalizing done cut with
  | nil => simpa [Cut.run] using exact
  | cons call rest ih =>
    have shape : done ++ call :: rest = (done ++ [call]) ++ rest := by simp
    rw [shape] at small ⊢
    refine ih ?_ small
    have first : ∀ other ∈ done ++ [call], other.ts < 2 ^ 64 := fun other member =>
      small other (mem_append_left _ member)
    cases call with
    | reached ts => exact exact.reached first
    | raise ts => exact exact.raise first

theorem Exact.isGreatest (exact : Exact start calls cut) :
    IsGreatest { top | ∀ ts, start < ts → ts ≤ top → Covered calls ts } cut.at_ := by
  refine ⟨exact.covered, fun top all => ?_⟩
  by_contra beyond
  have low := exact.low
  rcases all (cut.at_ + 1) (by omega) (by omega) with member | ⟨high, member, beyond⟩
  · exact exact.stops ((exact.above _).mpr ⟨member, by omega⟩)
  · have := exact.raised high member
    omega

/-- Two orders of calls lead to one cut. -/
theorem Exact.unique (exact : Exact start calls cut)
    (exact' : Exact start calls' other) (same : ∀ call, call ∈ calls ↔ call ∈ calls') :
    cut.at_ = other.at_ ∧ cut.above = other.above := by
  have covered : ∀ ts, Covered calls ts ↔ Covered calls' ts := fun ts => by simp only [Covered, same]
  have place : cut.at_ = other.at_ := by
    refine exact.isGreatest.unique ?_
    simp only [covered]
    exact exact'.isGreatest
  refine ⟨place, Finset.ext fun ts => ?_⟩
  rw [exact.above, exact'.above, same, place]

/-- The cut is the largest timestamp up to which every commit is there, nothing that touches it
waits above it, and the order of the calls does not matter. -/
theorem durable_cut_exact (start : Nat) (calls : List Call) (small : ∀ call ∈ calls, call.ts < 2 ^ 64) :
    IsGreatest { top | ∀ ts, start < ts → ts ≤ top → Covered calls ts } ((new start).run calls).at_ ∧
      (∀ ts ∈ ((new start).run calls).above, ((new start).run calls).at_ + 1 < ts) ∧
      ∀ other : List Call, other.Perm calls → ((new start).run other).at_ = ((new start).run calls).at_ ∧
          ((new start).run other).above = ((new start).run calls).above := by
  have exact : Exact start calls ((new start).run calls) := (exact_new start).run small
  refine ⟨exact.isGreatest, fun ts member => ?_, fun other order => ?_⟩
  · have high := ((exact.above ts).mp member).2
    have away : ts ≠ ((new start).run calls).at_ + 1 := fun same => exact.stops (same ▸ member)
    omega
  · have again : Exact start other ((new start).run other) :=
      (exact_new start).run fun call member => small call (order.subset member)
    exact again.unique exact fun call => order.mem_iff

/-- The calls of the test of the module, in another order as well. -/
theorem durable_cut_exact_gap :
    ((new 10).run [.reached 12, .reached 13, .reached 11, .reached 15, .raise 14]).at_ = 15 ∧
      ((new 10).run [.raise 14, .reached 15, .reached 12, .reached 13, .reached 11]).at_ = 15 := by
  have exact := durable_cut_exact 10 [.reached 12, .reached 13, .reached 11, .reached 15, .raise 14]
    (by simp [Call.ts])
  have first : ((new 10).run [.reached 12, .reached 13, .reached 11, .reached 15, .raise 14]).at_ = 15 := by
    decide
  refine ⟨first, (exact.2.2 _ ?_).1.trans first⟩
  decide

end Cut

end Rudb.Txn
