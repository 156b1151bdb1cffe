import Mathlib.Data.List.Sort
import Rudb.Txn.Journal

/-! What recovery reads back after a crash: always a front of the commits above the file's cut,
and one with every acknowledged commit in it as long as no commit was queued behind another
lane's that neither the disk nor the cut stands for. -/
namespace Rudb.Txn
open List Option Function

/-- A timestamp the cut has counted. -/
def Cut.Held (cut : Cut) (ts : Nat) : Prop := ts ≤ cut.at_ ∨ ts ∈ cut.above

namespace Cut
variable {cut : Cut}

theorem held_settle (held : cut.settle.Held other) : cut.Held other := by
  obtain ⟨-, passed, kept, -, -⟩ := advance_spec cut.above.card cut
  by_cases low : other ≤ cut.at_
  · exact .inl low
  rcases held with before | above
  · exact .inr (passed other (by omega) before)
  · by_cases past : other ≤ cut.settle.at_
    · exact .inr (passed other (by omega) past)
    · exact .inr ((kept other (by simpa [settle] using past)).mp above)

theorem held_reached (held : (cut.reached ts).Held other) : cut.Held other ∨ other = ts := by
  rw [reached] at held
  split at held
  · exact .inl held
  rcases held_settle held with before | above
  · exact .inl (.inl before)
  · rcases Finset.mem_insert.mp above with same | above
    · exact .inr same
    · exact .inl (.inr above)

theorem held_raise (held : (cut.raise ts).Held other) : cut.Held other ∨ other ≤ ts := by
  simp only [raise] at held
  split at held
  · rcases held_settle held with before | above
    · exact .inr before
    · exact .inl (.inr (Finset.mem_filter.mp (Finset.mem_of_mem_erase above)).1)
  · rcases held_settle held with before | above
    · exact .inl (.inl before)
    · exact .inl (.inr above)

theorem held_of_wait (waited : cut.wait ts = some (.ok ())) (before : other ≤ ts) : cut.Held other := by
  unfold wait at waited
  split at waited
  · exact .inl (by omega)
  · split at waited <;> cases waited

end Cut

section
variable {size : Nat} {tail last : Tail} {pieces : List Piece} {piece : Piece}
  (laid : Laid size tail pieces last) (member : piece ∈ pieces)
include laid member

theorem Laid.end_le : piece.end_ ≤ last.at_ := by
  induction laid with
  | nil => cases member
  | cons _ _ _ laid ih =>
    rcases mem_cons.mp member with rfl | later
    · have := laid.at_eq
      simp only [Piece.tail] at this
      omega
    · exact ih later

theorem Laid.le_sequence : piece.sequence ≤ last.sequence := by
  obtain ⟨front, back, rfl⟩ := append_of_mem member
  obtain ⟨middle, -, rest⟩ := laid.split
  cases rest with
  | cons _ _ _ rest => exact rest.sequence_mono

end

/-- What a move that queues nothing leaves of a lane. -/
structure Lane.Moves (lane after : Lane) : Prop where
  blocks : after.blocks = lane.blocks
  tail : after.state.tail = lane.state.tail
  io : lane.io <+: after.io

variable {options : Options}

theorem Lane.moves {lane after : Lane} (queues : ∀ made, move ≠ .enqueue made)
    (moved : lane.next options move = some after) : lane.Moves after := by
  cases move with
  | enqueue made => exact absurd rfl (queues made)
  | look end_ reach =>
    rw [Lane.next, Option.some.injEq, Lane.look] at moved
    subst moved
    cases looked : lane.state.wait end_ reach with
    | returns result | awaits => exact ⟨rfl, rfl, prefix_rfl⟩
    | leads state turn =>
      obtain ⟨-, -, open_, -, rfl, -⟩ := Sound.wait_leads looked
      exact ⟨rfl, rfl, prefix_rfl⟩
  | disk ok =>
    obtain ⟨turn, leads, moved⟩ := bind_eq_some_iff.mp moved
    rw [Lane.disk] at moved
    cases calls : turn.ops with
    | nil => simp [calls] at moved
    | cons op ops =>
      rw [calls, ite_none_left_eq_some, Option.some.injEq] at moved
      rw [← moved.2]
      exact ⟨rfl, rfl, prefix_append _ _⟩
  | finish =>
    obtain ⟨turn, leads, moved⟩ := bind_eq_some_iff.mp moved
    rw [Lane.finish, ite_none_right_eq_some, Option.some.injEq] at moved
    rw [← moved.2]
    refine ⟨rfl, ?_, prefix_rfl⟩
    simp only [State.finish, State.tail]
    split <;> rfl

variable {lane : Txn.Lane} {state : State} {made : Made}

theorem Lane.enqueue_eq
    (took : lane.state.enqueue options made.block = .ok state) :
    lane.enqueue options made =
      { lane with state, blocks := lane.blocks ++ [lane.state.piece options made.block] } := by
  rw [Lane.enqueue, took]
  rfl

theorem Lane.enqueue_io (options : Options) (lane : Lane) (made : Made) : (lane.enqueue options made).io = lane.io := by
  rw [Lane.enqueue]
  cases lane.state.enqueue options made.block <;> rfl

/-- The segment each lane writes next. -/
def tailOf (lanes : Nat → Option Lane) (number : Nat) : Nat :=
  ((lanes number).map (·.state.tailSequence)).getD 0

/-- What an anchor says of the log: the commits past its cut are in the segments it starts at. -/
structure Fits (last : Nat) (lanes : Nat → Option Lane) (log : List Logged) (anchor : Anchor) : Prop where
  low : anchor.durable ≤ last
  voids : anchor.voids = []
  begun : ∀ number, anchor.lanes number ≤ tailOf lanes number
  old : ∀ entry ∈ log, entry.piece.sequence < anchor.lanes entry.lane → entry.ts ≤ anchor.durable

theorem Fits.relane
    (fits : Fits last lanes log anchor) (grows : ∀ number, tailOf lanes number ≤ tailOf lanes' number) :
    Fits last lanes' log anchor :=
  ⟨fits.low, fits.voids, fun number => (fits.begun number).trans (grows number), fits.old⟩

/-- What a block queued in a lane holds. -/
structure Logged.Holds (entry : Logged) (last durable : Nat) : Prop where
  lane : entry.lane < mostLanes
  ts : entry.ts ≤ last
  stamp : entry.made.commitTs = UInt64.ofNat entry.ts
  bytes : entry.piece.bytes =
    entry.made.block.encode (UInt8.ofNat entry.lane) (seed (UInt64.ofNat entry.piece.sequence))
  counted : entry.made.entries.length < 2 ^ 32
  depends : entry.sync.isSome → 0 < entry.ts ∧ entry.made.depTs = UInt64.ofNat (entry.ts - 1)
  note : entry.sync = none → entry.ts ≤ durable

/-- What holds of the log in every run from a cut on. -/
structure Recorded (cut last : Nat) (lanes : Nat → Option Lane) (file : Anchor) (flight : Option Anchor)
    (retired : Nat → Nat) (log : List Logged) : Prop where
  small : last < 2 ^ 64
  start : cut ≤ file.durable
  fits : Fits last lanes log file
  flying : ∀ anchor, flight = some anchor → Fits last lanes log anchor ∧ file.durable ≤ anchor.durable
  begun : ∀ number, retired number ≤ tailOf lanes number
  gone : ∀ entry ∈ log, entry.piece.sequence < retired entry.lane → entry.ts ≤ file.durable
  reachable : ∀ number lane, lanes number = some lane →
    number < mostLanes ∧ Lane.Reachable (laneOptions number) lane
  blocks : ∀ number, (log.filter (·.lane = number)).map (·.piece) = ((lanes number).map (·.blocks)).getD []
  each : ∀ entry ∈ log, entry.Holds last file.durable
  commits : (log.filter (·.sync.isSome)).map (·.ts) = List.range' (cut + 1) (last - cut)
  order : ∀ one ∈ log, ∀ other ∈ log, one.sync.isSome → other.sync.isSome → one.lane = other.lane →
    one.ts ≤ other.ts → one.piece.end_ ≤ other.piece.end_

def World.Recorded (cut : Nat) (world : World) : Prop :=
  Txn.Recorded cut world.journal.last world.journal.lanes world.file world.flight world.retired world.log

namespace Recorded
variable {cut last : Nat} {lanes : Nat → Option Lane} {file : Anchor} {flight : Option Anchor}
  {retired : Nat → Nat} {log : List Logged}

theorem opening (small : cut < 2 ^ 64) : Recorded cut cut (fun _ => none) { durable := cut } none (fun _ => 0) [] where
  small := small
  start := le_rfl
  fits := ⟨le_rfl, rfl, fun _ => le_rfl, by simp⟩
  flying := by simp
  begun _ := le_rfl
  gone := by simp
  reachable := by simp
  blocks := by simp
  each := by simp
  commits := by simp
  order := by simp

variable {number : Nat}

/-- A move of a lane that queues nothing. -/
theorem moves (recorded : Recorded cut last lanes file flight retired log) {after : Lane}
    (opened : lanes number = some lane) (moves : lane.Moves after)
    (reachable : Lane.Reachable (laneOptions number) after) :
    Recorded cut last (update lanes number (some after)) file flight retired log := by
  have tails : ∀ other, tailOf (update lanes number (some after)) other = tailOf lanes other := by
    intro other
    by_cases here : other = number
    · subst here
      have same := congrArg Tail.sequence moves.tail
      simpa [tailOf, opened, State.tail] using same
    · simp [tailOf, here]
  have grows : ∀ other, tailOf lanes other ≤ tailOf (update lanes number (some after)) other :=
    fun other => (tails other).ge
  refine { recorded with
    fits := recorded.fits.relane grows
    flying := fun anchor flies => ⟨(recorded.flying anchor flies).1.relane grows, (recorded.flying anchor flies).2⟩
    begun := fun other => (recorded.begun other).trans (grows other)
    reachable := fun other found opens => ?_
    blocks := fun other => ?_ }
  · by_cases here : other = number
    · subst here
      rw [update_self, Option.some.injEq] at opens
      exact ⟨(recorded.reachable _ lane opened).1, opens ▸ reachable⟩
    · rw [update_of_ne here] at opens
      exact recorded.reachable other found opens
  by_cases here : other = number
  · subst here
    rw [recorded.blocks, opened, update_self]
    exact moves.blocks.symm
  · rw [update_of_ne here]
    exact recorded.blocks other

/-- Lane `number`, opened now when it is not yet. -/
structure Opens (lanes : Nat → Option Lane) (number : Nat) (lane : Lane) : Prop where
  reachable : Lane.Reachable (laneOptions number) lane
  blocks : lane.blocks = ((lanes number).map (·.blocks)).getD []
  tail : tailOf lanes number ≤ lane.state.tailSequence
  io : ∀ before, lanes number = some before → before = lane

theorem opens_of_some (recorded : Recorded cut last lanes file flight retired log)
    (opened : lanes number = some lane) : Opens lanes number lane where
  reachable := (recorded.reachable number lane opened).2
  blocks := by simp [opened]
  tail := by simp [tailOf, opened]
  io before found := Option.some.inj (found.symm.trans opened)

/-- A block that a lane takes has fewer records than its commit can count. -/
theorem counted (small : options.segmentBytes ≤ 2 ^ 32) (took : lane.state.enqueue options made.block = .ok state) :
    made.entries.length < 2 ^ 32 := by
  have fits := (Sound.enqueue_ok took).1
  have each : made.entries.length ≤ laneBytes made.entries := by
    generalize made.entries = entries
    induction entries with
    | nil => simp
    | cons entry rest ih =>
      have header := recordBytes_ge entry.payload.length
      simp only [laneBytes, map_cons, sum_cons, length_cons, recordHeader] at ih header ⊢
      omega
  rw [Block.len, made.holds.bytes] at fits
  simp only [segmentHeader] at fits
  omega

/-- A piece is in the lane's last segment or in the one after it. -/
theorem tail_le_piece (options : Options) (state : State) (block : Block) :
    state.tailSequence ≤ (state.piece options block).sequence := by
  rcases Sound.piece_starts options state block with ⟨same, _⟩ | ⟨next, _⟩ <;>
    simp only [State.tail] at * <;> omega

/-- The timestamp a block is queued with: the next commit's, or the file's cut for a note. -/
structure Next (last last' durable : Nat) (entry : Logged) : Prop where
  stamp : entry.made.commitTs = UInt64.ofNat entry.ts
  kind : (last' = last ∧ entry.sync = none ∧ entry.ts = durable) ∨
    (last' = last + 1 ∧ entry.sync.isSome ∧ entry.ts = last + 1 ∧ last + 1 < 2 ^ 64 ∧
      entry.made.depTs = UInt64.ofNat last)

theorem Next.le (next : Next last last' durable entry) : last ≤ last' := by
  rcases next.kind with ⟨same, _⟩ | ⟨more, _⟩ <;> omega

section
variable (recorded : Recorded cut last lanes file flight retired log)
include recorded

theorem commits_snoc (next : Next last last' durable entry) :
    ((log ++ [entry]).filter (·.sync.isSome)).map (·.ts) = range' (cut + 1) (last' - cut) := by
  have low := recorded.fits.low
  have start := recorded.start
  rw [filter_append, map_append, recorded.commits]
  rcases next.kind with ⟨same, note, _⟩ | ⟨more, commit, stamp, _⟩
  · simp [note, same]
  · have length : last' - cut = last - cut + 1 := by omega
    have place : cut + 1 + (last - cut) = last + 1 := by omega
    simp [commit, stamp, length, range'_concat, place]

/-- A block that lane `number` takes. -/
theorem take (opens : Opens lanes number lane)
    (low : number < mostLanes) (took : lane.state.enqueue (laneOptions number) made.block = .ok state)
    (next : Next last last' file.durable
      { lane := number, ts, sync, made, piece := lane.state.piece (laneOptions number) made.block }) :
    Recorded cut last' (update lanes number (some (lane.enqueue (laneOptions number) made))) file flight
      retired (log ++ [{
        lane := number, ts, sync, made, piece := lane.state.piece (laneOptions number) made.block }]) := by
  have moved := Lane.enqueue_eq took
  obtain ⟨-, -, after⟩ := Sound.enqueue_ok took
  have begun := tail_le_piece (laneOptions number) lane.state made.block
  have tails : ∀ other, tailOf lanes other ≤
      tailOf (update lanes number (some (lane.enqueue (laneOptions number) made))) other := by
    intro other
    by_cases here : other = number
    · subst here
      have := opens.tail
      rw [moved, after]
      simp only [tailOf, update_self, map_some, getD_some] at this ⊢
      omega
    · simp [tailOf, here]
  -- a segment an anchor made redundant takes no more blocks
  have fresh : ∀ number', number' = number → tailOf lanes number' ≤
      (lane.state.piece (laneOptions number) made.block).sequence := by
    rintro _ rfl
    exact opens.tail.trans begun
  have fits : ∀ {anchor}, Fits last lanes log anchor → Fits last'
      (update lanes number (some (lane.enqueue (laneOptions number) made)))
      (log ++ [{ lane := number, ts, sync, made, piece := lane.state.piece (laneOptions number) made.block }])
        anchor := by
    intro anchor fits
    refine ⟨fits.low.trans next.le, fits.voids, fun other => (fits.begun other).trans (tails other), ?_⟩
    intro entry member before
    rcases mem_append.mp member with old | new
    · exact fits.old entry old before
    rw [mem_singleton] at new
    subst new
    have := fits.begun number
    have := fresh number rfl
    simp only at before
    omega
  have low' := recorded.fits.low
  refine ⟨?_, recorded.start, fits recorded.fits, fun anchor flies => ⟨fits (recorded.flying anchor flies).1,
    (recorded.flying anchor flies).2⟩, fun other => (recorded.begun other).trans (tails other), ?_, ?_, ?_,
    ?_, ?_, ?_⟩
  · rcases next.kind with ⟨same, _⟩ | ⟨more, _, _, small, _⟩
    · exact same ▸ recorded.small
    · omega
  · intro entry member before
    rcases mem_append.mp member with old | new
    · exact recorded.gone entry old before
    rw [mem_singleton] at new
    subst new
    have := recorded.begun number
    have := fresh number rfl
    simp only at before
    omega
  · intro other found opened
    by_cases here : other = number
    · subst here
      rw [update_self, Option.some.injEq] at opened
      exact ⟨low, opened ▸ .move (.enqueue made) opens.reachable rfl⟩
    · rw [update_of_ne here] at opened
      exact recorded.reachable other found opened
  · intro other
    rw [filter_append, map_append, recorded.blocks]
    by_cases here : other = number
    · subst here
      rw [moved, ← opens.blocks]
      simp
    · rw [update_of_ne here]
      simp [Ne.symm here]
  · intro entry member
    rcases mem_append.mp member with old | new
    · have holds := recorded.each entry old
      exact { holds with ts := holds.ts.trans next.le }
    rw [mem_singleton] at new
    subst new
    refine ⟨low, ?_, next.stamp, rfl, counted (by simp [laneOptions]) took, ?_, ?_⟩
    · rcases next.kind with ⟨same, _, note⟩ | ⟨more, _, commit, _⟩ <;> omega
    · intro commit
      rcases next.kind with ⟨_, note, _⟩ | ⟨_, _, stamp, _, depends⟩
      · cases note
        cases commit
      · exact ⟨by omega, by rw [depends, stamp]; rfl⟩
    intro note
    rcases next.kind with ⟨_, _, stamp⟩ | ⟨_, commit, _⟩
    · exact stamp.le
    · cases note
      cases commit
  · exact recorded.commits_snoc next
  · intro one first other second commit commit' lane' before
    rcases mem_append.mp first with old | new
    · rcases mem_append.mp second with old' | new'
      · exact recorded.order one old other old' commit commit' lane' before
      rw [mem_singleton] at new'
      subst new'
      -- what a lane holds ends before the piece it takes next
      have member : one.piece ∈ lane.blocks := by
        rw [opens.blocks, ← recorded.blocks]
        exact mem_map_of_mem (mem_filter.mpr ⟨old, by simpa using lane'⟩)
      obtain ⟨tail, -, -, laid⟩ := (Sound.of_reachable opens.reachable).laid
      have ends := laid.end_le member
      exact ends.trans (Nat.le_add_right _ _)
    · rw [mem_singleton] at new
      subst new
      rcases mem_append.mp second with old' | new'
      · have := (recorded.each other old').ts
        rcases next.kind with ⟨_, note, _⟩ | ⟨_, _, stamp, _⟩
        · cases note
          cases commit
        · omega
      · rw [mem_singleton] at new'
        subst new'
        exact le_rfl

/-- A checkpoint retires the segments its anchor made redundant. -/
theorem retire (number : Nat) :
    Recorded cut last lanes file flight (update retired number (file.lanes number)) log := by
  refine { recorded with begun := fun other => ?_, gone := fun entry member before => ?_ }
  · by_cases here : other = number
    · subst here
      rw [update_self]
      exact recorded.fits.begun other
    · rw [update_of_ne here]
      exact recorded.begun other
  by_cases here : entry.lane = number
  · rw [here, update_self, ← here] at before
    exact recorded.fits.old entry member before
  · rw [update_of_ne here] at before
    exact recorded.gone entry member before

end

end Recorded

namespace World
variable {allowed : World → Nat → Prop} {cut auto : Nat} {world after : World}

theorem number_lt (journal : Journal) (worker : Nat) (lanes : Option Nat) :
    journal.number worker lanes < mostLanes := by
  refine (Nat.mod_lt _ ?_).trans_le (min_le_right _ _)
  simp only [mostLanes]
  omega

theorem Recorded.opens (recorded : world.Recorded cut)
    (opened : world.Lane number lane) : Recorded.Opens world.journal.lanes number lane := by
  rcases opened with found | ⟨closed, sequence, state, opened, rfl⟩
  · exact recorded.opens_of_some found
  · exact ⟨.start opened, by simp [closed], by simp [tailOf, closed], by simp [closed]⟩

/-- Every step keeps the record of the log. -/
theorem Recorded.step (recorded : world.Recorded cut) (step : Step allowed world after) : after.Recorded cut := by
  cases step with
  | enqueue sync worker lanes _ _ small built opened took _ =>
    exact recorded.take (recorded.opens opened) (number_lt _ _ _) took ⟨rfl, .inr ⟨rfl, rfl, rfl, small, rfl⟩⟩
  | lane move opened queues moved =>
    exact recorded.moves opened (Lane.moves queues moved) (.move move (recorded.reachable _ _ opened).2 moved)
  | settles | refused | reaches | abandoned | raise => exact recorded
  | launch =>
    refine { recorded with flying := fun anchor flies => ?_ }
    cases flies
    exact ⟨⟨le_rfl, rfl, fun _ => le_rfl, fun entry member _ => (recorded.each entry member).ts⟩, recorded.fits.low⟩
  | drop => exact { recorded with flying := fun anchor flies => by cases flies }
  | land flies =>
    obtain ⟨fits, later⟩ := recorded.flying _ flies
    refine { recorded with
      start := recorded.start.trans later
      fits
      flying := fun anchor flies => by cases flies
      gone := fun entry member before => (recorded.gone entry member before).trans later
      each := fun entry member => ?_ }
    have holds := recorded.each entry member
    exact { holds with note := fun note => (holds.note note).trans later }
  | retire number => exact recorded.retire number
  | note opened built took =>
    exact recorded.take (recorded.opens_of_some opened) (recorded.reachable _ _ opened).1 took
      ⟨rfl, .inl ⟨rfl, rfl, rfl⟩⟩

theorem recorded_of_reachable (reachable : Reachable allowed cut auto world) : world.Recorded cut := by
  induction reachable with
  | start small => exact .opening small
  | step _ step ih => exact ih.step step

end World

end Rudb.Txn
