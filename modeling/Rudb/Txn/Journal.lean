import Rudb.Txn.Cut
import Rudb.Txn.LaneProofs

/-! The database's log over several lanes: commits queued one at a time, each depending on the one
before it, the cut that says how far they all are, checkpoints that move the file's anchor, and
what recovery reads back after a crash. A crash keeps what a sync covered and a front of the rest.
Embeds journal.rs of rudb. -/
namespace Rudb.Txn

/-- `MOST_LANES`. -/
def mostLanes : Nat := 16

/-- The lanes of a journal, in segments of 16 MiB. -/
def laneOptions (number : Nat) : Options where
  lane := UInt8.ofNat number
  segmentBytes := 16777216

/-- `LogAnchor`: the cut every commit at or below is in the file, the segment each lane writes
next, and the timestamps that were lost. -/
structure Anchor where
  durable : Nat
  lanes : Nat → Nat := fun _ => 0
  voids : List Nat := []

/-- `replays`. -/
def Anchor.replays (anchor : Anchor) (ts : Nat) : Bool :=
  decide (anchor.durable < ts) && !anchor.voids.contains ts

/-- The loop of `recover` over lost timestamps, each pass of which takes one. -/
def Anchor.skip (anchor : Anchor) : Nat → Nat → Nat
  | 0, done => done
  | fuel + 1, done =>
    -- `checked_add`
    if done + 1 < 2 ^ 64 ∧ anchor.voids.contains (done + 1) then anchor.skip fuel (done + 1) else done

/-- The loop of `recover` over blocks in the order of their commits: a commit is replayed only
when the one it depends on was. -/
def Anchor.keep (anchor : Anchor) : Nat → List Committed → List Committed
  | _, [] => []
  | done, block :: rest =>
    let done := anchor.skip anchor.voids.length done
    if done < block.commit.depTs.toNat then []
    else block :: anchor.keep (max done block.commit.commitTs.toNat) rest

/-- `Change`, a change that replay hands back: its kind and what its record says. -/
abbrev Change := Kind × List UInt8

/-- The changes of a block. -/
def Committed.changes (block : Committed) : List Change :=
  (block.records.filter fun record => decide (record.header.kind ∈ [.insert, .update, .delete, .ddl])).map
    fun record => (record.header.kind, record.payload)

/-- What `recover` hands back. -/
structure Recovered where
  changes : List Change
  last : Nat
  torn : Bool

/-- `recover`, from the blocks that the replay of each lane found. -/
def recover (anchor : Anchor) (lanes : List (List Committed)) : Recovered :=
  let blocks := (lanes.flatten.filter fun block => anchor.replays block.commit.commitTs.toNat).mergeSort
    fun one other => decide (one.commit.commitTs ≤ other.commit.commitTs)
  let kept := anchor.keep anchor.durable blocks
  { changes := kept.flatMap Committed.changes
    last := max anchor.durable ((blocks.getLast?.map (·.commit.commitTs.toNat)).getD 0)
    torn := decide (kept.length < blocks.length) }

/-- `Journal`, as far as its commits depend on it. -/
structure Journal where
  last : Nat
  lanes : Nat → Option Lane := fun _ => none
  laneOfLast : Nat := 0
  cut : Cut
  auto : Nat := 1

/-- `Pending`, a block that its commit has not waited for yet. -/
structure Pending where
  lane : Nat
  end_ : Nat
  sync : CommitSync
  ts : Nat
  after : Option Nat
  deriving DecidableEq

namespace Journal

/-- The lane a commit of `worker` goes to. -/
def number (journal : Journal) (worker : Nat) (lanes : Option Nat) : Nat :=
  worker % min (max (lanes.getD journal.auto) 1) mostLanes

/-- `anchor`. -/
def anchor (journal : Journal) : Anchor where
  durable := journal.last
  lanes number := ((journal.lanes number).map (·.state.tailSequence)).getD 0

/-- The block of a commit, which depends on the one before it. -/
def block (journal : Journal) (staged : List Entry) : Except PushError Block :=
  let ts := journal.last + 1
  (Block.new (UInt64.ofNat ts) (UInt64.ofNat ts) (UInt64.ofNat journal.last)).pushAll staged

/-- What `enqueue` is left to wait for, `none` under `CommitSync::None`. -/
def pending (journal : Journal) (sync : CommitSync) (number end_ : Nat) : Option Pending :=
  if sync = .none then none
  else some {
    lane := number, end_, sync, ts := journal.last + 1
    after := if number = journal.laneOfLast then none else some journal.last }

/-- `enqueue` once lane `number` has taken the block. -/
def queued (journal : Journal) (sync : CommitSync) (number : Nat) (lane : Lane) : Journal :=
  let ts := journal.last + 1
  { journal with
    last := ts
    lanes := Function.update journal.lanes number (some lane)
    laneOfLast := number
    cut := if sync = .none then journal.cut.reached ts else journal.cut }

end Journal

/-- A block queued in a lane, for the record: the commit's sync level, or `none` for the note of
a checkpoint. -/
structure Logged where
  lane : Nat
  ts : Nat
  sync : Option CommitSync
  made : Made
  piece : Piece

/-- A journal among its committers, the file, and the record of every block queued. -/
structure World where
  journal : Journal
  file : Anchor
  flight : Option Anchor := none
  /-- Commits whose lane has not settled. -/
  waiting : List Pending := []
  /-- Commits whose lane has, waiting for the cut. -/
  settled : List Pending := []
  /-- Commits whose `wait` returned `Ok`. -/
  acknowledged : List Pending := []
  log : List Logged := []
  /-- The segments of each lane below which a checkpoint took them away. -/
  retired : Nat → Nat := fun _ => 0

namespace World

/-- Lane `number`, which the first commit that goes to it opens in a new segment. -/
def Lane (world : World) (number : Nat) (lane : Lane) : Prop :=
  world.journal.lanes number = some lane ∨
    world.journal.lanes number = none ∧
      ∃ sequence state, State.open (laneOptions number) sequence = .ok state ∧ lane = { state }

/-- The world after lane `number` has taken a block. -/
def take (world : World) (number : Nat) (lane : Txn.Lane) (ts : Nat) (sync : Option CommitSync) (made : Made) : World :=
  { world with
    journal := { world.journal with
      lanes := Function.update world.journal.lanes number (some (lane.enqueue (laneOptions number) made)) }
    log := world.log ++
      [{ lane := number, ts, sync, made, piece := lane.state.piece (laneOptions number) made.block }] }

/-- What the committers, the leaders of the lanes and the checkpoints do, in any order. A commit
goes to a lane only where `allowed` says so. -/
inductive Step (allowed : World → Nat → Prop) : World → World → Prop where
  /-- `enqueue` of a commit. -/
  | enqueue {world : World} (sync : CommitSync) (worker : Nat) (lanes : Option Nat) {staged : List Entry}
      {block : Block} {lane : Txn.Lane} {state : State} (some_ : staged ≠ [])
      (plain : ∀ entry ∈ staged, entry.flags = 0) (small : world.journal.last + 1 < 2 ^ 64)
      (built : world.journal.block staged = .ok block)
      (opened : world.Lane (world.journal.number worker lanes) lane)
      (took : lane.state.enqueue (laneOptions (world.journal.number worker lanes)) block = .ok state)
      (ok : allowed world (world.journal.number worker lanes)) :
      Step allowed world
        { world.take (world.journal.number worker lanes) lane (world.journal.last + 1) (some sync)
            ⟨_, _, _, staged, block, built⟩ with
          journal := world.journal.queued sync (world.journal.number worker lanes)
            (lane.enqueue (laneOptions (world.journal.number worker lanes)) ⟨_, _, _, staged, block, built⟩)
          waiting := world.waiting ++
            (world.journal.pending sync (world.journal.number worker lanes) state.reserved).toList }
  /-- A committer or the log writer looks at a lane, or its leader goes on. -/
  | lane {world : World} {number : Nat} {lane after : Txn.Lane} (move : Move)
      (opened : world.journal.lanes number = some lane) (queues : ∀ made, move ≠ .enqueue made)
      (moved : lane.next (laneOptions number) move = some after) :
      Step allowed world { world with
        journal := { world.journal with
          lanes := Function.update world.journal.lanes number (some after) } }
  /-- `wait`, when the lane has settled: a commit with nothing to wait for returns. -/
  | settles {world : World} {pending : Pending} {lane : Txn.Lane} {result : Nat}
      (waits : pending ∈ world.waiting) (opened : world.journal.lanes pending.lane = some lane)
      (settled : lane.state.settle pending.end_ pending.sync = .returns (.ok result)) :
      Step allowed world { world with
        journal := { world.journal with cut := world.journal.cut.reached pending.ts }
        waiting := world.waiting.erase pending
        settled := if pending.after = none then world.settled else world.settled ++ [pending]
        acknowledged := if pending.after = none then world.acknowledged ++ [pending] else world.acknowledged }
  /-- `wait`, when the lane failed. -/
  | refused {world : World} {pending : Pending} {lane : Txn.Lane} {error : LaneError}
      (waits : pending ∈ world.waiting) (opened : world.journal.lanes pending.lane = some lane)
      (failed : lane.state.settle pending.end_ pending.sync = .returns (.error error)) :
      Step allowed world { world with
        journal := { world.journal with cut := world.journal.cut.fail }
        waiting := world.waiting.erase pending }
  /-- `wait`, when the cut is as far as the commit this one depends on. -/
  | reaches {world : World} {pending : Pending} {after : Nat} (waits : pending ∈ world.settled)
      (depends : pending.after = some after) (reached : world.journal.cut.wait after = some (.ok ())) :
      Step allowed world { world with
        settled := world.settled.erase pending, acknowledged := world.acknowledged ++ [pending] }
  /-- `wait`, when another lane failed. -/
  | abandoned {world : World} {pending : Pending} {after : Nat} (waits : pending ∈ world.settled)
      (depends : pending.after = some after) (failed : world.journal.cut.wait after = some (.error ())) :
      Step allowed world { world with settled := world.settled.erase pending }
  /-- A checkpoint takes its anchor, and its copy of everything committed. -/
  | launch {world : World} (free : world.flight = none) :
      Step allowed world { world with flight := some world.journal.anchor }
  /-- A checkpoint fails. -/
  | drop {world : World} : Step allowed world { world with flight := none }
  /-- The file takes a checkpoint's anchor. -/
  | land {world : World} {anchor : Anchor} (flies : world.flight = some anchor) :
      Step allowed world { world with file := anchor, flight := none }
  /-- `checkpointed` and `landed` raise the cut over what the file has, -/
  | raise {world : World} :
      Step allowed world { world with
        journal := { world.journal with cut := world.journal.cut.raise world.file.durable } }
  /-- retire the segments that the anchor made redundant, -/
  | retire {world : World} (number : Nat) :
      Step allowed world { world with
        retired := Function.update world.retired number (world.file.lanes number) }
  /-- and note the round in a lane. -/
  | note {world : World} {number : Nat} {lane : Txn.Lane} {state : State} {payload : List UInt8} {block : Block}
      (opened : world.journal.lanes number = some lane)
      (built : (Block.new 0 (UInt64.ofNat world.file.durable) (UInt64.ofNat world.file.durable)).pushAll
        [{ kind := .checkpoint, flags := 0, payload }] = .ok block)
      (took : lane.state.enqueue (laneOptions number) block = .ok state) :
      Step allowed world (world.take number lane world.file.durable none ⟨_, _, _, _, block, built⟩)

/-- What runs lead to from an open log that holds nothing above the file's cut. -/
inductive Reachable (allowed : World → Nat → Prop) (cut auto : Nat) : World → Prop where
  | start (small : cut < 2 ^ 64) :
      Reachable allowed cut auto {
        journal := { last := cut, cut := Cut.new cut, auto }, file := { durable := cut } }
  | step {world after : World} (before : Reachable allowed cut auto world) (step : Step allowed world after) :
      Reachable allowed cut auto after

/-- The blocks queued for one segment of a lane, in order. -/
def segment (world : World) (number sequence : Nat) : List Logged :=
  world.log.filter fun entry => decide (entry.lane = number ∧ entry.piece.sequence = sequence)

/-- What replay reads of a lane when a crash leaves `kept` bytes of each segment. -/
def replayed (world : World) (kept : Nat → Nat → Nat) (number : Nat) : List Committed :=
  (List.range (((world.journal.lanes number).map (·.state.tailSequence + 1)).getD 0)).flatMap fun sequence =>
    readBlocks (((world.segment number sequence).flatMap (·.piece.bytes)).take (kept number sequence)) 0
      (UInt8.ofNat number) (UInt64.ofNat sequence)

/-- What `recover` makes of that. -/
def recovered (world : World) (kept : Nat → Nat → Nat) : Recovered :=
  recover world.file ((List.range mostLanes).map (world.replayed kept))

/-- A crash keeps of each segment a front that has everything a sync covered, but for the
segments a checkpoint retired. -/
def Crash (world : World) (kept : Nat → Nat → Nat) : Prop :=
  ∀ entry ∈ world.log, ∀ lane, world.journal.lanes entry.lane = some lane → Covered lane.io entry.piece →
    world.retired entry.lane ≤ entry.piece.sequence →
      entry.piece.offset + entry.piece.bytes.length ≤ segmentHeader + kept entry.lane entry.piece.sequence

def commits (world : World) : List Logged := world.log.filter (·.sync.isSome)

def changes (entry : Logged) : List Change :=
  (entry.made.entries.filter fun entry => decide (entry.kind ∈ [.insert, .update, .delete, .ddl])).map
    fun entry => (entry.kind, entry.payload)

end World
end Rudb.Txn
