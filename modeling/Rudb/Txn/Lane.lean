import Rudb.Txn.ReplayProofs

/-! One lane of the log: the blocks committers queue under its lock, and the leader that takes
what is queued to the disk while the others wait. A lane's positions count bytes of blocks from
its opening. The disk does what it is asked or fails, in any pattern. Embeds lane.rs of rudb-txn. -/
namespace Rudb.Txn

/-- `CommitSync`. -/
inductive CommitSync where
  | full | barrier | os | none
  deriving DecidableEq, Repr

/-- `Options`, as far as a lane's blocks depend on them. -/
structure Options where
  lane : UInt8
  segmentBytes : Nat
  deriving DecidableEq, Repr

/-- `SEGMENT_HEADER`. -/
def segmentHeader : Nat := 4096

/-- `Piece`, an encoded block waiting for a leader: its place, and the position just past it. -/
structure Piece where
  sequence : Nat
  offset : Nat
  end_ : Nat
  bytes : List UInt8
  deriving DecidableEq, Repr

/-- `Open`, the segment writes go to. -/
structure Open where
  sequence : Nat
  dirty : Bool
  deriving DecidableEq, Repr

/-- `State`, under the lane's lock. -/
structure State where
  tailSequence : Nat
  tailOffset : Nat
  pending : List Piece := []
  open_ : Option Open
  reserved : Nat := 0
  written : Nat := 0
  durable : Nat := 0
  ordered : Nat := 0
  flushing : Bool := false
  failed : Bool := false
  deriving DecidableEq, Repr

/-- What a lane refuses with. -/
inductive LaneError where
  /-- "a log segment of {} bytes is under two headers or not a multiple of 8" -/
  | segment
  /-- "a log block of {len} bytes does not fit a segment of {} bytes" -/
  | long
  /-- "the log failed earlier and takes no more commits: {why}" -/
  | failed
  /-- "the log lane has no open segment and nobody flushing" -/
  | internal
  deriving DecidableEq, Repr

/-- `Reach`. -/
inductive Reach where
  | written | ordered | durable
  deriving DecidableEq, Repr

namespace State

/-- `open`, which starts writing in a new segment. -/
def «open» (options : Options) (sequence : Nat) : Except LaneError State :=
  if options.segmentBytes < 2 * segmentHeader ∨ options.segmentBytes % 8 ≠ 0 then .error .segment
  else .ok {
    tailSequence := sequence, tailOffset := segmentHeader, open_ := some { sequence, dirty := false } }

/-- `check`. -/
def check (state : State) : Except LaneError Unit :=
  if state.failed then .error .failed else .ok ()

/-- Where the next block of `len` bytes goes, in a new segment when this one has no room. -/
def place (options : Options) (state : State) (len : Nat) : Nat × Nat :=
  if options.segmentBytes < state.tailOffset + len then (state.tailSequence + 1, segmentHeader)
  else (state.tailSequence, state.tailOffset)

/-- The piece that `enqueue` makes of a block. -/
def piece (options : Options) (state : State) (block : Block) : Piece where
  sequence := (state.place options block.len).1
  offset := (state.place options block.len).2
  end_ := state.reserved + block.len
  bytes := block.encode options.lane (seed (UInt64.ofNat (state.place options block.len).1))

/-- `enqueue`. -/
def enqueue (options : Options) (state : State) (block : Block) : Except LaneError State := do
  if options.segmentBytes - segmentHeader < block.len then throw .long
  state.check
  let piece := state.piece options block
  return { state with
    tailSequence := piece.sequence
    tailOffset := piece.offset + block.len
    pending := state.pending ++ [piece]
    reserved := piece.end_ }

/-- How far the lane has got. -/
def reached (state : State) : Reach → Nat
  | .written => state.written
  | .ordered => max state.ordered state.durable
  | .durable => state.durable

end State

/-- What a leader asks of the disk. -/
inductive Op where
  /-- `sync_data` -/
  | sync (sequence : Nat)
  /-- `sync_barrier` -/
  | barrier (sequence : Nat)
  /-- `create_segment` -/
  | create (sequence : Nat)
  /-- `write_parts_at` -/
  | write (sequence offset : Nat) (parts : List (List UInt8))
  deriving DecidableEq, Repr

/-- `Led`, what a leader's turn did. -/
structure Led where
  written : Nat
  durable : Option Nat := none
  ordered : Option Nat := none
  deriving DecidableEq, Repr

/-- A leader's turn at the disk: what it has still to ask for, and what it returns when all of
that succeeds. `lead` returns at the first failure. -/
structure Turn where
  ops : List Op
  open_ : Open
  led : Led
  broke : Bool := false
  deriving DecidableEq, Repr

/-- What `lead` does before the first write to a segment: the old one is synced before the new
one gets a byte. -/
def switch (open_ : Open) (sequence : Nat) : List Op :=
  if sequence = open_.sequence then []
  else (if open_.dirty then [.sync open_.sequence] else []) ++ [.create sequence]

/-- The loop of `lead`, which writes a segment's run of pieces at a time. -/
def leadRuns (open_ : Open) (written : Nat) (durable : Option Nat) : List Piece → Turn
  | [] => { ops := [], open_, led := { written, durable } }
  | first :: rest =>
    let run := rest.takeWhile (·.sequence == first.sequence)
    let next := leadRuns { sequence := first.sequence, dirty := true }
      ((first :: run).getLast (List.cons_ne_nil first run)).end_
      (if first.sequence = open_.sequence then durable else some written)
      (rest.dropWhile (·.sequence == first.sequence))
    { next with
      ops := switch open_ first.sequence ++
        .write first.sequence first.offset ((first :: run).map (·.bytes)) :: next.ops }
  termination_by pieces => pieces.length
  decreasing_by
    have := (List.dropWhile_suffix (l := rest) (·.sequence == first.sequence)).length_le
    simp only [List.length_cons]
    omega

/-- The end of `lead`: a sync or a barrier behind what was written when `reach` asks for it. -/
def Turn.settle (turn : Turn) : Reach → Turn
  | .written => turn
  | .ordered =>
    -- a barrier leaves the segment dirty
    { turn with
      ops := turn.ops ++ if turn.open_.dirty then [.barrier turn.open_.sequence] else []
      led := { turn.led with ordered := some turn.led.written } }
  | .durable =>
    { turn with
      ops := turn.ops ++ if turn.open_.dirty then [.sync turn.open_.sequence] else []
      open_ := { turn.open_ with dirty := false }
      led := { turn.led with durable := some turn.led.written } }

/-- `lead`. -/
def lead (open_ : Open) (pieces : List Piece) (written : Nat) (reach : Reach) : Turn :=
  (leadRuns open_ written none pieces).settle reach

/-- What one pass of `wait` under the lock comes to. -/
inductive Pass where
  | returns (result : Except LaneError Nat)
  | awaits
  | leads (state : State) (turn : Turn)

namespace State

/-- One pass of the loop of `wait`. -/
def wait (state : State) (end_ : Nat) (reach : Reach) : Pass :=
  match state.check with
  | .error error => .returns (.error error)
  | .ok () =>
    if end_ ≤ state.reached reach then .returns (.ok end_)
    else if state.flushing then .awaits
    else
      match state.open_ with
      | none => .returns (.error .internal)
      | some open_ =>
        .leads { state with open_ := none, flushing := true, pending := [] }
          (lead open_ state.pending state.written reach)

/-- One pass of `settle`. -/
def settle (state : State) (end_ : Nat) : CommitSync → Pass
  | .full => state.wait end_ .durable
  | .barrier => state.wait end_ .ordered
  | .os => state.wait end_ .written
  | .none => .returns (.ok end_)

/-- What `wait` does once its turn is over. Nothing reads `open` after a failure. -/
def finish (state : State) (turn : Turn) : State :=
  let state := { state with flushing := false, open_ := some turn.open_ }
  if turn.broke then { state with failed := true }
  else { state with
    written := max state.written turn.led.written
    durable := max state.durable (turn.led.durable.getD 0)
    ordered := max state.ordered (turn.led.ordered.getD 0) }

end State

/-- `Lane`, a lane among its committers: the state under the lock, the leader's turn, and, for the
record, what was asked of the disk, with whether it succeeded, and the blocks queued, both in
order. -/
structure Lane where
  state : State
  turn : Option Turn := none
  io : List (Op × Bool) := []
  blocks : List Piece := []

/-- What a committer does next. Any number of them take part, and one that is told to wait looks
again at any time. -/
inductive Move where
  | enqueue (made : Made)
  /-- A pass of `wait` under the lock, from `settle`, `flush` or `write_out`. -/
  | look (end_ : Nat) (reach : Reach)
  /-- The leader's next call to the disk, and whether it succeeds. -/
  | disk (ok : Bool)
  /-- The leader takes the lock again. -/
  | finish

namespace Lane

/-- The lane after an `enqueue`. A block that is refused changes nothing. -/
def queued (lane : Lane) (piece : Piece) : Except LaneError State → Lane
  | .error _ => lane
  | .ok state => { lane with state, blocks := lane.blocks ++ [piece] }

/-- `enqueue` by a committer. -/
def enqueue (options : Options) (lane : Lane) (made : Made) : Lane :=
  lane.queued (lane.state.piece options made.block) (lane.state.enqueue options made.block)

/-- A pass of `wait`, which changes the lane when it leads. -/
def look (lane : Lane) (end_ : Nat) (reach : Reach) : Lane :=
  match lane.state.wait end_ reach with
  | .leads state turn => { lane with state, turn := some turn }
  | .returns _ => lane
  | .awaits => lane

/-- The next call of a leader to the disk. -/
def disk (lane : Lane) (turn : Turn) (ok : Bool) : Option Lane :=
  match turn.ops with
  | [] => none
  | op :: ops =>
    if turn.broke then none
    else some { lane with turn := some { turn with ops, broke := !ok }, io := lane.io ++ [(op, ok)] }

/-- A leader takes the lock again once a call failed or none is left. -/
def finish (lane : Lane) (turn : Turn) : Option Lane :=
  if turn.broke ∨ turn.ops = [] then some { lane with state := lane.state.finish turn, turn := none }
  else none

/-- The lane after a move, or `none` when nobody can make it. -/
def next (options : Options) (lane : Lane) : Move → Option Lane
  | .enqueue made => some (lane.enqueue options made)
  | .look end_ reach => some (lane.look end_ reach)
  | .disk ok => lane.turn.bind (lane.disk · ok)
  | .finish => lane.turn.bind lane.finish

/-- The lanes that committers' moves lead to, in any order. -/
inductive Reachable (options : Options) : Lane → Prop where
  | start {sequence : Nat} {state : State} (opened : State.open options sequence = .ok state) :
      Reachable options { state }
  | move {lane after : Lane} (move : Move) (before : Reachable options lane)
      (moved : lane.next options move = some after) : Reachable options after

end Lane
end Rudb.Txn
