import Rudb.Txn.RecoverProofs

/-! Which commits a crash cannot take: a commit whose `wait` returned under a full sync, when every
commit before it in another lane was on the disk as it was queued, or is one the cut stands for. -/
namespace Rudb.Txn
open List Option Function
namespace World
variable {cut auto : Nat} {world after : World} {entry : Logged} {pending : Pending}

/-- A block that no crash takes: the file has its commit, or a sync covered it. -/
def Durable (world : World) (entry : Logged) : Prop :=
  entry.ts ≤ world.file.durable ∨
    ∃ lane, world.journal.lanes entry.lane = some lane ∧ Covered lane.io entry.piece

/-- A commit goes to lane `number` while every commit before it in another lane is durable, or is
one that its `wait` waits for: made with a full sync, and not hidden behind the newest commit by
being in that one's lane. -/
def Careful (world : World) (number : Nat) : Prop :=
  ∀ entry ∈ world.log, entry.sync.isSome → entry.lane ≠ number →
    world.Durable entry ∨ entry.sync = some .full ∧ number ≠ world.journal.laneOfLast

/-- What one step adds to a world: the file and the lanes' calls to the disk only grow, and so does
the log, by the next commit at most. -/
structure Extends (world after : World) : Prop where
  file : world.file.durable ≤ after.file.durable
  io : ∀ number lane, world.journal.lanes number = some lane →
    ∃ later, after.journal.lanes number = some later ∧ lane.io <+: later.io
  last : world.journal.last ≤ after.journal.last
  log : ∀ entry ∈ world.log, entry ∈ after.log
  new : ∀ entry ∈ after.log, entry.sync.isSome → entry ∈ world.log ∨ world.journal.last < entry.ts

theorem Extends.durable (extends_ : Extends world after) (durable : world.Durable entry) : after.Durable entry := by
  rcases durable with file | ⟨lane, opened, covered⟩
  · exact .inl (file.trans extends_.file)
  · obtain ⟨later, opened, more, calls⟩ := extends_.io _ lane opened
    exact .inr ⟨later, opened, calls ▸ covered.append more⟩

theorem Extends.refl_of (file : world.file.durable ≤ after.file.durable)
    (lanes : after.journal.lanes = world.journal.lanes) (last : after.journal.last = world.journal.last)
    (log : after.log = world.log) : Extends world after where
  file := file
  io number lane opened := ⟨lane, by rw [lanes, opened], prefix_rfl⟩
  last := last.ge
  log entry member := by rwa [log]
  new entry member _ := .inl (by rwa [log] at member)

variable {number : Nat}

theorem io_update
    (same : ∀ before, world.journal.lanes number = some before → before.io <+: later.io) :
    ∀ other found, world.journal.lanes other = some found →
      ∃ now, Function.update world.journal.lanes number (some later) other = some now ∧ found.io <+: now.io := by
  intro other found opened
  by_cases here : other = number
  · subst here
    exact ⟨later, update_self .., same found opened⟩
  · exact ⟨found, by rw [update_of_ne here, opened], prefix_rfl⟩

theorem Step.extends_ (recorded : world.Recorded cut) (step : Step allowed world after) : Extends world after := by
  cases step with
  | enqueue sync worker lanes _ _ small built opened took _ =>
    refine ⟨le_rfl, io_update fun before found => ?_, Nat.le_succ _, fun entry member => ?_, fun entry member _ => ?_⟩
    · rw [(recorded.opens opened).io before found, Lane.enqueue_io]
    · exact mem_append_left _ member
    rcases mem_append.mp member with old | new
    · exact .inl old
    · rw [mem_singleton.mp new]
      exact .inr (Nat.lt_succ_self _)
  | lane move opened queues moved =>
    refine ⟨le_rfl, io_update fun before found => ?_, le_rfl, fun _ member => member, fun _ member _ => .inl member⟩
    cases found.symm.trans opened
    exact (Lane.moves queues moved).io
  | settles | refused | reaches | abandoned | launch | drop | raise | retire => exact .refl_of le_rfl rfl rfl rfl
  | land flies => exact .refl_of (recorded.flying _ flies).2 rfl rfl rfl
  | note opened built took =>
    refine ⟨le_rfl, io_update fun before found => ?_, le_rfl, fun entry member => ?_, fun entry member commit => ?_⟩
    · cases found.symm.trans opened
      rw [Lane.enqueue_io]
    · exact mem_append_left _ member
    rcases mem_append.mp member with old | new
    · exact .inl old
    · rw [mem_singleton.mp new] at commit
      cases commit

/-- What a commit that waits relies on. -/
structure Waits (world : World) (pending : Pending) : Prop where
  commit : ∃ entry ∈ world.log, entry.sync = some pending.sync ∧ entry.ts = pending.ts ∧
    entry.lane = pending.lane ∧ entry.piece.end_ = pending.end_
  depends : ∀ entry ∈ world.log, entry.sync.isSome → entry.ts < pending.ts → entry.lane ≠ pending.lane →
    world.Durable entry ∨ entry.sync = some .full ∧ pending.after = some (pending.ts - 1)

/-- The commits of the own lane are durable up to a commit. -/
def Own (world : World) (pending : Pending) : Prop :=
  ∀ entry ∈ world.log, entry.sync.isSome → entry.lane = pending.lane → entry.ts ≤ pending.ts → world.Durable entry

/-- All commits are durable up to a commit. -/
def All (world : World) (pending : Pending) : Prop :=
  ∀ entry ∈ world.log, entry.sync.isSome → entry.ts ≤ pending.ts → world.Durable entry

/-- What a commit whose lane has settled relies on. -/
def Settled (world : World) (pending : Pending) : Prop :=
  world.Waits pending ∧ (pending.sync = .full → world.Own pending)

/-- What a commit whose `wait` returned may rely on. -/
def Acknowledged (world : World) (pending : Pending) : Prop :=
  (∃ entry ∈ world.log, entry.sync.isSome ∧ entry.ts = pending.ts) ∧ (pending.sync = .full → world.All pending)

/-- What holds of the commits that wait or were acknowledged, in every run of careful commits. -/
structure Acks (world : World) : Prop where
  held : ∀ ts, world.journal.cut.Held ts → ts ≤ world.journal.last
  full : ∀ entry ∈ world.log, entry.sync = some .full → world.journal.cut.Held entry.ts → world.Durable entry
  waiting : ∀ pending ∈ world.waiting, world.Waits pending
  settled : ∀ pending ∈ world.settled, world.Settled pending
  acknowledged : ∀ pending ∈ world.acknowledged, world.Acknowledged pending

theorem Extends.old (extends_ : Extends world after) (low : ts ≤ world.journal.last)
    (member : entry ∈ after.log) (commit : entry.sync.isSome) (before : entry.ts ≤ ts) : entry ∈ world.log := by
  rcases extends_.new entry member commit with old | new
  · exact old
  · omega

theorem Waits.low (waits : world.Waits pending) (recorded : world.Recorded cut) : pending.ts ≤ world.journal.last := by
  obtain ⟨entry, member, -, same, -, -⟩ := waits.commit
  exact same ▸ (recorded.each entry member).ts

section
variable (recorded : world.Recorded cut) (extends_ : Extends world after)
include recorded extends_

theorem Waits.along (waits : world.Waits pending) : after.Waits pending := by
  obtain ⟨entry, member, facts⟩ := waits.commit
  refine ⟨⟨entry, extends_.log entry member, facts⟩, fun other member commit before away => ?_⟩
  have old := extends_.old (waits.low recorded) member commit before.le
  exact (waits.depends other old commit before away).imp_left extends_.durable

theorem Settled.along (settled : world.Settled pending) : after.Settled pending := by
  have low := settled.1.low recorded
  refine ⟨settled.1.along recorded extends_, fun full other member commit lane before => ?_⟩
  exact extends_.durable (settled.2 full other (extends_.old low member commit before) commit lane before)

theorem Acknowledged.along (acknowledged : world.Acknowledged pending) : after.Acknowledged pending := by
  obtain ⟨⟨entry, known, commit, same⟩, all⟩ := acknowledged
  have low : pending.ts ≤ world.journal.last := same ▸ (recorded.each entry known).ts
  refine ⟨⟨entry, extends_.log entry known, commit, same⟩, fun full other member commit before => ?_⟩
  exact extends_.durable (all full other (extends_.old low member commit before) commit before)

end

section
variable (acks : world.Acks) (recorded : world.Recorded cut) (extends_ : Extends world after)
include acks recorded extends_

/-- A step that leaves the commits waiting as they are, and counts no more of them. -/
theorem Acks.along (held : ∀ ts, after.journal.cut.Held ts → world.journal.cut.Held ts ∨ ts ≤ world.file.durable)
    (waiting : ∀ pending ∈ after.waiting, pending ∈ world.waiting)
    (settled : ∀ pending ∈ after.settled, pending ∈ world.settled)
    (acknowledged : ∀ pending ∈ after.acknowledged, pending ∈ world.acknowledged) : after.Acks where
  held ts counted := by
    rcases held ts counted with before | file
    · exact (acks.held ts before).trans extends_.last
    · exact (le_trans file recorded.fits.low).trans extends_.last
  full entry member full counted := by
    rcases held entry.ts counted with before | file
    · have old := extends_.old (acks.held entry.ts before) member (by rw [full]; rfl) le_rfl
      exact extends_.durable (acks.full entry old full before)
    · exact .inl (file.trans extends_.file)
  waiting pending member := (acks.waiting pending (waiting pending member)).along recorded extends_
  settled pending member := (acks.settled pending (settled pending member)).along recorded extends_
  acknowledged pending member :=
    (acks.acknowledged pending (acknowledged pending member)).along recorded extends_

end

section
variable (recorded : world.Recorded cut)
include recorded

/-- A full sync of the own lane settled: its commits are durable up to this one. -/
theorem Waits.own (waits : world.Waits pending)
    (opened : world.journal.lanes pending.lane = some lane)
    (settled : lane.state.settle pending.end_ .full = .returns (.ok result)) : world.Own pending := by
  intro other member commit same before
  obtain ⟨entry, known, sync, ts, own, end_⟩ := waits.commit
  have ends : other.piece.end_ ≤ entry.piece.end_ :=
    recorded.order other member entry known commit (by rw [sync]; rfl) (same.trans own.symm) (by omega)
  have blocks := recorded.blocks pending.lane
  rw [opened, map_some, getD_some] at blocks
  have placed : other.piece ∈ lane.blocks := by
    rw [← blocks]
    exact mem_map_of_mem (mem_filter.mpr ⟨member, by simpa using same⟩)
  have size : 0 < other.piece.bytes.length := by
    have header := recordBytes_ge Commit.len
    rw [(recorded.each other member).length, Block.len]
    simp only [recordHeader] at header
    omega
  exact .inr ⟨lane, by rw [same, opened], (Sound.of_reachable (recorded.reachable _ lane opened).2).covered settled
    placed (by omega)⟩

/-- What stands before a commit in its own lane and in the others is all there is. -/
theorem Waits.all (waits : world.Waits pending) (own : world.Own pending)
    (others : ∀ entry ∈ world.log, entry.sync = some .full → entry.ts < pending.ts →
      pending.after = some (pending.ts - 1) → world.Durable entry) : world.All pending := by
  intro other member commit before
  by_cases lane : other.lane = pending.lane
  · exact own other member commit lane before
  obtain ⟨entry, known, sync, ts, same, -⟩ := waits.commit
  have earlier : other.ts < pending.ts := by
    refine lt_of_le_of_ne before fun equal => lane ?_
    rw [recorded.eq_of_ts member known commit (by rw [sync]; rfl) (equal.trans ts.symm), same]
  rcases waits.depends other member commit earlier lane with durable | ⟨full, after⟩
  · exact durable
  · exact others other member full earlier after

/-- A careful commit is queued. -/
theorem Acks.enqueue (acks : world.Acks) (extends_ : Extends world after)
    (journal : after.journal = world.journal.queued sync number lane)
    (log : after.log = world.log ++ [entry]) (stamp : entry.ts = world.journal.last + 1)
    (level : entry.sync = some sync) (place : entry.lane = number) (ends : entry.piece.end_ = end_)
    (waiting : after.waiting = world.waiting ++ (world.journal.pending sync number end_).toList)
    (settled : after.settled = world.settled) (acknowledged : after.acknowledged = world.acknowledged)
    (careful : world.Careful number) : after.Acks := by
  have held : ∀ ts, after.journal.cut.Held ts → world.journal.cut.Held ts ∨
      sync = .none ∧ ts = world.journal.last + 1 := by
    intro ts counted
    rw [journal, Journal.queued] at counted
    by_cases none : sync = .none
    · simp only [none, if_true] at counted
      exact (Cut.held_reached counted).imp_right fun same => ⟨none, same⟩
    · simp only [none, if_false] at counted
      exact .inl counted
  refine ⟨fun ts counted => ?_, fun other member full counted => ?_, fun pending member => ?_,
    fun pending member => ?_, fun pending member => ?_⟩
  · rw [journal]
    rcases held ts counted with before | ⟨_, rfl⟩
    · exact Nat.le_succ_of_le (acks.held ts before)
    · exact le_rfl
  · rcases held other.ts counted with before | ⟨none, late⟩
    · have old := extends_.old (acks.held other.ts before) member (by rw [full]; rfl) le_rfl
      exact extends_.durable (acks.full other old full before)
    rw [log, mem_append, mem_singleton] at member
    rcases member with old | rfl
    · have := (recorded.each other old).ts
      omega
    · rw [level, none] at full
      cases full
  · rw [waiting, mem_append] at member
    rcases member with old | new
    · exact (acks.waiting pending old).along recorded extends_
    rw [mem_toList, Journal.pending] at new
    split at new
    · cases new
    cases new
    refine ⟨⟨entry, by simp [log], level, stamp, place, ends⟩, fun other member commit before away => ?_⟩
    have old := extends_.old le_rfl member commit (Nat.le_of_lt_succ before)
    rcases careful other old commit away with durable | ⟨full, lane⟩
    · exact .inl (extends_.durable durable)
    · exact .inr ⟨full, by rw [if_neg lane]; rfl⟩
  · exact (acks.settled pending (settled ▸ member)).along recorded extends_
  · exact (acks.acknowledged pending (acknowledged ▸ member)).along recorded extends_

/-- A commit that has nothing more to wait for is acknowledged. -/
theorem Settled.acknowledged (settled : world.Settled pending)
    (others : ∀ entry ∈ world.log, entry.sync = some .full → entry.ts < pending.ts →
      pending.after = some (pending.ts - 1) → world.Durable entry) : world.Acknowledged pending := by
  obtain ⟨entry, known, sync, ts, -, -⟩ := settled.1.commit
  exact ⟨⟨entry, known, by rw [sync]; rfl, ts⟩, fun full => settled.1.all recorded (settled.2 full) others⟩

end

/-- The lane of a commit settled. -/
theorem Acks.settles (acks : world.Acks) (recorded : world.Recorded cut) {lane : Txn.Lane} {result : Nat}
    (waits : pending ∈ world.waiting) (opened : world.journal.lanes pending.lane = some lane)
    (returned : lane.state.settle pending.end_ pending.sync = .returns (.ok result)) :
    Acks { world with
      journal := { world.journal with cut := world.journal.cut.reached pending.ts }
      waiting := world.waiting.erase pending
      settled := if pending.after = none then world.settled else world.settled ++ [pending]
      acknowledged := if pending.after = none then world.acknowledged ++ [pending] else world.acknowledged } := by
  have waits := acks.waiting pending waits
  have settled : world.Settled pending := by
    refine ⟨waits, fun full => ?_⟩
    rw [full] at returned
    exact waits.own recorded opened returned
  refine ⟨fun ts counted => ?_, fun entry member full counted => ?_, fun other member => ?_, fun other member => ?_,
    fun other member => ?_⟩
  · rcases Cut.held_reached counted with before | rfl
    · exact acks.held ts before
    · exact waits.low recorded
  · rcases Cut.held_reached counted with before | same
    · exact acks.full entry member full before
    obtain ⟨own, known, sync, ts, lane, -⟩ := waits.commit
    have equal := recorded.eq_of_ts member known (by rw [full]; rfl) (by rw [sync]; rfl) (same.trans ts.symm)
    subst equal
    exact settled.2 (Option.some.inj (sync.symm.trans full)) entry member (by rw [full]; rfl) lane ts.le
  · exact (acks.waiting other (mem_of_mem_erase member)).along recorded (.refl_of le_rfl rfl rfl rfl)
  · by_cases alone : pending.after = none
    · simp only [alone, if_true] at member
      exact (acks.settled other member).along recorded (.refl_of le_rfl rfl rfl rfl)
    simp only [alone, if_false, mem_append, mem_singleton] at member
    rcases member with old | rfl
    · exact (acks.settled other old).along recorded (.refl_of le_rfl rfl rfl rfl)
    · exact settled.along recorded (.refl_of le_rfl rfl rfl rfl)
  · by_cases alone : pending.after = none
    · simp only [alone, if_true, mem_append, mem_singleton] at member
      rcases member with old | rfl
      · exact (acks.acknowledged other old).along recorded (.refl_of le_rfl rfl rfl rfl)
      · refine (settled.acknowledged recorded fun _ _ _ _ after => ?_).along recorded (.refl_of le_rfl rfl rfl rfl)
        rw [alone] at after
        cases after
    · simp only [alone, if_false] at member
      exact (acks.acknowledged other member).along recorded (.refl_of le_rfl rfl rfl rfl)

/-- The cut is as far as the commit that one depends on. -/
theorem Acks.reaches (acks : world.Acks) (recorded : world.Recorded cut)
    (waits : pending ∈ world.settled) (depends : pending.after = some before)
    (reached : world.journal.cut.wait before = some (.ok ())) :
    Acks { world with
      settled := world.settled.erase pending, acknowledged := world.acknowledged ++ [pending] } := by
  have extends_ : Extends world { world with
      settled := world.settled.erase pending, acknowledged := world.acknowledged ++ [pending] } :=
    .refl_of le_rfl rfl rfl rfl
  refine ⟨acks.held, fun entry member full counted => extends_.durable (acks.full entry member full counted),
    fun other member => (acks.waiting other member).along recorded extends_,
    fun other member => (acks.settled other (mem_of_mem_erase member)).along recorded extends_,
    fun other member => ?_⟩
  rcases mem_append.mp member with old | new
  · exact (acks.acknowledged other old).along recorded extends_
  rw [mem_singleton.mp new]
  refine ((acks.settled pending waits).acknowledged recorded fun entry member full earlier after => ?_).along
    recorded extends_
  rw [depends, Option.some.injEq] at after
  exact acks.full entry member full (Cut.held_of_wait reached (by omega))

/-- Every step of a run of careful commits keeps what they rely on. -/
theorem Acks.step (acks : world.Acks) (recorded : world.Recorded cut) (step : Step Careful world after) :
    after.Acks := by
  have extends_ := step.extends_ recorded
  cases step with
  | enqueue sync worker lanes _ _ _ built opened took careful =>
    refine acks.enqueue recorded extends_ rfl rfl rfl rfl rfl ?_ rfl rfl rfl careful
    rw [(Sound.enqueue_ok took).2.2]
  | lane | launch | drop | land | retire | note =>
    exact acks.along recorded extends_ (fun _ held => .inl held) (fun _ same =>
      same) (fun _ same => same) (fun _ same => same)
  | settles waits opened settled => exact acks.settles recorded waits opened settled
  | refused =>
    exact acks.along recorded extends_ (fun _ held => .inl held) (fun _ => mem_of_mem_erase)
      (fun _ same => same) (fun _ same => same)
  | reaches waits depends reached => exact acks.reaches recorded waits depends reached
  | abandoned =>
    exact acks.along recorded extends_ (fun _ held => .inl held) (fun _ same => same)
      (fun _ => mem_of_mem_erase) (fun _ same => same)
  | raise =>
    exact acks.along recorded extends_ (fun _ held => Cut.held_raise held) (fun _ same => same) (fun _ same => same)
      (fun _ same => same)

theorem acks_of_reachable (reachable : Reachable Careful cut auto world) : world.Acks := by
  induction reachable with
  | start =>
    refine ⟨fun ts held => ?_, by simp, by simp, by simp, by simp⟩
    rcases held with low | above
    · exact low
    · simp [Cut.new] at above
  | step before step ih => exact ih.step (recorded_of_reachable before) step

/-- A durable commit above the file's cut is whole after a crash. -/
theorem Crash.whole (crash : world.Crash kept) (recorded : world.Recorded cut)
    (member : entry ∈ world.above) (durable : world.Durable entry) : Whole kept entry := by
  obtain ⟨member, -, late⟩ := mem_above.mp member
  rcases durable with file | ⟨lane, opened, covered⟩
  · omega
  refine crash entry member lane opened covered ?_
  by_contra gone
  have := recorded.gone entry member (by omega)
  omega

/-- An acknowledged commit survives any crash: recovery hands back the changes of a front of the
commits above the file's cut, in order, with every commit in it whose `wait` returned under a full
sync, in every run whose commits are careful. -/
theorem acknowledged_commit_survives (reachable : Reachable Careful cut auto world) {kept : Nat → Nat → Nat}
    (crash : world.Crash kept) : ∃ count, (world.recovered kept).changes = (world.above.take count).flatMap changes ∧
      ∀ pending ∈ world.acknowledged, pending.sync = .full →
        pending.ts ≤ world.file.durable ∨ ∃ entry ∈ world.above.take count, entry.ts = pending.ts := by
  have recorded := recorded_of_reachable reachable
  have acks := acks_of_reachable reachable
  obtain ⟨count, result, -, front⟩ := recorded.recovered_front kept
  refine ⟨count, result, fun pending member full => ?_⟩
  obtain ⟨⟨entry, known, commit, same⟩, all⟩ := acks.acknowledged pending member
  by_cases old : pending.ts ≤ world.file.durable
  · exact .inl old
  · refine .inr ⟨entry, front entry (mem_above.mpr ⟨known, commit, by omega⟩) fun other member before => ?_, same⟩
    obtain ⟨logged, commit', -⟩ := mem_above.mp member
    exact crash.whole recorded member (all full other logged commit' (by omega))

/-- Moves of a lane that queue nothing, as steps. -/
theorem Reachable.run (reachable : Reachable allowed cut auto world)
    (opened : world.journal.lanes number = some lane)
    (queues : ∀ move ∈ moves, ∀ made, move ≠ .enqueue made)
    (ran : lane.run (laneOptions number) moves = some later) :
    Reachable allowed cut auto { world with
      journal := { world.journal with lanes := Function.update world.journal.lanes number (some later) } } := by
  induction moves generalizing world lane with
  | nil =>
    cases ran
    rwa [← opened, update_eq_self]
  | cons move rest ih =>
    obtain ⟨next, moved, ran⟩ := bind_eq_some_iff.mp ran
    have stepped := reachable.step (.lane move opened (queues move (by simp)) moved)
    have run := ih stepped (update_self ..) (fun other member => queues other (by simp [member])) ran
    simp only [update_idem] at run
    exact run

/-- The commit of the runs below: one delete, queued after the commit at `last`. -/
def oneDelete (last : Nat) : Made where
  txn := UInt64.ofNat (last + 1)
  commitTs := UInt64.ofNat (last + 1)
  depTs := UInt64.ofNat last
  entries := [{ kind := .delete, flags := 0, payload := [7, 9] }]
  block := {
    txn := UInt64.ofNat (last + 1), commitTs := UInt64.ofNat (last + 1), depTs := UInt64.ofNat last
    records := [(.delete, 0, 2)], data := [7, 9], bytes := 24 }
  made := rfl

/-- A lane before its first block. -/
def fresh : Txn.Lane where
  state := { tailSequence := 1, tailOffset := segmentHeader, open_ := some ⟨1, false⟩ }

/-- The first block of a lane. -/
def firstPiece (options : Options) (made : Made) : Piece where
  sequence := 1
  offset := segmentHeader
  end_ := made.block.len
  bytes := made.block.encode options.lane (seed 1)

section
variable {options : Options} {made : Made} (room : segmentHeader + made.block.len ≤ options.segmentBytes)
include room

theorem fresh_piece : fresh.state.piece options made.block = firstPiece options made := by
  have place : fresh.state.place options made.block.len = (1, segmentHeader) := if_neg (by simp only [fresh]; omega)
  simp only [State.piece, place, firstPiece]
  simp [fresh]

theorem fresh_enqueue : fresh.state.enqueue options made.block = .ok (Lane.alone (firstPiece options made)).state := by
  have fits : ¬options.segmentBytes - segmentHeader < made.block.len := by omega
  rw [State.enqueue, fresh_piece room]
  simp only [fits, if_false, State.check, fresh, Lane.alone, firstPiece]
  rfl

end

theorem oneDelete_len (last : Nat) : (oneDelete last).block.len = 80 := by
  simp [oneDelete, Block.len, recordBytes, recordHeader, recordAlign, Commit.len]

theorem oneDelete_room (number last : Nat) :
    segmentHeader + (oneDelete last).block.len ≤ (laneOptions number).segmentBytes := by
  simp [oneDelete_len, segmentHeader, laneOptions]

theorem fresh_open (number : Nat) : State.open (laneOptions number) 1 = .ok fresh.state := by
  have size : ¬((laneOptions number).segmentBytes < 2 * segmentHeader ∨ (laneOptions number).segmentBytes % 8 ≠ 0) := by
    simp only [laneOptions, segmentHeader]
    decide
  rw [State.open, if_neg size]
  rfl

/-- Such a commit, queued in lane `number`. -/
def oneLogged (number last : Nat) (sync : CommitSync) : Logged where
  lane := number
  ts := last + 1
  sync := some sync
  made := oneDelete last
  piece := firstPiece (laneOptions number) (oneDelete last)

/-- A commit that opens its lane. -/
theorem Reachable.commit (reachable : Reachable allowed cut auto world)
    (sync : CommitSync) (worker : Nat) (lanes : Option Nat)
    (goes : world.journal.number worker lanes = number) (closed : world.journal.lanes number = none)
    (small : world.journal.last + 1 < 2 ^ 64) (ok : allowed world number) :
    Reachable allowed cut auto { world with
      journal := world.journal.queued sync number
        (Lane.alone (firstPiece (laneOptions number) (oneDelete world.journal.last)))
      log := world.log ++ [oneLogged number world.journal.last sync]
      waiting := world.waiting ++ (world.journal.pending sync number 80).toList } := by
  subst goes
  have room := oneDelete_room (world.journal.number worker lanes) world.journal.last
  have built : world.journal.block (oneDelete world.journal.last).entries = .ok (oneDelete world.journal.last).block :=
    (oneDelete world.journal.last).made
  have opened : world.Lane (world.journal.number worker lanes) fresh := .inr ⟨closed, 1, fresh.state, fresh_open _, rfl⟩
  have took := fresh_enqueue room
  have lane : fresh.enqueue (laneOptions (world.journal.number worker lanes)) (oneDelete world.journal.last) =
      Lane.alone (firstPiece (laneOptions (world.journal.number worker lanes)) (oneDelete world.journal.last)) := by
    rw [Lane.enqueue_eq (fresh_enqueue room)]
    rfl
  have step := reachable.step (.enqueue sync worker lanes (by simp [oneDelete]) (by simp [oneDelete]) small built
    opened took ok)
  rw [← lane]
  exact step

theorem length_oneLogged (number last : Nat) (sync : CommitSync) :
    (oneLogged number last sync).piece.bytes.length = 80 := by
  have length := Sound.length_piece (laneOptions number) fresh.state (oneDelete last)
  rwa [oneDelete_len] at length

theorem synced_settle (options : Options) (last : Nat) :
    (Lane.synced (firstPiece options (oneDelete last))).state.settle 80 .full = .returns (.ok 80) := by
  simp [State.settle, State.wait, State.check, State.reached, Lane.synced, firstPiece, oneDelete_len]

/-- Its committer leads the lane, takes the block to the disk, and has the lane settled. -/
theorem Reachable.sync (reachable : Reachable allowed cut auto world)
    {after : Option Nat} (queued : world.journal.lanes number =
      some (Lane.alone (firstPiece (laneOptions number) (oneDelete last))))
    (waits : ⟨number, 80, .full, ts, after⟩ ∈ world.waiting) :
    Reachable allowed cut auto { world with
      journal := { world.journal with
        lanes := Function.update world.journal.lanes number
          (some (Lane.synced (firstPiece (laneOptions number) (oneDelete last))))
        cut := world.journal.cut.reached ts }
      waiting := world.waiting.erase ⟨number, 80, .full, ts, after⟩
      settled := if after = none then world.settled else world.settled ++ [⟨number, 80, .full, ts, after⟩]
      acknowledged :=
        if after = none then world.acknowledged ++ [⟨number, 80, .full, ts, after⟩] else world.acknowledged } := by
  have some_ : 0 < (firstPiece (laneOptions number) (oneDelete last)).end_ := by
    simp only [firstPiece, oneDelete_len]
    omega
  have ran := reachable.run queued (by simp) (Lane.alone_synced (laneOptions number) some_)
  refine .step ran (@Step.settles allowed _ ⟨number, 80, .full, ts, after⟩ _ 80 ?_ (update_self ..)
    (synced_settle ..))
  exact waits

/-- Two commits in two lanes, both under a full sync. The later one's lane is synced first, and its
`wait` waits for the other. -/
theorem acknowledged_commit_survives_two : ∃ world kept, Reachable Careful 0 1 world ∧ world.Crash kept ∧
      world.acknowledged = [{ lane := 0, end_ := 80, sync := .full, ts := 1, after := none },
        { lane := 1, end_ := 80, sync := .full, ts := 2, after := some 1 }] ∧
      (world.recovered kept).changes = [(.delete, [7, 9]), (.delete, [7, 9])] := by
  have start : Reachable Careful 0 1 _ := .start (by decide)
  have first := start.commit .full 0 (some 2) (rfl : _ = 0) rfl (by decide) (by simp [Careful])
  have second := first.commit .full 1 (some 2) (rfl : _ = 1) rfl (by decide) fun entry member _ _ =>
    .inr ⟨congrArg Logged.sync (mem_singleton.mp member), one_ne_zero⟩
  have later := second.sync (update_self ..) (mem_cons_of_mem _ (mem_singleton_self _))
  have settled := later.sync (by rfl) (mem_singleton_self (⟨0, 80, .full, 1, none⟩ : Pending))
  obtain ⟨world, done, log, file, acknowledged⟩ : ∃ world, Reachable Careful 0 1 world ∧
      world.log = [oneLogged 0 0 .full, oneLogged 1 1 .full] ∧ world.file = { durable := 0 } ∧
      world.acknowledged = [{ lane := 0, end_ := 80, sync := .full, ts := 1, after := none },
        { lane := 1, end_ := 80, sync := .full, ts := 2, after := some 1 }] :=
    ⟨_, settled.step (.reaches (mem_singleton_self _) rfl rfl), rfl, rfl, rfl⟩
  have crash : world.Crash fun _ _ => 80 := by
    intro entry member lane _ _ _
    rw [log] at member
    rcases mem_pair.mp member with rfl | rfl <;>
    · rw [length_oneLogged]
      exact le_refl _
  obtain ⟨count, result, survives⟩ := acknowledged_commit_survives done crash
  have above : world.above = [oneLogged 0 0 .full, oneLogged 1 1 .full] := by
    simp [above, commits, log, file, oneLogged]
  refine ⟨world, _, done, crash, acknowledged, ?_⟩
  obtain old | ⟨entry, member, stamp⟩ := survives _ (acknowledged ▸ mem_cons_of_mem _ (mem_singleton_self _)) rfl
  · simp [file] at old
  rcases count with _ | _ | count
  · simp at member
  · rw [above] at member
    cases mem_singleton.mp member
    cases stamp
  · rw [result, above]
    simp [changes, oneLogged, oneDelete]

/-- A commit with no sync goes to one lane, the next to another under a full sync. Its `wait`
returns once its own lane is synced, since the cut stands past the first one already, and a crash
that takes the first takes both. -/
theorem acknowledged_commit_lost : ∃ world kept, Reachable (fun _ _ => True) 0 1 world ∧ world.Crash kept ∧
      world.acknowledged = [{ lane := 1, end_ := 80, sync := .full, ts := 2, after := some 1 }] ∧
      world.file.durable = 0 ∧ (world.recovered kept).changes = [] := by
  have start : Reachable (fun _ _ => True) 0 1 _ := .start (by decide)
  have first := start.commit .none 0 (some 2) (rfl : _ = 0) rfl (by decide) trivial
  have second := first.commit .full 1 (some 2) (rfl : _ = 1) rfl (by decide) trivial
  have settled := second.sync (update_self ..) (mem_singleton_self _)
  obtain ⟨world, done, log, lane, file, acknowledged⟩ : ∃ world, Reachable (fun _ _ => True) 0 1 world ∧
      world.log = [oneLogged 0 0 .none, oneLogged 1 1 .full] ∧
      world.journal.lanes 0 = some (Lane.alone (firstPiece (laneOptions 0) (oneDelete 0))) ∧
      world.file = { durable := 0 } ∧
      world.acknowledged = [{ lane := 1, end_ := 80, sync := .full, ts := 2, after := some 1 }] :=
    ⟨_, settled.step (.reaches (mem_singleton_self _) rfl rfl), rfl, rfl, rfl, rfl⟩
  have above : world.above = [oneLogged 0 0 .none, oneLogged 1 1 .full] := by
    simp [above, commits, log, file, oneLogged]
  refine ⟨world, fun number _ => if number = 0 then 0 else 80, done, fun entry member found opened covered _ => ?_,
    acknowledged, by rw [file], ?_⟩
  · rw [log] at member
    rcases mem_pair.mp member with rfl | rfl
    · -- nothing was asked of the first commit's lane
      cases opened.symm.trans lane
      obtain ⟨before, offset, parts, after, calls, -⟩ := covered
      simp [Lane.alone] at calls
    · rfl
  obtain ⟨count, result, whole, -⟩ := (recorded_of_reachable done).recovered_front fun number _ =>
    if number = 0 then 0 else 80
  cases count with
  | zero => simpa using result
  | succ count =>
    have kept := whole (oneLogged 0 0 .none) (by simp [above])
    rw [Whole, length_oneLogged] at kept
    simp [oneLogged, firstPiece] at kept

end World
end Rudb.Txn
