import Mathlib.Data.List.TakeWhile
import Rudb.Txn.Lane

/-! A lane acknowledges only what is on the disk, whatever its committers do in whatever order
and wherever the disk fails. -/
namespace Rudb.Txn
open List Option

/-- Where a lane's next block goes, and the position it starts at. -/
structure Tail where
  sequence : Nat
  offset : Nat
  at_ : Nat

/-- A piece starts where the one before it ends, or at the head of the next segment. -/
def Tail.Starts (tail : Tail) (piece : Piece) : Prop :=
  piece.sequence = tail.sequence ∧ piece.offset = tail.offset ∨
    piece.sequence = tail.sequence + 1 ∧ piece.offset = segmentHeader

def Piece.tail (piece : Piece) : Tail :=
  ⟨piece.sequence, piece.offset + piece.bytes.length, piece.end_⟩

/-- Pieces laid one after another in segments of `size` bytes. -/
inductive Laid (size : Nat) : Tail → List Piece → Tail → Prop where
  | nil {tail : Tail} : Laid size tail [] tail
  | cons {tail last : Tail} {piece : Piece} {rest : List Piece} (starts : tail.Starts piece)
      (end_ : piece.end_ = tail.at_ + piece.bytes.length)
      (fits : piece.offset + piece.bytes.length ≤ size) (laid : Laid size piece.tail rest last) :
      Laid size tail (piece :: rest) last

def span (pieces : List Piece) : Nat := (pieces.map (·.bytes.length)).sum

@[simp] theorem span_nil : span [] = 0 := rfl

@[simp] theorem span_cons (piece : Piece) (rest : List Piece) :
    span (piece :: rest) = piece.bytes.length + span rest := by
  simp [span]

@[simp] theorem span_append (front back : List Piece) : span (front ++ back) = span front + span back := by
  simp [span]

/-- Pieces whose bytes follow on one another from `at_`. -/
def Contiguous : Nat → List Piece → Prop
  | _, [] => True
  | at_, piece :: rest => piece.offset = at_ ∧ Contiguous (at_ + piece.bytes.length) rest

namespace Laid
variable {size : Nat} {tail last : Tail} {pieces : List Piece}

theorem at_eq (laid : Laid size tail pieces last) : last.at_ = tail.at_ + span pieces := by
  induction laid with
  | nil => rfl
  | cons _ end_ _ _ ih =>
    simp only [Piece.tail] at ih
    simp only [span_cons]
    omega

theorem split (laid : Laid size tail (front ++ back) last) :
    ∃ middle, Laid size tail front middle ∧ Laid size middle back last := by
  induction front generalizing tail with
  | nil => exact ⟨tail, .nil, laid⟩
  | cons piece rest ih =>
    cases laid with
    | cons starts end_ fits laid =>
      obtain ⟨middle, before, after⟩ := ih laid
      exact ⟨middle, .cons starts end_ fits before, after⟩

section
variable (laid : Laid size tail pieces last)
include laid

theorem snoc (starts : last.Starts piece)
    (end_ : piece.end_ = last.at_ + piece.bytes.length) (fits : piece.offset + piece.bytes.length ≤ size) :
    Laid size tail (pieces ++ [piece]) piece.tail := by
  induction laid with
  | nil => exact .cons starts end_ fits .nil
  | cons first at_ inside _ ih => exact .cons first at_ inside (ih starts end_)

theorem inside (member : piece ∈ pieces) : piece.offset + piece.bytes.length ≤ size := by
  induction laid with
  | nil => cases member
  | cons _ _ fits _ ih =>
    rcases mem_cons.mp member with rfl | later
    · exact fits
    · exact ih later

theorem sequence_le (member : piece ∈ pieces) : tail.sequence ≤ piece.sequence := by
  induction laid with
  | nil => cases member
  | cons starts _ _ _ ih =>
    simp only [Piece.tail] at ih
    rcases mem_cons.mp member with rfl | later
    · rcases starts with ⟨same, _⟩ | ⟨next, _⟩ <;> omega
    · have := ih later
      rcases starts with ⟨same, _⟩ | ⟨next, _⟩ <;> omega

theorem sequence_mono : tail.sequence ≤ last.sequence := by
  induction laid with
  | nil => exact le_rfl
  | cons starts _ _ _ ih =>
    simp only [Piece.tail] at ih
    rcases starts with ⟨same, _⟩ | ⟨next, _⟩ <;> omega

theorem starts_after (member : piece ∈ pieces) : tail.at_ + piece.bytes.length ≤ piece.end_ := by
  induction laid with
  | nil => cases member
  | cons _ end_ _ _ ih =>
    simp only [Piece.tail] at ih
    rcases mem_cons.mp member with rfl | later
    · omega
    · have := ih later
      omega

/-- The pieces of one segment follow on one another: from where the tail is when it is in that
segment, and from the header in the segments after it. -/
theorem contiguous (sequence : Nat) (after : tail.sequence ≤ sequence) :
    Contiguous (if tail.sequence = sequence then tail.offset else segmentHeader)
      (pieces.filter (·.sequence == sequence)) := by
  induction laid with
  | nil => trivial
  | @cons tail last piece rest starts _ _ laid ih =>
    simp only [Piece.tail] at ih
    by_cases here : piece.sequence = sequence
    · have own := ih (by omega)
      simp only [here, if_true] at own
      rw [filter_cons_of_pos (by simpa using here)]
      rcases starts with ⟨same, offset⟩ | ⟨next, offset⟩
      · rw [if_pos (by omega), ← offset]
        exact ⟨rfl, own⟩
      · rw [if_neg (by omega), ← offset]
        exact ⟨rfl, own⟩
    rw [filter_cons_of_neg (by simpa using here)]
    by_cases later : piece.sequence ≤ sequence
    · have rest := ih later
      simp only [here, if_false] at rest
      rcases starts with ⟨same, _⟩ | ⟨next, _⟩ <;> rw [if_neg (by omega)] <;> exact rest
    -- the pieces after it are in later segments
    rw [filter_eq_nil_iff.mpr]
    · trivial
    intro other member
    have := laid.sequence_le member
    simp only [Piece.tail] at this
    simp only [beq_iff_eq]
    omega

/-- Pieces of the tail's own segment follow on from its offset. -/
theorem run (same : ∀ piece ∈ pieces, piece.sequence = tail.sequence) : Contiguous tail.offset pieces := by
  have run := laid.contiguous tail.sequence le_rfl
  rwa [if_pos rfl, filter_eq_self.mpr fun piece member => by simpa using same piece member] at run

end

end Laid

abbrev Log := List (Op × Bool)

def succeed (ops : List Op) : Log := ops.map (·, true)

/-- A write of `parts` at `offset` puts a piece's bytes at its own place. -/
def Placed (offset : Nat) (parts : List (List UInt8)) (piece : Piece) : Prop :=
  ∃ front back, parts.flatten = front ++ (piece.bytes ++ back) ∧ offset + front.length = piece.offset

def Landed (log : Log) (piece : Piece) : Prop :=
  ∃ before offset parts after, log = before ++ (.write piece.sequence offset parts, true) :: after ∧
    Placed offset parts piece

/-- A piece was written at its place, and its segment synced after that. -/
def Covered (log : Log) (piece : Piece) : Prop :=
  ∃ before offset parts after, log = before ++ (.write piece.sequence offset parts, true) :: after ∧
    Placed offset parts piece ∧ (.sync piece.sequence, true) ∈ after

/-- A segment was written to, or may have been, and not synced since. -/
def Unsynced (log : Log) (sequence : Nat) : Prop :=
  ∃ before offset parts ok after, log = before ++ (.write sequence offset parts, ok) :: after ∧
    (.sync sequence, true) ∉ after

/-- Nothing is written to a segment while another one is not synced. -/
def InTurn (log : Log) : Prop :=
  ∀ before sequence offset parts ok after, log = before ++ (.write sequence offset parts, ok) :: after →
    ∀ other, Unsynced before other → other = sequence

/-- The open segment is the only one not synced, and dirty when it is not. -/
def Settled (log : Log) (open_ : Open) : Prop :=
  ∀ sequence, Unsynced log sequence → sequence = open_.sequence ∧ open_.dirty = true

section Logs
variable {log : Log} {op : Op} {sequence : Nat}

theorem Landed.append (landed : Landed log piece) (more : Log) : Landed (log ++ more) piece := by
  obtain ⟨before, offset, parts, after, rfl, placed⟩ := landed
  exact ⟨before, offset, parts, after ++ more, by simp, placed⟩

theorem Covered.append (covered : Covered log piece) (more : Log) : Covered (log ++ more) piece := by
  obtain ⟨before, offset, parts, after, rfl, placed, synced⟩ := covered
  exact ⟨before, offset, parts, after ++ more, by simp, placed, by simp [synced]⟩

theorem Landed.covered (landed : Landed log piece) (synced : ¬Unsynced log piece.sequence) : Covered log piece := by
  obtain ⟨before, offset, parts, after, rfl, placed⟩ := landed
  refine ⟨before, offset, parts, after, rfl, placed, ?_⟩
  by_contra missing
  exact synced ⟨before, offset, parts, true, after, rfl, missing⟩

theorem write_of_snoc {after : Log}
    (split : log ++ [entry] = before ++ (.write sequence offset parts, ok) :: after) :
    (after = [] ∧ before = log ∧ entry = (.write sequence offset parts, ok)) ∨
      ∃ rest, after = rest ++ [entry] ∧ log = before ++ (.write sequence offset parts, ok) :: rest := by
  rcases eq_nil_or_concat after with rfl | ⟨rest, last, rfl⟩
  · obtain ⟨rfl, same⟩ := append_inj' split rfl
    exact .inl ⟨rfl, rfl, by simpa using same⟩
  rw [concat_eq_append] at split ⊢
  rw [← cons_append, ← append_assoc] at split
  obtain ⟨rfl, same⟩ := append_inj' split rfl
  exact .inr ⟨rest, by simpa using same.symm, rfl⟩

theorem Unsynced.of_snoc (unsynced : Unsynced (log ++ [entry]) sequence) :
    (∃ offset parts ok, entry = (.write sequence offset parts, ok)) ∨
      Unsynced log sequence ∧ entry ≠ (.sync sequence, true) := by
  obtain ⟨before, offset, parts, ok, after, split, missing⟩ := unsynced
  rcases write_of_snoc split with ⟨_, _, written⟩ | ⟨rest, rfl, earlier⟩
  · exact .inl ⟨offset, parts, ok, written⟩
  · simp only [mem_append, mem_singleton, not_or] at missing
    exact .inr ⟨⟨before, offset, parts, ok, rest, earlier, missing.1⟩, Ne.symm missing.2⟩

/-- One more call keeps the order when it is no write to a second segment. -/
theorem InTurn.snoc (turn : InTurn log) (only : ∀ sequence offset parts ok, entry = (.write sequence offset parts, ok) →
      ∀ other, Unsynced log other → other = sequence) : InTurn (log ++ [entry]) := by
  intro before sequence offset parts ok after split other unsynced
  rcases write_of_snoc split with ⟨_, rfl, written⟩ | ⟨rest, _, earlier⟩
  · exact only sequence offset parts ok written other unsynced
  · exact turn before sequence offset parts ok rest earlier other unsynced

theorem InTurn.of_append (turn : InTurn (log ++ more)) : InTurn log := by
  intro before sequence offset parts ok after split
  exact turn before sequence offset parts ok (after ++ more) (by simp [split])

/-- A call that fails keeps the order that its success would have kept. -/
theorem InTurn.fail (turn : InTurn (log ++ [(op, true)])) : InTurn (log ++ [(op, false)]) := by
  refine turn.of_append.snoc fun sequence offset parts ok written => ?_
  cases written
  exact turn log sequence offset parts true [] rfl

theorem Settled.write (settled : ∀ other, Unsynced log other → other = sequence) :
    Settled (log ++ [(.write sequence offset parts, true)]) { sequence, dirty := true } := by
  intro other unsynced
  rcases unsynced.of_snoc with ⟨_, _, _, written⟩ | ⟨earlier, _⟩
  · cases written
    exact ⟨rfl, rfl⟩
  · exact ⟨settled other earlier, rfl⟩

theorem Settled.sync (settled : Settled log open_) : ¬Unsynced (log ++ [(.sync open_.sequence, true)]) sequence := by
  intro unsynced
  rcases unsynced.of_snoc with ⟨_, _, _, written⟩ | ⟨earlier, other⟩
  · cases written
  · exact other (by rw [(settled sequence earlier).1])

/-- A call that writes nothing leaves no more unsynced than there was. -/
theorem Unsynced.before (unsynced : Unsynced (log ++ [entry]) sequence)
    (quiet : ∀ sequence offset parts, entry.1 ≠ .write sequence offset parts) : Unsynced log sequence := by
  rcases unsynced.of_snoc with ⟨offset, parts, ok, written⟩ | ⟨earlier, _⟩
  · exact absurd (congrArg Prod.fst written) (quiet _ _ _)
  · exact earlier

theorem InTurn.quiet (turn : InTurn log)
    (quiet : ∀ sequence offset parts, entry.1 ≠ .write sequence offset parts) : InTurn (log ++ [entry]) :=
  turn.snoc fun _ _ _ _ written => absurd (congrArg Prod.fst written) (quiet _ _ _)

end Logs

variable {pieces : List Piece} {piece : Piece}

/-- One write of pieces that follow on one another puts each at its place. -/
theorem Contiguous.placed (contiguous : Contiguous at_ pieces)
    (member : piece ∈ pieces) : Placed at_ (pieces.map (·.bytes)) piece := by
  induction pieces generalizing at_ with
  | nil => cases member
  | cons first rest ih =>
    rcases mem_cons.mp member with rfl | later
    · exact ⟨[], (rest.map (·.bytes)).flatten, by simp, by simp [contiguous.1]⟩
    · obtain ⟨front, back, bytes, start⟩ := ih contiguous.2 later
      exact ⟨first.bytes ++ front, back, by simp [bytes], by simp only [length_append]; omega⟩

theorem Laid.getLast_end {tail : Tail} (laid : Laid size tail pieces last)
    (some_ : pieces ≠ []) : (pieces.getLast some_).end_ = last.at_ := by
  induction laid with
  | nil => contradiction
  | @cons _ _ piece rest _ _ _ laid ih =>
    cases rest with
    | nil =>
      cases laid
      rfl
    | cons next later => rw [getLast_cons (cons_ne_nil next later), ih]

section Leading
variable {log : Log} {open_ : Open} {size sequence : Nat} {tail last : Tail} {pieces : List Piece}

theorem succeed_append (ops more : List Op) : succeed (ops ++ more) = succeed ops ++ succeed more :=
  map_append

/-- A sync of the open segment when it is dirty leaves nothing unsynced. -/
theorem Settled.clean (settled : Settled log open_) :
    ¬Unsynced (log ++ succeed (if open_.dirty then [.sync open_.sequence] else [])) sequence := by
  cases dirty : open_.dirty with
  | true => exact settled.sync
  | false =>
    simp only [succeed, Bool.false_eq_true, if_false, map_nil, append_nil]
    exact fun unsynced => Bool.false_ne_true (dirty.symm.trans (settled sequence unsynced).2)

theorem InTurn.quiet_if (turn : InTurn log) (dirty : Bool)
    (quiet : ∀ sequence offset parts, op ≠ .write sequence offset parts) :
    InTurn (log ++ succeed (if dirty then [op] else [])) := by
  cases dirty with
  | true => exact turn.quiet quiet
  | false => simpa [succeed] using turn

/-- What the switch to a segment leaves behind it. -/
structure Switched (log after : Log) (open_ : Open) (sequence : Nat) : Prop where
  turn : InTurn after
  only : ∀ other, Unsynced after other → other = sequence
  synced : sequence ≠ open_.sequence → ∀ other, ¬Unsynced after other

theorem switched (turn : InTurn log) (settled : Settled log open_) (sequence : Nat) :
    Switched log (log ++ succeed (switch open_ sequence)) open_ sequence := by
  by_cases here : sequence = open_.sequence
  · rw [switch, if_pos here]
    simp only [succeed, map_nil, append_nil]
    exact ⟨turn, fun other unsynced => (settled other unsynced).1.trans here.symm, fun away => absurd here away⟩
  have clean : ∀ other, ¬Unsynced (log ++ succeed (switch open_ sequence)) other := by
    intro other unsynced
    rw [switch, if_neg here, succeed_append, ← append_assoc] at unsynced
    exact settled.clean (unsynced.before fun _ _ _ call => by cases call)
  refine ⟨?_, fun other unsynced => absurd unsynced (clean other), fun _ => clean⟩
  rw [switch, if_neg here, succeed_append, ← append_assoc]
  exact (turn.quiet_if _ fun _ _ _ call => by cases call).quiet fun _ _ _ call => by cases call

/-- What a leader's loop over pieces from position `start` comes to when all its calls succeed. -/
structure Runs (log : Log) (start : Nat) (synced : Option Nat) (pieces : List Piece) (end_ : Nat)
    (turn : Turn) : Prop where
  inTurn : InTurn (log ++ succeed turn.ops)
  settled : Settled (log ++ succeed turn.ops) turn.open_
  landed : ∀ piece ∈ pieces, Landed (log ++ succeed turn.ops) piece
  written : turn.led.written = end_
  ordered : turn.led.ordered = none
  whole : turn.broke = false
  durable : ∀ position, turn.led.durable = some position → synced = some position ∨
    ∃ front back, pieces = front ++ back ∧ position = start + span front ∧
      ∀ piece, Landed log piece ∨ piece ∈ front → Covered (log ++ succeed turn.ops) piece

/-- The write of a run of pieces. -/
abbrev Piece.wrote (first : Piece) (run : List Piece) : Op :=
  .write first.sequence first.offset ((first :: run).map (·.bytes))

/-- The first run of laid pieces: what one write of it puts at its place. -/
theorem Laid.landed_run {run : List Piece}
    (laid : Laid size tail (first :: run) middle) (same : ∀ piece ∈ run, piece.sequence = first.sequence)
    (member : piece ∈ first :: run) (log : Log) :
    Landed (log ++ [(first.wrote run, true)]) piece := by
  cases laid with
  | cons _ _ _ laid =>
    have contiguous : Contiguous first.offset (first :: run) := ⟨rfl, laid.run same⟩
    have sequence : piece.sequence = first.sequence := by
      rcases mem_cons.mp member with rfl | later
      · rfl
      · exact same piece later
    exact ⟨log, first.offset, _, [], by rw [sequence], contiguous.placed member⟩

theorem Runs.cons {first : Piece} {run later : List Piece} {middle : Tail} {synced : Option Nat} {turn : Turn}
    (laid : Laid size tail (first :: run) middle) (same : ∀ piece ∈ run, piece.sequence = first.sequence)
    (switched : Switched log (log ++ succeed (switch open_ first.sequence)) open_ first.sequence)
    (runs : Runs (log ++ succeed (switch open_ first.sequence) ++ [(first.wrote run, true)])
      middle.at_ (if first.sequence = open_.sequence then synced else some tail.at_) later last.at_ turn) :
    Runs log tail.at_ synced (first :: run ++ later) last.at_ { turn with
      ops := switch open_ first.sequence ++ first.wrote run :: turn.ops } := by
  have calls : log ++ succeed (switch open_ first.sequence ++ first.wrote run :: turn.ops) =
      log ++ succeed (switch open_ first.sequence) ++ [(first.wrote run, true)] ++ succeed turn.ops := by
    simp [succeed]
  refine ⟨?_, ?_, ?_, runs.written, runs.ordered, runs.whole, ?_⟩ <;> simp only [calls]
  · exact runs.inTurn
  · exact runs.settled
  · intro piece member
    rcases mem_append.mp member with here | there
    · exact (laid.landed_run same here _).append _
    · exact runs.landed piece there
  intro position at_
  rcases runs.durable position at_ with known | ⟨front, back, parts, end_, covered⟩
  · by_cases here : first.sequence = open_.sequence
    · exact .inl (by rwa [if_pos here] at known)
    -- the switch synced everything before it
    rw [if_neg here, some.injEq] at known
    refine .inr ⟨[], _, rfl, by simp [known], fun piece landed => ?_⟩
    rcases landed with landed | none
    · have landed := (landed.append (succeed (switch open_ first.sequence))).covered
        (switched.synced here piece.sequence)
      exact (landed.append _).append _
    · cases none
  · refine .inr ⟨first :: run ++ front, back, by simp [parts], ?_, fun piece landed => covered piece ?_⟩
    · rw [end_, laid.at_eq, span_append, add_assoc]
    rcases landed with landed | member
    · exact .inl ((landed.append _).append _)
    · rcases mem_append.mp member with here | there
      · exact .inl (laid.landed_run same here _)
      · exact .inr there

theorem leadRuns_runs (laid : Laid size tail pieces last) (turn : InTurn log) (settled : Settled log open_)
    (synced : Option Nat) : Runs log tail.at_ synced pieces last.at_ (leadRuns open_ tail.at_ synced pieces) := by
  induction length : pieces.length using Nat.strong_induction_on generalizing log open_ tail synced pieces with
  | _ count ih =>
    cases pieces with
    | nil =>
      cases laid
      rw [leadRuns]
      refine ⟨?_, ?_, by simp, rfl, rfl, rfl, fun position at_ => .inl at_⟩ <;> simpa [succeed]
    | cons first rest =>
      have split : first :: rest = (first :: rest.takeWhile (·.sequence == first.sequence)) ++
          rest.dropWhile (·.sequence == first.sequence) := by
        rw [cons_append, takeWhile_append_dropWhile]
      have same : ∀ piece ∈ rest.takeWhile (·.sequence == first.sequence), piece.sequence = first.sequence :=
        fun piece member => by simpa using mem_takeWhile_imp member
      have shorter := (dropWhile_suffix (l := rest) (·.sequence == first.sequence)).length_le
      obtain ⟨middle, run, later⟩ := (split ▸ laid).split
      have switched := switched turn settled first.sequence
      rw [leadRuns, run.getLast_end]
      refine split ▸ Runs.cons run same switched (ih _ ?_ later ?_ ?_ _ rfl)
      · rw [← length, length_cons]
        omega
      · refine switched.turn.snoc fun sequence offset parts ok written => ?_
        cases written
        exact switched.only
      · exact Settled.write switched.only

end Leading

/-- A position is the end of a front of the blocks, each of which has a property. -/
def Reaches (blocks : List Piece) (position : Nat) (has : Piece → Prop) : Prop :=
  ∃ front back, blocks = front ++ back ∧ position = span front ∧ ∀ piece ∈ front, has piece

namespace Reaches
variable {blocks : List Piece} {position : Nat} {has : Piece → Prop}

theorem zero (blocks : List Piece) (has : Piece → Prop) : Reaches blocks 0 has :=
  ⟨[], blocks, rfl, rfl, by simp⟩

section
variable (reaches : Reaches blocks position has)
include reaches

theorem append (more : List Piece) : Reaches (blocks ++ more) position has := by
  obtain ⟨front, back, rfl, end_, all⟩ := reaches
  exact ⟨front, back ++ more, by simp, end_, all⟩

theorem imp (weaker : ∀ piece, has piece → has' piece) : Reaches blocks position has' := by
  obtain ⟨front, back, parts, end_, all⟩ := reaches
  exact ⟨front, back, parts, end_, fun piece member => weaker piece (all piece member)⟩

theorem max (too : Reaches blocks other has) : Reaches blocks (max position other) has := by
  rcases le_total position other with le | le
  · rwa [max_eq_right le]
  · rwa [max_eq_left le]

theorem max_getD (too : ∀ other, led = some other → Reaches blocks other has) :
    Reaches blocks (Nat.max position (led.getD 0)) has := by
  cases led with
  | none => exact reaches.max (zero blocks has)
  | some other => exact reaches.max (too other rfl)

theorem le_span : position ≤ span blocks := by
  obtain ⟨front, back, rfl, rfl, _⟩ := reaches
  simp

end

end Reaches

/-- What a leader's turn comes to if the rest of it succeeds, with `pending` queued since. -/
structure Promise (log : Log) (blocks pending : List Piece) (turn : Turn) : Prop where
  inTurn : InTurn (log ++ succeed turn.ops)
  settled : Settled (log ++ succeed turn.ops) turn.open_
  written : ∃ front, blocks = front ++ pending ∧ turn.led.written = span front ∧
    ∀ piece ∈ front, Landed (log ++ succeed turn.ops) piece
  durable : ∀ position, turn.led.durable = some position →
    Reaches blocks position (Covered (log ++ succeed turn.ops))
  ordered : ∀ position, turn.led.ordered = some position →
    Reaches blocks position (Landed (log ++ succeed turn.ops))

/-- A lane that nobody is flushing: what is not written is queued, and the open segment is the
only one not synced. -/
structure Idle (log : Log) (blocks : List Piece) (state : State) (open_ : Open) : Prop where
  opened : state.open_ = some open_
  settled : Settled log open_
  written : ∃ front, blocks = front ++ state.pending ∧ state.written = span front ∧
    ∀ piece ∈ front, Landed log piece

section Lead
variable {log : Log}

/-- The loop of a leader that found the lane idle. -/
theorem Idle.runs (idle : Idle log blocks state open_) (laid : Laid size first blocks last)
    (zero : first.at_ = 0) (turn : InTurn log) :
    Promise log blocks [] (leadRuns open_ state.written none state.pending) := by
  obtain ⟨front, parts, written, landed⟩ := idle.written
  obtain ⟨middle, before, after⟩ := (parts ▸ laid).split
  have here : middle.at_ = state.written := by
    rw [before.at_eq, zero, written, zero_add]
  have runs := leadRuns_runs after turn idle.settled none
  rw [here] at runs
  have all : ∀ piece ∈ blocks, Landed (log ++ succeed (leadRuns open_ state.written none state.pending).ops) piece := by
    intro piece member
    rcases mem_append.mp (parts ▸ member) with old | new
    · exact (landed piece old).append _
    · exact runs.landed piece new
  refine ⟨runs.inTurn, runs.settled, ⟨blocks, by simp, ?_, all⟩, fun position at_ => ?_, fun position at_ => ?_⟩
  · rw [runs.written, laid.at_eq, zero, zero_add]
  · rcases runs.durable position at_ with known | ⟨synced, rest, split, end_, covered⟩
    · cases known
    refine ⟨front ++ synced, rest, by simp [parts, split], by simp [end_, written], fun piece member => ?_⟩
    refine covered piece ?_
    rcases mem_append.mp member with old | new
    · exact .inl (landed piece old)
    · exact .inr new
  · rw [runs.ordered] at at_
    cases at_

/-- The sync or barrier at the end of a turn. -/
theorem Promise.settle (promise : Promise log blocks [] turn) (reach : Reach) :
    Promise log blocks [] (turn.settle reach) := by
  obtain ⟨front, parts, written, landed⟩ := promise.written
  rw [append_nil] at parts
  subst parts
  have more : ∀ ops, log ++ succeed (turn.ops ++ ops) = log ++ succeed turn.ops ++ succeed ops := by
    simp [succeed]
  have all (ops : Log) : ∀ piece ∈ blocks, Landed (log ++ succeed turn.ops ++ ops) piece :=
    fun piece member => (landed piece member).append _
  cases reach with
  | written => exact promise
  | ordered =>
    refine ⟨?_, ?_, ⟨blocks, by simp, written, ?_⟩, fun position at_ => ?_, fun position at_ => ?_⟩ <;>
      simp only [Turn.settle, more]
    · exact promise.inTurn.quiet_if _ fun _ _ _ call => by cases call
    · cases dirty : turn.open_.dirty with
      | true =>
        intro sequence unsynced
        exact promise.settled sequence (unsynced.before fun _ _ _ call => by cases call)
      | false => simpa [succeed] using promise.settled
    · exact all _
    · exact (promise.durable position at_).imp fun piece covered => covered.append _
    · cases at_
      exact ⟨blocks, [], by simp, written, all _⟩
  | durable =>
    refine ⟨?_, ?_, ⟨blocks, by simp, written, ?_⟩, fun position at_ => ?_, fun position at_ => ?_⟩ <;>
      simp only [Turn.settle, more]
    · exact promise.inTurn.quiet_if _ fun _ _ _ call => by cases call
    · exact fun sequence unsynced => absurd unsynced promise.settled.clean
    · exact all _
    · cases at_
      exact ⟨blocks, [], by simp, written, fun piece member => (all _ piece member).covered promise.settled.clean⟩
    · exact (promise.ordered position at_).imp fun piece landed => landed.append _

end Lead

def State.tail (state : State) : Tail := ⟨state.tailSequence, state.tailOffset, state.reserved⟩

/-- What holds of a lane in every state its committers can reach. -/
structure Sound (options : Options) (lane : Lane) : Prop where
  room : segmentHeader ≤ options.segmentBytes
  laid : ∃ first : Tail, first.offset = segmentHeader ∧ first.at_ = 0 ∧
    Laid options.segmentBytes first lane.blocks lane.state.tail
  inTurn : InTurn lane.io
  written : Reaches lane.blocks lane.state.written (Landed lane.io)
  ordered : Reaches lane.blocks lane.state.ordered (Landed lane.io)
  durable : Reaches lane.blocks lane.state.durable (Covered lane.io)
  idle : lane.turn = none → lane.state.flushing = false ∧
    (lane.state.failed = true ∨ ∃ open_, Idle lane.io lane.blocks lane.state open_)
  busy : ∀ turn, lane.turn = some turn → lane.state.flushing = true ∧
    (turn.broke = false → lane.state.written ≤ turn.led.written ∧
      Promise lane.io lane.blocks lane.state.pending turn)

namespace Sound
variable {options : Options} {lane after : Lane}

theorem start {sequence : Nat} {state : State} (opened : State.open options sequence = .ok state) :
    Sound options { state } := by
  unfold State.open at opened
  split at opened
  · cases opened
  cases opened
  have none : ∀ sequence, ¬Unsynced [] sequence := by
    rintro sequence ⟨before, _, _, _, _, split, _⟩
    simp at split
  refine ⟨by omega, ⟨⟨sequence, segmentHeader, 0⟩, rfl, rfl, .nil⟩, ?_, .zero _ _, .zero _ _, .zero _ _,
    fun _ => ⟨rfl, .inr ⟨_, rfl, fun other unsynced => absurd unsynced (none other), ?_⟩⟩, fun turn leads => ?_⟩
  · intro before _ _ _ _ _ split
    simp at split
  · exact ⟨[], rfl, rfl, by simp⟩
  · cases leads

theorem enqueue_ok {state after : State} (queued : state.enqueue options block = .ok after) :
    block.len ≤ options.segmentBytes - segmentHeader ∧ state.failed = false ∧
      after = { state with
        tailSequence := (state.piece options block).sequence
        tailOffset := (state.piece options block).offset + block.len
        pending := state.pending ++ [state.piece options block]
        reserved := (state.piece options block).end_ } := by
  unfold State.enqueue State.check at queued
  by_cases long : options.segmentBytes - segmentHeader < block.len
  · simp [long, bind, Except.bind, throw, throwThe, MonadExceptOf.throw] at queued
  cases failed : state.failed with
  | true => simp [long, failed, bind, Except.bind] at queued
  | false =>
    simp only [long, failed, bind, Except.bind, if_false, Bool.false_eq_true, pure, Except.pure,
      Except.ok.injEq] at queued
    exact ⟨by omega, rfl, queued.symm⟩

theorem piece_starts (options : Options) (state : State) (block : Block) :
    state.tail.Starts (state.piece options block) := by
  simp only [Tail.Starts, State.tail, State.piece, State.place]
  split
  · exact .inr ⟨rfl, rfl⟩
  · exact .inl ⟨rfl, rfl⟩

variable {state : State}

theorem length_piece (options : Options) (state : State) (made : Made) :
    (state.piece options made.block).bytes.length = made.block.len :=
  made.holds.length_encode _ _

theorem enqueue (sound : Sound options lane) {made : Made}
    (queued : lane.state.enqueue options made.block = .ok state) :
    Sound options { lane with state, blocks := lane.blocks ++ [lane.state.piece options made.block] } := by
  obtain ⟨small, _, rfl⟩ := enqueue_ok queued
  obtain ⟨first, offset, zero, laid⟩ := sound.laid
  have length := length_piece options lane.state made
  refine ⟨sound.room, ⟨first, offset, zero, ?_⟩, sound.inTurn, sound.written.append _, sound.ordered.append _,
    sound.durable.append _, fun still => ?_, fun turn leads => ?_⟩
  · have next := laid.snoc (piece_starts options lane.state made.block)
      (by rw [length]; rfl) (by
        have room := sound.room
        rw [length]
        simp only [State.piece, State.place]
        split <;> simp only <;> omega)
    rw [Piece.tail, length] at next
    exact next
  · refine ⟨(sound.idle still).1, (sound.idle still).2.imp id ?_⟩
    rintro ⟨open_, idle⟩
    obtain ⟨front, parts, written, landed⟩ := idle.written
    exact ⟨open_, idle.opened, idle.settled, front, by simp [parts], written, landed⟩
  refine ⟨(sound.busy turn leads).1, fun whole => ?_⟩
  obtain ⟨le, promise⟩ := (sound.busy turn leads).2 whole
  obtain ⟨front, parts, written, landed⟩ := promise.written
  exact ⟨le, promise.inTurn, promise.settled, ⟨front, by simp [parts], written, landed⟩,
    fun position at_ => (promise.durable position at_).append _,
    fun position at_ => (promise.ordered position at_).append _⟩

variable {turn : Turn}

theorem wait_leads {after : State}
    (leads : state.wait end_ reach = .leads after turn) :
    state.failed = false ∧ state.flushing = false ∧ ∃ open_, state.open_ = some open_ ∧
      after = { state with open_ := none, flushing := true, pending := [] } ∧
      turn = lead open_ state.pending state.written reach := by
  unfold State.wait State.check at leads
  cases failed : state.failed with
  | true => simp [failed] at leads
  | false =>
    simp only [failed, Bool.false_eq_true, if_false] at leads
    split at leads
    · cases leads
    cases flushing : state.flushing with
    | true => simp [flushing] at leads
    | false =>
      simp only [flushing, Bool.false_eq_true, if_false] at leads
      cases opened : state.open_ with
      | none => simp [opened] at leads
      | some open_ =>
        simp only [opened, Pass.leads.injEq] at leads
        exact ⟨rfl, rfl, open_, rfl, leads.1.symm, leads.2.symm⟩

theorem not_leading (sound : Sound options lane) (quiet : lane.state.flushing = false) : lane.turn = none := by
  cases leads : lane.turn with
  | none => rfl
  | some turn => exact absurd ((sound.busy turn leads).1.symm.trans quiet) (by decide)

theorem look (sound : Sound options lane)
    (leads : lane.state.wait end_ reach = .leads state turn) :
    Sound options { lane with state, turn := some turn } := by
  obtain ⟨fine, quiet, open_, opened, rfl, rfl⟩ := wait_leads leads
  obtain ⟨first, offset, zero, laid⟩ := sound.laid
  rcases (sound.idle (sound.not_leading quiet)).2 with failed | ⟨other, idle⟩
  · exact absurd (failed.symm.trans fine) (by decide)
  have same : other = open_ := some.inj (idle.opened.symm.trans opened)
  subst same
  have promise : Promise _ _ [] (lead _ lane.state.pending lane.state.written reach) :=
    (idle.runs laid zero sound.inTurn).settle reach
  refine { sound with idle := fun still => (by cases still), busy := fun _ same => ?_ }
  cases same
  refine ⟨rfl, fun _ => ⟨?_, promise⟩⟩
  obtain ⟨front, parts, written, _⟩ := promise.written
  rw [written, ← append_nil front, ← parts]
  exact sound.written.le_span

/-- A leader's call to the disk. -/
theorem disk (sound : Sound options lane) (leads : lane.turn = some turn)
    (whole : turn.broke = false) (calls : turn.ops = op :: ops) (ok : Bool) :
    Sound options { lane with turn := some { turn with ops, broke := !ok }, io := lane.io ++ [(op, ok)] } := by
  obtain ⟨busy, promised⟩ := sound.busy turn leads
  obtain ⟨le, promise⟩ := promised whole
  have rest : lane.io ++ succeed turn.ops = lane.io ++ [(op, true)] ++ succeed ops := by
    simp [calls, succeed]
  have inTurn : InTurn (lane.io ++ [(op, true)]) := by
    have := promise.inTurn
    rw [rest] at this
    exact this.of_append
  refine ⟨sound.room, sound.laid, ?_, sound.written.imp fun _ landed => landed.append _,
    sound.ordered.imp fun _ landed => landed.append _, sound.durable.imp fun _ covered => covered.append _,
    fun still => (by cases still), fun _ same => ?_⟩
  · cases ok with
    | true => exact inTurn
    | false => exact inTurn.fail
  cases same
  refine ⟨busy, fun succeeded => ?_⟩
  cases ok with
  | false => cases succeeded
  | true => exact ⟨le, rest ▸ promise.inTurn, rest ▸ promise.settled, rest ▸ promise.written,
      rest ▸ promise.durable, rest ▸ promise.ordered⟩

/-- A leader takes the lock again. -/
theorem finish (sound : Sound options lane) {turn : Turn} (leads : lane.turn = some turn)
    (beyond : turn.broke = true ∨ turn.ops = []) :
    Sound options { lane with state := lane.state.finish turn, turn := none } := by
  obtain ⟨_, promised⟩ := sound.busy turn leads
  cases broke : turn.broke with
  | true =>
    simp only [State.finish, broke, if_true]
    exact { sound with idle := fun _ => ⟨rfl, .inl rfl⟩, busy := fun turn leads => by cases leads }
  | false =>
    obtain ⟨le, promise⟩ := promised broke
    have done : turn.ops = [] := beyond.resolve_left (by simp [broke])
    have log : lane.io ++ succeed turn.ops = lane.io := by simp [done, succeed]
    have settled := promise.settled
    obtain ⟨front, parts, written, landed⟩ := promise.written
    rw [log] at settled
    simp only [log] at landed
    have durable := promise.durable
    have ordered := promise.ordered
    rw [log] at durable ordered
    have reached : Reaches lane.blocks turn.led.written (Landed lane.io) := ⟨front, _, parts, written, landed⟩
    simp only [State.finish, broke, Bool.false_eq_true, if_false]
    exact ⟨sound.room, sound.laid, sound.inTurn, sound.written.max reached, sound.ordered.max_getD ordered,
      sound.durable.max_getD durable,
      fun _ => ⟨rfl, .inr ⟨turn.open_, rfl, settled, front, parts, by simp only; omega, landed⟩⟩,
      fun turn leads => by cases leads⟩

/-- Every move keeps a lane sound. -/
theorem move (sound : Sound options lane) (move : Move) (moved : lane.next options move = some after) :
    Sound options after := by
  cases move with
  | enqueue made =>
    rw [Lane.next, some.injEq, Lane.enqueue] at moved
    subst moved
    cases queued : lane.state.enqueue options made.block with
    | error refused => exact sound
    | ok state => exact sound.enqueue queued
  | look end_ reach =>
    rw [Lane.next, some.injEq, Lane.look] at moved
    subst moved
    cases looked : lane.state.wait end_ reach with
    | returns result | awaits => exact sound
    | leads state turn => exact sound.look looked
  | disk ok =>
    obtain ⟨turn, leads, moved⟩ := bind_eq_some_iff.mp moved
    rw [Lane.disk] at moved
    cases calls : turn.ops with
    | nil => simp [calls] at moved
    | cons op ops =>
      rw [calls, ite_none_left_eq_some, some.injEq] at moved
      exact moved.2 ▸ sound.disk leads (by simpa using moved.1) calls ok
  | finish =>
    obtain ⟨turn, leads, moved⟩ := bind_eq_some_iff.mp moved
    rw [Lane.finish, ite_none_right_eq_some, some.injEq] at moved
    exact moved.2 ▸ sound.finish leads moved.1

theorem of_reachable (reachable : Lane.Reachable options lane) : Sound options lane := by
  induction reachable with
  | start opened => exact .start opened
  | move move _ moved ih => exact ih.move move moved

/-- What `settle` returned for is covered. -/
theorem covered (sound : Sound options lane)
    (settled : lane.state.settle end_ .full = .returns (.ok result)) (member : piece ∈ lane.blocks)
    (before : piece.end_ < end_ + piece.bytes.length) : Covered lane.io piece := by
  have reached : end_ ≤ lane.state.durable := by
    unfold State.settle State.wait State.check at settled
    cases failed : lane.state.failed with
    | true => simp [failed] at settled
    | false =>
      simp only [failed, Bool.false_eq_true, if_false, State.reached] at settled
      split at settled
      · assumption
      · split at settled
        · cases settled
        · split at settled <;> cases settled
  obtain ⟨first, _, zero, laid⟩ := sound.laid
  obtain ⟨front, back, parts, durable, covered⟩ := sound.durable
  obtain ⟨middle, old, new⟩ := (parts ▸ laid).split
  rcases mem_append.mp (parts ▸ member) with done | rest
  · exact covered piece done
  · have past := new.starts_after rest
    rw [old.at_eq, zero] at past
    omega

/-- The pieces of a segment follow on one another from its header. -/
theorem contiguous (sound : Sound options lane) (sequence : Nat) :
    Contiguous segmentHeader (lane.blocks.filter (·.sequence == sequence)) := by
  obtain ⟨first, offset, _, laid⟩ := sound.laid
  by_cases later : first.sequence ≤ sequence
  · have own := laid.contiguous sequence later
    rwa [offset, ite_self] at own
  rw [filter_eq_nil_iff.mpr]
  · trivial
  intro piece member
  have := laid.sequence_le member
  simp only [beq_iff_eq]
  omega

end Sound

theorem Contiguous.disjoint (contiguous : Contiguous at_ pieces) : (∀ piece ∈ pieces, at_ ≤ piece.offset) ∧
      pieces.Pairwise fun one other => one.offset + one.bytes.length ≤ other.offset := by
  induction pieces generalizing at_ with
  | nil => simp
  | cons first rest ih =>
    obtain ⟨start, later⟩ := contiguous
    obtain ⟨after, apart⟩ := ih later
    refine ⟨fun piece member => ?_, pairwise_cons.mpr ⟨fun other member => ?_, apart⟩⟩
    · rcases mem_cons.mp member with rfl | there
      · omega
      · have := after piece there
        omega
    · have := after other member
      omega

/-- Group commit acknowledges only what is on the disk, whatever the committers do and wherever
the disk fails: the positions are ends of fronts of the blocks queued, every block before what a
full settle returned for was written at its place and synced after that, each block lies inside
one segment and those of a segment follow on one another from its header, and no segment is
written to before the others are synced. -/
theorem group_commit_acknowledges_disk {options : Options} {lane : Lane} (reachable : Lane.Reachable options lane) :
    (∀ position ∈ [lane.state.written, lane.state.ordered, lane.state.durable],
        position ≤ lane.state.reserved ∧ ∃ front, front <+: lane.blocks ∧ position = span front) ∧
      (∀ end_ result, lane.state.settle end_ .full = .returns (.ok result) →
        ∀ piece ∈ lane.blocks, piece.end_ < end_ + piece.bytes.length → Covered lane.io piece) ∧
      (∀ piece ∈ lane.blocks, segmentHeader ≤ piece.offset ∧ piece.offset + piece.bytes.length ≤ options.segmentBytes) ∧
      (∀ sequence, Contiguous segmentHeader (lane.blocks.filter (·.sequence == sequence)) ∧
        (lane.blocks.filter (·.sequence == sequence)).Pairwise
          fun one other => one.offset + one.bytes.length ≤ other.offset) ∧ InTurn lane.io := by
  have sound := Sound.of_reachable reachable
  obtain ⟨first, _, zero, laid⟩ := sound.laid
  have total : lane.state.reserved = span lane.blocks := by
    have := laid.at_eq
    rwa [zero, Nat.zero_add] at this
  have contiguous := sound.contiguous
  refine ⟨fun position member => ?_, fun end_ result settled piece member before => ?_, fun piece member => ?_,
    fun sequence => ⟨contiguous sequence, (contiguous sequence).disjoint.2⟩, sound.inTurn⟩
  · have reaches : Reaches lane.blocks position fun _ => True := by
      simp only [mem_cons, not_mem_nil, or_false] at member
      rcases member with rfl | rfl | rfl
      · exact sound.written.imp fun _ _ => trivial
      · exact sound.ordered.imp fun _ _ => trivial
      · exact sound.durable.imp fun _ _ => trivial
    have le := reaches.le_span
    obtain ⟨front, back, parts, end_, _⟩ := reaches
    exact ⟨total ▸ le, front, ⟨back, parts.symm⟩, end_⟩
  · exact sound.covered settled member before
  · exact ⟨(contiguous piece.sequence).disjoint.1 piece (by simpa using member), laid.inside member⟩

/-- A lane just opened that took one block. -/
def Lane.alone (piece : Piece) : Lane where
  state := {
    tailSequence := piece.sequence, tailOffset := piece.offset + piece.end_, pending := [piece]
    open_ := some ⟨piece.sequence, false⟩, reserved := piece.end_ }
  blocks := [piece]

/-- The same lane once the committer that waits for the block has taken it to the disk. -/
def Lane.synced (piece : Piece) : Lane where
  state := {
    tailSequence := piece.sequence, tailOffset := piece.offset + piece.end_
    open_ := some ⟨piece.sequence, false⟩, reserved := piece.end_, written := piece.end_, durable := piece.end_ }
  io := [(.write piece.sequence piece.offset [piece.bytes], true), (.sync piece.sequence, true)]
  blocks := [piece]

/-- A lane after moves, in order. -/
def Lane.run (options : Options) : Lane → List Move → Option Lane
  | lane, [] => some lane
  | lane, move :: rest => (lane.next options move).bind (·.run options rest)

theorem Lane.Reachable.run {after : Lane}
    (reachable : Lane.Reachable options lane) (ran : lane.run options moves = some after) :
    Lane.Reachable options after := by
  induction moves generalizing lane with
  | nil => exact some.inj ran ▸ reachable
  | cons move rest ih =>
    obtain ⟨next, moved, ran⟩ := bind_eq_some_iff.mp ran
    exact ih (.move move reachable moved) ran

/-- A committer alone leads, writes, syncs and finishes. -/
theorem Lane.alone_synced (options : Options) (some_ : 0 < piece.end_) :
    (Lane.alone piece).run options [.look piece.end_ .durable, .disk true, .disk true, .finish] =
      some (Lane.synced piece) := by
  have turn : lead ⟨piece.sequence, false⟩ [piece] 0 .durable = {
      ops := [.write piece.sequence piece.offset [piece.bytes], .sync piece.sequence]
      open_ := ⟨piece.sequence, false⟩, led := { written := piece.end_, durable := some piece.end_ } } := by
    rw [lead, leadRuns, dropWhile_nil, leadRuns]
    simp [Turn.settle, switch]
  have looks : (Lane.alone piece).state.wait piece.end_ .durable = .leads
      { (Lane.alone piece).state with open_ := none, flushing := true, pending := [] }
      (lead ⟨piece.sequence, false⟩ [piece] 0 .durable) := by
    simp only [Lane.alone, State.wait, State.check, State.reached, Bool.false_eq_true, if_false]
    rw [if_neg (by omega)]
  simp only [Lane.run, Lane.next, Lane.look, looks, turn, bind_some, Lane.disk]
  simp [Lane.finish, State.finish, Lane.alone, Lane.synced]

/-- Two blocks, written at once and covered by the one sync of the committer that waits for the later one. -/
theorem group_commit_acknowledges_disk_two :
    ∃ (lane : Lane) (one two : Piece), Lane.Reachable ⟨0, 8192⟩ lane ∧ lane.blocks = [one, two] ∧
      lane.io = [(.write 1 4096 [one.bytes, two.bytes], true), (.sync 1, true)] ∧
      lane.state.settle two.end_ .full = .returns (.ok two.end_) ∧ Covered lane.io one ∧ Covered lane.io two := by
  let made (txn : UInt64) : Made := {
    txn, commitTs := txn + 1, depTs := txn, entries := [{ kind := .delete, flags := 2, payload := [7, 9] }]
    block := {
      txn, commitTs := txn + 1, depTs := txn, records := [(.delete, 2, 2)], data := [7, 9], bytes := 24 }
    made := rfl }
  let state : State := { tailSequence := 1, tailOffset := 4096, open_ := some ⟨1, false⟩ }
  let one := state.piece ⟨0, 8192⟩ (made 8).block
  let later : State := { state with tailOffset := 4176, pending := [one], reserved := 80 }
  let two := later.piece ⟨0, 8192⟩ (made 9).block
  let queued : Lane := {
    state := { later with tailOffset := 4256, pending := [one, two], reserved := 160 }, blocks := [one, two] }
  have start : Lane.Reachable ⟨0, 8192⟩ { state } := .start (by rfl : State.open _ 1 = .ok state)
  have reached : Lane.Reachable ⟨0, 8192⟩ queued := .move (.enqueue (made 9)) (.move (.enqueue (made 8)) start rfl) rfl
  have turn : lead ⟨1, false⟩ [one, two] 0 .durable = {
      ops := [.write 1 4096 [one.bytes, two.bytes], .sync 1]
      open_ := ⟨1, false⟩, led := { written := 160, durable := some 160 } } := by
    rw [lead, leadRuns, show [two].dropWhile (·.sequence == one.sequence) = [] from rfl, leadRuns]
    rfl
  have looks : queued.state.wait 160 .durable =
    .leads { queued.state with open_ := none, flushing := true, pending := [] }
      (lead ⟨1, false⟩ [one, two] 0 .durable) := rfl
  obtain ⟨lane, ran, blocks, io, settled⟩ : ∃ lane,
      queued.run ⟨0, 8192⟩ [.look 160 .durable, .disk true, .disk true, .finish] = some lane ∧
      lane.blocks = [one, two] ∧ lane.io = [(.write 1 4096 [one.bytes, two.bytes], true), (.sync 1, true)] ∧
      lane.state.settle 160 .full = .returns (.ok 160) := by
    simp only [Lane.run, Lane.next, Lane.look, looks, turn, bind_some, Lane.disk]
    refine ⟨_, rfl, ?_, ?_, ?_⟩ <;> rfl
  have done := reached.run ran
  have covers := (group_commit_acknowledges_disk done).2.1 160 160 settled
  have ends : one.end_ = 80 ∧ two.end_ = 160 := ⟨rfl, rfl⟩
  have lengths : one.bytes.length = 80 ∧ two.bytes.length = 80 :=
    ⟨Sound.length_piece _ state (made 8), Sound.length_piece _ later (made 9)⟩
  exact ⟨lane, one, two, done, blocks, io, settled, covers one (by simp [blocks]) (by omega),
    covers two (by simp [blocks]) (by omega)⟩

end Rudb.Txn
