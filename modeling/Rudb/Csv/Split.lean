import Rudb.Csv.Reader

/-! One file read in ranges on many threads. Every range guesses where its first record starts;
the true starts are learned a range at a time, and a range converts its records from its own true
start. The steps of the parts are taken in any order, each as the source takes it under its lock.
Embeds split.rs of rudb-csv. -/
namespace Rudb.Csv

/-- `Chain`, what is known so far about where the ranges really start: the true starts, what each range guessed
and where that guess ends, who is being split from its true start, and who handed back all its rows. -/
structure Chain where
  known : List Nat
  guessed : Nat → Option (Nat × Nat) := fun _ => none
  taken : Nat → Bool := fun _ => false
  clean : Nat → Bool := fun _ => false

/-- `settle`: takes every guess that starts where the range before it ended. -/
def Chain.settle (ranges : Nat) (chain : Chain) : Chain :=
  if chain.known.length < ranges then
    match chain.guessed (chain.known.length - 1) with
    | some (guess, stop) =>
      if chain.known.getLast? = some guess then settle ranges { chain with known := chain.known ++ [stop] } else chain
    | none => chain
  else chain
termination_by ranges - chain.known.length
decreasing_by
  simp only [List.length_append, List.length_singleton]
  omega

/-- `Split`, a file cut into ranges: the place and the line a single reader would start at, and how many there are. -/
structure Split (Row : Type) where
  source : Source Row
  first : Nat
  line : Nat
  ranges : Nat
  ranges_pos : 0 < ranges

/-- `Part`: what a part is about to do. -/
inductive Phase where
  /-- It was not asked for a chunk yet. -/
  | fresh
  /-- It follows its guess. -/
  | guessing
  /-- It waits for its true start. -/
  | waiting
  /-- It waits, and splits a range that is late from its true start. -/
  | helping (index start : Nat)
  /-- It knows its true start. -/
  | started (start : Nat)
  /-- It splits its own range from its true start. -/
  | learning (start : Nat)
  /-- It converts chunks. -/
  | reading (here line : Nat)
  /-- Something failed, and it looks for the error to report. -/
  | failing (found : String)
  /-- It found the error to report. -/
  | replayed (error : String)
  | finished
  | failed (error : String)

/-- Whether a part looks for an error that was written down before it goes on. -/
def Phase.looks : Phase → Bool
  | .fresh | .waiting | .reading .. | .finished => true
  | _ => false

/-- The parts of a file and what they share. -/
structure World (Row : Type) where
  chain : Chain
  failure : Option String
  phase : Nat → Phase
  rows : Nat → List Row

namespace Split
variable {Row : Type} (split : Split Row)

/-- Where each range starts as a count of bytes. -/
def startOf (index : Nat) : Nat := split.first + (split.source.file.length - split.first) / split.ranges * index

/-- `end`: where a range stops taking records, which for the last one is nowhere. -/
def stopOf (index : Nat) : Option Nat := if index + 1 < split.ranges then some (split.startOf (index + 1)) else none

def initial : World Row := ⟨{ known := [split.first] }, none, fun _ => .fresh, fun _ => []⟩

/-- `learn`: the end of a range is learned, unless it was learned meanwhile. -/
def push (chain : Chain) (index stop : Nat) : Chain :=
  if chain.known.length = index + 1 ∧ index + 1 < split.ranges then
    Chain.settle split.ranges { chain with known := chain.known ++ [stop] }
  else chain

/-- The ranges from the first on that handed back all their rows. -/
def cleanRanges (chain : Chain) : Nat := ((List.range split.ranges).takeWhile chain.clean).length

/-- `replay`: the error a single reader meets first, looked for behind the ranges that converted cleanly. -/
def replay (chain : Chain) (found : String) : String :=
  match skipTo split.source chain.known[split.cleanRanges chain]? split.first split.line with
  | .error message => message
  | .ok (here, line) => (readAll split.source here line).2.getD found

end Split

namespace World
variable {Row : Type}

def set (world : World Row) (index : Nat) (phase : Phase) : World Row :=
  { world with phase := Function.update world.phase index phase }

end World

section Steps
variable {Row : Type} (split : Split Row)

/-- `Part::next_chunk`: one step of a part. Whatever it guesses, and whether or not it gives its guess up, only what the
guess was followed to is written down; and an error that another part has written down may be seen at
once or later. -/
inductive Step : World Row → World Row → Prop
  | refuse {world index error} (inside : index < split.ranges) (looks : (world.phase index).looks)
      (failure : world.failure = some error) :
      Step world (world.set index (.failed error))
  | open' {world index} (fresh : world.phase index = .fresh) (inside : index < split.ranges) :
      Step world (world.set index (if world.chain.known.length ≤ index then .guessing else .waiting))
  | giveUp {world index} (guessing : world.phase index = .guessing) : Step world (world.set index .waiting)
  | speculate {world index stop} (guess : Nat) (guessing : world.phase index = .guessing)
      (followed : skim split.source (split.stopOf index) guess = .ok stop) :
      Step world
        { world.set index .waiting with
          chain := Chain.settle split.ranges
            { world.chain with guessed := Function.update world.chain.guessed index (some (guess, stop)) } }
  | help {world index start} (late : Nat) (waiting : world.phase index = .waiting)
      (frontier : world.chain.known.length = late + 1) (more : late + 1 < split.ranges)
      (free : world.chain.taken late = false) (known : world.chain.known[late]? = some start) :
      Step world
        { world.set index (.helping late start) with
          chain := { world.chain with taken := Function.update world.chain.taken late true } }
  | helped {world index late start stop} (helping : world.phase index = .helping late start)
      (skimmed : skim split.source (split.stopOf late) start = .ok stop) :
      Step world { world.set index .waiting with chain := split.push world.chain late stop }
  | helpFailed {world index late start found} (helping : world.phase index = .helping late start)
      (skimmed : skim split.source (split.stopOf late) start = .error found) :
      Step world (world.set index (.failing found))
  | start {world index start} (waiting : world.phase index = .waiting)
      (known : world.chain.known[index]? = some start) : Step world (world.set index (.started start))
  | learn {world index start} (started : world.phase index = .started start)
      (frontier : world.chain.known.length = index + 1) (more : index + 1 < split.ranges)
      (free : world.chain.taken index = false) :
      Step world
        { world.set index (.learning start) with
          chain := { world.chain with taken := Function.update world.chain.taken index true } }
  | learned {world index start stop} (learning : world.phase index = .learning start)
      (skimmed : skim split.source (split.stopOf index) start = .ok stop) :
      Step world { world.set index (.reading start 0) with chain := split.push world.chain index stop }
  | learnFailed {world index start found} (learning : world.phase index = .learning start)
      (skimmed : skim split.source (split.stopOf index) start = .error found) :
      Step world (world.set index (.failing found))
  | begin' {world index start} (started : world.phase index = .started start)
      (other : world.chain.known.length ≠ index + 1 ∨ index + 1 = split.ranges ∨ world.chain.taken index = true) :
      Step world (world.set index (.reading start 0))
  | chunk {world index here line rows next after} (reading : world.phase index = .reading here line)
      (read : nextChunk split.source (split.stopOf index) here line = .ok (some rows, next, after)) :
      Step world
        { world.set index (.reading next after) with
          rows := Function.update world.rows index (world.rows index ++ rows) }
  | finish {world index here line stop after} (reading : world.phase index = .reading here line)
      (read : nextChunk split.source (split.stopOf index) here line = .ok (none, stop, after)) :
      Step world
        { world.set index .finished with
          chain := split.push { world.chain with clean := Function.update world.chain.clean index true } index stop }
  | fail {world index here line found} (reading : world.phase index = .reading here line)
      (read : nextChunk split.source (split.stopOf index) here line = .error found) :
      Step world (world.set index (.failing found))
  | replay {world index found} (failing : world.phase index = .failing found) :
      Step world (world.set index (.replayed (split.replay world.chain found)))
  | report {world index error} (replayed : world.phase index = .replayed error) :
      Step world
        { world.set index (.failed (world.failure.getD error)) with failure := some (world.failure.getD error) }

/-- The parts have taken any number of steps. -/
inductive Reaches : World Row → Prop
  | initial : Reaches split.initial
  | step {world next} (reached : Reaches world) (step : Step split world next) : Reaches next

end Steps

end Rudb.Csv
