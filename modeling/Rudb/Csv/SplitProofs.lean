import Mathlib.Algebra.BigOperators.Pi
import Mathlib.Data.List.TakeWhile
import Mathlib.Logic.Relation
import Rudb.Csv.ReaderProofs
import Rudb.Csv.Split

/-! The parts of a file read it as one reader does, however their steps are interleaved. The records one
reader meets are cut at the ends of the ranges; what is known of the true starts is always a first part
of that cut, and what a part has handed back is a first part of its own range's rows. -/
namespace Rudb.Csv
open Function Option

namespace Split
variable {Row : Type} (split : Split Row)

/-- What one reader of the whole file hands back, and the error it stops at. -/
def single : List Row × Option String := readAll split.source split.first split.line

def left : Nat → List Record
  | 0 => (stream split.source split.first).1
  | index + 1 => (left index).dropWhile fun record => !past (split.stopOf index) record.start

def part (index : Nat) : List Record :=
  (split.left index).takeWhile fun record => !past (split.stopOf index) record.start

def trueStart : Nat → Nat
  | 0 => split.first
  | index + 1 => after (trueStart index) (split.part index)

def partRows (index : Nat) : List Row := (split.part index).filterMap split.source.row

variable {split}

theorem part_append_left (index : Nat) : split.part index ++ split.left (index + 1) = split.left index :=
  List.takeWhile_append_dropWhile

theorem stream_trueStart (index : Nat) :
    stream split.source (split.trueStart index) = (split.left index, (stream split.source split.first).2) := by
  induction index with
  | zero => rfl
  | succ index ih =>
    have cut : (stream split.source (split.trueStart index)).1 = split.part index ++ split.left (index + 1) := by
      rw [ih, part_append_left]
    rw [trueStart, (stream_after cut).1, ih]

/-- The ranges before one and what they leave are all the records. -/
theorem parts_append_left (index : Nat) :
    (List.range index).flatMap split.part ++ split.left index = (stream split.source split.first).1 := by
  induction index with
  | zero => rfl
  | succ index ih =>
    rw [List.range_succ, List.flatMap_append, List.flatMap_singleton, List.append_assoc, part_append_left, ih]

theorem left_ranges : split.left split.ranges = [] := by
  obtain ⟨last, eq⟩ := Nat.exists_eq_add_of_lt split.ranges_pos
  have nowhere : split.stopOf last = none := if_neg (by omega)
  rw [eq, zero_add, left, nowhere]
  exact List.dropWhile_eq_nil_iff.mpr fun _ _ => rfl

theorem parts_eq : (List.range split.ranges).flatMap split.part = (stream split.source split.first).1 := by
  rw [← parts_append_left split.ranges, left_ranges, List.append_nil]

variable {index : Nat}

/-- A record that ends before a range's first one is in a range before it. -/
theorem mem_parts {record : Record} (member : record ∈ (stream split.source split.first).1)
    (before : record.next ≤ split.trueStart index) : record ∈ (List.range index).flatMap split.part := by
  rw [← parts_append_left index] at member
  refine (List.mem_append.mp member).resolve_right fun later => ?_
  have inside := stream_mem (congrArg Prod.fst (stream_trueStart index)) record later
  omega

/-- What is skimmed from a range's true start is where the next one starts. -/
theorem skim_trueStart
    (read : skim split.source (split.stopOf index) (split.trueStart index) = .ok found) :
    found = split.trueStart (index + 1) := by
  rw [skim_ok read, stream_trueStart]
  rfl

section
variable {index here : Nat} {records rest : List Record}
  (takes : Takes split.source (split.stopOf index) (split.trueStart index) records rest here)
include takes

/-- A reader that takes from a range's true start takes the first of its records. -/
theorem takes_part : records <+: split.part index := by
  have cut : split.left index = records ++ rest := by rw [← takes.split, stream_trueStart]
  have inside : ∀ record ∈ records, (!past (split.stopOf index) record.start) = true := fun record member => by
    rw [takes.inside record member, Bool.not_false]
  rw [part, cut, List.takeWhile_append_of_pos inside]
  exact List.prefix_append _ _

theorem takes_all (ends : Ends split.source (split.stopOf index) here) :
    records = split.part index ∧ here = split.trueStart (index + 1) := by
  have all : records = split.part index := by rw [(takes.all ends).1, stream_trueStart, part]
  exact ⟨all, by rw [takes.next, all, trueStart]⟩

end

theorem fails_of_trueStart (fails : Fails split.source (split.trueStart index)) : Fails split.source split.first := by
  rw [Fails, stream_trueStart] at fails
  refine fails.imp id ?_
  rintro ⟨record, member, bad⟩
  refine ⟨record, ?_, bad⟩
  rw [← parts_append_left index]
  exact List.mem_append_right _ member

theorem short_trueStart (short : Short split.source split.first) (index : Nat) :
    Short split.source (split.trueStart index) := by
  intro record member
  rw [stream_trueStart] at member
  refine short record ?_
  rw [← parts_append_left index]
  exact List.mem_append_right _ member

/-- The starts that are known are the first of the true ones, and a guess ends where it was followed to. -/
structure Traces (split : Split Row) (chain : Chain) : Prop where
  some_ : 0 < chain.known.length
  le : chain.known.length ≤ split.ranges
  known : chain.known = (List.range chain.known.length).map split.trueStart
  guessed : ∀ index guess stop, chain.guessed index = some (guess, stop) →
    skim split.source (split.stopOf index) guess = .ok stop

namespace Traces
variable {chain : Chain}

theorem start_eq (traces : Traces split chain) (known : chain.known[index]? = some start) :
    index < chain.known.length ∧ start = split.trueStart index := by
  have lt : index < chain.known.length := (List.getElem?_eq_some_iff.mp known).1
  rw [traces.known, List.getElem?_map, List.getElem?_range lt] at known
  exact ⟨lt, (some.inj known).symm⟩

theorem snoc (traces : Traces split chain) (less : chain.known.length < split.ranges) :
    Traces split { chain with known := chain.known ++ [split.trueStart chain.known.length] } where
  some_ := by simp
  le := by
    simp only [List.length_append, List.length_singleton]
    omega
  known := by
    simp only [List.length_append, List.length_singleton]
    rw [List.range_succ, List.map_append, ← traces.known]
    rfl
  guessed := traces.guessed

theorem settle (traces : Traces split chain) : Traces split (chain.settle split.ranges) := by
  fun_induction Chain.settle split.ranges chain with
  | case1 chain less guess stop guessed last ih =>
    have at' : guess = split.trueStart (chain.known.length - 1) := by
      rw [List.getLast?_eq_getElem?] at last
      exact (traces.start_eq last).2
    have read := traces.guessed _ _ _ guessed
    rw [at'] at read
    have next := skim_trueStart read
    rw [Nat.sub_add_cancel traces.some_] at next
    rw [next] at ih ⊢
    exact ih (traces.snoc less)
  | case2 | case3 | case4 => exact traces

end Traces

theorem settle_grows (chain : Chain) : chain.known.length ≤ (chain.settle split.ranges).known.length ∧
      (chain.settle split.ranges).taken = chain.taken ∧ (chain.settle split.ranges).clean = chain.clean := by
  fun_induction Chain.settle split.ranges chain with
  | case1 chain less guess stop guessed last ih =>
    simp only [List.length_append, List.length_singleton] at ih
    exact ⟨by omega, ih.2⟩
  | case2 | case3 | case4 => exact ⟨le_rfl, rfl, rfl⟩

theorem push_grows (chain : Chain) (index stop : Nat) :
    chain.known.length ≤ (split.push chain index stop).known.length ∧
      (split.push chain index stop).taken = chain.taken ∧ (split.push chain index stop).clean = chain.clean := by
  rw [push]
  split_ifs
  · have grows := @settle_grows _ split { chain with known := chain.known ++ [stop] }
    simp only [List.length_append, List.length_singleton] at grows
    exact ⟨by omega, grows.2⟩
  · exact ⟨le_rfl, rfl, rfl⟩

variable {chain : Chain}

/-- Once a range's end was pushed, the start of the next one is known. -/
theorem lt_push (known : index < chain.known.length)
    (more : index + 1 < split.ranges) : index + 1 < (split.push chain index stop).known.length := by
  rw [push]
  split_ifs with frontier
  · have grows := (@settle_grows _ split { chain with known := chain.known ++ [stop] }).1
    simp only [List.length_append, List.length_singleton] at grows
    omega
  · omega

theorem Traces.push (traces : Traces split chain) (index : Nat) :
    Traces split (split.push chain index (split.trueStart (index + 1))) := by
  rw [Split.push]
  split_ifs with frontier
  · rw [← frontier.1]
    exact (traces.snoc (by omega)).settle
  · exact traces

/-- What holds of a part in each phase, when so many starts are known and it has handed back some rows. -/
def PhaseRight (split : Split Row) (known index : Nat) (rows : List Row) : Phase → Prop
  | .fresh | .guessing | .waiting => rows = []
  | .helping late start => rows = [] ∧ start = split.trueStart late ∧ late < known ∧ late + 1 < split.ranges
  | .started start => rows = [] ∧ start = split.trueStart index ∧ index < known
  | .learning start => rows = [] ∧ start = split.trueStart index ∧ index < known ∧ index + 1 < split.ranges
  | .reading here _ => index < known ∧ ∃ front back,
      Takes split.source (split.stopOf index) (split.trueStart index) front back here ∧
      (∀ record ∈ front, split.source.bad record = false) ∧ rows = front.filterMap split.source.row
  | .finished => rows = split.partRows index
  | .failing _ => Fails split.source split.first
  | .replayed error | .failed error => split.single.2 = some error

variable {phase : Phase}

theorem PhaseRight.mono (le : known ≤ more)
    (right : PhaseRight split known index rows phase) : PhaseRight split more index rows phase := by
  cases phase with
  | helping | learning => exact ⟨right.1, right.2.1, right.2.2.1.trans_le le, right.2.2.2⟩
  | started => exact ⟨right.1, right.2.1, right.2.2.trans_le le⟩
  | reading => exact ⟨right.1.trans_le le, right.2⟩
  | _ => exact right

/-- A range that handed back all its rows has no record that does not convert, and its end is known. -/
def CleanRight (split : Split Row) (chain : Chain) : Prop :=
  ∀ index, chain.clean index = true → (∀ record ∈ split.part index, split.source.bad record = false) ∧
    (index + 1 < split.ranges → index + 1 < chain.known.length)

/-- What holds after any number of steps. -/
structure Right (split : Split Row) (world : World Row) : Prop where
  traces : Traces split world.chain
  clean : CleanRight split world.chain
  inside : ∀ index, world.phase index ≠ .fresh → index < split.ranges
  phase : ∀ index, PhaseRight split world.chain.known.length index (world.rows index) (world.phase index)
  failure : ∀ error, world.failure = some error → split.single.2 = some error

theorem CleanRight.mono (right : CleanRight split chain)
    (le : chain.known.length ≤ grown.known.length) (same : grown.clean = chain.clean) : CleanRight split grown := by
  intro index clean
  obtain ⟨fine, known⟩ := right index (same ▸ clean)
  exact ⟨fine, fun more => (known more).trans_le le⟩

theorem Right.initial : Right split split.initial where
  traces := ⟨Nat.one_pos, split.ranges_pos, rfl, by rintro _ _ _ ⟨⟩⟩
  clean := by rintro _ ⟨⟩
  inside index moved := absurd rfl moved
  phase _ := rfl
  failure := by rintro _ ⟨⟩

variable {world : World Row} {failure : Option String} {rows : Nat → List Row}

section
variable (right : Right split world)
include right

theorem Right.phaseOf (is : world.phase index = phase) :
    PhaseRight split world.chain.known.length index (world.rows index) phase := is ▸ right.phase index

theorem Right.insideOf (is : world.phase index = phase) (moved : phase ≠ .fresh := by simp) : index < split.ranges :=
  right.inside index (is ▸ moved)

theorem Right.move (traces : Traces split chain)
    (grows : world.chain.known.length ≤ chain.known.length) (clean : CleanRight split chain)
    (inside : index < split.ranges)
    (others : ∀ other, other ≠ index → rows other = world.rows other)
    (moved : PhaseRight split chain.known.length index (rows index) phase)
    (found : ∀ error, failure = some error → split.single.2 = some error) :
    Right split ⟨chain, failure, update world.phase index phase, rows⟩ where
  traces := traces
  clean := clean
  inside other := by
    by_cases here : other = index
    · exact fun _ => here ▸ inside
    · simp only [update_of_ne here]
      exact right.inside other
  phase other := by
    by_cases here : other = index
    · subst here
      simpa using moved
    · simp only [update_of_ne here, others other here]
      exact (right.phase other).mono grows
  failure := found

theorem Right.set (inside : index < split.ranges)
    (moved : PhaseRight split world.chain.known.length index (world.rows index) phase) :
    Right split (world.set index phase) :=
  right.move right.traces le_rfl right.clean inside (fun _ _ => rfl) moved right.failure

/-- The ranges that are counted as clean hold no record that does not convert. -/
theorem fineTo_clean : FineTo split.source world.chain.known[split.cleanRanges world.chain]? split.first := by
  have count_le : split.cleanRanges world.chain ≤ split.ranges := by
    have le := (List.takeWhile_sublist (l := List.range split.ranges) world.chain.clean).length_le
    rwa [List.length_range] at le
  have counted : ∀ index < split.cleanRanges world.chain, world.chain.clean index = true := by
    intro index lt
    have mem := List.getElem_mem lt
    have first := List.mem_takeWhile_imp mem
    have is := (List.takeWhile_prefix world.chain.clean (l := List.range split.ranges)).getElem lt
    rwa [is, List.getElem_range] at first
  have fine : ∀ record ∈ (List.range (split.cleanRanges world.chain)).flatMap split.part,
      split.source.bad record = false := by
    intro record member
    obtain ⟨index, among, inside⟩ := List.mem_flatMap.mp member
    exact (right.clean index (counted index (List.mem_range.mp among))).1 record inside
  intro record member before
  cases known : world.chain.known[split.cleanRanges world.chain]? with
  | some start =>
    rw [known, all_some, decide_eq_true_eq, (right.traces.start_eq known).2] at before
    exact fine record (mem_parts member before)
  | none =>
    -- the start behind a clean range is known, so every range is clean
    have all : split.cleanRanges world.chain = split.ranges := by
      have beyond : world.chain.known.length ≤ split.cleanRanges world.chain := List.getElem?_eq_none_iff.mp known
      by_contra less
      obtain ⟨last, eq⟩ := Nat.exists_eq_add_of_lt (right.traces.some_.trans_le beyond)
      have next := (right.clean last (counted last (by omega))).2 (by omega)
      omega
    rw [all, parts_eq] at fine
    exact fine record member

/-- The error that is looked for is the one a single reader meets first. -/
theorem replay_eq
    (fails : split.single.2 = some error) (found : String) : split.replay world.chain found = error := by
  have skipped := @skipTo_right _ split.source split.first split.line _ (fineTo_clean right)
  rw [replay]
  revert skipped
  cases skipTo split.source world.chain.known[split.cleanRanges world.chain]? split.first split.line with
  | error message => exact fun skipped => some.inj (skipped.symm.trans fails)
  | ok place =>
    intro skipped
    change (readAll split.source place.1 place.2).2.getD found = error
    rw [skipped]
    exact congrArg (getD · found) fails

end

theorem not_fails (fine : split.single.2 = none) : ¬ Fails split.source split.first := fun fails => by
  have some_ : split.single.2.isSome := readAll_fails fails
  simp [fine] at some_

theorem Right.step (short : Short split.source split.first) (right : Right split world)
    (step : Step split world next) : Right split next := by
  have single_of_fails (fails : Fails split.source split.first) : ∃ error, split.single.2 = some error :=
    isSome_iff_exists.mp (readAll_fails fails)
  cases step with
  | refuse inside looks failure => exact right.set inside (right.failure _ failure)
  | open' fresh inside =>
    have empty := right.phaseOf fresh
    refine right.set inside ?_
    split_ifs <;> exact empty
  | giveUp guessing =>
    have empty := right.phaseOf guessing
    exact right.set (right.insideOf guessing) empty
  | @speculate index stop guess guessing followed =>
    have empty := right.phaseOf guessing
    have traces : Traces split
        { world.chain with guessed := update world.chain.guessed index (some (guess, stop)) } := by
      refine { right.traces with guessed := fun other start found is => ?_ }
      by_cases here : other = index
      · subst here
        simp only [update_self, some.injEq, Prod.mk.injEq] at is
        exact is.1 ▸ is.2 ▸ followed
      · simp only [update_of_ne here] at is
        exact right.traces.guessed other start found is
    obtain ⟨grows, _, clean⟩ := @settle_grows _ split
      { world.chain with guessed := update world.chain.guessed index (some (guess, stop)) }
    exact right.move traces.settle grows (right.clean.mono grows clean) (right.insideOf guessing)
      (fun _ _ => rfl) empty right.failure
  | help late waiting frontier more free known =>
    have empty := right.phaseOf waiting
    obtain ⟨lt, eq⟩ := right.traces.start_eq known
    exact right.move { right.traces with } le_rfl right.clean (right.insideOf waiting) (fun _ _ =>
      rfl) ⟨empty, eq, lt, more⟩ right.failure
  | @helped index late start stop helping skimmed =>
    obtain ⟨empty, rfl, _, _⟩ := right.phaseOf helping
    obtain ⟨grows, _, clean⟩ := @push_grows _ split world.chain late stop
    refine right.move ?_ grows (right.clean.mono grows clean) (right.insideOf helping) (fun _ _ => rfl) empty
      right.failure
    rw [skim_trueStart skimmed]
    exact right.traces.push late
  | @helpFailed index late start found helping skimmed =>
    obtain ⟨_, rfl, _, _⟩ := right.phaseOf helping
    have fails := skim_error (short_trueStart short late) skimmed
    exact right.set (right.insideOf helping) (fails_of_trueStart (.inl fails))
  | start waiting known =>
    have empty := right.phaseOf waiting
    obtain ⟨lt, eq⟩ := right.traces.start_eq known
    exact right.set (right.insideOf waiting) ⟨empty, eq, lt⟩
  | learn started frontier more free =>
    have phase := right.phaseOf started
    exact right.move { right.traces with } le_rfl right.clean (right.insideOf started) (fun _ _ =>
      rfl) ⟨phase.1, phase.2.1, phase.2.2, more⟩ right.failure
  | @learned index start stop learning skimmed =>
    obtain ⟨empty, rfl, known, _⟩ := right.phaseOf learning
    obtain ⟨grows, _, clean⟩ := @push_grows _ split world.chain index stop
    refine right.move ?_ grows (right.clean.mono grows clean) (right.insideOf learning) (fun _ _ => rfl)
      ⟨known.trans_le grows, [], _, ⟨rfl, rfl, by simp⟩, by simp, empty⟩ right.failure
    rw [skim_trueStart skimmed]
    exact right.traces.push index
  | @learnFailed index start found learning skimmed =>
    obtain ⟨_, rfl, _, _⟩ := right.phaseOf learning
    have fails := skim_error (short_trueStart short index) skimmed
    exact right.set (right.insideOf learning) (fails_of_trueStart (.inl fails))
  | begin' started other =>
    obtain ⟨empty, rfl, known⟩ := right.phaseOf started
    exact right.set (right.insideOf started) ⟨known, [], _, ⟨rfl, rfl, by simp⟩, by simp, empty⟩
  | @chunk index here line rows behind later reading read =>
    obtain ⟨known, front, back, takes, fine, rows_eq⟩ := right.phaseOf reading
    obtain ⟨records, rest, converts⟩ := nextChunk_ok read
    have added : rows = records.filterMap split.source.row := converts.rows
    refine right.move right.traces le_rfl right.clean (right.insideOf reading)
      (fun other ne => update_of_ne ne _ _)
      ⟨known, front ++ records, rest, takes.append converts.takes, fun record member => ?_, ?_⟩ right.failure
    · exact (List.mem_append.mp member).elim (fine record) (converts.fine record)
    · rw [update_self, rows_eq, added, List.filterMap_append]
  | @finish index here line stop later reading read =>
    obtain ⟨known, front, back, takes, fine, rows_eq⟩ := right.phaseOf reading
    obtain ⟨records, rest, converts⟩ := nextChunk_ok read
    have none_ : records.filterMap split.source.row = [] := converts.rows.symm
    obtain ⟨all, behind⟩ := takes_all (takes.append converts.takes) (converts.done rfl)
    obtain ⟨grows, _, clean⟩ := @push_grows _ split
      { world.chain with clean := update world.chain.clean index true } index stop
    refine right.move ?_ grows ?_ (right.insideOf reading) (fun _ _ => rfl) ?_ right.failure
    · rw [behind]
      have same : Traces split { world.chain with clean := update world.chain.clean index true } :=
        { right.traces with }
      exact same.push index
    · intro other isClean
      rw [clean] at isClean
      by_cases at' : other = index
      · subst at'
        refine ⟨fun record member => ?_, fun more => lt_push known more⟩
        rw [← all] at member
        exact (List.mem_append.mp member).elim (fine record) (converts.fine record)
      · simp only [update_of_ne at'] at isClean
        obtain ⟨fine, next⟩ := right.clean other isClean
        exact ⟨fine, fun more => (next more).trans_le grows⟩
    · change world.rows index = _
      rw [rows_eq, partRows, ← all, List.filterMap_append, none_, List.append_nil]
  | @fail index here line found reading read =>
    obtain ⟨_, front, back, takes, _⟩ := right.phaseOf reading
    have fails := nextChunk_error ((short_trueStart short index).behind takes) read
    exact right.set (right.insideOf reading) (fails_of_trueStart (fails.before takes))
  | replay failing =>
    have fails := right.phaseOf failing
    obtain ⟨error, is⟩ := single_of_fails fails
    rw [replay_eq right is]
    exact right.set (right.insideOf failing) is
  | @report index error replayed =>
    have is := right.phaseOf replayed
    have reported : split.single.2 = some (world.failure.getD error) := by
      cases written : world.failure with
      | none => exact is
      | some other => exact right.failure other written
    refine right.move right.traces le_rfl right.clean (right.insideOf replayed) (fun _ _ => rfl)
      reported fun other eq => ?_
    rw [← some.inj eq]
    exact reported

theorem Right.reaches (short : Short split.source split.first) (reached : Reaches split world) : Right split world := by
  induction reached with
  | initial => exact .initial
  | step _ step ih => exact ih.step short step

/-- Whether a part is on its way to the end of a range, or has met an error on it. -/
def Splits (index late : Nat) : Phase → Prop
  | .helping other _ => other = late
  | .learning _ => index = late
  | .failing _ | .replayed _ | .failed _ => True
  | _ => False

/-- A range that is taken has a part that splits it until its end is known. -/
def Tended (world : World Row) : Prop :=
  ∀ late, world.chain.taken late = true →
    late + 1 < world.chain.known.length ∨ ∃ index, Splits index late (world.phase index)

theorem Tended.move (tended : Tended world) (grows : world.chain.known.length ≤ chain.known.length)
    (taken : ∀ late, chain.taken late = true → world.chain.taken late = true ∨ Splits index late phase)
    (kept : ∀ late, Splits index late (world.phase index) → late + 1 < chain.known.length ∨ Splits index late phase) :
    Tended ⟨chain, failure, update world.phase index phase, rows⟩ := by
  intro late isTaken
  have moved (splits : Splits index late phase) :
      ∃ other, Splits other late (update world.phase index phase other) :=
    ⟨index, by rwa [update_self]⟩
  rcases taken late isTaken with before | now
  · rcases tended late before with known | ⟨other, splits⟩
    · exact .inl (known.trans_le grows)
    by_cases here : other = index
    · subst here
      exact (kept late splits).imp id moved
    · refine .inr ⟨other, ?_⟩
      change Splits other late (update world.phase index phase other)
      rwa [update_of_ne here]
  · exact .inr (moved now)

/-- A part that was not splitting takes a range to split it. -/
theorem Tended.take (tended : Tended world) (idle : ∀ other, ¬ Splits index other (world.phase index))
    (splits : Splits index late phase) :
    Tended ⟨{ world.chain with taken := update world.chain.taken late true }, failure,
      update world.phase index phase, rows⟩ := by
  refine tended.move le_rfl (fun other now => ?_) fun other was => absurd was (idle other)
  by_cases here : other = late
  · exact .inr (here ▸ splits)
  · simp only [update_of_ne here] at now
    exact .inl now

theorem Tended.step (right : Right split world) (tended : Tended world)
    (step : Step split world next) : Tended next := by
  have same (late : Nat) (taken : world.chain.taken late = true) {index : Nat} {phase : Phase} :
      world.chain.taken late = true ∨ Splits index late phase := .inl taken
  cases step with
  | refuse | helpFailed | learnFailed | fail | replay | report =>
    exact tended.move le_rfl (fun late taken => same late taken) fun _ _ => .inr trivial
  | open' is | giveUp is | start is | begin' is | chunk is =>
    exact tended.move le_rfl (fun late taken => same late taken) fun late splits => by
      rw [is] at splits
      exact splits.elim
  | @speculate index stop guess guessing followed =>
    obtain ⟨grows, taken, _⟩ := @settle_grows _ split
      { world.chain with guessed := update world.chain.guessed index (some (guess, stop)) }
    refine tended.move grows (fun late now => same late (taken ▸ now)) fun late splits => ?_
    rw [guessing] at splits
    exact splits.elim
  | @finish index here line stop later reading read =>
    obtain ⟨grows, taken, _⟩ := @push_grows _ split
      { world.chain with clean := update world.chain.clean index true } index stop
    refine tended.move grows (fun late now => same late (taken ▸ now)) fun late splits => ?_
    rw [reading] at splits
    exact splits.elim
  | help late waiting => exact tended.take (fun _ => by rw [waiting]; exact id) rfl
  | learn started => exact tended.take (fun _ => by rw [started]; exact id) rfl
  | @helped index late start stop helping skimmed =>
    obtain ⟨grows, taken, _⟩ := @push_grows _ split world.chain late stop
    refine tended.move grows (fun other now => same other (taken ▸ now)) fun other splits => ?_
    rw [helping] at splits
    obtain ⟨_, _, known, more⟩ := right.phaseOf helping
    exact .inl (splits ▸ lt_push known more)
  | @learned index start stop learning skimmed =>
    obtain ⟨grows, taken, _⟩ := @push_grows _ split world.chain index stop
    refine tended.move grows (fun other now => same other (taken ▸ now)) fun other splits => ?_
    rw [learning] at splits
    obtain ⟨_, _, known, more⟩ := right.phaseOf learning
    exact .inl (splits ▸ lt_push known more)

theorem Tended.reaches (short : Short split.source split.first) (reached : Reaches split world) : Tended world := by
  induction reached with
  | initial => rintro _ ⟨⟩
  | step reached step ih => exact ih.step (.reaches short reached) step

/-- How many more steps a part in a phase takes at most, but for those that take a range. -/
def cost (length : Nat) : Phase → Nat
  | .fresh => length + 9
  | .guessing | .helping .. => length + 8
  | .waiting => length + 7
  | .started _ => length + 6
  | .learning _ => length + 5
  | .reading here _ => length - here + 4
  | .failing _ => 3
  | .replayed _ => 2
  | .finished => 1
  | .failed _ => 0

open Finset in
def work (split : Split Row) (world : World Row) : Nat :=
  ∑ index ∈ range split.ranges, cost split.source.file.length (world.phase index) +
    ∑ index ∈ range split.ranges, if world.chain.taken index then 0 else 2

open Finset in
theorem sum_update (lt : index < count) (values : Nat → Value) (value : Value)
    (weigh : Value → Nat) :
    ∑ other ∈ range count, weigh (update values index value other) + weigh (values index) =
      ∑ other ∈ range count, weigh (values other) + weigh value := by
  have member := mem_range.mpr lt
  have others : ∑ other ∈ (range count).erase index, weigh (update values index value other) =
      ∑ other ∈ (range count).erase index, weigh (values other) :=
    sum_congr rfl fun other among => by rw [update_of_ne (ne_of_mem_erase among)]
  rw [← add_sum_erase _ _ member, ← add_sum_erase _ (fun other => weigh (values other)) member, update_self,
    others]
  omega

/-- A part that goes on without taking a range has less to do. -/
theorem work_lt (inside : index < split.ranges) (taken : chain.taken = world.chain.taken)
    (less : cost split.source.file.length phase < cost split.source.file.length (world.phase index)) :
    work split ⟨chain, failure, update world.phase index phase, rows⟩ < work split world := by
  have phases := sum_update inside world.phase phase (cost split.source.file.length)
  simp only [work, taken]
  omega

/-- Taking a range costs a step, and no range is taken twice. -/
theorem work_lt_taken (inside : index < split.ranges) (late_lt : late < split.ranges)
    (free : world.chain.taken late = false) (taken : chain.taken = update world.chain.taken late true)
    (less : cost split.source.file.length phase ≤ cost split.source.file.length (world.phase index) + 1) :
    work split ⟨chain, failure, update world.phase index phase, rows⟩ < work split world := by
  have phases := sum_update inside world.phase phase (cost split.source.file.length)
  have marks := sum_update late_lt world.chain.taken true (if · then 0 else 2)
  simp only [free, if_true, Bool.false_eq_true, if_false] at marks
  simp only [work, taken]
  omega

theorem work_step (right : Right split world) (step : Step split world next) :
    work split next < work split world := by
  cases step with
  | @refuse index error inside looks failure =>
    refine work_lt inside rfl ?_
    cases phase : world.phase index <;> simp [phase, Phase.looks, cost] at looks ⊢
  | open' fresh inside =>
    refine work_lt inside rfl ?_
    rw [fresh]
    split_ifs <;> simp [cost]
  | giveUp is | helpFailed is | start is | learnFailed is | replay is | report is =>
    refine work_lt (right.insideOf is) rfl ?_
    rw [is]
    simp [cost]
  | begin' is | fail is =>
    refine work_lt (right.insideOf is) rfl ?_
    rw [is]
    simp only [cost]
    omega
  | @speculate index stop guess is followed =>
    refine work_lt (right.insideOf is) (settle_grows _).2.1 ?_
    rw [is]
    simp [cost]
  | helped is =>
    refine work_lt (right.insideOf is) (push_grows _ _ _).2.1 ?_
    rw [is]
    simp [cost]
  | learned is | finish is =>
    refine work_lt (right.insideOf is) (push_grows _ _ _).2.1 ?_
    rw [is]
    simp only [cost]
    omega
  | chunk is read =>
    have forward := nextChunk_forward read
    refine work_lt (right.insideOf is) rfl ?_
    rw [is]
    simp only [cost]
    omega
  | help late is frontier more free | learn is frontier more free =>
    refine work_lt_taken (right.insideOf is) (by omega) free rfl ?_
    rw [is]
    simp [cost]

def SameFresh (world next : World Row) : Prop := ∀ index, next.phase index = .fresh ↔ world.phase index = .fresh

theorem sameFresh_update (before : world.phase index ≠ .fresh) (after : phase ≠ .fresh := by simp) :
    SameFresh world ⟨chain, failure, update world.phase index phase, rows⟩ := by
  intro other
  by_cases here : other = index
  · subst here
    simp [before, after]
  · simp only [update_of_ne here]

/-- A part that splits a range goes on. -/
theorem helping_steps (helping : world.phase index = .helping late start) :
    ∃ next, Step split world next ∧ SameFresh world next := by
  cases skimmed : skim split.source (split.stopOf late) start with
  | ok stop => exact ⟨_, .helped helping skimmed, sameFresh_update (by simp [helping])⟩
  | error found => exact ⟨_, .helpFailed helping skimmed, sameFresh_update (by simp [helping])⟩

theorem learning_steps (learning : world.phase index = .learning start) :
    ∃ next, Step split world next ∧ SameFresh world next := by
  cases skimmed : skim split.source (split.stopOf index) start with
  | ok stop => exact ⟨_, .learned learning skimmed, sameFresh_update (by simp [learning])⟩
  | error found => exact ⟨_, .learnFailed learning skimmed, sameFresh_update (by simp [learning])⟩

section
variable (right : Right split world) (tended : Tended world) (fine : split.single.2 = none)
include right tended fine

/-- A part that waits is told its start, or helps, or waits for one that splits. -/
theorem waiting_steps (waiting : world.phase index = .waiting) :
    ∃ next, Step split world next ∧ SameFresh world next := by
  have fresh : world.phase index ≠ .fresh := by simp [waiting]
  have inside := right.inside index fresh
  by_cases known : index < world.chain.known.length
  · exact ⟨_, .start waiting (List.getElem?_eq_getElem known), sameFresh_update fresh⟩
  obtain ⟨late, eq⟩ := Nat.exists_eq_add_of_lt right.traces.some_
  rw [zero_add] at eq
  cases taken : world.chain.taken late with
  | false =>
    exact ⟨_, .help late waiting eq (by omega) taken (List.getElem?_eq_getElem (by omega)),
      sameFresh_update fresh⟩
  | true =>
    obtain ⟨other, splits⟩ := (tended late taken).resolve_left (by omega)
    cases is : world.phase other with
    | helping => exact helping_steps is
    | learning => exact learning_steps is
    | failing => exact absurd (right.phaseOf is) (not_fails fine)
    | replayed | failed => cases fine.symm.trans (right.phaseOf is)
    | _ =>
      rw [is] at splits
      exact splits.elim

/-- Where a single reader meets no error, a part that was asked and is not done is not stuck. -/
theorem progress (asked : world.phase index ≠ .fresh) (going : world.phase index ≠ .finished) :
    ∃ next, Step split world next ∧ SameFresh world next := by
  cases is : world.phase index with
  | fresh => exact absurd is asked
  | finished => exact absurd is going
  | guessing => exact ⟨_, .giveUp is, sameFresh_update asked⟩
  | waiting => exact waiting_steps right tended fine is
  | helping => exact helping_steps is
  | learning => exact learning_steps is
  | started start =>
    by_cases other : world.chain.known.length ≠ index + 1 ∨ index + 1 = split.ranges ∨ world.chain.taken index = true
    · exact ⟨_, .begin' is other, sameFresh_update asked⟩
    · simp only [not_or, not_not, Bool.not_eq_true] at other
      have inside := right.inside index asked
      exact ⟨_, .learn is other.1 (by omega) other.2.2, sameFresh_update asked⟩
  | reading here line =>
    cases read : nextChunk split.source (split.stopOf index) here line with
    | error found => exact ⟨_, .fail is read, sameFresh_update asked⟩
    | ok found =>
      obtain ⟨chunk, stop, later⟩ := found
      cases chunk with
      | none => exact ⟨_, .finish is read, sameFresh_update asked⟩
      | some rows => exact ⟨_, .chunk is read, sameFresh_update asked⟩
  | failing => exact ⟨_, .replay is, sameFresh_update asked⟩
  | replayed => exact ⟨_, .report is, sameFresh_update asked⟩
  | failed => cases fine.symm.trans (right.phaseOf is)

end

/-- The parts that were asked can always be read to their ends, the others left unread. -/
theorem finishes (short : Short split.source split.first) (fine : split.single.2 = none)
    (reached : Reaches split world) : ∃ later, Relation.ReflTransGen (Step split) world later ∧ SameFresh world later ∧
      ∀ index, world.phase index ≠ .fresh → later.phase index = .finished := by
  induction size : work split world using Nat.strong_induction_on generalizing world with
  | _ size ih =>
    have right := Right.reaches short reached
    by_cases done : ∀ index, world.phase index ≠ .fresh → world.phase index = .finished
    · exact ⟨world, .refl, fun _ => Iff.rfl, done⟩
    obtain ⟨index, notDone⟩ := not_forall.mp done
    obtain ⟨asked, going⟩ := Classical.not_imp.mp notDone
    obtain ⟨next, step, same⟩ := progress right (.reaches short reached) fine asked going
    obtain ⟨later, steps, sameLater, finished⟩ := ih _ (size ▸ work_step right step) (reached.step step) rfl
    exact ⟨later, steps.head step, fun other => (sameLater other).trans (same other),
      fun other moved => finished other fun fresh => moved ((same other).mp fresh)⟩

/-- What a part has handed back is the first of its range's rows. -/
theorem rows_prefix (right : Right split world) (fine : split.single.2 = none) (index : Nat) :
    world.rows index <+: split.partRows index := by
  cases is : world.phase index with
  | reading here line =>
    obtain ⟨_, front, back, takes, _, rows⟩ := right.phaseOf is
    obtain ⟨more, eq⟩ := takes_part takes
    rw [rows, partRows, ← eq, List.filterMap_append]
    exact List.prefix_append _ _
  | finished => rw [show world.rows index = split.partRows index from right.phaseOf is]
  | failing => exact absurd (right.phaseOf is) (not_fails fine)
  | replayed | failed => cases fine.symm.trans (right.phaseOf is)
  | fresh | guessing | waiting =>
    rw [show world.rows index = [] from right.phaseOf is]
    exact List.nil_prefix
  | helping | started | learning =>
    rw [(right.phaseOf is).1]
    exact List.nil_prefix

end Split

theorem Reaches.steps (reached : Reaches split world)
    (steps : Relation.ReflTransGen (Step split) world later) : Reaches split later := by
  induction steps with
  | refl => exact reached
  | tail _ step ih => exact ih.step step

/-- A file of lines that all convert, behind a comment the last of them, in two ranges. -/
def commented (limit : Nat) : Split (List UInt8) where
  source :=
    { file := [49, 10, 49, 10, 49, 10, 49, 10, 49, 10, 49, 10, 49, 10,
        35, 99, 99, 99, 99, 99, 99, 99, 99, 99, 99, 10, 50, 10]
      dialect := ⟨44, none, none, some 35⟩
      plain := by decide
      limit := limit
      fixed := false
      tooLong := fun number _ size => s!"{number}: {size}"
      bad := fun _ => false
      row := fun record => some (record.fields.map fun place => UInt8.ofNat place.start)
      refusal := fun _ _ => "" }
  first := 0
  line := 1
  ranges := 2
  ranges_pos := by decide

end Rudb.Csv
