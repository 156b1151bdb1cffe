import Rudb.Txn.JournalProofs

/-! What recovery keeps of the blocks that a crash left: the run of commits from the file's cut
on that has no gap. -/
namespace Rudb.Txn
open List

def Committed.ts (block : Committed) : Nat := block.commit.commitTs.toNat

/-- Recovery keeps the run of commits with no gap, each of which depends on the one before it. -/
theorem keep_run {anchor : Anchor} (voids : anchor.voids = [])
    (sorted : blocks.Pairwise fun one other => one.ts < other.ts)
    (chained : ∀ block ∈ blocks, done < block.ts ∧ block.commit.depTs.toNat + 1 = block.ts) :
    ∃ count, anchor.keep done blocks = blocks.take count ∧
      (blocks.take count).map Committed.ts = range' (done + 1) count ∧
      ∀ block ∈ blocks, (∀ ts, done < ts → ts ≤ block.ts → ∃ other ∈ blocks, other.ts = ts) →
        block.ts ≤ done + count := by
  induction blocks generalizing done with
  | nil => exact ⟨0, rfl, rfl, by simp⟩
  | cons first rest ih =>
    obtain ⟨above, depends⟩ := chained first (by simp)
    obtain ⟨smallest, sorted⟩ := pairwise_cons.mp sorted
    rw [Anchor.keep, voids, length_nil, Anchor.skip]
    by_cases gap : done < first.commit.depTs.toNat
    · -- the commit after `done` is missing, so no later one has all before it
      rw [if_pos gap]
      refine ⟨0, rfl, rfl, fun block member whole => ?_⟩
      obtain ⟨other, present, next⟩ := whole (done + 1) (by omega) (by
        rcases mem_cons.mp member with rfl | later
        · omega
        · have := smallest block later
          omega)
      rcases mem_cons.mp present with rfl | later
      · omega
      · have := smallest other later
        omega
    · have next : first.ts = done + 1 := by omega
      rw [if_neg gap]
      have place : max done first.commit.commitTs.toNat = done + 1 := by
        simp only [Committed.ts] at next
        omega
      obtain ⟨count, kept, run, whole⟩ := ih sorted fun block member =>
        ⟨next ▸ smallest block member, (chained block (by simp [member])).2⟩
      refine ⟨count + 1, by rw [place, kept, take_succ_cons], ?_, fun block member all => ?_⟩
      · rw [take_succ_cons, map_cons, run, next, range'_succ]
      rcases mem_cons.mp member with rfl | later
      · omega
      have := whole block later fun ts low high => by
        obtain ⟨other, present, same⟩ := all ts (by omega) high
        rcases mem_cons.mp present with rfl | later'
        · omega
        · exact ⟨other, later', same⟩
      omega

/-- Every element of a list that has an origin has one in its place. -/
theorem exists_map_eq {f : α → β} {P : α → Prop} {list : List β}
    (each : ∀ b ∈ list, ∃ a, P a ∧ f a = b) : ∃ origin : List α, origin.map f = list ∧ ∀ a ∈ origin, P a := by
  induction list with
  | nil => exact ⟨[], rfl, by simp⟩
  | cons first rest ih =>
    obtain ⟨a, has, same⟩ := each first (by simp)
    obtain ⟨origin, maps, all⟩ := ih fun b member => each b (by simp [member])
    exact ⟨a :: origin, by rw [map_cons, same, maps], by
      intro b member
      rcases mem_cons.mp member with rfl | later
      · exact has
      · exact all b later⟩

/-- Lists with one image under a function that tells their elements apart are one list. -/
theorem eq_of_map_eq {f : α → β} {one other : List α}
    (apart : ∀ a ∈ one, ∀ b ∈ other, f a = f b → a = b) (same : one.map f = other.map f) : one = other := by
  induction one generalizing other with
  | nil => simpa using same.symm
  | cons first rest ih =>
    cases other with
    | nil => simp at same
    | cons second later =>
      rw [map_cons, map_cons, cons.injEq] at same
      rw [apart first (by simp) second (by simp) same.1,
        ih (fun a member b member' => apart a (by simp [member]) b (by simp [member'])) same.2]

def Logged.block (entry : Logged) : Committed :=
  entry.made.committed (UInt8.ofNat entry.lane) (UInt64.ofNat entry.piece.sequence)

theorem Logged.Holds.length {entry : Logged} (holds : entry.Holds last durable) :
    entry.piece.bytes.length = entry.made.block.len := by
  rw [holds.bytes, entry.made.holds.length_encode]

/-- The blocks before a cut are a front of them: each one that ends before it. -/
theorem wholeBefore_front {entries : List Logged} (cut : Nat)
    (sizes : ∀ entry ∈ entries, entry.piece.bytes.length = entry.made.block.len)
    (contiguous : Contiguous at_ (entries.map (·.piece))) :
    ∃ count, wholeBefore cut (entries.map (·.made)) = (entries.take count).map (·.made) ∧
      ∀ entry ∈ entries, entry ∈ entries.take count ↔ entry.piece.offset + entry.piece.bytes.length ≤ at_ + cut := by
  induction entries generalizing at_ cut with
  | nil => exact ⟨0, rfl, by simp⟩
  | cons first rest ih =>
    obtain ⟨start, later⟩ := contiguous
    simp only at start later
    have size := sizes first (by simp)
    have past : ∀ entry ∈ rest, at_ + first.piece.bytes.length ≤ entry.piece.offset := fun entry member =>
      later.disjoint.1 entry.piece (mem_map_of_mem member)
    by_cases whole : first.made.block.len ≤ cut
    · obtain ⟨count, front, inside⟩ := ih (cut - first.made.block.len)
        (fun entry member => sizes entry (by simp [member])) later
      refine ⟨count + 1, by rw [map_cons, wholeBefore, if_pos whole, front]; rfl, fun entry member => ?_⟩
      rw [take_succ_cons, mem_cons]
      by_cases here : entry = first
      · subst here
        exact ⟨fun _ => by omega, fun _ => .inl rfl⟩
      · have there := (mem_cons.mp member).resolve_left here
        rw [or_iff_right here, inside entry there]
        omega
    · refine ⟨0, by rw [map_cons, wholeBefore, if_neg whole]; rfl, fun entry member => ?_⟩
      refine ⟨fun none => (by cases none), fun before => ?_⟩
      -- the blocks after the first start past the cut as well
      rcases mem_cons.mp member with rfl | there
      · omega
      · have := past entry there
        omega

namespace World
variable {cut : Nat} {world : World} {kept : Nat → Nat → Nat}

theorem mem_segment {sequence : Nat} : entry ∈ world.segment number sequence ↔
      entry ∈ world.log ∧ entry.lane = number ∧ entry.piece.sequence = sequence := by
  simp [segment]

theorem Recorded.segment_pieces (recorded : world.Recorded cut)
    (opened : world.journal.lanes number = some lane) (sequence : Nat) :
    (world.segment number sequence).map (·.piece) = lane.blocks.filter (·.sequence == sequence) := by
  have blocks := recorded.blocks number
  rw [opened, Option.map_some, Option.getD_some] at blocks
  rw [← blocks, filter_map, filter_filter]
  congr 1
  exact filter_congr fun entry _ => by
    by_cases lane : entry.lane = number <;> by_cases same : entry.piece.sequence = sequence <;>
      simp [lane, same]

/-- A block that a crash which keeps `kept` bytes of each segment leaves whole. -/
def Whole (kept : Nat → Nat → Nat) (entry : Logged) : Prop :=
  entry.piece.offset + entry.piece.bytes.length ≤ segmentHeader + kept entry.lane entry.piece.sequence

/-- What replay reads of a segment is a front of its blocks: those the crash left whole. -/
theorem Recorded.replayed_segment (recorded : world.Recorded cut)
    (opened : world.journal.lanes number = some lane) (sequence : Nat) :
    ∃ count, readBlocks (((world.segment number sequence).flatMap (·.piece.bytes)).take (kept number sequence)) 0
        (UInt8.ofNat number) (UInt64.ofNat sequence) = ((world.segment number sequence).take count).map Logged.block ∧
      ∀ entry ∈ world.segment number sequence,
        entry ∈ (world.segment number sequence).take count ↔ Whole kept entry := by
  have each : ∀ entry ∈ world.segment number sequence, entry.Holds world.journal.last world.file.durable :=
    fun entry member => recorded.each entry (mem_segment.mp member).1
  have contiguous := (Sound.of_reachable (recorded.reachable number lane opened).2).contiguous sequence
  rw [← recorded.segment_pieces opened] at contiguous
  obtain ⟨count, front, inside⟩ := wholeBefore_front (kept number sequence)
    (fun entry member => (each entry member).length) contiguous
  refine ⟨count, ?_, fun entry member => ?_⟩
  rotate_left
  · rw [inside entry member, Whole, (mem_segment.mp member).2.1, (mem_segment.mp member).2.2]
  have bytes : (world.segment number sequence).flatMap (·.piece.bytes) =
      encodeAll (UInt8.ofNat number) (seed (UInt64.ofNat sequence)) ((world.segment number sequence).map (·.made)) := by
    rw [encodeAll, flatMap_map]
    refine flatMap_congr fun entry member => ?_
    obtain ⟨_, lane, same⟩ := mem_segment.mp member
    rw [(each entry member).bytes, lane, same]
  have counted : ∀ made ∈ (world.segment number sequence).map (·.made), made.entries.length < 2 ^ 32 := by
    intro made member
    obtain ⟨entry, inside, rfl⟩ := mem_map.mp member
    exact (each entry inside).counted
  rw [readBlocks, drop_zero, bytes, read_run _ _ counted, front, map_map]
  refine map_congr_left fun entry member => ?_
  obtain ⟨_, lane, same⟩ := mem_segment.mp (mem_of_mem_take member)
  simp [Logged.block, lane, same]

def Apart (one other : Logged) : Prop := one.sync.isSome → other.sync.isSome → one.ts ≠ other.ts

section
variable (recorded : world.Recorded cut)
include recorded

theorem Recorded.eq_of_ts (first : one ∈ world.log)
    (second : other ∈ world.log) (commit : one.sync.isSome) (commit' : other.sync.isSome)
    (same : one.ts = other.ts) : one = other := by
  have nodup : ((world.log.filter (·.sync.isSome)).map (·.ts)).Nodup := by
    rw [recorded.commits]
    exact nodup_range'
  exact inj_on_of_nodup_map nodup (mem_filter.mpr ⟨first, commit⟩)
    (mem_filter.mpr ⟨second, commit'⟩) same

theorem Recorded.apart : world.log.Pairwise Apart := by
  have nodup : ((world.log.filter (·.sync.isSome)).map (·.ts)).Nodup := by
    rw [recorded.commits]
    exact nodup_range'
  exact pairwise_filter.mp (pairwise_map.mp nodup)

/-- The blocks that a crash leaves: some of those queued, each at most once, and every one that
lies whole before where its segment was cut. -/
theorem Recorded.survivors (kept : Nat → Nat → Nat) : ∃ entries : List Logged,
      ((range mostLanes).map (world.replayed kept)).flatten = entries.map Logged.block ∧
      (∀ entry ∈ entries, entry ∈ world.log ∧ Whole kept entry) ∧ entries.Pairwise Apart ∧
      ∀ entry ∈ world.log, Whole kept entry → entry ∈ entries := by
  have segments : ∀ number sequence, ∃ count, ∀ lane, world.journal.lanes number = some lane →
      readBlocks (((world.segment number sequence).flatMap (·.piece.bytes)).take (kept number sequence)) 0
          (UInt8.ofNat number) (UInt64.ofNat sequence) =
          ((world.segment number sequence).take count).map Logged.block ∧
        ∀ entry ∈ world.segment number sequence,
          entry ∈ (world.segment number sequence).take count ↔ Whole kept entry := by
    intro number sequence
    cases opened : world.journal.lanes number with
    | none => exact ⟨0, by simp⟩
    | some lane =>
      obtain ⟨count, found⟩ := recorded.replayed_segment opened sequence
      exact ⟨count, fun _ _ => found⟩
  choose front found using segments
  have origin : ∀ {number sequence entry}, entry ∈ (world.segment number sequence).take (front number sequence) →
      entry ∈ world.log ∧ entry.lane = number ∧ entry.piece.sequence = sequence :=
    fun member => mem_segment.mp (mem_of_mem_take member)
  refine ⟨(range mostLanes).flatMap fun number =>
    (range (((world.journal.lanes number).map (·.state.tailSequence + 1)).getD 0)).flatMap fun sequence =>
      (world.segment number sequence).take (front number sequence), ?_, ?_, ?_, ?_⟩
  · rw [map_flatMap]
    refine flatMap_congr fun number _ => ?_
    rw [map_flatMap]
    refine flatMap_congr fun sequence inside => ?_
    cases opened : world.journal.lanes number with
    | none => simp [opened] at inside
    | some lane => exact (found number sequence lane opened).1
  · intro entry member
    obtain ⟨number, _, member⟩ := mem_flatMap.mp member
    obtain ⟨sequence, inside, member⟩ := mem_flatMap.mp member
    refine ⟨(origin member).1, ?_⟩
    cases opened : world.journal.lanes number with
    | none => simp [opened] at inside
    | some lane => exact ((found number sequence lane opened).2 entry (mem_of_mem_take member)).mp member
  · have differ : ∀ one other : Logged, one ∈ world.log → other ∈ world.log → one ≠ other → Apart one other :=
      fun one other first second away commit commit' same =>
        away (recorded.eq_of_ts first second commit commit' same)
    rw [pairwise_flatMap]
    refine ⟨fun number _ => ?_, ?_⟩
    · rw [pairwise_flatMap]
      refine ⟨fun sequence _ => ?_, ?_⟩
      · exact (recorded.apart.filter _).sublist (take_sublist _ _)
      refine List.Pairwise.imp ?_ nodup_range
      intro sequence sequence' away one first other second
      refine differ one other (origin first).1 (origin second).1 fun same => away ?_
      rw [← (origin first).2.2, ← (origin second).2.2, same]
    refine List.Pairwise.imp ?_ nodup_range
    intro number number' away one first other second
    obtain ⟨_, _, first⟩ := mem_flatMap.mp first
    obtain ⟨_, _, second⟩ := mem_flatMap.mp second
    refine differ one other (origin first).1 (origin second).1 fun same => away ?_
    rw [← (origin first).2.1, ← (origin second).2.1, same]
  · intro entry member whole
    have placed : entry.piece ∈ ((world.journal.lanes entry.lane).map (·.blocks)).getD [] := by
      rw [← recorded.blocks]
      exact mem_map_of_mem (mem_filter.mpr ⟨member, by simp⟩)
    cases opened : world.journal.lanes entry.lane with
    | none => simp [opened] at placed
    | some lane =>
      rw [opened] at placed
      obtain ⟨first, -, -, laid⟩ := (Sound.of_reachable (recorded.reachable _ lane opened).2).laid
      have last := laid.le_sequence placed
      refine mem_flatMap.mpr ⟨entry.lane, mem_range.mpr (recorded.each entry member).lane,
        mem_flatMap.mpr ⟨entry.piece.sequence, ?_, ?_⟩⟩
      · rw [opened, mem_range]
        exact Nat.lt_succ_of_le last
      · exact ((found _ _ lane opened).2 entry (mem_segment.mpr ⟨member, rfl, rfl⟩)).mpr whole

theorem Recorded.block_ts (member : entry ∈ world.log) : entry.block.ts = entry.ts := by
  have holds := recorded.each entry member
  simp only [Committed.ts, Logged.block, Made.committed, holds.stamp]
  exact UInt64.toNat_ofNat_of_lt' (holds.ts.trans_lt recorded.small)

theorem Recorded.block_dep (member : entry ∈ world.log)
    (commit : entry.sync.isSome) : entry.block.commit.depTs.toNat + 1 = entry.ts := by
  have holds := recorded.each entry member
  have small := recorded.small
  obtain ⟨positive, depends⟩ := holds.depends commit
  have ts := holds.ts
  simp only [Logged.block, Made.committed, depends]
  rw [UInt64.toNat_ofNat_of_lt' (by simp only [UInt64.size]; omega)]
  omega

end

theorem changes_block (entry : Logged) : entry.block.changes = changes entry := by
  simp only [Committed.changes, Logged.block, Made.committed, changes, filter_map, map_map]
  rfl

def above (world : World) : List Logged := world.commits.filter fun entry => decide (world.file.durable < entry.ts)

theorem mem_above : entry ∈ world.above ↔
    entry ∈ world.log ∧ entry.sync.isSome ∧ world.file.durable < entry.ts := by
  simp only [above, commits, mem_filter, decide_eq_true_eq, and_assoc]

theorem Recorded.above_ts (recorded : world.Recorded cut) :
    world.above.map (·.ts) = range' (world.file.durable + 1) (world.journal.last - world.file.durable) := by
  have start := recorded.start
  have low := recorded.fits.low
  have split : range' (cut + 1) (world.journal.last - cut) =
      range' (cut + 1) (world.file.durable - cut) ++
        range' (world.file.durable + 1) (world.journal.last - world.file.durable) := by
    have place : world.file.durable + 1 = cut + 1 + 1 * (world.file.durable - cut) := by omega
    have length : world.journal.last - cut =
        (world.file.durable - cut) + (world.journal.last - world.file.durable) := by omega
    rw [place, range'_append, length]
  have before : (range' (cut + 1) (world.file.durable - cut)).filter
      (fun ts => decide (world.file.durable < ts)) = [] := by
    refine filter_eq_nil_iff.mpr fun ts member => ?_
    have := (mem_range'_1.mp member).2
    simp only [decide_eq_true_eq]
    omega
  have after : (range' (world.file.durable + 1) (world.journal.last - world.file.durable)).filter
      (fun ts => decide (world.file.durable < ts)) =
      range' (world.file.durable + 1) (world.journal.last - world.file.durable) := by
    refine filter_eq_self.mpr fun ts member => ?_
    have := (mem_range'_1.mp member).1
    simp only [decide_eq_true_eq]
    omega
  have filtered := congrArg (filter fun ts => decide (world.file.durable < ts)) recorded.commits
  rw [split, filter_append, before, after, filter_map] at filtered
  exact filtered

/-- The blocks that recovery sorts: the survivors above the file's cut, each with a timestamp of
its own. -/
structure Sorted (world : World) (entries : List Logged) (blocks : List Committed) : Prop where
  sorted : blocks.Pairwise fun one other => one.ts < other.ts
  origin : ∀ block ∈ blocks, ∃ entry, (entry ∈ world.above ∧ entry ∈ entries) ∧ entry.block = block
  present : ∀ entry ∈ entries, entry ∈ world.above → entry.block ∈ blocks

theorem Recorded.sorted (recorded : world.Recorded cut) {entries : List Logged}
    (logged : ∀ entry ∈ entries, entry ∈ world.log) (apart : entries.Pairwise Apart) :
    Sorted world entries (((entries.map Logged.block).filter fun block =>
      world.file.replays block.commit.commitTs.toNat).mergeSort
        fun one other => decide (one.commit.commitTs ≤ other.commit.commitTs)) := by
  have taken : (entries.map Logged.block).filter (fun block => world.file.replays block.commit.commitTs.toNat) =
      (entries.filter fun entry => decide (world.file.durable < entry.ts)).map Logged.block := by
    rw [filter_map]
    congr 1
    refine filter_congr fun entry member => ?_
    have ts := recorded.block_ts (logged entry member)
    simp only [Committed.ts] at ts
    simp [Anchor.replays, recorded.fits.voids, ts]
  have commits : ∀ entry ∈ entries.filter fun entry => decide (world.file.durable < entry.ts),
      entry ∈ world.above := by
    intro entry member
    obtain ⟨inside, late⟩ := mem_filter.mp member
    rw [decide_eq_true_eq] at late
    refine mem_above.mpr ⟨logged entry inside, ?_, late⟩
    cases kind : entry.sync with
    | none =>
      have := (recorded.each entry (logged entry inside)).note kind
      omega
    | some sync => rfl
  rw [taken]
  generalize among : entries.filter (fun entry => decide (world.file.durable < entry.ts)) = late at commits ⊢
  have order := mergeSort_perm (late.map Logged.block) fun one other =>
    decide (one.commit.commitTs ≤ other.commit.commitTs)
  refine ⟨?_, fun block member => ?_, fun entry inside member => ?_⟩
  · have differ : (late.map Logged.block).Pairwise fun one other => one.ts ≠ other.ts := by
      rw [pairwise_map]
      refine List.Pairwise.imp_of_mem ?_ (among ▸ apart.filter _)
      intro one other first second apart
      have first := mem_above.mp (commits one first)
      have second := mem_above.mp (commits other second)
      rw [recorded.block_ts first.1, recorded.block_ts second.1]
      exact apart first.2.1 second.2.1
    have sorted : ((late.map Logged.block).mergeSort fun one other =>
      decide (one.commit.commitTs ≤ other.commit.commitTs)).Pairwise
        fun one other => decide (one.commit.commitTs ≤ other.commit.commitTs) = true :=
      pairwise_mergeSort
        (fun one other third first second => by
          simp only [decide_eq_true_eq] at first second ⊢
          exact UInt64.le_trans first second)
        (fun one other => by simpa using UInt64.le_total one.commit.commitTs other.commit.commitTs) _
    refine (sorted.and ((order.pairwise_iff fun away => Ne.symm away).mpr differ)).imp fun both => ?_
    have le : _ ≤ _ := UInt64.le_iff_toNat_le.mp (of_decide_eq_true both.1)
    exact lt_of_le_of_ne le both.2
  · obtain ⟨entry, inside, same⟩ := mem_map.mp (order.subset member)
    exact ⟨entry, ⟨commits entry inside, mem_of_mem_filter (among ▸ inside)⟩, same⟩
  · refine order.symm.subset (mem_map_of_mem (among ▸ mem_filter.mpr ⟨inside, ?_⟩))
    simpa using (mem_above.mp member).2.2

/-- Recovery hands back the changes of a front of the commits above the file's cut, in order, and
the front has every commit before which the crash left all. -/
theorem Recorded.recovered_front (recorded : world.Recorded cut) (kept : Nat → Nat → Nat) :
    ∃ count, (world.recovered kept).changes = (world.above.take count).flatMap changes ∧
      (∀ entry ∈ world.above.take count, Whole kept entry) ∧
      ∀ entry ∈ world.above, (∀ other ∈ world.above, other.ts ≤ entry.ts → Whole kept other) →
        entry ∈ world.above.take count := by
  obtain ⟨entries, image, logged, apart, whole⟩ := recorded.survivors kept
  have sorted := recorded.sorted (fun entry member => (logged entry member).1) apart
  have result : (world.recovered kept).changes = (world.file.keep world.file.durable
      (((entries.map Logged.block).filter fun block => world.file.replays block.commit.commitTs.toNat).mergeSort
        fun one other => decide (one.commit.commitTs ≤ other.commit.commitTs))).flatMap Committed.changes := by
    rw [recovered, recover, image]
  rw [result]
  generalize ((entries.map Logged.block).filter fun block =>
    world.file.replays block.commit.commitTs.toNat).mergeSort
      (fun one other => decide (one.commit.commitTs ≤ other.commit.commitTs)) = blocks at sorted ⊢
  obtain ⟨origins, maps, inside⟩ := exists_map_eq sorted.origin
  have chained : ∀ block ∈ blocks, world.file.durable < block.ts ∧ block.commit.depTs.toNat + 1 = block.ts := by
    intro block member
    obtain ⟨entry, known, rfl⟩ := sorted.origin block member
    obtain ⟨logged, commit, late⟩ := mem_above.mp known.1
    rw [recorded.block_ts logged]
    exact ⟨late, recorded.block_dep logged commit⟩
  obtain ⟨count, keeps, run, reaches⟩ := keep_run recorded.fits.voids sorted.sorted chained
  have stamps : (origins.take count).map (·.ts) = range' (world.file.durable + 1) count := by
    rw [← run, ← maps, ← map_take, map_map]
    refine map_congr_left fun entry member => ?_
    exact (recorded.block_ts (mem_above.mp (inside entry (mem_of_mem_take member)).1).1).symm
  have short : count ≤ world.journal.last - world.file.durable := by
    by_contra long
    have member : world.journal.last + 1 ∈ (origins.take count).map (·.ts) := by
      have low := recorded.fits.low
      rw [stamps, mem_range'_1]
      omega
    obtain ⟨entry, member, late⟩ := mem_map.mp member
    have := (recorded.each entry (mem_above.mp (inside entry (mem_of_mem_take member)).1).1).ts
    omega
  have front : origins.take count = world.above.take count := by
    refine eq_of_map_eq (f := (·.ts)) (fun one first other second same => ?_) ?_
    · have first := mem_above.mp (inside one (mem_of_mem_take first)).1
      have second := mem_above.mp (mem_of_mem_take second)
      exact recorded.eq_of_ts first.1 second.1 first.2.1 second.2.1 same
    · rw [stamps, map_take, recorded.above_ts, ← Nat.add_sub_cancel' short, ← range'_append,
        take_left' (by simp)]
  refine ⟨count, ?_, fun entry member => ?_, fun entry member all => ?_⟩
  · rw [keeps, ← maps, ← map_take, front, flatMap_map]
    exact flatMap_congr fun entry _ => changes_block entry
  · rw [← front] at member
    exact (logged entry (inside entry (mem_of_mem_take member)).2).2
  have present : ∀ other ∈ world.above, other.ts ≤ entry.ts → other.block ∈ blocks := fun other known low =>
    sorted.present other (whole other (mem_above.mp known).1 (all other known low)) known
  have reached := reaches entry.block (present entry member le_rfl) fun ts low high => by
    rw [recorded.block_ts (mem_above.mp member).1] at high
    have between : ts ∈ world.above.map (·.ts) := by
      have := (recorded.each entry (mem_above.mp member).1).ts
      rw [recorded.above_ts, mem_range'_1]
      omega
    obtain ⟨other, known, rfl⟩ := mem_map.mp between
    exact ⟨other.block, present other known high, recorded.block_ts (mem_above.mp known).1⟩
  rw [recorded.block_ts (mem_above.mp member).1] at reached
  have counted : entry.ts ∈ (world.above.take count).map (·.ts) := by
    have := (mem_above.mp member).2.2
    rw [← front, stamps, mem_range'_1]
    omega
  obtain ⟨other, known, same⟩ := mem_map.mp counted
  have first := mem_above.mp (mem_of_mem_take known)
  have second := mem_above.mp member
  rwa [← recorded.eq_of_ts first.1 second.1 first.2.1 second.2.1 same]

end World

end Rudb.Txn
