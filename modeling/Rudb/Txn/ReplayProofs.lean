import Rudb.Txn.Replay
import Mathlib.Tactic.Ring

/-! Replay undoes commit: the blocks of a segment read back as they were encoded, and a segment
cut short reads back the blocks that lie wholly before the cut. -/
namespace Rudb.Txn
open List

/-- Where payloads laid one after another from `start` end. -/
def ends : Nat → List Entry → List (Kind × UInt16 × Nat)
  | _, [] => []
  | start, entry :: rest =>
    (entry.kind, entry.flags, start + entry.payload.length) :: ends (start + entry.payload.length) rest

def payloads (entries : List Entry) : List UInt8 := entries.flatMap Entry.payload

def laneBytes (entries : List Entry) : Nat :=
  (entries.map fun entry => recordBytes entry.payload.length).sum

theorem length_ends (start : Nat) (entries : List Entry) : (ends start entries).length = entries.length := by
  induction entries generalizing start with
  | nil => rfl
  | cons entry rest ih => simp [ends, ih]

theorem ends_snoc (start : Nat) (entries : List Entry) (entry : Entry) :
    ends start (entries ++ [entry]) = ends start entries ++
      [(entry.kind, entry.flags, start + (payloads entries ++ entry.payload).length)] := by
  induction entries generalizing start with
  | nil => simp [ends, payloads]
  | cons first rest ih =>
    simp only [cons_append, ends, ih]
    simp [payloads, add_assoc]

/-- A record a block takes. -/
def Entry.Plain (entry : Entry) : Prop := entry.kind ≠ .commit ∧ entry.payload.length < 2 ^ 32

namespace Block
variable {block after : Block} {entries : List Entry} {entry : Entry}

/-- A block that holds the records of `entries`. -/
structure Holds (block : Block) (entries : List Entry) : Prop where
  records : block.records = ends 0 entries
  data : block.data = payloads entries
  bytes : block.bytes = laneBytes entries
  plain : ∀ entry ∈ entries, entry.Plain

theorem Holds.new (txn commitTs depTs : UInt64) : (Block.new txn commitTs depTs).Holds [] :=
  ⟨rfl, rfl, rfl, by simp⟩

def stamps (block : Block) : UInt64 × UInt64 × UInt64 := (block.txn, block.commitTs, block.depTs)

theorem push_ok (plain : entry.Plain) (block : Block) :
    block.push entry = .ok { block with
      data := block.data ++ entry.payload
      records := block.records ++ [(entry.kind, entry.flags, (block.data ++ entry.payload).length)]
      bytes := block.bytes + recordBytes entry.payload.length } := by
  rw [push, if_neg plain.1, if_neg (by have := plain.2; omega)]

theorem plain_of_push (pushed : block.push entry = .ok after) : entry.Plain := by
  unfold push at pushed
  split at pushed
  · cases pushed
  rename_i kind
  split at pushed
  · cases pushed
  · exact ⟨kind, by omega⟩

theorem Holds.push (holds : block.Holds entries) (pushed : block.push entry = .ok after) :
    after.Holds (entries ++ [entry]) ∧ after.stamps = block.stamps := by
  have plain := plain_of_push pushed
  rw [push_ok plain, Except.ok.injEq] at pushed
  subst pushed
  refine ⟨⟨?_, ?_, ?_, ?_⟩, rfl⟩
  · simp [holds.records, holds.data, ends_snoc]
  · simp [holds.data, payloads]
  · simp [holds.bytes, laneBytes]
  intro other member
  rcases mem_append.mp member with before | last
  · exact holds.plain other before
  · rwa [mem_singleton.mp last]

theorem Holds.pushAll (holds : block.Holds entries) (pushed : block.pushAll more = .ok after) :
    after.Holds (entries ++ more) ∧ after.stamps = block.stamps := by
  induction more generalizing block entries with
  | nil =>
    cases pushed
    simpa using holds
  | cons entry rest ih =>
    cases first : block.push entry with
    | error refused => simp [Block.pushAll, first, bind, Except.bind] at pushed
    | ok next =>
      simp only [Block.pushAll, first, bind, Except.bind] at pushed
      obtain ⟨held, same⟩ := holds.push first
      obtain ⟨all, stamps⟩ := ih held pushed
      exact ⟨by simpa using all, stamps.trans same⟩

theorem pushAll_ok (block : Block) (entries : List Entry) (plain : ∀ entry ∈ entries, entry.Plain) :
    ∃ after, block.pushAll entries = .ok after := by
  induction entries generalizing block with
  | nil => exact ⟨block, rfl⟩
  | cons entry rest ih =>
    simp only [pushAll, push_ok (plain entry (by simp)), bind, Except.bind]
    exact ih _ fun other member => plain other (by simp [member])

end Block

def Entry.header (entry : Entry) (lane : UInt8) (commitTs : UInt64) : RecordHeader :=
  { kind := entry.kind, lane, flags := entry.flags, gsn := commitTs }

def Entry.record (entry : Entry) (lane : UInt8) (commitTs : UInt64) : Record :=
  { header := entry.header lane commitTs, payload := entry.payload }

/-- The bytes of records one after another. -/
def encodeEntries (lane : UInt8) (commitTs : UInt64) (seed : UInt32) (entries : List Entry) : List UInt8 :=
  entries.flatMap fun entry => encodeRecord (entry.header lane commitTs) entry.payload seed

theorem length_encodeEntries (lane : UInt8) (commitTs : UInt64) (seed : UInt32) (entries : List Entry) :
    (encodeEntries lane commitTs seed entries).length = laneBytes entries := by
  simp [encodeEntries, laneBytes, length_flatMap]

namespace Block
variable {block : Block}

/-- The loop of `encode` writes each record's own payload. -/
theorem encodeRecords_ends (block : Block) (entries : List Entry) (lane : UInt8) (seed : UInt32)
    (front : List UInt8) (data : block.data = front ++ payloads entries) :
    block.encodeRecords lane seed front.length (ends front.length entries) =
      encodeEntries lane block.commitTs seed entries := by
  induction entries generalizing front with
  | nil => rfl
  | cons entry rest ih =>
    have own : (block.data.drop front.length).take entry.payload.length = entry.payload := by
      rw [data, drop_left' rfl, payloads, flatMap_cons, take_left' rfl]
    have next := ih (front ++ entry.payload) (by simp [data, payloads])
    rw [length_append] at next
    simp only [ends, encodeRecords, Nat.add_sub_cancel_left, own, next]
    simp [encodeEntries, Entry.header]

theorem Holds.encode_eq (holds : block.Holds entries) (lane : UInt8) (seed : UInt32) : block.encode lane seed =
      encodeEntries lane block.commitTs seed entries ++ block.encodeCommit lane seed := by
  have loop := encodeRecords_ends block entries lane seed [] holds.data
  rw [length_nil] at loop
  rw [encode, holds.records, loop]

theorem length_encodeCommit (block : Block) (lane : UInt8) (seed : UInt32) :
    (block.encodeCommit lane seed).length = recordBytes Commit.len := by
  simp [encodeCommit]

/-- `len` is how many bytes `encode` writes. -/
theorem Holds.length_encode (holds : block.Holds entries) (lane : UInt8) (seed : UInt32) :
    (block.encode lane seed).length = block.len := by
  rw [holds.encode_eq, length_append, length_encodeEntries, length_encodeCommit, len, holds.bytes]

end Block

section Reading
variable {sequence : UInt64}

theorem read_nothing (gone : decodeRecord rest (seed sequence) = none) :
    readBlocksFrom lane sequence rest records taken = [] := by
  rw [readBlocksFrom]
  split
  · rfl
  · rename_i found
    rw [gone] at found
    cases found

/-- A record that is not a commit joins the block being read. -/
theorem read_entry {entry : Entry} (plain : entry.Plain) (commitTs : UInt64) : readBlocksFrom lane sequence
        (encodeRecord (entry.header lane commitTs) entry.payload (seed sequence) ++ rest) records taken =
      readBlocksFrom lane sequence rest (records ++ [entry.record lane commitTs])
        (taken + UInt64.ofNat (recordBytes entry.payload.length)) := by
  have decoded := decode_encodeRecord (entry.header lane commitTs) entry.payload (seed sequence) plain.2 rest
  rw [readBlocksFrom]
  split
  · rename_i gone
    rw [decoded] at gone
    cases gone
  rename_i header payload total found
  rw [decoded] at found
  obtain ⟨rfl, rfl, rfl⟩ := found
  rw [if_neg (by simp [Entry.header]), if_pos (by simpa [Entry.header] using plain.1),
    drop_left' (length_encodeRecord _ _ _)]
  rfl

theorem read_entries (plain : ∀ entry ∈ entries, entry.Plain) (commitTs : UInt64) :
    readBlocksFrom lane sequence (encodeEntries lane commitTs (seed sequence) entries ++ rest) records taken =
      readBlocksFrom lane sequence rest (records ++ entries.map (·.record lane commitTs))
        (taken + UInt64.ofNat (laneBytes entries)) := by
  induction entries generalizing records taken with
  | nil => simp [encodeEntries, laneBytes]
  | cons entry more ih =>
    rw [encodeEntries, flatMap_cons, append_assoc, read_entry (plain entry (by simp)) commitTs]
    refine (ih fun other member => plain other (by simp [member])).trans ?_
    simp [laneBytes, UInt64.ofNat_add, UInt64.add_assoc]

/-- A commit ends its block when it counts the records that were read. -/
theorem read_commit (block : Block) (bytes : taken = UInt64.ofNat block.bytes) :
    readBlocksFrom lane sequence (block.encodeCommit lane (seed sequence) ++ rest) records taken =
      if block.commit.records.toNat = records.length then
        { sequence, commit := block.commit, records } :: readBlocksFrom lane sequence rest [] 0
      else [] := by
  have decoded := decode_encodeRecord { kind := .commit, lane, flags := 0, gsn := block.commitTs }
    block.commit.encode (seed sequence) (by simp [Commit.len]) rest
  rw [readBlocksFrom, Block.encodeCommit]
  split
  · rename_i gone
    rw [decoded] at gone
    cases gone
  rename_i header payload total found
  rw [decoded] at found
  obtain ⟨rfl, rfl, rfl⟩ := found
  simp only [ne_eq, not_true_eq_false, if_false, Commit.decode_encode]
  simp [bytes, Block.commit]

/-- A run of records cut short and not ended by a commit gives no block. -/
theorem read_cut (plain : ∀ entry ∈ entries, entry.Plain) (block : Block)
    (inside : cut < laneBytes entries + recordBytes Commit.len) :
    readBlocksFrom lane sequence ((encodeEntries lane block.commitTs (seed sequence) entries ++
      block.encodeCommit lane (seed sequence)).take cut) records taken = [] := by
  induction entries generalizing records taken cut with
  | nil =>
    refine read_nothing ?_
    exact decode_cut _ _ _ (by simp [Commit.len]) (by rwa [Commit.length_encode])
  | cons entry more ih =>
    have own := plain entry (by simp)
    have size := length_encodeRecord (entry.header lane block.commitTs) entry.payload (seed sequence)
    simp only [laneBytes, map_cons, sum_cons] at inside
    rw [encodeEntries, flatMap_cons, append_assoc, take_append, size]
    by_cases whole : recordBytes entry.payload.length ≤ cut
    · rw [take_of_length_le (by omega), read_entry own]
      exact ih (fun other member => plain other (by simp [member])) (by simp only [laneBytes]; omega)
    · rw [(by omega : cut - recordBytes entry.payload.length = 0), take_zero, append_nil]
      exact read_nothing (decode_cut _ _ _ own.2 (by omega))

end Reading

/-- A block made by `new` and by pushes that all succeeded. -/
structure Made where
  txn : UInt64
  commitTs : UInt64
  depTs : UInt64
  entries : List Entry
  block : Block
  made : (Block.new txn commitTs depTs).pushAll entries = .ok block

namespace Made
variable (lane : UInt8) (sequence : UInt64) (made : Made)

theorem holds : made.block.Holds made.entries := by
  exact ((Block.Holds.new made.txn made.commitTs made.depTs).pushAll made.made).1

theorem stamps : made.block.stamps = (made.txn, made.commitTs, made.depTs) :=
  ((Block.Holds.new made.txn made.commitTs made.depTs).pushAll made.made).2

/-- What replay is to give for a block: the commit's own fields, and the records as they were
pushed. -/
def committed : Committed where
  sequence
  commit := {
    txn := made.txn
    commitTs := made.commitTs
    depTs := made.depTs
    records := UInt32.ofNat made.entries.length
    bytes := UInt64.ofNat (laneBytes made.entries) }
  records := made.entries.map (·.record lane made.commitTs)

theorem commit_eq : made.block.commit = (made.committed lane sequence).commit := by
  obtain ⟨txn, commitTs, depTs⟩ := by simpa [Block.stamps] using made.stamps
  simp [Block.commit, committed, txn, commitTs, depTs, made.holds.records, length_ends, made.holds.bytes]

/-- A block reads back whole when its commit counts its records, which a count of 32 bits does
up to 2³² of them. -/
theorem read_block (rest : List UInt8) :
    readBlocksFrom lane sequence (made.block.encode lane (seed sequence) ++ rest) [] 0 =
      if made.entries.length < 2 ^ 32 then
        made.committed lane sequence :: readBlocksFrom lane sequence rest [] 0
      else [] := by
  have stamp : made.block.commitTs = made.commitTs := by
    have := made.stamps
    simp only [Block.stamps, Prod.mk.injEq] at this
    exact this.2.1
  have counted : made.block.commit.records.toNat =
      (([] : List Record) ++ made.entries.map (·.record lane made.block.commitTs)).length ↔
      made.entries.length < 2 ^ 32 := by
    rw [made.commit_eq lane sequence]
    simp only [committed, UInt32.toNat_ofNat', nil_append, length_map]
    omega
  rw [made.holds.encode_eq, append_assoc, read_entries made.holds.plain,
    read_commit made.block (by simp [made.holds.bytes])]
  simp only [counted]
  rw [made.commit_eq lane sequence, stamp]
  rfl

end Made

/-- Blocks encoded one after another. -/
def encodeAll (lane : UInt8) (seed : UInt32) (blocks : List Made) : List UInt8 :=
  blocks.flatMap (·.block.encode lane seed)

/-- The blocks that lie wholly before a cut. -/
def wholeBefore : Nat → List Made → List Made
  | _, [] => []
  | cut, made :: rest =>
    if made.block.len ≤ cut then made :: wholeBefore (cut - made.block.len) rest else []

theorem read_run (lane : UInt8) (sequence : UInt64)
    (counted : ∀ made ∈ blocks, made.entries.length < 2 ^ 32) (cut : Nat) :
    readBlocksFrom lane sequence ((encodeAll lane (seed sequence) blocks).take cut) [] 0 =
      (wholeBefore cut blocks).map (·.committed lane sequence) := by
  induction blocks generalizing cut with
  | nil => exact read_nothing (by simp [encodeAll, decodeRecord, slice, recordHeader])
  | cons made rest ih =>
    have size := made.holds.length_encode lane (seed sequence)
    rw [encodeAll, flatMap_cons, take_append, size, wholeBefore]
    split
    · rw [take_of_length_le (by omega), made.read_block, if_pos (counted made (by simp))]
      exact congrArg _ (ih (fun other member => counted other (by simp [member])) _)
    rename_i cutting
    rw [(by omega : cut - made.block.len = 0), take_zero, append_nil, made.holds.encode_eq]
    refine read_cut made.holds.plain made.block ?_
    rw [← made.holds.bytes]
    exact not_le.mp cutting

theorem wholeBefore_all (lane : UInt8) (seed : UInt32) (blocks : List Made) :
    wholeBefore (encodeAll lane seed blocks).length blocks = blocks := by
  induction blocks with
  | nil => rfl
  | cons made rest ih =>
    have size := made.holds.length_encode lane seed
    rw [encodeAll, flatMap_cons, length_append, size, wholeBefore, if_pos (by omega),
      Nat.add_sub_cancel_left]
    exact congrArg _ ih

/-- Replay undoes commit, block by block: a run of blocks reads back as those blocks in order,
and a run cut off at any byte as the blocks that lie wholly before the cut. -/
theorem replay_undoes_commit (lane : UInt8) (sequence : UInt64) (head : List UInt8) (blocks : List Made)
    (counted : ∀ made ∈ blocks, made.entries.length < 2 ^ 32) :
    readBlocks (head ++ encodeAll lane (seed sequence) blocks) head.length lane sequence =
        blocks.map (·.committed lane sequence) ∧
      ∀ cut, readBlocks (head ++ (encodeAll lane (seed sequence) blocks).take cut) head.length lane sequence =
        (wholeBefore cut blocks).map (·.committed lane sequence) := by
  refine ⟨?_, fun cut => ?_⟩
  · have whole := read_run lane sequence counted (encodeAll lane (seed sequence) blocks).length
    rw [take_length, wholeBefore_all] at whole
    rw [readBlocks, drop_left' rfl, whole]
  · rw [readBlocks, drop_left' rfl]
    exact read_run lane sequence counted cut

/-- A block of one deletion, cut inside its commit and read whole. -/
theorem replay_undoes_commit_one : ∃ made : Made, made.entries = [{ kind := .delete, flags := 2, payload := [7, 9] }] ∧
      readBlocks ([1] ++ encodeAll 3 (seed 5) [made]) 1 3 5 = [made.committed 3 5] ∧
      readBlocks ([1] ++ (encodeAll 3 (seed 5) [made]).take 40) 1 3 5 = [] := by
  let made : Made := {
    txn := 8, commitTs := 9, depTs := 7, entries := [{ kind := .delete, flags := 2, payload := [7, 9] }]
    block := {
      txn := 8, commitTs := 9, depTs := 7, records := [(.delete, 2, 2)], data := [7, 9], bytes := 24 }
    made := rfl }
  have read := replay_undoes_commit 3 5 [1] [made] (by simp [made])
  exact ⟨made, rfl, read.1, read.2 40⟩

/-- A commit counts its records in 32 bits: a block of 2³² of them is not read back. -/
theorem replay_loses_uncounted_block :
    ∃ made : Made, made.entries = List.replicate (2 ^ 32) { kind := .insert, flags := 0, payload := [] } ∧
      readBlocks (encodeAll 0 (seed 1) [made]) 0 0 1 = [] := by
  obtain ⟨block, pushed⟩ := (Block.new 8 9 7).pushAll_ok
    (List.replicate (2 ^ 32) { kind := .insert, flags := 0, payload := [] }) fun entry member => by
      rw [eq_of_mem_replicate member]
      exact ⟨by decide, by decide⟩
  let made : Made := ⟨8, 9, 7, _, block, pushed⟩
  refine ⟨made, rfl, ?_⟩
  have read := made.read_block 0 1 []
  rw [append_nil, if_neg (by simp only [made, length_replicate]; omega)] at read
  rw [readBlocks, drop_zero, encodeAll, flatMap_singleton, read]

end Rudb.Txn
