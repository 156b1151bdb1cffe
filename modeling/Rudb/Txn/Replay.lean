import Rudb.Txn.Format

/-! Blocks of records as committers build and encode them, and the reading of a segment's records
back into the blocks whose commit is there. Embeds lane.rs and replay.rs of rudb-txn. -/
namespace Rudb.Txn

/-- `Block`: each record's kind, flags, and where its payload ends in `data`. -/
structure Block where
  txn : UInt64
  commitTs : UInt64
  depTs : UInt64
  records : List (Kind × UInt16 × Nat) := []
  data : List UInt8 := []
  bytes : Nat := 0

/-- What `push` refuses. -/
inductive PushError where
  /-- "a block's Commit record is written by the lane" -/
  | commit
  /-- "a log record's payload is under 4 GiB" -/
  | long
  deriving DecidableEq, Repr

/-- What a record is pushed with. -/
structure Entry where
  kind : Kind
  flags : UInt16
  payload : List UInt8
  deriving DecidableEq, Repr

namespace Block

/-- `new`. -/
def new (txn commitTs depTs : UInt64) : Block := { txn, commitTs, depTs }

/-- `push`. -/
def push (block : Block) (entry : Entry) : Except PushError Block :=
  if entry.kind = .commit then .error .commit
  else if 2 ^ 32 ≤ entry.payload.length then .error .long
  else
    let data := block.data ++ entry.payload
    .ok { block with
      data
      records := block.records ++ [(entry.kind, entry.flags, data.length)]
      bytes := block.bytes + recordBytes entry.payload.length }

/-- Records pushed one after another. -/
def pushAll : Block → List Entry → Except PushError Block
  | block, [] => .ok block
  | block, entry :: rest => do pushAll (← block.push entry) rest

/-- `len`. -/
def len (block : Block) : Nat := block.bytes + recordBytes Commit.len

/-- The loop of `encode`, from the record whose payload starts at `start`. -/
def encodeRecords (block : Block) (lane : UInt8) (seed : UInt32) :
    Nat → List (Kind × UInt16 × Nat) → List UInt8
  | _, [] => []
  | start, (kind, flags, stop) :: rest =>
    encodeRecord { kind, lane, flags, gsn := block.commitTs }
        ((block.data.drop start).take (stop - start)) seed ++
      block.encodeRecords lane seed stop rest

/-- The commit that ends a block. -/
def commit (block : Block) : Commit where
  txn := block.txn
  commitTs := block.commitTs
  depTs := block.depTs
  records := UInt32.ofNat block.records.length
  bytes := UInt64.ofNat block.bytes

/-- The record of a block's commit. -/
def encodeCommit (block : Block) (lane : UInt8) (seed : UInt32) : List UInt8 :=
  encodeRecord { kind := .commit, lane, flags := 0, gsn := block.commitTs } block.commit.encode seed

/-- `encode`. -/
def encode (block : Block) (lane : UInt8) (seed : UInt32) : List UInt8 :=
  block.encodeRecords lane seed 0 block.records ++ block.encodeCommit lane seed

end Block

/-- `Record` of a replayed block. -/
structure Record where
  header : RecordHeader
  payload : List UInt8
  deriving DecidableEq, Repr

/-- `Committed`, a block whose commit is there. -/
structure Committed where
  sequence : UInt64
  commit : Commit
  records : List Record
  deriving DecidableEq, Repr

theorem decodeRecord_total {seed : UInt32}
    (found : decodeRecord bytes seed = some (header, payload, total)) :
    0 < total ∧ total ≤ bytes.length := by
  simp only [decodeRecord, Option.bind_eq_bind, Option.bind_eq_some_iff] at found
  obtain ⟨head, _, kind, _, body, _, padding, zeros, found⟩ := found
  split at found
  · cases found
  cases found
  rw [slice, Option.ite_none_right_eq_some] at zeros
  have := recordBytes_ge (LittleEndian.read 4 0 head)
  simp only [recordHeader] at this
  exact ⟨by omega, zeros.1.2⟩

/-- The loop of `read_blocks` over the bytes of a segment from where it is, with the records of
the block being read and the bytes they took. -/
def readBlocksFrom (lane : UInt8) (sequence : UInt64) (rest : List UInt8) (records : List Record)
    (taken : UInt64) : List Committed :=
  match found : decodeRecord rest (seed sequence) with
  | none => []
  | some (header, payload, total) =>
    have := decodeRecord_total found
    if header.lane ≠ lane then []
    else if header.kind ≠ .commit then
      readBlocksFrom lane sequence (rest.drop total) (records ++ [{ header, payload }])
        (taken + UInt64.ofNat total)
    else
      match Commit.decode payload with
      | none => []
      | some commit =>
        if commit.records.toNat = records.length ∧ commit.bytes = taken ∧
            commit.commitTs = header.gsn then
          { sequence, commit, records } :: readBlocksFrom lane sequence (rest.drop total) [] 0
        else []
  termination_by rest.length
  decreasing_by all_goals simp only [List.length_drop]; omega

/-- `read_blocks`: what it appends to `out`. -/
def readBlocks (segment : List UInt8) (at_ : Nat) (lane : UInt8) (sequence : UInt64) : List Committed :=
  readBlocksFrom lane sequence (segment.drop at_) [] 0

end Rudb.Txn
