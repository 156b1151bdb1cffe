import Rudb.Lib.Linked
import Rudb.Storage.Stamp

/-! Undo records and the space their chunks live in. A record is kept whole under its reference;
how many units of its chunk it takes is kept too, because that is how the collector finds the
records of a chunk. The collector's rounds and the file that records are spilled to read no row,
and are left out. Embeds undo.rs. -/
namespace Rudb.Undo
open Rudb LinkedMemory

/-- `CHUNK_WORDS`: 64 KiB. -/
def chunkWords : Nat := 8192

/-- `HEADER_WORDS`. -/
def headerWords : Nat := 4

/-- `IMAGE_WORDS`. -/
def imageWords : Nat := 3

/-- `MOST_IMAGES`: a wider update writes several records. -/
def mostImages : Nat := (chunkWords - headerWords) / imageWords

/-- How many chunks a space makes at most. -/
def mostChunks : Nat := 2 ^ 20

/-- `UndoRef`: the reference of an undo record, or of none when it is 0. -/
abbrev UndoRef := Nat

/-- `(chunk << 12) | unit`, with a unit below 4,096. -/
def refAt (chunk unit : Nat) : UndoRef := chunk * 4096 + unit

inductive UndoKind where
  | update
  | delete
  | spilled
  deriving DecidableEq, Repr

/-- The value a column had before a change, `none` for null. The column is kept
in 16 bits. -/
structure Image where
  column : Nat
  value : Option Nat
  deriving DecidableEq, Repr

structure Record where
  prev : UndoRef
  kind : UndoKind
  ts : Nat
  rid : Nat
  table : Nat
  images : List Image
  deriving DecidableEq, Repr

/-- `Row`: where a record belongs. -/
structure Row where
  table : Nat
  rid : Nat
  deriving DecidableEq, Repr

namespace Record

/-- `words.len().div_ceil(2)`. -/
def units (record : Record) : Nat := (headerWords + imageWords * record.images.length + 1) / 2

/-- `stamp`. -/
def stamp (record : Record) (ts : Nat) : Record := { record with ts := ts }

end Record

/-- `UndoBuffer`: a worker's run of undo space, chunk 0 being none yet. -/
structure UndoBuffer where
  chunk : Nat := 0
  next : Nat := 0
  deriving DecidableEq, Repr

/-- `UndoSpace`. `free` is the free list with the chunk that is made next first, and no
record is at reference 0. -/
structure UndoSpace where
  mem : UndoRef → Option Record
  null : mem 0 = none
  chunks : Nat := 1
  free : List Nat := []
  sealed : List (Nat × Nat) := []

namespace UndoSpace

/-- `new`. -/
def new : UndoSpace := { mem := fun _ => none, null := rfl }

/-- Replaces the record at `at_`. -/
def put (space : UndoSpace) (at_ : UndoRef) (record : Record) : UndoSpace :=
  if none : at_ = 0 then space
  else
    { space with
      mem := Function.update space.mem at_ (some record)
      null := by rw [Function.update_of_ne (Ne.symm none), space.null] }

/-- `Record::stamp` of the record at `at_`. -/
def stamp (space : UndoSpace) (at_ : UndoRef) (ts : Nat) : UndoSpace :=
  match space.mem at_ with
  | some record => space.put at_ (record.stamp ts)
  | none => space

/-- The references a loop down the chain from `head` visits. A reference has 32
bits, so a chain that ends is no longer than this. -/
def chain (space : UndoSpace) (head : UndoRef) : List UndoRef :=
  walk space.mem Record.prev (2 ^ 32) head

/-- The records a loop down the chain from `head` visits. -/
def chainRecords (space : UndoSpace) (head : UndoRef) : List Record :=
  (space.chain head).filterMap space.mem

@[simp] theorem chain_zero (space : UndoSpace) : space.chain 0 = [] := by
  rw [chain, show 2 ^ 32 = 2 ^ 32 - 1 + 1 from rfl, walk, space.null]

@[simp] theorem chainRecords_zero (space : UndoSpace) : space.chainRecords 0 = [] := by
  rw [chainRecords, chain_zero, List.filterMap_nil]

/-- `make`: a chunk that was collected if there is one, else a new one. -/
def make (space : UndoSpace) : Option (Nat × UndoSpace) :=
  match space.free with
  | id :: rest => some (id, { space with free := rest })
  | [] =>
    if space.chunks < mostChunks then
      some (space.chunks, { space with chunks := space.chunks + 1 })
    else none

end UndoSpace

namespace UndoBuffer

/-- `seal`: hands the chunk it is writing in to the collector. -/
def sealChunk (buffer : UndoBuffer) (space : UndoSpace) : UndoBuffer × UndoSpace :=
  if buffer.chunk ≠ 0 ∧ buffer.next > 0 then
    ({}, { space with sealed := space.sealed ++ [(buffer.chunk, buffer.next)] })
  else ({}, space)

/-- `one`: writes one record, in a new chunk when this one has no room for it. -/
def one (buffer : UndoBuffer) (space : UndoSpace) (record : Record) : Option (UndoRef × UndoBuffer × UndoSpace) :=
  if buffer.chunk = 0 ∨ buffer.next + record.units > chunkWords / 2 then
    let (_, space) := buffer.sealChunk space
    match space.make with
    | some (chunk, space) =>
      some (refAt chunk 0, ⟨chunk, record.units⟩, space.put (refAt chunk 0) record)
    | none => none
  else
    some (refAt buffer.chunk buffer.next, ⟨buffer.chunk, buffer.next + record.units⟩,
      space.put (refAt buffer.chunk buffer.next) record)

/-- `images.chunks(MOST_IMAGES)`, with one empty piece for no images. -/
def pieces : Nat → List Image → List (List Image)
  | 0, images => [images]
  | fuel + 1, images =>
    if images.length ≤ mostImages then [images]
    else images.take mostImages :: pieces fuel (images.drop mostImages)

/-- The loop of `write` over the pieces of an update. -/
def writePieces (kind : UndoKind) (ts : Nat) (row : Row) :
    List (List Image) → UndoBuffer → UndoSpace → UndoRef → Option (UndoRef × UndoBuffer × UndoSpace)
  | [], buffer, space, prev => some (prev, buffer, space)
  | piece :: rest, buffer, space, prev =>
    match buffer.one space ⟨prev, kind, ts, row.rid, row.table, piece⟩ with
    | some (at_, buffer, space) => writePieces kind ts row rest buffer space at_
    | none => none

/-- `write`: the reference of the newest piece, or none once the space is used up. -/
def write (buffer : UndoBuffer) (space : UndoSpace) (kind : UndoKind) (ts : Nat) (row : Row)
    (prev : UndoRef) (images : List Image) : Option (UndoRef × UndoBuffer × UndoSpace) :=
  writePieces kind ts row (pieces images.length images) buffer space prev

end UndoBuffer

end Rudb.Undo
