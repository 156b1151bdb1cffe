import Rudb.Lib.LittleEndian

/-! The bytes of a log record: its header, its payload and the zeros up to the next boundary,
under a checksum that only verifies in the segment the record was written for. Embeds format.rs
and crc.rs of rudb-txn. -/
namespace Rudb.Txn
open LittleEndian List Option

namespace Crc

/-- The reflected Castagnoli polynomial. -/
def poly : UInt32 := 0x82F63B78

/-- One bit of a table's entry. -/
def bitStep (crc : UInt32) : UInt32 :=
  if crc &&& 1 = 0 then crc >>> 1 else (crc >>> 1) ^^^ poly

/-- Table `k`, which advances a byte that is `k` bytes further from the end of a step. -/
def table : Nat → UInt32 → UInt32
  | 0, byte => Nat.repeat bitStep 8 byte
  | k + 1, byte =>
    let previous := table k byte
    (previous >>> 8) ^^^ Nat.repeat bitStep 8 (previous &&& 0xFF)

/-- The loops of `software`: eight bytes at a time, and then what remains byte by byte. -/
def steps : UInt32 → List UInt8 → UInt32
  | crc, b0 :: b1 :: b2 :: b3 :: b4 :: b5 :: b6 :: b7 :: rest =>
    let low := UInt32.ofNat (ofBytes [b0, b1, b2, b3]) ^^^ crc
    let high := UInt32.ofNat (ofBytes [b4, b5, b6, b7])
    steps (table 7 (low &&& 0xFF) ^^^ table 6 ((low >>> 8) &&& 0xFF)
      ^^^ table 5 ((low >>> 16) &&& 0xFF) ^^^ table 4 (low >>> 24)
      ^^^ table 3 (high &&& 0xFF) ^^^ table 2 ((high >>> 8) &&& 0xFF)
      ^^^ table 1 ((high >>> 16) &&& 0xFF) ^^^ table 0 (high >>> 24)) rest
  | crc, rest => rest.foldl (fun crc byte => table 0 ((crc ^^^ byte.toUInt32) &&& 0xFF) ^^^ (crc >>> 8)) crc

/-- `extend`, by the tables. -/
def extend (crc : UInt32) (bytes : List UInt8) : UInt32 :=
  ~~~ steps (~~~ crc) bytes

end Crc

/-- `Kind`: what a record holds. -/
inductive Kind where
  | insert | update | delta | delete | commit | attach | ddl | checkpoint
  deriving DecidableEq, Repr

/-- `byte`. -/
def Kind.byte : Kind → UInt8
  | insert => 1
  | update => 2
  | delta => 3
  | delete => 4
  | commit => 5
  | attach => 6
  | ddl => 7
  | checkpoint => 8

/-- `of`. -/
def Kind.of (byte : UInt8) : Option Kind :=
  match byte.toNat with
  | 1 => some insert
  | 2 => some update
  | 3 => some delta
  | 4 => some delete
  | 5 => some commit
  | 6 => some attach
  | 7 => some ddl
  | 8 => some checkpoint
  | _ => none

@[simp] theorem Kind.of_byte (kind : Kind) : Kind.of kind.byte = some kind := by
  cases kind <;> rfl

/-- `seed`, which every checksum in segment `sequence` starts from. -/
def seed (sequence : UInt64) : UInt32 :=
  sequence.toUInt32 ^^^ (sequence >>> 32).toUInt32

/-- `RecordHeader`. -/
structure RecordHeader where
  kind : Kind
  lane : UInt8
  flags : UInt16
  gsn : UInt64
  deriving DecidableEq, Repr

/-- `RECORD_HEADER`. -/
def recordHeader : Nat := 20

/-- `RECORD_ALIGN`. -/
def recordAlign : Nat := 8

/-- `record_bytes`. -/
def recordBytes (len : Nat) : Nat :=
  (recordHeader + len + (recordAlign - 1)) / recordAlign * recordAlign

theorem recordBytes_ge (len : Nat) : recordHeader + len ≤ recordBytes len := by
  simp only [recordBytes, recordAlign]
  omega

/-- The sixteen bytes of a header that its checksum covers. -/
def RecordHeader.fields (header : RecordHeader) (len : Nat) : List UInt8 :=
  toBytes 4 len ++ (header.kind.byte :: header.lane ::
    (toBytes 2 header.flags.toNat ++ (toBytes 8 header.gsn.toNat ++ [])))

@[simp] theorem RecordHeader.length_fields (header : RecordHeader) (len : Nat) : (header.fields len).length = 16 := by
  simp [RecordHeader.fields]

/-- The checksum of a record's header and payload. -/
def checksum (seed : UInt32) (fields payload : List UInt8) : UInt32 :=
  Crc.extend (Crc.extend seed fields) payload

/-- What `encode_record` appends. The payload is under 4 GiB. -/
def encodeRecord (header : RecordHeader) (payload : List UInt8) (seed : UInt32) : List UInt8 :=
  let fields := header.fields payload.length
  fields ++ (toBytes 4 (checksum seed fields payload).toNat ++
    (payload ++ List.replicate (recordBytes payload.length - (recordHeader + payload.length)) 0))

/-- `bytes.get(start..stop)`. -/
def slice (bytes : List UInt8) (start stop : Nat) : Option (List UInt8) :=
  if start ≤ stop ∧ stop ≤ bytes.length then some ((bytes.drop start).take (stop - start)) else none

/-- `decode_record`: the header, the payload, and how many bytes the record takes. -/
def decodeRecord (bytes : List UInt8) (seed : UInt32) :
    Option (RecordHeader × List UInt8 × Nat) := do
  let head ← slice bytes 0 recordHeader
  let len := read 4 0 head
  let kind ← Kind.of (head.getD 4 0)
  let flags := UInt16.ofNat (read 2 6 head)
  let gsn := UInt64.ofNat (read 8 8 head)
  let crc := UInt32.ofNat (read 4 16 head)
  let total := recordBytes len
  let payload ← slice bytes recordHeader (recordHeader + len)
  let padding ← slice bytes (recordHeader + len) total
  if padding.any (· != 0) || checksum seed (head.take 16) payload != crc then none
  else some ({ kind, lane := head.getD 5 0, flags, gsn }, payload, total)

section Reads
theorem slice_append (starts : front.length = start)
    (stops : start + middle.length = stop) (rest : List UInt8) :
    slice (front ++ (middle ++ rest)) start stop = some middle := by
  have size : (front ++ (middle ++ rest)).length = stop + rest.length := by
    simp only [length_append]
    omega
  rw [slice, if_pos ⟨by omega, by omega⟩, drop_left' starts,
    take_left' (by omega : middle.length = stop - start)]

theorem slice_short (short : bytes.length < stop) : slice bytes start stop = none :=
  if_neg fun inside => by omega

end Reads

section Encoded
variable (header : RecordHeader) (payload : List UInt8) (seed : UInt32)

/-- The twenty bytes of a record's header. -/
def RecordHeader.head : List UInt8 :=
  header.fields payload.length ++
    (toBytes 4 (checksum seed (header.fields payload.length) payload).toNat ++ [])

@[simp] theorem RecordHeader.length_head : (header.head payload seed).length = recordHeader := by
  simp [RecordHeader.head, recordHeader]

/-- The zeros after a payload. -/
def padding : List UInt8 :=
  List.replicate (recordBytes payload.length - (recordHeader + payload.length)) 0

theorem length_padding : recordHeader + payload.length + (padding payload).length = recordBytes payload.length := by
  have := recordBytes_ge payload.length
  simp only [padding, length_replicate]
  omega

theorem encodeRecord_eq : encodeRecord header payload seed =
      header.head payload seed ++ (payload ++ (padding payload ++ [])) := by
  simp [encodeRecord, RecordHeader.head, padding]

@[simp] theorem length_encodeRecord : (encodeRecord header payload seed).length = recordBytes payload.length := by
  rw [encodeRecord_eq, ← length_padding payload]
  simp [add_assoc]

theorem read_len (fits : payload.length < 2 ^ 32) : read 4 0 (header.head payload seed) = payload.length := by
  rw [RecordHeader.head, RecordHeader.fields, append_assoc, read_front fits]

theorem read_flags : read 2 6 (header.head payload seed) = header.flags.toNat := by
  have split : header.head payload seed =
      (toBytes 4 payload.length ++ [header.kind.byte, header.lane]) ++
        (toBytes 2 header.flags.toNat ++ (toBytes 8 header.gsn.toNat ++
          toBytes 4 (checksum seed (header.fields payload.length) payload).toNat)) := by
    simp [RecordHeader.head, RecordHeader.fields]
  rw [split, read_append (by simp) header.flags.toNat_lt]

theorem read_gsn : read 8 8 (header.head payload seed) = header.gsn.toNat := by
  have split : header.head payload seed =
      (toBytes 4 payload.length ++ header.kind.byte :: header.lane :: toBytes 2 header.flags.toNat) ++
        (toBytes 8 header.gsn.toNat ++
          toBytes 4 (checksum seed (header.fields payload.length) payload).toNat) := by
    simp [RecordHeader.head, RecordHeader.fields]
  rw [split, read_append (by simp) header.gsn.toNat_lt]

theorem read_crc : read 4 16 (header.head payload seed) =
    (checksum seed (header.fields payload.length) payload).toNat := by
  rw [RecordHeader.head, read_append (by simp) (UInt32.toNat_lt _)]

/-- A record that is asked for under any seed: only the checksum can fail. -/
theorem decodeRecord_eq (fits : payload.length < 2 ^ 32) (asked : UInt32) (rest : List UInt8) :
    decodeRecord (encodeRecord header payload seed ++ rest) asked =
      if checksum asked (header.fields payload.length) payload =
        checksum seed (header.fields payload.length) payload then
        some (header, payload, recordBytes payload.length)
      else none := by
  have kind : (header.head payload seed).getD 4 0 = header.kind.byte := by
    simp [RecordHeader.head, RecordHeader.fields, getD_eq_getElem?_getD]
  have lane : (header.head payload seed).getD 5 0 = header.lane := by
    simp [RecordHeader.head, RecordHeader.fields, getD_eq_getElem?_getD]
  have fields : (header.head payload seed).take 16 = header.fields payload.length :=
    take_left' (header.length_fields _)
  have bytes : encodeRecord header payload seed ++ rest =
      [] ++ (header.head payload seed ++ (payload ++ (padding payload ++ rest))) := by
    simp [encodeRecord_eq]
  have head : slice (encodeRecord header payload seed ++ rest) 0 recordHeader =
      some (header.head payload seed) := by
    rw [bytes]
    exact slice_append rfl (by simp) _
  have body : slice (encodeRecord header payload seed ++ rest) recordHeader
      (recordHeader + payload.length) = some payload := by
    rw [bytes]
    exact slice_append (by simp) rfl _
  have zeros : slice (encodeRecord header payload seed ++ rest)
      (recordHeader + payload.length) (recordBytes payload.length) = some (padding payload) := by
    rw [bytes, nil_append, ← append_assoc]
    exact slice_append (by simp) (length_padding payload) _
  have clean : (padding payload).any (· != 0) = false := by simp [padding]
  simp only [decodeRecord, head, bind_eq_bind, bind_some, read_len header payload seed fits,
    kind, Kind.of_byte, body, zeros, clean, fields, read_crc, read_flags, read_gsn, lane,
    UInt32.ofNat_toNat, UInt16.ofNat_toNat, UInt64.ofNat_toNat, Bool.false_or, bne_iff_ne, ne_eq, ite_not]

/-- A record reads back as it was written, whatever follows it. -/
theorem decode_encodeRecord (fits : payload.length < 2 ^ 32) (rest : List UInt8) :
    decodeRecord (encodeRecord header payload seed ++ rest) seed =
      some (header, payload, recordBytes payload.length) := by
  rw [decodeRecord_eq header payload seed fits, if_pos rfl]

theorem decode_cut (fits : payload.length < 2 ^ 32) (inside : cut < recordBytes payload.length) :
    decodeRecord ((encodeRecord header payload seed).take cut) seed = none := by
  have size : ((encodeRecord header payload seed).take cut).length = cut := by
    rw [length_take, length_encodeRecord]
    omega
  by_cases whole : cut < recordHeader
  · rw [decodeRecord, slice_short (by omega)]
    rfl
  -- the header is whole, so the length it gives is the payload's
  have head : slice ((encodeRecord header payload seed).take cut) 0 recordHeader =
      some (header.head payload seed) := by
    have long : (header.head payload seed).length ≤ cut := by
      rw [RecordHeader.length_head]
      omega
    rw [encodeRecord_eq, take_append, take_of_length_le long,
      ← nil_append (header.head payload seed ++ _)]
    exact slice_append rfl (by simp) _
  have short : slice ((encodeRecord header payload seed).take cut)
      (recordHeader + payload.length) (recordBytes payload.length) = none :=
    slice_short (by omega)
  simp [decodeRecord, head, read_len header payload seed fits, short]

end Encoded

/-- `Commit`, the payload of the record that ends a block. -/
structure Commit where
  txn : UInt64
  commitTs : UInt64
  depTs : UInt64
  records : UInt32
  bytes : UInt64
  deriving DecidableEq, Repr

/-- `Commit::LEN`. -/
def Commit.len : Nat := 36

/-- `encode`. -/
def Commit.encode (commit : Commit) : List UInt8 :=
  toBytes 8 commit.txn.toNat ++ (toBytes 8 commit.commitTs.toNat ++ (toBytes 8 commit.depTs.toNat ++
    (toBytes 4 commit.records.toNat ++ (toBytes 8 commit.bytes.toNat ++ []))))

/-- `decode`. -/
def Commit.decode (bytes : List UInt8) : Option Commit :=
  if bytes.length != Commit.len then none
  else some {
    txn := UInt64.ofNat (read 8 0 bytes)
    commitTs := UInt64.ofNat (read 8 8 bytes)
    depTs := UInt64.ofNat (read 8 16 bytes)
    records := UInt32.ofNat (read 4 24 bytes)
    bytes := UInt64.ofNat (read 8 28 bytes) }

@[simp] theorem Commit.length_encode (commit : Commit) : commit.encode.length = Commit.len := by
  simp [Commit.encode, Commit.len]

theorem Commit.decode_encode (commit : Commit) : Commit.decode commit.encode = some commit := by
  have txn : read 8 0 commit.encode = commit.txn.toNat := by
    rw [Commit.encode, read_front commit.txn.toNat_lt]
  have commitTs : read 8 8 commit.encode = commit.commitTs.toNat := by
    rw [Commit.encode, read_append (by simp) commit.commitTs.toNat_lt]
  have depTs : read 8 16 commit.encode = commit.depTs.toNat := by
    rw [Commit.encode, ← append_assoc, read_append (by simp) commit.depTs.toNat_lt]
  have records : read 4 24 commit.encode = commit.records.toNat := by
    rw [Commit.encode, ← append_assoc, ← append_assoc, read_append (by simp) commit.records.toNat_lt]
  have bytes : read 8 28 commit.encode = commit.bytes.toNat := by
    rw [Commit.encode, ← append_assoc, ← append_assoc, ← append_assoc,
      read_append (by simp) commit.bytes.toNat_lt]
  simp [Commit.decode, txn, commitTs, depTs, records, bytes]

end Rudb.Txn
