import Rudb.Csv.RecordsProofs

/-! A reader over a stretch of a file. The whole file is its buffer: refills, and the two
gigabytes that a range can reach, are left out. How a record becomes a row, and what is said of
one that does not, are parameters. Embeds reader.rs of rudb-csv. -/
namespace Rudb.Csv

/-- Where a field is in the file, and whether it has an escape in it. -/
structure Place where
  start : Nat
  stop : Nat
  escaped : Bool

/-- The reader that keeps where each field is in the file. -/
def placeFields (bytes : List UInt8) (dialect : Dialect) : FieldReader Place where
  quoted start := (spanQuoted bytes dialect start false).map fun found => (found.1 + 1, ⟨start, found.1, found.2⟩)
  bare start := (spanBare bytes dialect start, ⟨start, spanBare bytes dialect start, false⟩)
  raw place := slice bytes place.start place.stop
  quoted_le := spanQuoted_next bytes dialect _
  bare_le start := spanBare_le bytes dialect start

/-- A record of the file: where the reader was when it read it, its fields, and where the next one starts. -/
structure Record where
  start : Nat
  fields : List Place
  next : Nat

/-- `Reader`, without what changes during a read: the file and how it is punctuated, the longest line
that is allowed and how a line is measured, and how records are converted. The blocks read the
dialect's records as the byte loop does. -/
structure Source (Row : Type) where
  file : List UInt8
  dialect : Dialect
  plain : dialect.masked = true → dialect.quoteByte ≠ newline
  limit : Nat
  fixed : Bool
  tooLong : (number : Nat) → (line : List UInt8) → (size : Nat) → String
  bad : Record → Bool
  row : Record → Option Row
  refusal : (first : Nat) → List Record → String

/-- How many records a chunk holds. -/
def vectorSize : Nat := 8192

/-- Whether a record that starts at a place is not one of a stretch. -/
def past (stop : Option Nat) (here : Nat) : Bool := stop.any (· ≤ here)

section Reader
variable {Row : Type} (source : Source Row)

/-- One record of `scan::records`, as the byte loop reads it. -/
def recordAt (here : Nat) : Except String (Option (Record × Nat)) :=
  (readRecord (placeFields source.file source.dialect) source.file source.dialect true here).map
    (Option.map fun found => (⟨here, found.1, found.2⟩, found.2))

/-- So many records of a stretch, one after another. -/
def recordsUntil (stop : Option Nat) : (left here : Nat) → Except String (List Record × Nat)
  | 0, here => .ok ([], here)
  | left + 1, here =>
    if past stop here then .ok ([], here)
    else match recordAt source here with
      | .error message => .error message
      | .ok none => .ok ([], here)
      | .ok (some (record, next)) => (recordsUntil stop left next).map fun rest => (record :: rest.1, rest.2)

/-- `refuse_long`: refuses a line that is too long, which counts its ending unless the file was not sniffed. -/
def refuseLong (line : List UInt8) (number : Nat) : Except String Unit :=
  let bare := if line.getLast? = some newline then line.dropLast else line
  let bare := if bare.getLast? = some carriageReturn then bare.dropLast else bare
  let size := if source.fixed then bare.length else line.length
  if size ≤ source.limit then .ok () else .error (source.tooLong number bare size)

/-- Measures each record from where the last one was measured to, and refuses those that are too long. -/
def measured (stop line : Nat) : (start row : Nat) → List Record → Except String Unit
  | _, _, [] => .ok ()
  | start, row, record :: rest =>
    let next := match rest with
      | [] => stop
      | after :: _ => (after.fields.head?.map Place.start).getD stop
    match if next - start + 2 > source.limit then
        refuseLong source (slice source.file record.start record.next) (line + row)
      else .ok () with
    | .error message => .error message
    | .ok () => measured stop line next (row + 1) rest

/-- `long_line`. -/
def longLine (start stop line : Nat) (records : List Record) : Except String Unit :=
  if records.isEmpty ∨ stop - start ≤ source.limit then .ok () else measured source stop line start 0 records

/-- `next_records`: the next chunk's worth of records of a stretch, and where the one behind them starts. -/
def nextRecords (stop : Option Nat) (here line : Nat) : Except String (List Record × Nat) :=
  if past stop here then .ok ([], here)
  else match recordsUntil source none vectorSize here with
    | .error message => .error message
    | .ok whole =>
      -- a chunk that went past the end is split again a record at a time
      match if stop.any (· < whole.2) then recordsUntil source stop vectorSize here else .ok whole with
      | .error message => .error message
      | .ok taken => (longLine source here taken.2 line taken.1).map fun _ => taken

section Forward
variable {source} {records : List Record}

theorem map_ok {read : Except String α} (mapped : read.map made = .ok found) :
    ∃ value, read = .ok value ∧ made value = found := by
  cases read with
  | error message => cases mapped
  | ok value => exact ⟨value, rfl, Except.ok.inj mapped⟩

theorem recordAt_some {record : Record} (found : recordAt source here = .ok (some (record, next))) :
    here < next ∧ here < source.file.length ∧ record.start = here ∧ record.next = next := by
  obtain ⟨line, read, made⟩ := map_ok found
  obtain ⟨line, rfl, same⟩ := Option.map_eq_some_iff.mp made
  cases same
  refine ⟨lt_readRecord read, ?_, rfl, rfl⟩
  by_contra beyond
  rw [readRecord_past _ (by omega)] at read
  cases read

theorem recordsUntil_forward
    (read : recordsUntil source stop left here = .ok (records, next)) :
    here ≤ next ∧ (records ≠ [] → here < next ∧ here < source.file.length) := by
  fun_induction recordsUntil source stop left here generalizing records with
  | case1 | case2 | case4 =>
    cases read
    exact ⟨le_rfl, fun some_ => absurd rfl some_⟩
  | case3 => cases read
  | case5 left here before record behind found ih =>
    have lt := recordAt_some found
    obtain ⟨rest, taken, same⟩ := map_ok read
    cases same
    have le := (ih taken).1
    exact ⟨by omega, fun _ => ⟨by omega, lt.2.1⟩⟩

/-- A chunk is empty where the stretch has ended, and else the records up to its end. -/
theorem nextRecords_ok (read : nextRecords source stop here line = .ok taken) :
    past stop here = true ∧ taken = ([], here) ∨ ∃ whole, recordsUntil source none vectorSize here = .ok whole ∧
      (if stop.any (· < whole.2) then recordsUntil source stop vectorSize here else .ok whole) = .ok taken := by
  unfold nextRecords at read
  split at read
  · rename_i beyond
    exact .inl ⟨beyond, (Except.ok.inj read).symm⟩
  cases first : recordsUntil source none vectorSize here with
  | error message => simp [first] at read
  | ok whole =>
    simp only [first] at read
    split at read
    · cases read
    · obtain ⟨_, _, rfl⟩ := map_ok read
      exact .inr ⟨whole, rfl, by assumption⟩

theorem nextRecords_forward
    (read : nextRecords source stop here line = .ok (records, next)) (some_ : records ≠ []) :
    here < next ∧ here < source.file.length := by
  rcases nextRecords_ok read with ⟨_, none_⟩ | ⟨whole, first, eq⟩
  · cases none_
    exact absurd rfl some_
  split at eq
  · exact (recordsUntil_forward eq).2 some_
  · cases eq
    exact (recordsUntil_forward first).2 some_

end Forward

/-- `next_chunk`: the next rows of a stretch, none at its end, with where the reader is then and the line it is on. -/
def nextChunk (stop : Option Nat) (here line : Nat) : Except String (Option (List Row) × Nat × Nat) :=
  match _read : nextRecords source stop here line with
  | .error message => .error message
  | .ok ([], next) => .ok (none, next, line)
  | .ok (record :: rest, next) =>
    if (record :: rest).any source.bad then .error (source.refusal line (record :: rest))
    else
      let rows := (record :: rest).filterMap source.row
      if rows.isEmpty then nextChunk stop next (line + (record :: rest).length)
      else .ok (some rows, next, line + (record :: rest).length)
termination_by source.file.length - here
decreasing_by
  have := nextRecords_forward _read (by simp)
  omega

/-- `skim`: where the first record behind a stretch starts, without converting any. -/
def skim (stop : Option Nat) (here : Nat) : Except String Nat :=
  match _read : nextRecords source stop here 0 with
  | .error message => .error message
  | .ok ([], next) => .ok next
  | .ok (_ :: _, next) => skim stop next
termination_by source.file.length - here
decreasing_by
  have := nextRecords_forward _read (by simp)
  omega

/-- `skip_to`: steps over the chunks that end at or before a place, counting their lines. -/
def skipTo (target : Option Nat) (here line : Nat) : Except String (Nat × Nat) :=
  match _read : nextRecords source none here line with
  | .error message => .error message
  | .ok ([], _) => .ok (here, line)
  | .ok (record :: rest, next) =>
    if target.any (· < next) then .ok (here, line) else skipTo target next (line + (record :: rest).length)
termination_by source.file.length - here
decreasing_by
  have := nextRecords_forward _read (by simp)
  omega

variable {source} in
theorem nextChunk_forward
    (read : nextChunk source stop here line = .ok (some rows, next, after)) :
    here < next ∧ here < source.file.length := by
  fun_induction nextChunk source stop here line with
  | case1 | case2 | case3 => cases read
  | case4 here line record rest behind found fine rows empty ih =>
    have := nextRecords_forward found (by simp)
    have := ih read
    omega
  | case5 here line record rest behind found fine rows some_ =>
    simp only [Except.ok.injEq, Prod.mk.injEq] at read
    rw [← read.2.1]
    exact nextRecords_forward found (by simp)

/-- All the rows of one reader over the whole file, and the error it stops at. -/
def readAll (here line : Nat) : List Row × Option String :=
  match _read : nextChunk source none here line with
  | .error message => ([], some message)
  | .ok (none, _) => ([], none)
  | .ok (some rows, next, after) =>
    let rest := readAll next after
    (rows ++ rest.1, rest.2)
termination_by source.file.length - here
decreasing_by
  have := nextChunk_forward _read
  omega

end Reader

end Rudb.Csv
