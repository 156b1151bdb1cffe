import Mathlib

/-! Splitting a buffer of text into records a byte at a time. The two readers of the source are
one loop over the fields of a record: one keeps each field's bytes with its escapes taken out, the
other keeps where the field is in the buffer. Embeds scan.rs of rudb-csv. -/
namespace Rudb.Csv

/-- The bytes a file is written with. -/
structure Dialect where
  delimiter : UInt8
  quote : Option UInt8
  escape : Option UInt8
  comment : Option UInt8
deriving Repr, DecidableEq

/-- A double quote unless the dialect names another byte. -/
def Dialect.quoteByte (dialect : Dialect) : UInt8 := dialect.quote.getD 34

/-- The quote unless the dialect names another byte. -/
def Dialect.escapeByte (dialect : Dialect) : UInt8 := dialect.escape.getD dialect.quoteByte

/-- The two bytes that end a line. -/
def newline : UInt8 := 10

def carriageReturn : UInt8 := 13

def lineEnd (byte : UInt8) : Bool := byte = newline || byte = carriageReturn

/-- A byte that ends a field that is not quoted. -/
def Dialect.stops (dialect : Dialect) (byte : UInt8) : Bool :=
  byte = dialect.delimiter || lineEnd byte || some byte = dialect.comment

/-- Behind a line ending at a place, or nothing when a carriage return is the last byte so far. -/
def behindLine (bytes : List UInt8) (at' : Nat) (eof : Bool) : Option Nat :=
  if bytes[at']? = some carriageReturn then
    match bytes[at' + 1]? with
    | some byte => if byte = newline then some (at' + 2) else some (at' + 1)
    | none => if eof then some (at' + 1) else none
  else some (at' + 1)

/-- `comment_end`: behind the line a comment starts in. -/
def commentEnd (bytes : List UInt8) (at' : Nat) (eof : Bool) : Option Nat :=
  match (bytes.drop at').findIdx? lineEnd with
  | none => if eof then some bytes.length else none
  | some found => behindLine bytes (at' + found) eof

/-- `dropped`: whether a comment behind a field takes the whole record with it. -/
def dropped (field : List UInt8) (count : Nat) : Bool :=
  if field.isEmpty then count = 0 else field.all (· = 32)

/-- `after_quote`. -/
def afterQuote (byte : UInt8) : String :=
  "a quoted value is followed by '" ++ toString (Char.ofNat byte.toNat) ++
    "' rather than by a delimiter or the end of the line"

/-- How one field is taken from the buffer: from behind its opening quote to behind its closing one,
nothing when the buffer ends first, or from its first byte to the byte that ends it. -/
structure FieldReader (Field : Type) where
  quoted : Nat → Option (Nat × Field)
  bare : Nat → Nat × Field
  raw : Field → List UInt8
  quoted_le : ∀ {start stop field}, quoted start = some (stop, field) → start ≤ stop
  bare_le : ∀ start, start ≤ (bare start).1

/-- What the fields from a place on come to: not all there yet, a record and where the next one
starts, or a record that a comment took with it. -/
inductive Line (Field : Type) where
  | short
  | ends (fields : List Field) (next : Nat)
  | skipped (next : Nat)

section Loop
variable {Field : Type} (reader : FieldReader Field) (bytes : List UInt8) (dialect : Dialect) (eof : Bool)

/-- One field, with the place of the byte behind it. -/
def readField (start : Nat) : Except String (Option (Nat × Field)) :=
  if bytes[start]? = some dialect.quoteByte then
    match reader.quoted (start + 1) with
    | none => .ok none
    | some (stop, field) =>
      match bytes[stop]? with
      | none => .ok (if eof then some (stop, field) else none)
      | some byte => if dialect.stops byte then .ok (some (stop, field)) else .error (afterQuote byte)
  else if (reader.bare start).1 ≥ bytes.length && !eof then .ok none
  else .ok (some (reader.bare start))

variable {reader bytes dialect eof} in
theorem readField_le
    (read : readField reader bytes dialect eof start = .ok (some (stop, field))) : start ≤ stop := by
  revert read
  fun_cases readField reader bytes dialect eof start with
  | case1 | case4 | case5 => rintro ⟨⟩
  | case2 _ found field quoted | case3 _ found field quoted =>
    have le := reader.quoted_le quoted
    simp
    omega
  | case6 =>
    have le := reader.bare_le start
    intro read
    rwa [Option.some.inj (Except.ok.inj read)] at le

/-- The record ends behind a line ending, or with the buffer. -/
def closeLine (fields : List Field) (stop : Nat) : Line Field :=
  if bytes[stop]? = none then .ends fields stop
  else match behindLine bytes stop eof with
    | none => .short
    | some next => .ends fields next

/-- The fields from a place on, behind those already read. -/
def fieldsFrom (start : Nat) (before : List Field) : Except String (Line Field) :=
  match _found : readField reader bytes dialect eof start with
  | .error message => .error message
  | .ok none => .ok .short
  | .ok (some (stop, field)) =>
    if bytes[stop]?.isSome && bytes[stop]? = dialect.comment then
      match commentEnd bytes stop eof with
      | none => .ok .short
      | some next =>
        if bytes[start]? ≠ some dialect.quoteByte && dropped (reader.raw field) before.length then
          .ok (.skipped next)
        else .ok (.ends (before ++ [field]) next)
    else if bytes[stop]? = some dialect.delimiter then fieldsFrom (stop + 1) (before ++ [field])
    else .ok (closeLine bytes eof (before ++ [field]) stop)
termination_by bytes.length - start
decreasing_by
  have le := readField_le _found
  have lt : stop < bytes.length := by
    by_contra past
    simp_all
  omega

end Loop

theorem lt_behindLine
    (behind : behindLine bytes at' eof = some next) : at' < next := by
  revert behind
  fun_cases behindLine bytes at' eof with
  | case1 | case2 | case3 | case5 =>
    rintro ⟨⟩
    omega
  | case4 => rintro ⟨⟩

theorem lt_commentEnd (lt : at' < bytes.length)
    (behind : commentEnd bytes at' eof = some next) : at' < next := by
  unfold commentEnd at behind
  split at behind
  · split at behind <;> cases behind
    exact lt
  · have := lt_behindLine behind
    omega

section Record
variable {Field : Type}

/-- The fields of a line end at or behind their start, and behind it where there is a byte. -/
theorem fieldsFrom_forward (read : fieldsFrom reader bytes dialect eof start before = .ok line) :
    (∀ next, line = .skipped next → start < next) ∧
      ∀ fields next, line = .ends fields next → start ≤ next ∧ (start < bytes.length → start < next) := by
  fun_induction fieldsFrom reader bytes dialect eof start before with
  | case1 => cases read
  | case2 | case3 =>
    cases read
    simp
  | case4 start before stop field found comment next behind taken
  | case5 start before stop field found comment next behind taken =>
    cases read
    have le := readField_le found
    have lt : stop < bytes.length := by
      by_contra past
      simp_all
    have := lt_commentEnd lt behind
    simp
    omega
  | case6 start before stop field found comment delimiter ih =>
    have le := readField_le found
    obtain ⟨skipped, ended⟩ := ih read
    refine ⟨fun next is => ?_, fun fields next is => ?_⟩
    · have := skipped next is
      omega
    · have := ended fields next is
      omega
  | case7 start before stop field found comment delimiter =>
    have le := readField_le found
    cases read
    unfold closeLine
    split
    · rename_i past
      have := List.getElem?_eq_none_iff.mp past
      simp
      omega
    split
    · simp
    rename_i behind
    have := lt_behindLine behind
    simp
    omega

end Record

section Record
variable {Field : Type} (reader : FieldReader Field) (bytes : List UInt8) (dialect : Dialect) (eof : Bool)

/-- `split`: the record that starts at a place, past the lines that are comments only. -/
def readRecord (start : Nat) : Except String (Option (List Field × Nat)) :=
  if start ≥ bytes.length then .ok none
  else match _found : fieldsFrom reader bytes dialect eof start [] with
    | .error message => .error message
    | .ok .short => .ok none
    | .ok (.ends fields next) => .ok (some (fields, next))
    | .ok (.skipped next) => readRecord next
termination_by bytes.length - start
decreasing_by
  have := (fieldsFrom_forward _found).1 next rfl
  omega

variable {reader bytes dialect eof} in
theorem lt_readRecord
    (read : readRecord reader bytes dialect eof start = .ok (some (fields, next))) : start < next := by
  fun_induction readRecord reader bytes dialect eof start with
  | case1 | case2 | case3 => cases read
  | case4 start inside fields' next' found =>
    cases read
    exact ((fieldsFrom_forward found).2 _ _ rfl).2 (by omega)
  | case5 start inside next' found ih => exact lt_trans ((fieldsFrom_forward found).1 _ rfl) (ih read)

end Record

section Split
variable (bytes : List UInt8) (dialect : Dialect)

/-- The bytes of a quoted field up to its closing quote, with its escapes taken out. -/
def splitQuoted (start : Nat) (field : List UInt8) : Option (Nat × List UInt8) :=
  match _here : bytes[start]? with
  | none => none
  | some byte =>
    if byte = dialect.escapeByte ∧ dialect.escapeByte ≠ dialect.quoteByte then
      match bytes[start + 1]? with
      | none => none
      | some next => splitQuoted (start + 2) (field ++ [next])
    else if byte = dialect.escapeByte ∧ bytes[start + 1]? = some dialect.quoteByte then
      splitQuoted (start + 2) (field ++ [dialect.quoteByte])
    else if byte = dialect.quoteByte then some (start + 1, field)
    else splitQuoted (start + 1) (field ++ [byte])
termination_by bytes.length - start
decreasing_by
  all_goals
    have lt : start < bytes.length := by
      by_contra past
      simp_all
    omega

/-- The bytes of a field that is not quoted. -/
def splitBare (start : Nat) (field : List UInt8) : Nat × List UInt8 :=
  match _here : bytes[start]? with
  | none => (start, field)
  | some byte => if dialect.stops byte then (start, field) else splitBare (start + 1) (field ++ [byte])
termination_by bytes.length - start
decreasing_by
  have lt : start < bytes.length := by
    by_contra past
    simp_all
  omega

theorem splitQuoted_le
    (read : splitQuoted bytes dialect start field = some (stop, out)) : start ≤ stop := by
  fun_induction splitQuoted bytes dialect start field with
  | case1 | case2 => cases read
  | case3 start field byte here escape next follows ih | case4 start field byte here escape doubled ih
  | case6 start field byte here escape doubled closing ih =>
    have := ih read
    omega
  | case5 =>
    cases read
    omega

theorem splitBare_le (start : Nat) (field : List UInt8) : start ≤ (splitBare bytes dialect start field).1 := by
  fun_induction splitBare bytes dialect start field with
  | case1 | case2 => exact le_rfl
  | case3 start field byte here stops ih => omega

/-- The reader that keeps each field's bytes. -/
def splitFields : FieldReader (List UInt8) where
  quoted start := splitQuoted bytes dialect start []
  bare start := splitBare bytes dialect start []
  raw := id
  quoted_le := splitQuoted_le bytes dialect
  bare_le start := splitBare_le bytes dialect start []

end Split

/-- `record`: the first record from a place on, its fields as text, and where the next one starts. The text is
any function of a field's bytes, as what a byte sequence reads as does not depend on the scan. -/
def record {Text : Type} (lossy : List UInt8 → Text) (bytes : List UInt8) (start : Nat) (dialect : Dialect)
    (eof : Bool) : Except String (Option (List Text × Nat)) :=
  match readRecord (splitFields bytes dialect) bytes dialect eof start with
  | .error message => .error message
  | .ok none => .ok none
  | .ok (some (fields, next)) => .ok (some (fields.map lossy, next))

/-- `Span`, where a field is in its buffer: two words of thirty-two bits, the top one of the second for
whether the field holds escapes. -/
structure Span where
  startBits : BitVec 32
  endBits : BitVec 32
deriving Repr, DecidableEq

namespace Span

def escapedBit : BitVec 32 := 1 <<< 31

/-- The furthest into its buffer a range can reach. -/
def most : Nat := 2 ^ 31 - 1

/-- `new`. -/
def new (start stop : Nat) (escaped : Bool) : Span where
  startBits := BitVec.ofNat 32 start
  endBits := BitVec.ofNat 32 stop ||| if escaped then escapedBit else 0

/-- `start`. -/
def start (span : Span) : Nat := span.startBits.toNat

/-- `end`. -/
def stop (span : Span) : Nat := (span.endBits &&& ~~~escapedBit).toNat

/-- `escaped`. -/
def escaped (span : Span) : Bool := span.endBits &&& escapedBit ≠ 0

/-- `raw`. -/
def raw (span : Span) (bytes : List UInt8) : List UInt8 := (bytes.drop span.start).take (span.stop - span.start)

end Span

/-- `unescape`: the bytes of a quoted field with its escapes taken out. -/
def unescape (dialect : Dialect) : List UInt8 → List UInt8
  | [] => []
  | [byte] => [byte]
  | byte :: next :: rest =>
    if byte = dialect.escapeByte ∧ dialect.escapeByte ≠ dialect.quoteByte then next :: unescape dialect rest
    else if byte = dialect.escapeByte ∧ next = dialect.quoteByte then dialect.quoteByte :: unescape dialect rest
    else byte :: unescape dialect (next :: rest)

/-- The bytes of a field as its text has them. -/
def Span.held (span : Span) (bytes : List UInt8) (dialect : Dialect) : List UInt8 :=
  if span.escaped then unescape dialect (span.raw bytes) else span.raw bytes

/-- `text`. -/
def Span.text {Text : Type} (lossy : List UInt8 → Text) (span : Span) (bytes : List UInt8) (dialect : Dialect) : Text :=
  lossy (span.held bytes dialect)

section Spans
variable (bytes : List UInt8) (dialect : Dialect)

/-- The place of a quoted field's closing quote, and whether the field has an escape in it. -/
def spanQuoted (start : Nat) (escaped : Bool) : Option (Nat × Bool) :=
  match here : bytes[start]? with
  | none => none
  | some byte =>
    if byte = dialect.escapeByte ∧ dialect.escapeByte ≠ dialect.quoteByte then
      if start + 1 ≥ bytes.length then none else spanQuoted (start + 2) true
    else if byte = dialect.escapeByte ∧ bytes[start + 1]? = some dialect.quoteByte then spanQuoted (start + 2) true
    else if byte = dialect.quoteByte then some (start, escaped)
    else spanQuoted (start + 1) escaped
termination_by bytes.length - start
decreasing_by
  all_goals
    have lt : start < bytes.length := by
      by_contra past
      simp_all
    omega

/-- The place of the byte that ends a field that is not quoted. -/
def spanBare (start : Nat) : Nat :=
  match here : bytes[start]? with
  | none => start
  | some byte => if dialect.stops byte then start else spanBare (start + 1)
termination_by bytes.length - start
decreasing_by
  have lt : start < bytes.length := by
    by_contra past
    simp_all
  omega

theorem spanQuoted_le
    (read : spanQuoted bytes dialect start escaped = some (stop, out)) : start ≤ stop := by
  fun_induction spanQuoted bytes dialect start escaped with
  | case1 | case2 => cases read
  | case3 start escaped byte here escape more ih | case4 start escaped byte here escape doubled ih
  | case6 start escaped byte here escape doubled closing ih =>
    have := ih read
    omega
  | case5 =>
    cases read
    omega

theorem spanQuoted_next {Field : Type} {field : Field} (shape : Nat × Bool → Field)
    (read : (spanQuoted bytes dialect start false).map (fun found => (found.1 + 1, shape found)) = some (stop, field)) :
    start ≤ stop := by
  obtain ⟨found, eq, same⟩ := Option.map_eq_some_iff.mp read
  have le : start ≤ found.1 := spanQuoted_le bytes dialect eq
  cases same
  omega

theorem spanBare_le (start : Nat) : start ≤ spanBare bytes dialect start := by
  fun_induction spanBare bytes dialect start with
  | case1 | case2 => exact le_rfl
  | case3 start byte here stops ih => omega

/-- The reader that keeps where each field is. -/
def spanFields : FieldReader Span where
  quoted start := (spanQuoted bytes dialect start false).map fun found => (found.1 + 1, Span.new start found.1 found.2)
  bare start := (spanBare bytes dialect start, Span.new start (spanBare bytes dialect start) false)
  raw span := span.raw bytes
  quoted_le := spanQuoted_next bytes dialect _
  bare_le start := spanBare_le bytes dialect start

end Spans

/-- `spans`: the first record from a place on as ranges of the buffer. -/
def spans (bytes : List UInt8) (start : Nat) (dialect : Dialect) (eof : Bool) :
    Except String (Option (List Span × Nat)) :=
  readRecord (spanFields bytes dialect) bytes dialect eof start

end Rudb.Csv
