import Mathlib.Data.List.Dedup
import Rudb.Common.Bounds

/-! Columns of values in the forms the engine holds them in: which rows are null, and what a row
holds. Embeds vector.rs and validity.rs of rudb-vector. -/
namespace Rudb.Vectors
open Rudb.Common

/-- `Validity`. -/
inductive Validity where
  | allValid
  | allInvalid
  | mask (bits : List Bool)
  deriving DecidableEq, Repr

namespace Validity

/-- `is_valid`. A row past the mask is not. -/
def isValid : Validity → Nat → Bool
  | allValid, _ => true
  | allInvalid, _ => false
  | mask bits, index => bits.getD index false

/-- `count_valid`. -/
def countValid (validity : Validity) (len : Nat) : Nat := ((List.range len).filter validity.isValid).length

/-- `has_nulls`. -/
def hasNulls (validity : Validity) (len : Nat) : Bool := validity.countValid len ≠ len

end Validity

/-- `Data`. The layouts of up to 64 bits, a boolean's included, are one: what they hold is widened
to an `i128` wherever it is read. -/
inductive Data where
  | empty
  | small (values : List Int)
  | int128 (values : List Int)
  | uInt128 (values : List Int)
  | float32 (values : List F32)
  | float64 (values : List F64)
  | interval (values : List (Int × Int × Int))
  | varlen (values : List Bytes)
  deriving DecidableEq

/-- What every vector has beside its body. -/
structure Head where
  ty : LogicalType
  len : Nat
  validity : Validity := .allValid

/-- `Vector`, one form each. A packed run is its codes, views and compressed text are the strings
they stand for, and a list or a struct is what its rows are written as. -/
inductive Vector where
  | flat (head : Head) (data : Data)
  | constant (head : Head) (value : Value)
  | sequence (head : Head) (start step : Int)
  | dictionary (head : Head) (codes : List Nat) (values : Vector)
  | packed (head : Head) (base : Int) (codes : List Nat)
  | views (head : Head) (rows : List Bytes)
  /-- With the ranks the source answers, when it does. -/
  | externalText (head : Head) (rows : List (Option Bytes)) (ranks : Option (List Nat))
  | coded (head : Head) (rows : List Bytes)
  | runs (head : Head) (ends : List Nat) (values : Vector)
  | nested (head : Head) (kind : Nested) (rows : List (List Part))
  | gathered (head : Head) (source : Vector) (rids : List (Option Nat))

/-- Whether row `index` is there and the vector's own mask has it valid. -/
def Head.live (head : Head) (index : Nat) : Bool := decide (index < head.len) && head.validity.isValid index

/-- `bytes_as`. -/
def bytesAs (ty : LogicalType) (bytes : Bytes) : Value :=
  match ty with
  | .varchar | .type | .json | .jsonb => .varchar bytes
  | .blob => .blob bytes
  | .bit => .bit bytes
  | .bigNum => .bigNum bytes
  | .numeric => .numeric bytes
  | .variant => .variant bytes
  | _ => .null

/-- An integer as a value of the type. -/
def numberAs (ty : LogicalType) (number : Int) : Value :=
  match ty with
  | .whole type => .whole type number
  | .decimal width scale => .decimal number width scale
  | .enum labels => (labels[number.toNat]?.map .varchar).getD .null
  | _ => .null

/-- `value_from`. -/
def valueFrom (ty : LogicalType) (data : Data) (index : Nat) : Value :=
  match data with
  | .small values => (values[index]?.map (numberAs ty)).getD .null
  | .int128 values => (values[index]?.map (numberAs ty)).getD .null
  | .uInt128 values => (values[index]?.map (numberAs ty)).getD .null
  | .float32 values => (values[index]?.map .float).getD .null
  | .float64 values => (values[index]?.map .double).getD .null
  | .interval values => (values[index]?.map fun held => .interval held.1 held.2.1 held.2.2).getD .null
  | .varlen values => (values[index]?.map (bytesAs ty)).getD .null
  | .empty => .null

/-- `run_holding`, over ends that rise. -/
def runHolding (ends : List Nat) (row : Nat) : Option Nat := ends.findIdx? (row < ·)

/-- An `i64`, which wraps. -/
def wrapped (number : Int) : Int := number.bmod (2 ^ 64)

namespace Vector

def head : Vector → Head
  | flat head .. | constant head .. | sequence head .. | dictionary head .. | packed head ..
  | views head .. | externalText head .. | coded head .. | runs head .. | nested head ..
  | gathered head .. => head

abbrev len (vector : Vector) : Nat := vector.head.len
abbrev ty (vector : Vector) : LogicalType := vector.head.ty
abbrev validity (vector : Vector) : Validity := vector.head.validity

/-- `value_at`. -/
def valueAt : Vector → Nat → Value
  | flat head data, index => if head.live index then valueFrom head.ty data index else .null
  | constant head value, index => if head.live index then value else .null
  | sequence head start step, index =>
    if head.live index then .whole .bigInt (wrapped (start + step * index)) else .null
  | dictionary head codes values, index =>
    if head.live index then ((codes[index]?).map values.valueAt).getD .null else .null
  | packed head base codes, index =>
    if head.live index then ((codes[index]?).map fun (code : Nat) => numberAs head.ty (base + code)).getD .null
    else .null
  | views head rows, index =>
    if head.live index then ((rows[index]?).map (bytesAs head.ty)).getD .null else .null
  | externalText head rows _, index =>
    if head.live index then ((rows[index]?).join.map (bytesAs head.ty)).getD .null else .null
  | coded head rows, index =>
    if head.live index then ((rows[index]?).map (bytesAs head.ty)).getD .null else .null
  | runs head ends values, index =>
    if head.live index then ((runHolding ends index).map values.valueAt).getD .null else .null
  | nested head kind rows, index =>
    if head.live index then ((rows[index]?).map (.nested kind)).getD .null else .null
  | gathered head source rids, index =>
    if head.live index then ((rids[index]?).join.map source.valueAt).getD .null else .null

/-- The values of the rows. -/
def values (vector : Vector) : List Value := (List.range vector.len).map vector.valueAt

/-- The bytes of a value that is kept as bytes. -/
def valueBytes : Value → Option Bytes
  | .varchar bytes | .blob bytes | .bit bytes | .bigNum bytes | .numeric bytes | .variant bytes => some bytes
  | _ => none

/-- `bytes_at`, which has nothing to hand back of a compressed row. -/
def bytesAt : Vector → Nat → Option Bytes
  | flat head (.varlen rows), index => if head.live index then rows[index]? else none
  | constant head value, index => if head.live index then valueBytes value else none
  | dictionary head codes values, index => if head.live index then (codes[index]?).bind values.bytesAt else none
  | views head rows, index => if head.live index then rows[index]? else none
  | externalText head rows _, index => if head.live index then (rows[index]?).join else none
  | runs head ends values, index => if head.live index then (runHolding ends index).bind values.bytesAt else none
  | gathered head source rids, index => if head.live index then (rids[index]?).join.bind source.bytesAt else none
  | flat .., _ => none
  | sequence .., _ => none
  | packed .., _ => none
  | coded .., _ => none
  | nested .., _ => none

/-- `repeated_by_runs`, for the layouts of a fixed width. -/
def repeatedByRuns (data : Data) (ends : List Nat) (len : Nat) : Option Data :=
  let rows {α : Type} (held : List α) : List α :=
    (List.range len).filterMap fun row => (runHolding ends row).bind (held[·]?)
  match data with
  | .small held => if held.length < ends.length then none else some (.small (rows held))
  | .int128 held => if held.length < ends.length then none else some (.int128 (rows held))
  | .uInt128 held => if held.length < ends.length then none else some (.uInt128 (rows held))
  | .float32 held => if held.length < ends.length then none else some (.float32 (rows held))
  | .float64 held => if held.length < ends.length then none else some (.float64 (rows held))
  | .interval held => if held.length < ends.length then none else some (.interval (rows held))
  | .varlen _ => none
  | .empty => none

/-- `data`, which lays runs out flat. -/
def data : Vector → Option Data
  | flat _ data => some data
  | runs head ends (flat inner data) =>
    if inner.validity = .allValid ∧ ends.getLast? = some head.len then repeatedByRuns data ends head.len else none
  | _ => none

/-- `text_parts`, as the strings the views stand for. -/
def textParts : Vector → Option (List Bytes)
  | flat _ (.varlen rows) => some rows
  | views _ rows => some rows
  | _ => none

end Vector
end Rudb.Vectors
