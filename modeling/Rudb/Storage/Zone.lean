import Mathlib.Data.List.MinMax
import Mathlib.Data.List.Sort
import Rudb.Kernels.Compare
import Rudb.Vectors.Vector

/-! The smallest and the largest value of every column of a chunk, which a scan reads to skip the
chunk or to hand it on untouched. Embeds zone.rs of rudb-storage. -/
namespace Rudb.Storage.Zones
open Rudb.Common Rudb.Vectors

/-- `Range`, what one chunk of one column holds. -/
structure Range where
  low : Option Bound := none
  high : Option Bound := none
  nulls : Nat := 0
  exact : Bool := false
  sum : Option Int := none
  deriving DecidableEq

/-- `checked_add` of two totals, gone when either is. -/
def addTotals (one other : Option Int) : Option Int :=
  one.bind fun one => other.bind fun other => wide (one + other)

namespace Range

/-- `excludes`. -/
def excludes (range : Range) (op : Op) (value : Bound) : Bool := excluded op value range.low range.high

/-- `certain`. -/
def certain (range : Range) (op : Op) (value : Bound) : Bool :=
  range.nulls = 0 && Common.certain op value range.low range.high

/-- A range whose walk saw every row and found no value. -/
def empty (range : Range) : Bool := range.exact && range.low.isNone && range.high.isNone

/-- One end folded with another, which wins when it is `further`. -/
def foldEnd (further : Ordering) (mine theirs : Option Bound) : Option Bound :=
  match mine, theirs with
  | some mine, some theirs => some (if mine.order theirs = some further then theirs else mine)
  | _, _ => none

/-- `widen`. -/
def widen (range other : Range) : Range where
  low := if range.empty then other.low else if other.empty then range.low else foldEnd .gt range.low other.low
  high := if range.empty then other.high else if other.empty then range.high else foldEnd .lt range.high other.high
  nulls := range.nulls + other.nulls
  exact := range.exact && other.exact
  sum := addTotals range.sum other.sum

/-- One end moved out to a value. -/
def reachEnd (further : Ordering) (value : Bound) (mine : Option Bound) : Option Bound :=
  mine.map fun mine => if mine.order value = some further then value else mine

/-- `reach`. -/
def reach (range : Range) (empty : Bool) (value : Bound) : Range :=
  if empty then { range with low := some value, high := some value }
  else { range with low := reachEnd .gt value range.low, high := reachEnd .lt value range.high }

end Range

/-- `One`, a value the way `of_one` reads it. -/
inductive One where
  | null (exact : Bool) (sum : Option Int)
  | int (bound : Bound) (sum : Option Int)
  | real (number : Option Int)
  | bytes (bytes : Bytes)
  deriving DecidableEq

namespace One

/-- The integer types that `of` answers, with whether a column of them has a total. -/
def totals : Whole → Option Bool
  | .uHugeInt | .uuid | .timeTz => none
  | .hugeInt => some false
  | _ => some true

/-- `of`. -/
def of (value : Value) (ty : LogicalType) : Option One :=
  match value, ty with
  | .null, .float => some (.null false none)
  | .null, .double => some (.null false none)
  | .null, .varchar => some (.null true none)
  | .null, .whole type => (totals type).map fun total => .null true (if total then some 0 else none)
  | .whole one number, .whole type =>
    if one = type then
      (totals type).map fun total => .int ((Bound.int number).scaledAs ty) (if total then some number else none)
    else none
  | .float value, .float => some (.real value.widen.number)
  | .double value, .double => some (.real value.number)
  | .varchar text, .varchar => some (.bytes text)
  | _, _ => none

/-- `range`. -/
def range : One → Range
  | null exact sum => { nulls := 1, exact, sum }
  | int bound sum => { low := some bound, high := some bound, exact := true, sum }
  | real none => {}
  | real (some number) => { low := some (.real (some number)), high := some (.real (some number)) }
  | bytes text => { low := some (.bytes text), high := some (.bytes text), exact := true }

end One

/-- `of_one`. -/
def Range.ofOne (value : Value) (ty : LogicalType) : Option Range := (One.of value ty).map One.range

/-- `widen_one`. -/
def Range.widenOne (range : Range) (one : One) : Range :=
  let (opened, exact, sum) : Range × Bool × Option Int :=
    match one with
    | .null exact sum =>
      ({ range with
          low := if exact then range.low else none
          high := if exact then range.high else none
          nulls := range.nulls + 1 }, exact, sum)
    | .int bound sum => (range.reach range.empty bound, true, sum)
    | .real none => ({ range with low := none, high := none }, false, none)
    | .real (some number) => (range.reach range.empty (.real (some number)), false, none)
    | .bytes text => (range.reach range.empty (.bytes text), true, none)
  { opened with exact := range.exact && exact, sum := addTotals range.sum sum }

/-- `widen_row`, in one column. -/
def Range.widenValue (range : Range) (value : Value) (ty : LogicalType) : Range :=
  match One.of value ty with
  | some one => range.widenOne one
  | none => { nulls := range.nulls }

/-- `rewrite`, in one column. -/
def Range.rewrite (range : Range) (wasNull : Bool) (value : Value) (ty : LogicalType) : Range :=
  let nulls := range.nulls - (if wasNull ∧ 0 < range.nulls then 1 else 0)
  let opened :=
    match One.of value ty with
    | some one => if value.isNull then range else range.widenOne one
    | none => {}
  { opened with nulls := nulls + (if value.isNull then 1 else 0), exact := false, sum := none }

/-- `take`, in one column. -/
def Range.take (range : Range) (nulls : Nat) : Range :=
  { range with nulls := range.nulls - nulls, exact := false, sum := none }

/-- `Walked`, what one look at a column found. -/
structure Walked where
  low : Option Bound := none
  high : Option Bound := none
  exact : Bool := false
  sum : Option Int := none
  deriving DecidableEq

/-- `Walked::ends`. -/
def Walked.ends (ends : Option Bound × Option Bound) : Walked := { low := ends.1, high := ends.2, exact := true }

/-- `Walked::totalled`. -/
def Walked.totalled (ends : Option Int × Option Int) (sum : Int) : Walked :=
  { low := ends.1.map .int, high := ends.2.map .int, exact := true, sum := some sum }

/-- `widen` of a pair of ends. A NaN is left out before. -/
def widen {α : Type} [LinearOrder α] (ends : Option α × Option α) (value : α) : Option α × Option α :=
  (some (match ends.1 with
    | none => value
    | some held => if value < held then value else held),
   some (match ends.2 with
    | none => value
    | some held => if held < value then value else held))

/-- `extremes`: the ends of some values, in one pass. -/
def endsOf {α : Type} [LinearOrder α] (values : List α) : Option α × Option α := values.foldl widen (none, none)

/-- The values of a flat column at the rows that are not null, every value when none is. -/
def liveOf {α : Type} (head : Head) (values : List α) : List α :=
  if head.validity.hasNulls head.len then
    (values.zipIdx.filter fun held => head.live held.2).map (·.1)
  else values

/-- `range`, of what a walk found. -/
def rangeOf (vector : Vector) (walked : Walked) : Range where
  low := walked.low.map (·.scaledAs vector.ty)
  high := walked.high.map (·.scaledAs vector.ty)
  nulls := vector.len - vector.validity.countValid vector.len
  exact := walked.exact
  sum := walked.sum

/-- `wider`, from the range of the values. -/
def wider (inner : Range) : Walked := { low := inner.low, high := inner.high }

/-- `constant`. -/
def constant (head : Head) (value : Value) : Walked :=
  match value with
  | .null => { exact := true, sum := some 0 }
  | value =>
    match Bound.ofValue value with
    | some (.int only) =>
      { low := some (.int only), high := some (.int only), exact := true
        sum := wide (only * head.validity.countValid head.len) }
    | some (.real number) => { low := some (.real number), high := some (.real number) }
    | some other => .ends (some other, some other)
    | none => {}

/-- `ends`, of a sequence. -/
def ends (start step : Int) (len : Nat) : Option Bound × Option Bound :=
  if len = 0 then (none, none)
  else
    let last := start + step * (len - 1)
    if start ≤ last then (some (.int start), some (.int last)) else (some (.int last), some (.int start))

/-- `unpacked`. -/
def unpacked (head : Head) (base : Int) (codes : List Nat) : Walked :=
  let live := ((List.range head.len).filter fun row =>
    !head.validity.hasNulls head.len || head.validity.isValid row).map fun row => base + codes.getD row 0
  .totalled (endsOf live) live.sum

/-- The bounds of two ends. -/
def bounded {α : Type} (into : α → Option Bound) (ends : Option α × Option α) : Option Bound × Option Bound :=
  (ends.1.bind into, ends.2.bind into)

/-- `StringView::prefix`, as a number. -/
def leading (text : Bytes) : Nat :=
  ((text ++ List.replicate 4 0).take 4).foldl (fun number (byte : UInt8) => number * 256 + byte.toNat) 0

/-- `StringView::inline_key`: the zero padded payload, and the length under it. -/
def inlineKey (text : Bytes) : Option Nat :=
  if text.length ≤ 12 then
    some (((text ++ List.replicate 12 0).take 12).foldl (fun number (byte : UInt8) =>
      number * 256 + byte.toNat) 0 * 2 ^ 32 +
      text.length)
  else none

/-- How `viewed` orders two strings with one lead: by their keys when both have one. -/
def viewOrder (one other : Bytes) : Ordering :=
  match inlineKey one, inlineKey other with
  | some key, some held => cmp key held
  | _, _ => cmp one other

/-- One row of the loop of `viewed`. -/
def viewedRow (ends : Option (Bytes × Bytes)) (text : Bytes) : Option (Bytes × Bytes) :=
  match ends with
  | none => some (text, text)
  | some (low, high) => some (
      if leading text < leading low then text
      else if leading text = leading low ∧ viewOrder text low = .lt then text else low,
      if leading high < leading text then text
      else if leading text = leading high ∧ viewOrder text high = .gt then text else high)

/-- `viewed`. -/
def viewed (head : Head) (rows : List Bytes) : Option Bound × Option Bound :=
  match ((rows.zipIdx.filter fun held => head.validity.isValid held.2).map (·.1)).foldl viewedRow none with
  | none => (none, none)
  | some (low, high) => (some (.bytes low), some (.bytes high))

/-- `text`. -/
def text (vector : Vector) : Option Bound × Option Bound :=
  match vector.textParts with
  | some rows => viewed vector.head rows
  | none => bounded (some ∘ .bytes) (endsOf ((List.range vector.len).filterMap vector.bytesAt))

/-- `strings`. -/
def strings (values : Vector) : Bool :=
  values.textParts.isSome ||
    (match values.data with
      | some (.varlen _) => true
      | _ => false) ||
    (match values with
      | .externalText .. => true
      | _ => false)

/-- The codes of the rows that are not null. -/
def liveCodes (head : Head) (codes : List Nat) : List Nat :=
  ((codes.take head.len).zipIdx.filter fun held =>
    !head.validity.hasNulls head.len || head.validity.isValid held.2).map (·.1)

/-- `code_ranks_for`. -/
def codeRanksFor : Vector → Option (List Nat)
  | .externalText _ _ ranks => ranks
  | _ => none

/-- `used`. -/
def used (head : Head) (codes : List Nat) (values : Vector) : Option (Option Bound × Option Bound) :=
  if codes.length < head.len then none
  else
    let held := liveCodes head codes
    if held.any (values.len ≤ ·) then none
    else
      let bound (code : Nat) : Option Bound := (values.bytesAt code).map .bytes
      match if values.validity.hasNulls values.len then none else codeRanksFor values with
      | some ranks =>
        let rank (code : Nat) : Nat := (ranks[code]?).getD (2 ^ 32 - 1)
        some ((held.argmin rank).bind bound, (held.reverse.argmax rank).bind bound)
      | none =>
        some (bounded (some ∘ .bytes) (endsOf ((held.mergeSort (· ≤ ·)).dedup.filterMap values.bytesAt)))

/-- `stringy`. -/
def stringy (vector : Vector) (codes : Option (List Nat)) (values : Vector) (wide : Walked) : Walked :=
  if values.len ≤ vector.len then wide
  else .ends ((codes.bind fun codes => used vector.head codes values).getD (text vector))

/-- `gather!`, counted per entry when there are no more entries than rows. -/
def gather (head : Head) (codes : List Nat) (held : List Int) (wide : Walked) : Walked :=
  let live := liveCodes head codes
  if live.any (held.length ≤ ·) then wide
  else if held.length ≤ head.len then
    let counted := held.zipIdx.filter fun entry => decide (0 < live.count entry.2)
    .totalled (endsOf (counted.map (·.1))) (counted.map fun entry => entry.1 * (live.count entry.2 : Int)).sum
  else
    let values := live.filterMap (held[·]?)
    .totalled (endsOf values) values.sum

/-- `coded`. -/
def coded (vector : Vector) (codes : List Nat) (values : Vector) (wide : Walked) : Walked :=
  if strings values then stringy vector (some codes) values wide
  else
    match values.data with
    | some (.small held) =>
      if values.validity.hasNulls values.len ∨ codes.length < vector.len then wide
      else gather vector.head codes held wide
    | _ => wide

/-- The loop of `weigh!`, or `none` at a run with no value. -/
def weigh (held : List Int) : List Nat → Nat → Option Int × Option Int → Int → Option ((Option Int × Option Int) × Int)
  | [], _, ends, total => some (ends, total)
  | stop :: stops, previous, ends, total =>
    match held with
    | [] => none
    | value :: held =>
      if previous < stop then weigh held stops stop (widen ends value) (total + value * (stop - previous))
      else weigh held stops previous ends total

/-- `runs`. -/
def runs (vector : Vector) (stops : List Nat) (values : Vector) (wide : Walked) : Walked :=
  if strings values then stringy vector none values wide
  else
    match values.data with
    | some (.small held) =>
      if values.validity.hasNulls values.len ∨ vector.validity.hasNulls vector.len then wide
      else if stops.getLast? ≠ some vector.len then wide
      else
        match weigh held stops 0 (none, none) 0 with
        | some (ends, total) => .totalled ends total
        | none => wide
    | _ => wide

/-- `flat`. -/
def flat (vector : Vector) (data : Data) : Option Bound × Option Bound :=
  match data with
  | .small values => bounded (some ∘ .int) (endsOf (liveOf vector.head values))
  | .int128 values => bounded (some ∘ .int) (endsOf (liveOf vector.head values))
  | .uInt128 values => bounded (fun number => (wide number).map .int) (endsOf (liveOf vector.head values))
  | .float32 values => bounded (some ∘ .real ∘ some) (endsOf ((liveOf vector.head values).filterMap (·.widen.number)))
  | .float64 values => bounded (some ∘ .real ∘ some) (endsOf ((liveOf vector.head values).filterMap (·.number)))
  | .varlen _ => text vector
  | .interval _ => (none, none)
  | .empty => (none, none)

/-- `summed`. -/
def summed (head : Head) (data : Data) : Bool × Option Int :=
  match data with
  | .small values => (true, some (liveOf head values).sum)
  | .int128 _ => (true, none)
  | .uInt128 _ => (true, none)
  | .varlen _ => (true, none)
  | .float32 _ => (false, none)
  | .float64 _ => (false, none)
  | .interval _ => (false, none)
  | .empty => (false, none)

/-- `walk`, one arm per form. -/
def walk : Vector → Walked
  | .constant head value => constant head value
  | .sequence head start step =>
    let (low, high) := ends start step head.len
    { low, high, exact := !head.validity.hasNulls head.len }
  | .packed head base codes => unpacked head base codes
  | .dictionary head codes values =>
    coded (.dictionary head codes values) codes values (wider (rangeOf values (walk values)))
  | .runs head stops values =>
    runs (.runs head stops values) stops values (wider (rangeOf values (walk values)))
  | .flat head data =>
    let (low, high) := flat (.flat head data) data
    let (exact, sum) := summed head data
    { low, high, exact, sum }
  | .views head rows => .ends (text (.views head rows))
  | .externalText head rows ranks => .ends (text (.externalText head rows ranks))
  | .coded head rows => .ends (text (.coded head rows))
  | .nested .. => {}
  | .gathered .. => {}

/-- `Range::of`. -/
def Range.of (vector : Vector) : Range := rangeOf vector (walk vector)

/-- `Probe`: a comparison of a column with a constant. -/
structure Probe where
  column : Nat
  op : Op
  value : Bound

/-- `Zone`: the ranges of every column of a chunk. -/
abbrev Zone := List Range

/-- A row, a value for each column. -/
abbrev Row := List Value

namespace Zone

/-- `of`, of a chunk's columns. -/
def of (chunk : List Vector) : Zone := chunk.map Range.of

/-- `of_row`. -/
def ofRow (row : Row) (types : List LogicalType) : Option Zone :=
  if row.length ≠ types.length then none
  else (row.zip types).mapM fun held => Range.ofOne held.1 held.2

/-- `widen_row`. -/
def widenRow (zone : Zone) (row : Row) (types : List LogicalType) : Zone :=
  -- the columns past the row are cut off
  (zone.take row.length).zipIdx.map fun held =>
    match row[held.2]?, types[held.2]? with
    | some value, some ty => held.1.widenValue value ty
    | _, _ => held.1

/-- `rewrite`. -/
def rewrite (zone : Zone) (column : Nat) (wasNull : Bool) (value : Value) (ty : LogicalType) : Zone :=
  zone.modify column (·.rewrite wasNull value ty)

/-- `take`. -/
def take (zone : Zone) (column nulls : Nat) : Zone := zone.modify column (·.take nulls)

/-- `widen`. -/
def widen (zone other : Zone) : Zone := zone.zipWith Range.widen other

/-- `skips`. -/
def skips (zone : Zone) (probes : List Probe) : Bool :=
  probes.any fun probe => (zone[probe.column]?.map (·.excludes probe.op probe.value)).getD false

/-- `certain`. -/
def certain (zone : Zone) (probes : List Probe) : Bool :=
  probes.all fun probe => (zone[probe.column]?.map (·.certain probe.op probe.value)).getD false

end Zone
end Rudb.Storage.Zones
