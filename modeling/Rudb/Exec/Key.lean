import Rudb.Common.Value

/-! A row of values used as a key of a hash table, compared and hashed the way rows are grouped, as key.rs of
rudb-exec has it. What a variant sorts by (`variant::sort_key_of`) and how a nested value is written (`Display`) are
parameters. -/
namespace Rudb.Exec
open Rudb.Common

/-- `ODD`, the constant a word is mixed in with. -/
def odd : UInt64 := 0x517cc1b727220a95

/-- `mix` folds one word into a running hash. -/
def mix (state word : UInt64) : UInt64 := ((state <<< 5 ||| state >>> 59) ^^^ word) * odd

/-- `spread` moves what the running hash holds in its high bits down. -/
def spread (state : UInt64) : UInt64 :=
  let spread := state ^^^ state >>> 32
  let spread := spread * odd
  spread ^^^ spread >>> 29

/-- `from_le_bytes`, a word from its bytes. -/
def wordOf (bytes : Bytes) : UInt64 := bytes.foldr (fun byte word => word <<< 8 ||| byte.toUInt64) 0

/-- `Digest::write`: eight bytes at a time, the last ones filled up with zeros, and then how many there were. -/
def write (bytes : Bytes) (state : UInt64) : UInt64 :=
  mix ((bytes.toChunks 8).foldl (fun state word => mix state (wordOf word)) state) (UInt64.ofNat bytes.length)

/-- `hash` of a string: its bytes and one byte behind them. -/
def writeStr (text : Bytes) (state : UInt64) : UInt64 := mix (write text state) 0xff

/-- `hash` of a slice of bytes: how many there are before them. -/
def writeSlice (bytes : Bytes) (state : UInt64) : UInt64 := write bytes (mix state (UInt64.ofNat bytes.length))

/-- `hash` of an integer of this many bits, one of 128 as two words. -/
def writeInt (bits : Nat) (number : Int) (state : UInt64) : UInt64 :=
  let word := (number % 2 ^ bits).toNat
  if bits = 128 then mix (mix state (UInt64.ofNat word)) (UInt64.ofNat (word / 2 ^ 64))
  else mix state (UInt64.ofNat word)

/-- How many bits an integer of a type has. -/
def bitsOf : Whole → Nat
  | .boolean | .tinyInt | .uTinyInt => 8
  | .smallInt | .uSmallInt => 16
  | .integer | .uInteger | .date => 32
  | .hugeInt | .uHugeInt | .uuid => 128
  | _ => 64

/-- The arms of `Value` for an integer, in its order, which has the floats and the bytes between the first
eleven and the others. -/
def wholes : List Whole :=
  [.boolean, .tinyInt, .smallInt, .integer, .bigInt, .hugeInt, .uTinyInt, .uSmallInt, .uInteger, .uBigInt, .uHugeInt,
    .uuid, .date, .time, .timeTz, .timeNs, .timestamp, .timestampTz, .timestampS, .timestampMs, .timestampNs,
    .timestampTzNs]

/-- `mem::discriminant`, the place of a value's arm in `Value`. -/
def discriminant : Value → Nat
  | .null => 0
  | .whole type _ => if wholes.idxOf type < 11 then wholes.idxOf type + 1 else wholes.idxOf type + 10
  | .float _ => 12
  | .double _ => 13
  | .decimal .. => 14
  | .varchar _ => 15
  | .blob _ => 16
  | .bit _ => 17
  | .bigNum _ => 18
  | .numeric _ => 19
  | .variant _ => 20
  | .interval .. => 32
  | .nested .list _ => 33
  | .nested .struct _ => 34
  | .nested .map _ => 35
  | .nested .union _ => 36

/-- `canonical`: the bits a float is hashed as, one pattern for both zeros and one for every NaN. -/
def canonical (number : F64) : UInt64 :=
  if number.isNan then 0x7ff8000000000000 else if number.magnitude = 0 then 0 else number.bits

/-- `interval_micros`. -/
def intervalMicros (months days micros : Int) : Int := (months * 30 + days) * 86400000000 + micros

/-- What other modules say of a value: `variant::sort_key_of`, and `Display` of a nested value. -/
structure Naming where
  sortKeyOf : Bytes → Bytes
  display : Nested → List Part → Bytes

/-- Two floats that group together: `==`, or both a NaN. -/
def sameFloat (one other : F64) : Bool := one.eq other || (one.isNan && other.isNan)

/-- The equality `Value` derives, on a part of a nested value. -/
def samePart : Part → Part → Bool
  | .float one, .float other => one.eq other
  | .other one, .other other => one = other
  | _, _ => false

/-- `same`: whether two values group together. -/
def same (naming : Naming) : Value → Value → Bool
  | .float one, .float other => sameFloat one.widen other.widen
  | .double one, .double other => sameFloat one other
  | .interval months days micros, .interval months' days' micros' =>
    intervalMicros months days micros = intervalMicros months' days' micros'
  | .numeric one, .numeric other => numericKey one = numericKey other
  | .variant one, .variant other => one = other || naming.sortKeyOf one = naming.sortKeyOf other
  | .nested one parts, .nested other parts' =>
    one = other && parts.length = parts'.length && (parts.zip parts').all fun pair => samePart pair.1 pair.2
  | one, other => one = other

/-- `hash_value`. -/
def hashValue (naming : Naming) (value : Value) (state : UInt64) : UInt64 :=
  let state := mix state (UInt64.ofNat (discriminant value))
  match value with
  | .null => state
  | .whole type number => writeInt (bitsOf type) number state
  | .float number => mix state (canonical number.widen)
  | .double number => mix state (canonical number)
  | .varchar text => writeStr text state
  | .blob bytes | .bit bytes | .bigNum bytes => writeSlice bytes state
  | .numeric bytes => writeSlice (numericKey bytes) state
  | .variant bytes => writeSlice (naming.sortKeyOf bytes) state
  | .decimal unscaled width scale =>
    mix (mix (writeInt 128 unscaled state) (UInt64.ofNat width)) (UInt64.ofNat scale)
  | .interval months days micros => writeInt 128 (intervalMicros months days micros) state
  | .nested kind parts => writeStr (naming.display kind parts) state

/-- When two values group together, and what a value is hashed as. -/
structure Keys (Value : Type) where
  same : Value → Value → Bool
  hashValue : Value → UInt64 → UInt64

namespace Keys
variable {Value : Type} (keys : Keys Value)

/-- `PartialEq` of `Key`. -/
def eq (left right : List Value) : Bool :=
  left.length == right.length && (left.zip right).all fun pair => keys.same pair.1 pair.2

/-- `Hash` of `Key`, and `finish`. -/
def hash (key : List Value) : UInt64 := spread (key.foldl (fun state value => keys.hashValue value state) 0)

/-- Whether a table that holds a key finds it when it is asked for another, which has to be hashed as it
is before the two are compared. -/
def finds (held key : List Value) : Bool := keys.hash held == keys.hash key && keys.eq held key

/-- `RowSet::insert` of the rows of a list, one after another, and those that were not held before. -/
def retain (seen : List (List Value)) : List (List Value) → List (List Value) × List (List Value)
  | [] => ([], seen)
  | row :: rest =>
    if seen.any (keys.finds · row) then retain seen rest
    else
      let kept := retain (seen ++ [row]) rest
      (row :: kept.1, kept.2)

/-- Values that group together are hashed as one, and grouping together is an equivalence. -/
structure Lawful : Prop where
  refl : ∀ value, keys.same value value = true
  symm : ∀ one other, keys.same one other = true → keys.same other one = true
  trans : ∀ one other third, keys.same one other = true → keys.same other third = true → keys.same one third = true
  hash : ∀ one other, keys.same one other = true → keys.hashValue one = keys.hashValue other

end Keys

/-- Values that are hashed as they are grouped: no list, struct, map or union of them holds a NaN, and two that
are equal, as they are when the floats in them are, are written alike, which the two zeros are not. -/
structure Plain (naming : Naming) (held : Set Value) : Prop where
  nan : ∀ kind parts number, .nested kind parts ∈ held → .float number ∈ parts → ¬number.isNan
  zero : ∀ kind parts parts', .nested kind parts ∈ held → .nested kind parts' ∈ held →
    same naming (.nested kind parts) (.nested kind parts') = true →
      naming.display kind parts = naming.display kind parts'

/-- `same` and `hash_value` of some values. -/
def keysOf (naming : Naming) (held : Set Value) : Keys held :=
  ⟨fun one other => same naming one.1 other.1, fun value => hashValue naming value.1⟩

/-- `write_float`. The digits of a number that is not zero are a parameter. -/
def writeFloat (digits : F64 → Bytes) (number : F64) : Bytes :=
  let sign := if number.bits >>> 63 = 1 then "-".toUTF8.toList else []
  sign ++
    if number.isNan then "nan".toUTF8.toList
    else if number.magnitude = 0x7ff0000000000000 then "inf".toUTF8.toList
    else if number.magnitude = 0 then "0.0".toUTF8.toList
    else digits number

/-- `Display` of a list of doubles, whose other parts are its brackets and commas. -/
def writeList (digits : F64 → Bytes) (parts : List Part) : Bytes :=
  parts.flatMap fun
    | .float number => writeFloat digits number
    | .other bytes => bytes

end Rudb.Exec
