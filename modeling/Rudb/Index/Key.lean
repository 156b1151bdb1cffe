import Rudb.Common.Value

/-! Normalized keys: the columns of a key written as bytes whose order is the order of the tuple, as key.rs of
rudb-index writes them. -/
namespace Rudb.Index
open Rudb.Common

/-- The order of two keys byte by byte. -/
def memcmp : Bytes → Bytes → Ordering
  | [], [] => .eq
  | [], _ :: _ => .lt
  | _ :: _, [] => .gt
  | one :: rest, other :: more => (cmp one other).then (memcmp rest more)

/-- `to_be_bytes` of an integer that has `width` bytes. -/
def bigEndian : (width : Nat) → Nat → Bytes
  | 0, _ => []
  | width + 1, number => UInt8.ofNat (number / 256 ^ width) :: bigEndian width (number % 256 ^ width)

/-- A signed integer of `width` bytes with the sign bit turned. -/
def signed (width : Nat) (number : Int) : Bytes :=
  bigEndian width ((number % 256 ^ width).toNat ^^^ 2 ^ (8 * width - 1))

/-- `float`: the bits of a double turned so that they sort as the number does. -/
def float (v : F64) : UInt64 :=
  let bits := if v.isNan then 0x7FF8000000000000 else if v.magnitude = 0 then 0 else v.bits
  if bits >>> 63 = 0 then bits ||| 0x8000000000000000 else ~~~ bits

/-- `text`: `ESCAPED` behind every zero, and a zero behind the last byte. -/
def text : Bytes → Bytes
  | [] => [0]
  | byte :: rest => if byte = 0 then 0 :: 0xFF :: text rest else byte :: text rest

/-- How wide an integer is written, and whether it has a sign. -/
def wholeForm : Whole → Nat × Bool
  | .boolean => (1, false)
  | .uTinyInt | .uSmallInt | .uInteger | .uBigInt => (8, false)
  | .uHugeInt => (16, false)
  | .hugeInt | .uuid => (16, true)
  | _ => (8, true)

/-- What `push` writes behind the first byte of a column, and `none` for the types no key is written for. -/
def body : Value → Option Bytes
  | .null | .variant _ | .interval .. | .nested .. => none
  | .whole type number =>
    some (if (wholeForm type).2 then signed (wholeForm type).1 number else bigEndian (wholeForm type).1 number.toNat)
  | .float value => some (bigEndian 8 (float value.widen).toNat)
  | .double value => some (bigEndian 8 (float value).toNat)
  | .decimal unscaled _ _ => some (signed 16 unscaled)
  | .varchar bytes | .blob bytes | .bit bytes | .bigNum bytes => some (text bytes)
  | .numeric bytes => some (text (numericKey bytes))

/-- `push`, and `none` where it answers `false`: `NULL` for a null, and `VALUE` before what is written. -/
def push (value : Value) (out : Bytes) : Option Bytes :=
  if value = .null then some (out ++ [0]) else (body value).map fun bytes => out ++ 1 :: bytes

/-- `normalize`. -/
def normalize : List Value → Bytes → Option Bytes
  | [], out => some out
  | value :: rest, out => (push value out).bind (normalize rest)

end Rudb.Index
