import Rudb.Graph.Rids
import Rudb.Lib.Feeding

/-! The keys of one integer column, mostly as a bitmap over the range they cover. The keys too far
from the others for the bitmap to stretch to are a list without repeats. Embeds keys.rs of
rudb-catalog. -/
namespace Rudb.Catalog
open Rudb.Graph

/-- A number as an `i64` keeps it. -/
def wrap (number : Int) : Int := (number + 2 ^ 63) % 2 ^ 64 - 2 ^ 63

/-- How many bits the bitmap may spend on each key, and how many whatever it holds. -/
def spread : Nat := 16
def slack : Nat := 2 ^ 16

/-- A product or a sum that stops at the largest `usize`. -/
def saturated (number : Nat) : Nat := min number (2 ^ 64 - 1)

/-- The last multiple of 64 that is not above a number. -/
def floor (number : Int) : Int := number - number % 64

def clearBit (words : List Word) (place : Nat) : List Word :=
  words.set (place / 64) (words.getD (place / 64) 0 &&& ~~~((1 : Word) <<< (place % 64)))

/-- `base` is the key the first bit stands for, and `set` how many bits are set. -/
structure Ints where
  base : Int := 0
  bits : List Word := []
  set : Nat := 0
  rest : List Int := []

namespace Ints
variable (ints : Ints)

/-- `len`. -/
def len : Nat := ints.set + ints.rest.length

/-- `slot`: the place of a key in the bitmap, when it reaches it. -/
def slot (key : Int) : Option Nat :=
  if 0 ≤ key - ints.base ∧ (key - ints.base).toNat / 64 < ints.bits.length then some (key - ints.base).toNat else none

/-- `contains`. -/
def contains (key : Int) : Bool := (ints.slot key).any (bit ints.bits) || ints.rest.contains key

/-- `keys`. -/
def keys : List Int := (ones ints.bits).map (fun place : Nat => wrap (ints.base + (place : Int))) ++ ints.rest

/-- `reach`: stretches the bitmap over a range, about to take some more keys, when that keeps it within its budget. -/
def reach (low high : Int) (adding : Nat) : Ints :=
  let stop := ints.base + 64 * ints.bits.length - 1
  let first := if ints.bits = [] then floor low else min (floor low) ints.base
  let last := if ints.bits = [] then high else max high stop
  let words := (last - first) / 64 + 1
  let budget : Int := (saturated (saturated (saturated (ints.len + adding) * spread) + slack) / 64 : Nat)
  if words > budget then ints
  else if ints.bits = [] then { ints with base := wrap first, bits := List.replicate words.toNat 0 }
  else
    let before := (ints.base - first) / 64
    let ints :=
      if before > 0 then
        let lowest := (-2 ^ 63 - first) / 64
        let spare := max (min (min (ints.bits.length : Int) (budget - words)) (-lowest)) 0
        { ints with
          base := wrap (first - 64 * spare)
          bits := List.replicate (before + spare).toNat 0 ++ ints.bits }
      else ints
    let words := ((last - ints.base) / 64 + 1).toNat
    { ints with bits := ints.bits ++ List.replicate (words - ints.bits.length) 0 }

/-- `insert`. -/
def insert (key : Int) : Ints × Bool :=
  let ints := if (ints.slot key).isNone then ints.reach key key 1 else ints
  match ints.slot key with
  | none => if ints.rest.contains key then (ints, false) else ({ ints with rest := key :: ints.rest }, true)
  | some place =>
    if bit ints.bits place || ints.rest.contains key then (ints, false)
    else ({ ints with bits := setBit ints.bits place, set := ints.set + 1 }, true)

/-- `remove`. -/
def remove (key : Int) : Ints × Bool :=
  match ints.slot key with
  | some place =>
    if bit ints.bits place then ({ ints with bits := clearBit ints.bits place, set := ints.set - 1 }, true)
    else ({ ints with rest := ints.rest.erase key }, ints.rest.contains key)
  | none => ({ ints with rest := ints.rest.erase key }, ints.rest.contains key)

/-- `insert_all`: adds keys in order up to the first one that was already held, and answers where that was. -/
def insertAll (keys : List Int) : Ints × Option Nat :=
  match keys.min?, keys.max? with
  | some low, some high => Lib.feed insert (ints.reach low high keys.length) keys
  | _, _ => (ints, none)

/-- `first_held`. -/
def firstHeld (keys : List Int) : Option Nat := if ints.len = 0 then none else keys.findIdx? ints.contains

/-- `add`. -/
def add (other : Ints) : Ints :=
  if other.len = 0 then ints
  else
    let ends := other.keys.foldl (fun ends key => (min ends.1 key, max ends.2 key)) ((2 ^ 63 - 1 : Int), (-2 ^ 63 : Int))
    other.keys.foldl (fun ints key => (ints.insert key).1) (ints.reach ends.1 ends.2 other.len)

/-- `take`: adds every key another holds, taking it whole when this holds none. -/
def take (other : Ints) : Ints := if ints.len = 0 then other else ints.add other

end Ints

end Rudb.Catalog
