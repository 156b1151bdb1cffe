import Rudb.Catalog.Ints

/-! The keys a table's unique constraint has seen, in runs that copies of the table share. A set
is a value here: a run is written in place only when nothing else holds it, so no other set sees
the write. Embeds keys.rs of rudb-catalog. -/
namespace Rudb.Catalog

/-- `Encoded`, a row's key: a null, an integer, or the bytes its columns are written as. -/
inductive Encoded where
  | null
  | int (number : Int)
  | bytes (scratch : List UInt8)
deriving DecidableEq

structure Held where
  ints : Ints := {}
  bytes : List (List UInt8) := []

namespace Held
variable (held : Held)

/-- `contains`. -/
def contains : Encoded → Bool
  | .null => false
  | .int number => held.ints.contains number
  | .bytes scratch => held.bytes.contains scratch

/-- `insert`: adds a key and answers whether it was new. A null key always is. -/
def insert : Encoded → Held × Bool
  | .null => (held, true)
  | .int number =>
    let added := held.ints.insert number
    ({ held with ints := added.1 }, added.2)
  | .bytes scratch =>
    if held.bytes.contains scratch then (held, false) else ({ held with bytes := scratch :: held.bytes }, true)

def removeBytes (bytes : List (List UInt8)) (scratch : List UInt8) : List (List UInt8) × Bool :=
  (bytes.erase scratch, bytes.contains scratch)

/-- `remove`: takes a key out and answers whether it was there. A null key never is. -/
def remove : Encoded → Held × Bool
  | .null => (held, false)
  | .int number =>
    let out := held.ints.remove number
    ({ held with ints := out.1 }, out.2)
  | .bytes scratch =>
    let out := removeBytes held.bytes scratch
    ({ held with bytes := out.1 }, out.2)

/-- `len`. -/
def len : Nat := held.ints.len + held.bytes.length

/-- `forget`: takes out every key another holds. -/
def forget (other : Held) : Held where
  ints := (Lib.pick Ints.remove held.ints other.ints.keys).1
  bytes := (Lib.pick removeBytes held.bytes other.bytes).1

/-- `take`: takes in the keys of a run, moving them when nothing else holds it. -/
def take (own : Bool) (run : Held) : Held where
  ints := if own then held.ints.take run.ints else held.ints.add run.ints
  bytes := run.bytes ∪ held.bytes

end Held

/-- A run, and whether nothing else holds it, which is what `Arc::get_mut` answers. -/
structure Run where
  held : Held := {}
  own : Bool := true

def Run.take (before last : Run) : Run where
  held := before.held.take last.own last.held

def covers (runs : List Run) (key : Encoded) : Bool := runs.any (·.held.contains key)

/-- `Seen`: the runs, the newest first, and the keys taken out of runs that something else holds. -/
structure Seen where
  runs : List Run := []
  gone : Held := {}

/-- The rows of a chunk as their keys: one block of integers, or one key a row. -/
inductive Chunk where
  | block (keys : List Int)
  | rows (keys : List Encoded)

def Chunk.keys : Chunk → List Encoded
  | .block keys => keys.map .int
  | .rows keys => keys

/-- Why rows are refused: a row's key is already held, or the rows repeat it. -/
inductive Refusal where
  | held (row : Nat)
  | repeated (row : Nat)

/-- Folds the last run into the one before it while it holds at least half as many keys. -/
def foldLast (last : Run) : List Run → List Run
  | [] => [last]
  | before :: older =>
    if before.held.len ≤ 2 * last.held.len then foldLast (before.take last) older else last :: before :: older

/-- Takes a key out of the oldest run that holds it. The answer is whether something else holds that run, which
then keeps the key. -/
def takeOut (key : Encoded) : List Run → Option (List Run × Bool)
  | [] => none
  | run :: older =>
    match takeOut key older with
    | some out => some (run :: out.1, out.2)
    | none =>
      if run.held.contains key then
        if run.own then some ({ run with held := (run.held.remove key).1 } :: older, false)
        else some (run :: older, true)
      else none

namespace Seen
variable (seen : Seen)

/-- `contains`. -/
def contains (key : Encoded) : Bool := covers seen.runs key && !seen.gone.contains key

/-- `is_empty`. -/
def isEmpty : Bool := seen.runs.all (·.held.len = 0)

/-- `open`: makes the last run one nothing else holds. -/
def open' : Seen :=
  match seen.runs with
  | last :: older => if last.own then seen else { seen with runs := {} :: last :: older }
  | [] => { seen with runs := [{}] }

/-- `insert`: adds a key to the last run, which is open, and answers whether it was new. A key taken out of a run
something else holds is that run's again. -/
def insert (key : Encoded) : Seen × Bool :=
  let back := seen.gone.remove key
  if back.2 then ({ seen with gone := back.1 }, true)
  else
    match seen.runs with
    | [] => (seen, false)
    | last :: rest =>
      if covers rest key then (seen, false)
      else
        let added := last.held.insert key
        ({ seen with runs := { last with held := added.1 } :: rest }, added.2)

/-- `insert_all`: adds a block of integer keys in order up to the first one already held, and answers where that was. -/
def insertAll (keys : List Int) : Seen × Option Nat :=
  if seen.gone.ints.len ≠ 0 then Lib.feed insert seen (keys.map .int)
  else
    match seen.runs with
    | [] => (seen, none)
    | last :: rest =>
      let held := (rest.filterMap (·.held.ints.firstHeld keys)).min?
      let added := last.held.ints.insertAll (keys.take (held.getD keys.length))
      ({ seen with runs := { last with held := { last.held with ints := added.1 } } :: rest }, added.2.or held)

/-- `first_held`: where the first of a block of integer keys that is held is. -/
def firstHeld (keys : List Int) : Option Nat :=
  if seen.gone.ints.len ≠ 0 then keys.findIdx? fun key => seen.contains (.int key)
  else (seen.runs.filterMap (·.held.ints.firstHeld keys)).min?

/-- Takes a key out: from the run that holds it, or into `gone` when something else holds that run. -/
def remove (key : Encoded) : Seen :=
  match takeOut key seen.runs with
  | none => seen
  | some (runs, false) => { seen with runs := runs }
  | some (_, true) => { seen with gone := (seen.gone.insert key).1 }

/-- `forget`. -/
def forget (chunk : Chunk) : Seen := chunk.keys.foldl remove seen

/-- `fold`. -/
def fold : Seen :=
  match seen.runs with
  | last :: older => { seen with runs := foldLast last older }
  | [] => seen

/-- `settle`: puts every run into the first and takes out what is gone, when nothing else holds the first. -/
def settle : Seen :=
  match seen.runs.reverse with
  | [] => seen
  | first :: rest =>
    if (rest = [] ∧ seen.gone.len = 0) ∨ first.own = false then seen
    else { runs := [{ held := (rest.foldl Run.take first).held.forget seen.gone }] }

def insertChunk : Chunk → Seen × Option Nat
  | .block keys => seen.insertAll keys
  | .rows keys => Lib.feed insert seen keys

def firstIn : Chunk → Option Nat
  | .block keys => seen.firstHeld keys
  | .rows keys => keys.findIdx? seen.contains

/-- `absorb`: adds the keys of a chunk in order up to the first one already held, and answers where that was. -/
def absorb (chunk : Chunk) : Seen × Option Nat :=
  let added := seen.open'.insertChunk chunk
  if added.2.isSome then added else (added.1.fold, none)

/-- Adds the keys of chunks, refused if one repeats. -/
def absorbAll (seen : Seen) : List Chunk → Except Refusal Seen
  | [] => .ok seen
  | chunk :: chunks =>
    match seen.absorb chunk with
    | (seen, none) => absorbAll seen chunks
    | (_, some row) => .error (.repeated row)

/-- `of`. -/
def of (chunks : List Chunk) : Except Refusal Seen := absorbAll {} chunks

/-- `check`: checks rows about to be appended, first against the keys held and then against each other. -/
def check (chunks : List Chunk) : Except Refusal Seen :=
  match chunks.findSome? seen.firstIn with
  | some row => .error (.held row)
  | none => of chunks

/-- The keys of a run that are gone, given back rather than held twice. -/
def giveBack (run : Run) : Seen × Run :=
  if seen.gone.len > 0 then
    let ints := Lib.pick Ints.remove run.held.ints seen.gone.ints.keys
    let bytes := Lib.pick Held.removeBytes run.held.bytes seen.gone.bytes
    ({ seen with gone := {
        ints := (Lib.pick Ints.remove seen.gone.ints ints.2).1
        bytes := (Lib.pick Held.removeBytes seen.gone.bytes bytes.2).1 } },
      { held := { ints := ints.1, bytes := bytes.1 } })
  else (seen, run)

/-- Adds a run, into the last one when nothing else holds that. -/
def addRun (run : Run) : Seen :=
  match seen.runs with
  | [] => { seen with runs := [run] }
  | last :: older =>
    if last.own then { seen with runs := foldLast (last.take run) older }
    else { seen with runs := foldLast run (last :: older) }

def extendRun (run : Run) : Seen :=
  let back := seen.giveBack run
  back.1.addRun back.2

/-- `extend`: adds the keys a check passed. -/
def extend (added : Seen) : Seen :=
  if seen.isEmpty then added else added.runs.reverse.foldl extendRun seen

end Seen

end Rudb.Catalog
