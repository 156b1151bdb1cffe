import Mathlib.Data.List.Sort
import Rudb.Graph.Link

/-! A parent key column's map from a key to the row that holds it, in four forms: an offset, a
rank over a bitmap of the range, a permuted rank, and a search over the sorted keys. Embeds
keymap.rs of rudb-graph. -/
namespace Rudb.Graph
open Rudb.Encoding

namespace KeyMap

/-- `malformed`. -/
def malformed (message : String) : String := "invalid rudb key map: " ++ message

/-- `DENSE_THRESHOLD`. -/
def denseThreshold : Nat := 8

/-- `Form`. -/
inductive Form where
  | identity | dense | sorted | permuted
  deriving DecidableEq, Repr

/-- `tag`. -/
def Form.tag : Form → Nat
  | identity => 0
  | dense => 1
  | sorted => 2
  | permuted => 3

/-- `from_tag`. -/
def Form.fromTag : Nat → Except String Form
  | 0 => .ok identity
  | 1 => .ok dense
  | 2 => .ok sorted
  | 3 => .ok permuted
  | tag => .error (malformed ("key map form " ++ toString tag ++ " is not one this build knows"))

/-- `Observed`. -/
structure Observed where
  rows : Nat
  nulls : Nat
  distinct : Bool
  sorted : Bool
  min : Option Int
  max : Option Int
  deriving DecidableEq

/-- `Body`. -/
inductive Body where
  | identity (base : Int) (count : Nat)
  | dense (base : Int) (range : Nat) (bits : List Word) (rank : Rank)
  | sorted (base : Int) (keyWidth : Nat) (keys : List UInt8) (ridWidth : Nat) (perm : List UInt8) (count : Nat)
  | permuted (base : Int) (range : Nat) (bits : List Word) (rank : Rank) (ridWidth : Nat) (perm : List UInt8)
  deriving DecidableEq

/-- The numbers an `i128` holds. -/
def IsI128 (value : Int) : Prop := -2 ^ 127 ≤ value ∧ value < 2 ^ 127

instance (value : Int) : Decidable (IsI128 value) := inferInstanceAs (Decidable (_ ∧ _))

/-- `i128::checked_sub`. -/
def checkedSub (value other : Int) : Option Int := if IsI128 (value - other) then some (value - other) else none

/-- `i128::checked_add`. -/
def checkedAdd (value other : Int) : Option Int := if IsI128 (value + other) then some (value + other) else none

/-- `u64::try_from`. -/
def toU64 (value : Int) : Option Nat := if 0 ≤ value ∧ value < 2 ^ 64 then some value.toNat else none

/-- `width_for`. -/
def widthFor (largest : Nat) : Nat := Graph.widthFor largest

/-- `Plan`. -/
inductive Plan where
  | empty
  | identity (base : Int) (count : Nat)
  | dense (base : Int) (range : Nat)
  | permuted (base : Int) (range : Nat)
  | sorted (base : Int)
  deriving DecidableEq

/-- `Observer`. -/
structure Observer where
  observed : Observed
  previous : Option Int

/-- `Observer::new`. -/
def Observer.new : Observer :=
  { observed := { rows := 0, nulls := 0, distinct := true, sorted := true, min := none, max := none }, previous := none }

/-- `Observer::push`. -/
def Observer.push (observer : Observer) : Option Int → Observer
  | none => { observer with observed := { observer.observed with nulls := observer.observed.nulls + 1 } }
  | some key =>
    let seen := { observer.observed with
      rows := observer.observed.rows + 1
      min := some (observer.observed.min.elim key (Min.min · key))
      max := some (observer.observed.max.elim key (Max.max · key)) }
    { observed := match observer.previous with
        | none => seen
        | some previous =>
          if key < previous then { seen with sorted := false }
          else if key = previous then { seen with distinct := false } else seen
      previous := some key }

/-- `observe`. -/
def observe (keys : List (Option Int)) : Observed := (keys.foldl Observer.push Observer.new).observed

/-- `range_of`. -/
def rangeOf (min max : Int) : Except String Nat :=
  let span := ((max - min) % 2 ^ 128).toNat
  if span < 2 ^ 64 ∧ span + 1 < 2 ^ 64 then .ok (span + 1)
  else .error (malformed "the key column spans more than a u64 of values")

/-- `plan`. -/
def plan (observed : Observed) : Except String Plan :=
  if observed.rows = 0 then .ok .empty
  else match observed.min, observed.max with
    | some min, some max =>
      (rangeOf min max).map fun range =>
        let positional := observed.distinct && observed.sorted && observed.nulls == 0
        let compact := decide (range / observed.rows < denseThreshold)
        if positional && range == observed.rows then .identity min observed.rows
        else if positional && compact then .dense min range
        else if observed.distinct && compact then .permuted min range
        else .sorted min
    | _, _ => .error (malformed "a column with keys in it reported no minimum")

/-- `offset_of`. -/
def offsetOf (key base : Int) : Except String Nat :=
  match checkedSub key base with
  | none => .error (malformed "a key is further from the base than an i128 holds")
  | some offset =>
    match toU64 offset with
    | none => .error (malformed "a key is below the base or further from it than a u64 holds")
    | some offset => .ok offset

/-- `DenseBits`. -/
structure DenseBits where
  base : Int
  range : Nat
  bits : List Word

/-- `DenseBits::new`. -/
def DenseBits.new (base : Int) (range : Nat) : DenseBits :=
  { base, range, bits := List.replicate ((range + 63) / 64) 0 }

/-- `DenseBits::push`. -/
def DenseBits.push (dense : DenseBits) (key : Int) : Except String DenseBits :=
  (offsetOf key dense.base).map fun offset => { dense with bits := setBit dense.bits offset }

/-- `DenseBits::mark`, which also says whether the key's bit was clear. -/
def DenseBits.mark (dense : DenseBits) (key : Int) : Except String (DenseBits × Bool) :=
  (offsetOf key dense.base).map fun offset =>
    ({ dense with bits := setBit dense.bits offset }, !bit dense.bits offset)

/-- `DenseBits::finish`. -/
def DenseBits.finish (dense : DenseBits) : Body := .dense dense.base dense.range dense.bits (Rank.build dense.bits)

/-- `Permutation`. -/
structure Permutation where
  base : Int
  range : Nat
  bits : List Word
  rank : Rank
  places : List Nat
  ridWidth : Nat

/-- `Permutation::new`. -/
def Permutation.new (dense : DenseBits) (rows : Nat) : Permutation :=
  { base := dense.base, range := dense.range, bits := dense.bits, rank := Rank.build dense.bits
    places := List.replicate (dense.bits.map countOnes).sum 0, ridWidth := widthFor (rows - 1) }

/-- `Permutation::place`. -/
def Permutation.place (permutation : Permutation) (key : Int) (rid : Nat) : Except String Permutation :=
  (offsetOf key permutation.base).bind fun offset =>
    let place := permutation.rank.rank permutation.bits offset
    if place < permutation.places.length then .ok { permutation with places := permutation.places.set place rid }
    else .error (malformed "a key was placed that the bitmap does not hold")

/-- `Permutation::finish`. -/
def Permutation.finish (permutation : Permutation) : Except String Body :=
  (packLinear permutation.places permutation.ridWidth).map fun perm =>
    .permuted permutation.base permutation.range permutation.bits permutation.rank permutation.ridWidth perm

/-- `Keys::scan` of a slice: each row in order, and none after the first error. -/
def scan {σ : Type} (each : σ → Option Int → Except String σ) : (keys : List (Option Int)) → σ → Except String σ
  | [], state => .ok state
  | key :: rest, state => (each state key).bind (scan each rest)

/-- `dense`. -/
def dense (keys : List (Option Int)) (base : Int) (range : Nat) : Except String Body :=
  (scan (fun dense key => key.elim (.ok dense) dense.push) keys (DenseBits.new base range)).map DenseBits.finish

/-- The offset and the row of each key, from a row on. -/
def pairs (base : Int) : (rid : Nat) → (keys : List (Option Int)) → Except String (List (Nat × Nat))
  | _, [] => .ok []
  | rid, none :: rest => pairs base (rid + 1) rest
  | rid, some key :: rest =>
    (offsetOf key base).bind fun offset => (pairs base (rid + 1) rest).map ((offset, rid) :: ·)

/-- The order of `sort_unstable` on the pairs. -/
def pairLe (one other : Nat × Nat) : Prop := one.1 < other.1 ∨ (one.1 = other.1 ∧ one.2 ≤ other.2)

instance : DecidableRel pairLe := fun _ _ => inferInstanceAs (Decidable (_ ∨ _))

/-- Whether no two neighbours have one key. -/
def apart (pairs : List (Nat × Nat)) : Bool := decide (pairs.IsChain fun one other => one.1 ≠ other.1)

/-- `sorted`: the body, and whether every key was distinct. -/
def sorted (keys : List (Option Int)) (base : Int) (rows : Nat) : Except String (Body × Bool) :=
  (pairs base 0 keys).bind fun pairs =>
    let pairs := pairs.insertionSort pairLe
    let keyWidth := widthFor (pairs.getLast?.elim 0 Prod.fst)
    let ridWidth := widthFor (keys.length - 1)
    (packLinear (pairs.map Prod.fst) keyWidth).bind fun keyBytes =>
      (packLinear (pairs.map Prod.snd) ridWidth).map fun ridBytes =>
        (.sorted base keyWidth keyBytes ridWidth ridBytes rows, apart pairs)

end KeyMap

/-- `KeyMap`. -/
structure KeyMap where
  body : KeyMap.Body
  observed : KeyMap.Observed
  deriving DecidableEq

namespace KeyMap

/-- A map of no rows, for a column without keys or one that no link may be built on. -/
def nothing (observed : Observed) : KeyMap := { body := .identity 0 0, observed }

/-- The marking of `build`, which stops at the first repeat. -/
def markUntil : (dense : DenseBits) → (keys : List Int) → Except String (DenseBits × Bool)
  | dense, [] => .ok (dense, true)
  | dense, key :: rest => (dense.mark key).bind fun (dense, fresh) =>
    if fresh then markUntil dense rest else .ok (dense, false)

/-- The placing of `build`, from a row on. -/
def placeAll : (permutation : Permutation) → (rid : Nat) → (keys : List (Option Int)) → Except String Permutation
  | permutation, _, [] => .ok permutation
  | permutation, rid, none :: rest => placeAll permutation (rid + 1) rest
  | permutation, rid, some key :: rest =>
    (permutation.place key rid).bind fun permutation => placeAll permutation (rid + 1) rest

/-- `build`. -/
def build (keys : List (Option Int)) : Except String KeyMap :=
  let observed := observe keys
  if !observed.distinct then .ok (nothing observed)
  else (plan observed).bind fun plan =>
    match plan with
    | .empty => .ok (nothing observed)
    | .identity base count => .ok { body := .identity base count, observed }
    | .dense base range => (dense keys base range).map fun body => { body, observed }
    | .permuted base range =>
      (markUntil (DenseBits.new base range) (keys.filterMap id)).bind fun (bits, fresh) =>
        if fresh then
          (placeAll (Permutation.new bits keys.length) 0 keys).bind fun permutation =>
            permutation.finish.map fun body => { body, observed }
        else .ok (nothing { observed with distinct := false })
    | .sorted base =>
      (sorted keys base observed.rows).map fun (body, distinct) => { body, observed := { observed with distinct } }

/-- One row of the second scan of the permuted form: the bitmap, and whether a key repeated. -/
def markRow (state : DenseBits × Bool) (key : Option Int) : Except String (DenseBits × Bool) :=
  key.elim (.ok state) fun key => (state.1.mark key).map fun (dense, fresh) => (dense, state.2 || !fresh)

/-- One row of the third scan of the permuted form, and the row after it. -/
def placeRow (state : Permutation × Nat) (key : Option Int) : Except String (Permutation × Nat) :=
  (key.elim (.ok state.1) fun key => state.1.place key state.2).map fun permutation => (permutation, state.2 + 1)

/-- `build_from`, which scans the column instead of holding it. -/
def buildFrom (keys : List (Option Int)) : Except String KeyMap :=
  (scan (fun observer key => .ok (observer.push key)) keys Observer.new).bind fun observer =>
    let observed := observer.observed
    if !observed.distinct then .ok (nothing observed)
    else (plan observed).bind fun plan =>
      match plan with
      | .empty => .ok (nothing observed)
      | .identity base count => .ok { body := .identity base count, observed }
      | .dense base range =>
        (scan (fun dense key => key.elim (.ok dense) dense.push) keys (DenseBits.new base range)).map fun dense =>
          { body := dense.finish, observed }
      | .permuted base range =>
        (scan markRow keys (DenseBits.new base range, false)).bind fun (bits, repeated) =>
          if repeated then .ok (nothing { observed with distinct := false })
          else
            (scan placeRow keys (Permutation.new bits (observed.rows + observed.nulls), 0)).bind fun (permutation, _) =>
              permutation.finish.map fun body => { body, observed }
      | .sorted base =>
        (scan (fun held key => .ok (held ++ [key])) keys []).bind fun held =>
          (sorted held base observed.rows).map fun (body, distinct) => { body, observed := { observed with distinct } }

/-- `form`. -/
def form (map : KeyMap) : Form :=
  match map.body with
  | .identity .. => .identity
  | .dense .. => .dense
  | .sorted .. => .sorted
  | .permuted .. => .permuted

/-- `span`. -/
def span (map : KeyMap) : Option (Int × Nat) :=
  match map.body with
  | .identity base count => some (base, count)
  | .dense base range .. | .permuted base range .. => some (base, range)
  | .sorted .. => none

/-- `base`. -/
def base (map : KeyMap) : Int :=
  match map.body with
  | .identity base _ | .dense base .. | .sorted base .. | .permuted base .. => base

/-- The offset `lookup` asks for, and none for a key that is not above the base or too far from it. -/
def offset (key base : Int) : Option Nat := (checkedSub key base).bind toU64

/-- The search of `lookup` by halving, for the first of the keys that is not below the one wanted. -/
def search (keys : List UInt8) (width wanted low high : Nat) : Except String Nat :=
  if low < high then
    let mid := low + (high - low) / 2
    match tailAt keys width mid with
    | .error error => .error error
    | .ok found => if found < wanted then search keys width wanted (mid + 1) high else search keys width wanted low mid
  else .ok low
termination_by high - low

/-- The row of the dense forms for an offset in the range, when its bit is set. -/
def ranked (bits : List Word) (rank : Rank) (row : Nat → Except String Nat) (range offset : Nat) :
    Except String (Option Nat) :=
  if offset ≥ range then .ok none
  else if bit bits offset then (row (rank.rank bits offset)).map some else .ok none

/-- `lookup`. -/
def lookup (map : KeyMap) (key : Int) : Except String (Option Nat) :=
  match map.body with
  | .identity base count => .ok ((offset key base).filter (· < count))
  | .dense base range bits rank =>
    match offset key base with
    | none => .ok none
    | some offset => ranked bits rank .ok range offset
  | .permuted base range bits rank ridWidth perm =>
    match offset key base with
    | none => .ok none
    | some offset => ranked bits rank (tailAt perm ridWidth) range offset
  | .sorted base keyWidth keys ridWidth perm count =>
    match offset key base with
    | none => .ok none
    | some wanted =>
      (search keys keyWidth wanted 0 count).bind fun low =>
        if low ≥ count then .ok none
        else (tailAt keys keyWidth low).bind fun found =>
          if found ≠ wanted then .ok none else (tailAt perm ridWidth low).map some

/-- Each of the keys answered in the place of it, as far as both go. -/
def fillBlock (answer : Int → Except String Nat) : (keys : List Int) → (out : List Nat) → Except String (List Nat)
  | key :: keys, _ :: out => (answer key).bind fun row => (fillBlock answer keys out).map (row :: ·)
  | _, out => .ok out

/-- The offset `lookup_block` asks for, whose subtraction wraps. -/
def blockOffset (key base : Int) : Option Nat := toU64 (Int.bmod (key - base) (2 ^ 128))

/-- `lookup_block`. -/
def lookupBlock (map : KeyMap) (keys : List Int) (out : List Nat) : Except String (List Nat) :=
  match map.body with
  | .identity base count =>
    fillBlock (fun key => .ok (((blockOffset key base).filter (· < count)).getD noParent)) keys out
  | .dense base range bits rank =>
    fillBlock (fun key => match blockOffset key base with
      | none => .ok noParent
      | some offset => (ranked bits rank .ok range offset).map (·.getD noParent)) keys out
  | .permuted base range bits rank ridWidth perm =>
    fillBlock (fun key => match blockOffset key base with
      | none => .ok noParent
      | some offset => (ranked bits rank (tailAt perm ridWidth) range offset).map (·.getD noParent)) keys out
  | .sorted .. => fillBlock (fun key => (map.lookup key).map (·.getD noParent)) keys out

/-- The keys of one word of `rows_of_span`, each the row at its place, until one is past the rows. -/
def spreadWord (row : Nat → Except String Nat) (present : Word) (before : Nat) (left : Word) (out : List Word) :
    Except String (Option (List Word)) :=
  if left = 0 then .ok (some out)
  else
    let below := (1 : Word) <<< trailingZeros left - 1
    match row (before + countOnes (present &&& below)) with
    | .error error => .error error
    | .ok rid =>
      if rid / 64 < out.length then spreadWord row present before (clearLowest left) (setBit out rid) else .ok none
termination_by left.toNat
decreasing_by exact clearLowest_lt ‹_›

/-- The words of `rows_of_span` side by side, with the keys present before each. -/
def spread (row : Nat → Except String Nat) :
    (before : Nat) → (held bits : List Word) → (out : List Word) → Except String (Option (List Word))
  | before, keys :: held, present :: bits, out =>
    if keys &&& ~~~present ≠ 0 then .ok none
    else match spreadWord row present before keys out with
      | .ok (some out) => spread row (before + countOnes present) held bits out
      | stopped => stopped
  | _, _, _, out => .ok (some out)

/-- The rows of the keys held, before the bits past the last row are looked at. -/
def spanRows (map : KeyMap) (held : List Word) (rows : Nat) : Except String (Option (List Word)) :=
  let out := List.replicate ((rows + 63) / 64) 0
  match map.body with
  | .identity _ count => if count > rows then .ok none else .ok (some (held ++ out.drop held.length))
  | .dense _ _ bits _ => if bits.length < held.length then .ok none else spread .ok 0 held bits out
  | .permuted _ _ bits _ ridWidth perm =>
    if bits.length < held.length then .ok none else spread (tailAt perm ridWidth) 0 held bits out
  | .sorted .. => .ok none

/-- `rows_of_span`. -/
def rowsOfSpan (map : KeyMap) (held : List Word) (rows : Nat) : Except String (Option (List Word)) :=
  match map.span with
  | none => .ok none
  | some (_, range) =>
    let spanWords := (range + 63) / 64
    if held.length < spanWords ∨ (held.drop spanWords).any (· ≠ 0) then .ok none
    else if range % 64 ≠ 0 ∧ held.getD (spanWords - 1) 0 >>> (range % 64) ≠ 0 then .ok none
    else (map.spanRows (held.take spanWords) rows).map fun out =>
      out.filter fun out => !(rows % 64 ≠ 0 && out.getLast?.any fun (word : Word) => word >>> (rows % 64) ≠ 0)

/-- Where `keys_at` is: the last row searched for with its word, and the last row with its key. -/
structure Finding where
  last : Nat × Nat
  held : Option (Nat × Int)

/-- The rows of `keys_at` one after another, over a bitmap. -/
def findKeys (base : Int) (bits : List Word) (rank : Rank) : Finding → List Nat → Option (List Int)
  | _, [] => some []
  | finding, rid :: rids =>
    match finding.held.filter (·.1 = rid) with
    | some (_, key) => (findKeys base bits rank finding rids).map (key :: ·)
    | none =>
      let start := if rid ≥ finding.last.1 then finding.last.2 else 0
      match rank.wordHolding rid start with
      | none => none
      | some (word, within) =>
        let key := base + ((word * 64 + nthSet (bits.getD word 0) within : Nat) : Int)
        (findKeys base bits rank { last := (rid, word), held := some (rid, key) } rids).map (key :: ·)

/-- `keys_at`. -/
def keysAt (map : KeyMap) (rids : List Nat) : Option (List Int) :=
  match map.body with
  | .identity base count => if rids.any (· ≥ count) then none else some (rids.map fun rid => base + (rid : Int))
  | .dense base _ bits rank => findKeys base bits rank { last := (0, 0), held := none } rids
  | .sorted .. | .permuted .. => none

/-- A width that fits a byte. -/
def widthByte (width : Nat) (message : String) : Except String UInt8 :=
  if width < 256 then .ok (UInt8.ofNat width) else .error (malformed message)

/-- The range, the bitmap and the rank index of the dense forms. -/
def denseBytes (range : Nat) (bits : List Word) (rank : Rank) : List UInt8 :=
  LittleEndian.toBytes 8 range ++ (bits.flatMap (fun word => LittleEndian.toBytes 8 word.toNat) ++ rank.write)

/-- `write_body`. -/
def writeBody (map : KeyMap) : Except String (List UInt8) :=
  match map.body with
  | .identity .. => .ok []
  | .dense _ range bits rank => .ok (denseBytes range bits rank)
  | .sorted _ keyWidth keys ridWidth perm _ =>
    (widthByte keyWidth "a sorted key map's width does not fit a byte").bind fun keyByte =>
      (widthByte ridWidth "a sorted key map's width does not fit a byte").map fun ridByte =>
        keyByte :: ridByte :: (keys ++ perm)
  | .permuted _ range bits rank ridWidth perm =>
    (widthByte ridWidth "a permuted key map's width does not fit a byte").map fun ridByte =>
      denseBytes range bits rank ++ ridByte :: perm

/-- The largest key, a base and the distance to it. -/
def largest (base distance : Int) (message : String) : Except String (Option Int) :=
  match checkedAdd base distance with
  | none => .error (malformed message)
  | some key => .ok (some key)

/-- The words of a bitmap over a range. -/
def readWords (range : Nat) (bytes : List UInt8) : List Word :=
  (LittleEndian.numbers 8 ((range + 63) / 64) bytes).map (BitVec.ofNat 64)

/-- The dense form of `read_body`. -/
def readDense (base : Int) (observed : Observed) (body : List UInt8) : Except String KeyMap :=
  if body.length < 8 then .error (malformed "a dense key map has no range")
  else
    let range := LittleEndian.read 8 0 body
    let bitmap := (range + 63) / 64 * 8
    let rest := body.drop 8
    if rest.length < bitmap then .error (malformed "a dense key map's bitmap is shorter than its range")
    else
      let bits := readWords range rest
      (Rank.read (rest.drop bitmap) bits).bind fun rank =>
        (largest base (range - 1) "a dense key map's range overflows").map fun max =>
          { body := .dense base range bits rank, observed := { observed with max } }

/-- The sorted form of `read_body`. -/
def readSorted (base : Int) (observed : Observed) (body : List UInt8) : Except String KeyMap :=
  if body.length < 2 then .error (malformed "a sorted key map has no widths")
  else
    let keyWidth := (body.getD 0 0).toNat
    let ridWidth := (body.getD 1 0).toNat
    let count := observed.rows
    if keyWidth = 0 ∨ keyWidth > 64 ∨ ridWidth = 0 ∨ ridWidth > 64 then
      .error (malformed "a sorted key map's width is not one a u64 can take")
    else
      let keyBytes := (count * keyWidth % 2 ^ 64 + 7) / 8
      let permBytes := (count * ridWidth % 2 ^ 64 + 7) / 8
      let rest := body.drop 2
      if rest.length ≠ keyBytes + permBytes then
        .error (malformed "a sorted key map's arrays are not the size its widths and count imply")
      else
        let keys := rest.take keyBytes
        let perm := rest.drop keyBytes
        (if count > 0 then
          (tailAt keys keyWidth (count - 1)).bind fun last =>
            largest base last "a sorted key map's largest key overflows"
        else .ok observed.max).map fun max =>
          { body := .sorted base keyWidth keys ridWidth perm count, observed := { observed with max } }

/-- The permuted form of `read_body`. -/
def readPermuted (base : Int) (observed : Observed) (body : List UInt8) : Except String KeyMap :=
  if body.length < 8 then .error (malformed "a permuted key map has no range")
  else
    let range := LittleEndian.read 8 0 body
    let words := (range + 63) / 64
    let bitmap := words * 8
    let ranks := (Rank.shape words).2 * 4 + (Rank.shape words).1 * 2
    let rest := body.drop 8
    if rest.length < bitmap + ranks + 1 then .error (malformed "a permuted key map is shorter than its range implies")
    else
      let bits := readWords range rest
      (Rank.read ((rest.drop bitmap).take ranks) bits).bind fun rank =>
        let ridWidth := (rest.getD (bitmap + ranks) 0).toNat
        let perm := rest.drop (bitmap + ranks + 1)
        if ridWidth = 0 ∨ ridWidth > 64 then
          .error (malformed "a permuted key map's width is not one a u64 can take")
        else if perm.length ≠ (observed.rows * ridWidth % 2 ^ 64 + 7) / 8 then
          .error (malformed "a permuted key map's permutation is not the size its width and count imply")
        else (largest base (range - 1) "a permuted key map's range overflows").map fun max =>
          { body := .permuted base range bits rank ridWidth perm, observed := { observed with max } }

/-- `read_body`, over the bytes behind the header. -/
def readBody (form : Form) (base : Int) (observed : Observed) (body : List UInt8) : Except String KeyMap :=
  match form with
  | .identity =>
    if body ≠ [] then .error (malformed "an identity key map has no body")
    else
      (if observed.rows > 0 then largest base (observed.rows - 1) "an identity key map's range overflows"
        else .ok observed.max).map fun max => { body := .identity base observed.rows, observed := { observed with max } }
  | .dense => readDense base observed body
  | .sorted => readSorted base observed body
  | .permuted => readPermuted base observed body

/-- `malformed` of the payload. -/
def malformedPayload (message : String) : String := "invalid rudb key map payload: " ++ message

/-- `HEADER_BYTES`. -/
def headerBytes : Nat := 40

/-- `LAYOUT`. -/
def layout : UInt8 := 1

/-- `u8::from` of a flag. -/
def flagByte (set : Bool) : UInt8 := if set then 1 else 0

/-- The fixed part of a payload. -/
def header (map : KeyMap) (typeTag : UInt8) : List UInt8 :=
  LittleEndian.toBytes 16 (map.base % 2 ^ 128).toNat ++ (LittleEndian.toBytes 8 map.observed.rows ++
    (LittleEndian.toBytes 8 map.observed.nulls ++
      [UInt8.ofNat map.form.tag, typeTag, flagByte map.observed.distinct,
        flagByte map.observed.sorted, layout, 0, 0, 0]))

/-- `encode`, the bytes of the payload. -/
def encode (map : KeyMap) (typeTag : UInt8) : Except String (List UInt8) :=
  map.writeBody.map fun body => map.header typeTag ++ body

/-- `flag`. -/
def flag (byte : UInt8) : Except String Bool :=
  if byte = 0 then .ok false
  else if byte = 1 then .ok true
  else .error (malformedPayload "a flag byte in a key map header is neither zero nor one")

/-- `decode`, with the type tag the map was built against. -/
def decode (bytes : List UInt8) : Except String (KeyMap × UInt8) :=
  if bytes.length < headerBytes then .error (malformedPayload "a key map payload is shorter than its header")
  else
    let base := Int.bmod (LittleEndian.read 16 0 bytes : Nat) (2 ^ 128)
    let rows := LittleEndian.read 8 16 bytes
    (Form.fromTag (bytes.getD 32 0).toNat).bind fun form =>
      (flag (bytes.getD 34 0)).bind fun distinct =>
        (flag (bytes.getD 35 0)).bind fun sorted =>
          if bytes.getD 36 0 ≠ layout then
            .error (malformedPayload ("key map layout " ++ toString (bytes.getD 36 0).toNat ++
              " is not one this build knows"))
          else
            (readBody form base
              { rows, nulls := LittleEndian.read 8 24 bytes, distinct, sorted
                min := if rows > 0 then some base else none, max := none } (bytes.drop headerBytes)).map fun map =>
              (map, bytes.getD 33 0)

end KeyMap

end Rudb.Graph
