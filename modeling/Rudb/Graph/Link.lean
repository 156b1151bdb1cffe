import Mathlib.Data.Nat.Size
import Rudb.Encoding.Bitpack
import Rudb.Graph.Bits

/-! A relationship's child to parent map: packed parents with the bounds of each part, or one run
of ones per parent that answers both directions. Embeds link.rs of rudb-graph. -/
namespace Rudb.Graph
open Rudb.Encoding

/-- `NO_PARENT`, among the row ids, which are all below 2^64. -/
def noParent : Nat := 2 ^ 64 - 1

/-- `PART_ROWS`. -/
def partRows : Nat := 1024

/-- `malformed`. -/
def malformedLink (message : String) : String := "invalid rudb forward link: " ++ message

/-- `Form`. -/
inductive Form where
  | packed | monotone
  deriving DecidableEq, Repr

/-- `tag`. -/
def Form.tag : Form → Nat
  | packed => 0
  | monotone => 1

/-- `from_tag`. -/
def Form.fromTag : Nat → Except String Form
  | 0 => .ok packed
  | 1 => .ok monotone
  | tag => .error (malformedLink ("forward link form " ++ toString tag ++ " is not one this build knows"))

/-- `Bounds`. -/
abbrev Bounds := Option (Nat × Nat)

/-- `Body`. -/
inductive Body where
  | packed (bytes : List UInt8) (width : Nat) (heads : List Bounds)
  | monotone (vector : BitVector)
  deriving DecidableEq

/-- `Link`. -/
structure Link where
  children : Nat
  parents : Nat
  linked : Nat
  body : Body
  deriving DecidableEq

/-- `width_for`: the bits of every parent and of one value more. -/
def widthFor (parents : Nat) : Nat := max parents.size 1

/-- `reserved`: the value that means no parent. -/
def reserved (width : Nat) : Nat := if width ≥ 64 then 2 ^ 64 - 1 else 2 ^ width - 1

def setBit (words : List Word) (place : Nat) : List Word :=
  words.set (place / 64) (words.getD (place / 64) 0 ||| (1 : Word) <<< (place % 64))

/-- The children of one parent off the front, each a one. -/
def fillRun (parent : Nat) : (words : List Word) → (place : Nat) → (children : List Nat) → List Word × Nat × List Nat
  | words, place, [] => (words, place, [])
  | words, place, child :: rest =>
    if child = parent then fillRun parent (setBit words place) (place + 1) rest else (words, place, child :: rest)

/-- One turn of the loop of `runs`: the ones of a parent and the zero after them. -/
def fillParent (state : List Word × Nat × List Nat) (parent : Nat) : List Word × Nat × List Nat :=
  let (words, place, rest) := fillRun parent state.1 state.2.1 state.2.2
  (words, place + 1, rest)

/-- `runs`. -/
def runs (parentsOf : List Nat) (parents : Nat) : Except String BitVector :=
  let len := parentsOf.length + parents
  let filled := (List.range parents).foldl fillParent (List.replicate ((len + 63) / 64) 0, 0, parentsOf)
  BitVector.new filled.1 len

/-- The bounds with one more parent. -/
def widen (bounds : Bounds) (parent : Nat) : Bounds :=
  if parent = noParent then bounds
  else some (match bounds with
    | none => (parent, parent)
    | some (low, high) => (min low parent, max high parent))

def partOf (parentsOf : List Nat) (part : Nat) : List Nat := (parentsOf.drop (part * partRows)).take partRows

/-- `packed`. -/
def packedBody (parentsOf : List Nat) (parents : Nat) : Except String Body :=
  let width := widthFor parents
  let heads := (List.range ((parentsOf.length + partRows - 1) / partRows)).map fun part =>
    (partOf parentsOf part).foldl widen none
  let values := parentsOf.map fun parent => if parent = noParent then reserved width else parent
  (packLinear values width).map fun bytes => .packed bytes width heads

/-- What the pass over the children has seen. -/
structure Scan where
  linked : Nat
  monotone : Bool
  previous : Nat

def scanChild (parents : Nat) (scan : Scan) (parent : Nat) : Except String Scan :=
  if parent = noParent then .ok { scan with monotone := false }
  else if parent ≥ parents then
    .error (malformedLink ("a forward link points at parent " ++ toString parent ++ " of a table with " ++
      toString parents ++ " rows"))
  else .ok { linked := scan.linked + 1, monotone := scan.monotone && scan.previous ≤ parent, previous := parent }

def scanChildren (parents : Nat) : Scan → List Nat → Except String Scan
  | scan, [] => .ok scan
  | scan, parent :: rest => (scanChild parents scan parent).bind fun scan => scanChildren parents scan rest

namespace Link

/-- `build`. -/
def build (parentsOf : List Nat) (parents : Nat) : Except String Link :=
  (scanChildren parents { linked := 0, monotone := true, previous := 0 } parentsOf).bind fun scan =>
    (if scan.monotone ∧ 0 < parents then (runs parentsOf parents).map .monotone else packedBody parentsOf parents).map
      fun body => { children := parentsOf.length, parents, linked := scan.linked, body }

variable (link : Link)

/-- `form`. -/
def form : Form :=
  match link.body with
  | .packed .. => .packed
  | .monotone _ => .monotone

/-- A packed value, without the one that means no parent. -/
def present (width : Nat) (value : Except String Nat) : Option Nat := value.toOption.filter (· ≠ reserved width)

/-- `forward`: the parent of a child. -/
def forward (child : Nat) : Option Nat :=
  if child ≥ link.children then none
  else match link.body with
    | .packed bytes width _ => present width (tailAt bytes width child)
    | .monotone vector => (vector.select1 child).map vector.rank0

/-- The zeros up to the next one bit, a word at a time, each a parent passed. -/
def skip (words : List Word) (len place parent : Nat) : Except String (Nat × Nat) :=
  let word := words.getD (place / 64) 0 >>> (place % 64)
  if word = 0 then
    let skipped := 64 - place % 64
    if place + skipped ≥ len then .error (malformedLink "a monotone link ran out of ones")
    else skip words len (place + skipped) (parent + skipped)
  else .ok (place + trailingZeros word, parent + trailingZeros word)
termination_by len - place
decreasing_by omega

/-- The parents of so many ones from a place on. -/
def readRun (words : List Word) (len : Nat) : (count : Nat) → (place parent : Nat) → Except String (List Nat)
  | 0, _, _ => .ok []
  | count + 1, place, parent =>
    (skip words len place parent).bind fun (place, parent) =>
      (readRun words len count (place + 1) parent).map (parent :: ·)

/-- The parents of so many packed children. -/
def readPacked (bytes : List UInt8) (width : Nat) : (count : Nat) → (child : Nat) → Except String (List Nat)
  | 0, _ => .ok []
  | count + 1, child =>
    (tailAt bytes width child).bind fun value =>
      (readPacked bytes width count (child + 1)).map ((if value = reserved width then noParent else value) :: ·)

/-- `forward_run`: the parents of consecutive children. -/
def forwardRun (first : Nat) (count : Nat) : Except String (List Nat) :=
  if first + count > link.children ∨ first + count ≥ 2 ^ 64 then
    .error ("a run of " ++ toString count ++ " children from " ++ toString first ++ " goes past the " ++
      toString link.children ++ " the link has")
  else if count = 0 then .ok []
  else match link.body with
    | .packed bytes width _ => readPacked bytes width count first
    | .monotone vector =>
      match vector.select1 first with
      | none => .error (malformedLink "a monotone link has fewer ones than children")
      | some place => readRun vector.words vector.len count place (vector.rank0 place)

/-- The last child answered, the place of its one, and the word the next search starts in. -/
structure Reading where
  last : Nat
  place : Nat
  start : Nat

/-- A child found by the search for its word. -/
def searchChild (vector : BitVector) (reading : Reading) (child : Nat) : Reading × Nat :=
  let start := if child < reading.last then 0 else reading.start
  match vector.rank.wordHolding child start with
  | some (word, within) =>
    let place := word * 64 + nthSet (vector.words.getD word 0) within
    ({ last := child, place, start := word }, place - child)
  | none => ({ reading with start }, noParent)

/-- One child of `forward_each` in the monotone form. -/
def readChild (children : Nat) (vector : BitVector) (reading : Reading) (child : Nat) : Reading × Nat :=
  if child ≥ children then (reading, noParent)
  else
    let rest := vector.words.getD (reading.place / 64) 0 &&& (~~~(1 : Word)) <<< (reading.place % 64)
    let step := child - reading.last
    if child > reading.last ∧ step ≤ countOnes rest then
      let within := if step = 1 then trailingZeros rest else nthSet rest (step - 1)
      let place := reading.place / 64 * 64 + within
      ({ reading with last := child, place }, place - child)
    else searchChild vector reading child

def readChildren (children : Nat) (vector : BitVector) : Reading → List Nat → List Nat
  | _, [] => []
  | reading, child :: rest =>
    let (reading, parent) := readChild children vector reading child
    parent :: readChildren children vector reading rest

/-- `forward_each`: the parent of each child in a list. -/
def forwardEach (children : List Nat) : List Nat :=
  match link.body with
  | .monotone vector => readChildren link.children vector { last := 2 ^ 64 - 1, place := 0, start := 0 } children
  | .packed bytes width _ => children.map fun child =>
      if child ≥ link.children then noParent else (present width (tailAt bytes width child)).getD noParent

/-- The children of every parent up to one. -/
def cum (vector : BitVector) (nth : Nat) : Option Nat := (vector.select0 nth).map (· - nth)

/-- `backward`: the children of a parent, as a half open range. -/
def backward (parent : Nat) : Option (Nat × Nat) :=
  match link.body with
  | .packed .. => none
  | .monotone vector =>
    if parent ≥ link.parents then none
    else
      (if parent = 0 then some 0 else cum vector (parent - 1)).bind fun first =>
        (cum vector parent).map fun stop => (first, stop)

/-- `kth_zero` from a word on, with the zeros of the word that count. -/
def kthZeroFrom (words : List Word) (word left : Nat) (zeros : Word) : Option Nat :=
  if left = 0 ∧ zeros ≠ 0 then some (word * 64 + trailingZeros zeros)
  else if left < countOnes zeros then some (word * 64 + nthSet zeros left)
  else if word + 1 < words.length then
    kthZeroFrom words (word + 1) (left - countOnes zeros) (~~~(words.getD (word + 1) 0))
  else none
termination_by words.length - word

/-- `kth_zero`: the place of the `k`th zero at or after a place. -/
def kthZero (words : List Word) (start k : Nat) : Option Nat :=
  if start / 64 < words.length then
    kthZeroFrom words (start / 64) k (~~~(words.getD (start / 64) 0) &&& BitVec.allOnes 64 <<< (start % 64))
  else none

/-- `At`: where a cursor stopped. -/
structure At where
  parent : Nat
  zero : Nat
  first : Nat
  stop : Nat

/-- `NEAR`. -/
def near : Nat := 64

/-- The run of a parent a little past the one a cursor is at. -/
def readOn (words : List Word) (stopped : At) (parent : Nat) : Option At :=
  let start := stopped.zero + 1
  let between := parent - stopped.parent - 1
  (if between = 0 then some (start, stopped.stop)
    else (kthZero words start (between - 1)).map fun before =>
      (before + 1, stopped.stop + (before - start) - (between - 1))).bind fun (place, first) =>
    (kthZero words place 0).map fun ending => { parent, zero := ending, first, stop := first + (ending - place) }

/-- The run of a parent by two selects. -/
def selectAt (vector : BitVector) (parent : Nat) : Option At :=
  (vector.select0 parent).bind fun ending =>
    (if parent = 0 then some 0 else (vector.select0 (parent - 1)).map (· - (parent - 1))).map fun first =>
      { parent, zero := ending, first, stop := ending - parent }

/-- `backward_from`, with the cursor it leaves. -/
def backwardFrom (parent : Nat) (cursor : Option At) : Option (Nat × Nat) × Option At :=
  match link.body with
  | .packed .. => (none, cursor)
  | .monotone vector =>
    if parent ≥ link.parents then (none, cursor)
    else
      match cursor.filter (·.parent = parent) with
      | some stopped => (some (stopped.first, stopped.stop), cursor)
      | none =>
        let found := match cursor.filter fun stopped => stopped.parent < parent && parent - stopped.parent ≤ near with
          | some stopped => readOn vector.words stopped parent
          | none => selectAt vector parent
        match found with
        | none => (none, cursor)
        | some stopped => (some (stopped.first, stopped.stop), some stopped)

/-- A sequence of parents asked about with one cursor. -/
def backwardEach : (cursor : Option At) → List Nat → List (Option (Nat × Nat))
  | _, [] => []
  | cursor, parent :: rest =>
    let (range, cursor) := link.backwardFrom parent cursor
    range :: backwardEach cursor rest

/-- `part_bounds`. -/
def partBounds (part : Nat) : Option Bounds :=
  let first := part * partRows % 2 ^ 64
  if first ≥ link.children then none
  else match link.body with
    | .packed _ _ heads => heads[part]?
    | .monotone _ =>
      let last := min (first + partRows - 1) (link.children - 1)
      match link.forward first, link.forward last with
      | some low, some high => some (some (low, high))
      | _, _ => some none

/-- `HEADER_BYTES`. -/
def headerBytes : Nat := 32

/-- `LAYOUT`. -/
def layout : UInt8 := 1

/-- One part's bounds, with no parent twice for a part that has none. -/
def headBytes (bounds : Bounds) : List UInt8 :=
  let (low, high) := bounds.getD (noParent, noParent)
  LittleEndian.toBytes 8 low ++ LittleEndian.toBytes 8 high

def bodyBytes : Body → List UInt8
  | .packed bytes _ heads => heads.flatMap headBytes ++ bytes
  | .monotone vector => vector.write

/-- The width the header names. -/
def widthByte : Body → Except String UInt8
  | .packed _ width _ =>
    if width < 256 then .ok (UInt8.ofNat width) else .error (malformedLink "a forward link wider than a byte can name")
  | .monotone _ => .ok 0

/-- `write`. -/
def write : Except String (List UInt8) :=
  (widthByte link.body).map fun width =>
    LittleEndian.toBytes 8 link.children ++ (LittleEndian.toBytes 8 link.parents ++
      (LittleEndian.toBytes 8 link.linked ++
      ([UInt8.ofNat link.form.tag, width, layout, 0, 0, 0, 0, 0] ++ bodyBytes link.body)))

/-- `Counts`. -/
structure Counts where
  children : Nat
  parents : Nat
  linked : Nat
  form : Form

/-- `counts`. -/
def counts (bytes : List UInt8) : Except String Counts :=
  if bytes.length < headerBytes then .error (malformedLink "a forward link payload is shorter than its header")
  else
    (Form.fromTag (bytes.getD 24 0).toNat).bind fun form =>
      if bytes.getD 26 0 ≠ layout then
        .error (malformedLink ("forward link layout " ++ toString (bytes.getD 26 0).toNat ++
          " is not one this build knows"))
      else .ok { children := LittleEndian.read 8 0 bytes, parents := LittleEndian.read 8 8 bytes,
                 linked := LittleEndian.read 8 16 bytes, form }

/-- The bounds of one part, read from the head. -/
def readHead (rest : List UInt8) (part : Nat) : Bounds :=
  let low := LittleEndian.read 8 (part * 16) rest
  if low = noParent then none else some (low, LittleEndian.read 8 (part * 16 + 8) rest)

/-- The body of a form, read from the bytes behind the header. -/
def readBody (counts : Counts) (width : Nat) (rest : List UInt8) : Except String Body :=
  match counts.form with
  | .packed =>
    let parts := (counts.children + partRows - 1) / partRows
    if width ≠ widthFor counts.parents then
      .error (malformedLink "a forward link's width is not the one its parents imply")
    else if rest.length ≠ parts * 16 + tailLen counts.children width then
      .error (malformedLink "a forward link's body is not the size its header implies")
    else .ok (.packed (rest.drop (parts * 16)) width ((List.range parts).map (readHead rest)))
  | .monotone => (BitVector.read rest (counts.linked + counts.parents)).map .monotone

/-- `read`. -/
def read (bytes : List UInt8) : Except String Link :=
  (counts bytes).bind fun counts =>
    (readBody counts (bytes.getD 25 0).toNat (bytes.drop headerBytes)).map fun body =>
      { children := counts.children, parents := counts.parents, linked := counts.linked, body }

end Link
end Rudb.Graph
