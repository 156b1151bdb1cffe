import Rudb.Graph.Link

/-! A set of row ids of one table in three forms, and pushing one through a link in both
directions. Embeds rids.rs of rudb-graph. -/
namespace Rudb.Graph

/-- `SPARSE_RATIO`. -/
def sparseRatio : Nat := 256

/-- `FAR`. -/
def far : Nat := 1024

/-- `STOP_AFTER`. -/
def stopAfter : Nat := 3

/-- The zeros from a place on, a word at a time, to the one with so many before it, and the bit past it. -/
def pastZerosFrom (bits : List Word) (place left : Nat) : Option Nat :=
  if place / 64 < bits.length then
    let shift := place % 64
    let zeros := ~~~(bits.getD (place / 64) 0) >>> shift
    let found := countOnes zeros
    if found > left then some (place + nthSet zeros left + 1)
    else pastZerosFrom bits (place + (64 - shift)) (left - found)
  else none
termination_by bits.length - place / 64
decreasing_by omega

/-- `past_zeros`: the bit just past the `n`th zero from a place on. -/
def pastZeros (bits : List Word) (place n : Nat) : Option Nat := pastZerosFrom bits place (n - 1)

/-- The end of the ones from a place on, or the length. -/
def onesEnd (bits : List Word) (len place : Nat) : Nat :=
  if place < len then
    let shift := place % 64
    let word := bits.getD (place / 64) 0 >>> shift
    let found := trailingZeros (~~~word)
    if found < 64 - shift then min (place + found) len else onesEnd bits len (place + (64 - shift))
  else len
termination_by len - place
decreasing_by omega

/-- `ones_from`: how many ones in a row start at a place. -/
def onesFrom (bits : List Word) (place len : Nat) : Nat := onesEnd bits len place - place

/-- `set_range`. -/
def setRange (words : List Word) (place stop : Nat) : List Word :=
  if place < stop then
    let shift := place % 64
    let take := min (64 - shift) (stop - place)
    let mask := if take = 64 then BitVec.allOnes 64 else ((1 : Word) <<< take - 1) <<< shift
    setRange (words.set (place / 64) (words.getD (place / 64) 0 ||| mask)) (place + take) stop
  else words
termination_by stop - place
decreasing_by omega

/-- The set bits of a word that is left, lowest first, above a base. -/
def onesOf (base : Nat) (rest : Word) : List Nat :=
  if rest = 0 then [] else (base + trailingZeros rest) :: onesOf base (clearLowest rest)
termination_by rest.toNat
decreasing_by exact clearLowest_lt ‹_›

/-- `ones`: the set bits of a bitmap, in order. -/
def ones (words : List Word) : List Nat := words.zipIdx.flatMap fun (word, index) => onesOf (index * 64) word

namespace Rids

/-- `Form`. -/
inductive Form where
  | full | sparse | dense
  deriving DecidableEq

/-- `Body`. -/
inductive Body where
  | full
  | sparse (members : List Nat)
  | dense (words : List Word) (members : Nat)
  deriving DecidableEq

/-- `shape`: which form so many members out of so many rows belong in. -/
def shape (rows members : Nat) : Form :=
  if rows > 0 ∧ members = rows then .full
  else if members = 0 ∨ min (members * sparseRatio) (2 ^ 64 - 1) < rows then .sparse
  else .dense

end Rids

/-- `Rids`. -/
structure Rids where
  rows : Nat
  body : Rids.Body
  deriving DecidableEq

namespace Rids

/-- `none`. -/
def none (rows : Nat) : Rids := { rows, body := .sparse [] }

/-- `full`. -/
def full (rows : Nat) : Rids := if rows = 0 then none 0 else { rows, body := .full }

/-- A bitmap with these members. -/
def bitmap (rows : Nat) (members : List Nat) : List Word := members.foldl setBit (List.replicate ((rows + 63) / 64) 0)

/-- `settle_dense`. -/
def settleDense (rows : Nat) (words : List Word) : Rids :=
  let members := (words.map countOnes).sum
  match shape rows members with
  | .full => full rows
  | .sparse => { rows, body := .sparse (ones words) }
  | .dense => { rows, body := .dense words members }

/-- `settle_sparse`. -/
def settleSparse (rows : Nat) (members : List Nat) : Rids :=
  match shape rows members.length with
  | .full => full rows
  | .sparse => { rows, body := .sparse members }
  | .dense => { rows, body := .dense (bitmap rows members) members.length }

/-- `from_words`. -/
def fromWords (rows : Nat) (words : List Word) : Except String Rids :=
  if words.length ≠ (rows + 63) / 64 then
    .error (toString words.length ++ " words is not a bitmap over " ++ toString rows ++ " rows")
  else if rows % 64 ≠ 0 && words.getLast?.any fun (last : Word) => last >>> (rows % 64) ≠ 0 then
    .error "a bitmap has rows set past the end of its table"
  else .ok (settleDense rows words)

variable (rids : Rids)

/-- `len`. -/
def len : Nat :=
  match rids.body with
  | .full => rids.rows
  | .sparse members => members.length
  | .dense _ members => members

/-- `form`. -/
def form : Form :=
  match rids.body with
  | .full => .full
  | .sparse _ => .sparse
  | .dense .. => .dense

/-- `is_full`. -/
def isFull : Bool :=
  match rids.body with
  | .full => true
  | _ => false

/-- `contains`. -/
def contains (rid : Nat) : Bool :=
  if rid ≥ rids.rows then false
  else match rids.body with
    | .full => true
    | .sparse members => members.contains rid
    | .dense words _ => bit words rid

/-- One word of `any_between`, without the bits before the first row and after the last. -/
def between (words : List Word) (low high index : Nat) : Word :=
  let word := words.getD index 0
  let word := if index = low / 64 then word &&& BitVec.allOnes 64 <<< (low % 64) else word
  if index = high / 64 then word &&& BitVec.allOnes 64 >>> (63 - high % 64) else word

/-- `any_between`: whether any member is between two rows, both included. -/
def anyBetween (low high : Nat) : Bool :=
  let high := min high (rids.rows - 1)
  if low > high ∨ rids.rows = 0 then false
  else match rids.body with
    | .full => true
    | .sparse members => (members.dropWhile (· < low)).head?.any (· ≤ high)
    | .dense words _ =>
      (List.range' (low / 64) (high / 64 + 1 - low / 64)).any fun index => between words low high index ≠ 0

/-- `iter`, `try_for_each` and `each_until`: the members in increasing order. -/
def members : List Nat :=
  match rids.body with
  | .full => List.range rids.rows
  | .sparse members => members
  | .dense words _ => ones words

/-- `words`: the set as a bitmap, whatever form it is held in. -/
def words : List Word :=
  match rids.body with
  | .dense words _ => words
  | _ => bitmap rids.rows rids.members

/-- `same_table`. -/
def sameTable (other : Rids) : Except String Unit :=
  if rids.rows = other.rows then .ok ()
  else .error ("a set over " ++ toString rids.rows ++ " rows combined with one over " ++ toString other.rows)

/-- `intersect`. -/
def intersect (other : Rids) : Except String Rids :=
  (rids.sameTable other).map fun _ =>
    match rids.body, other.body with
    | .full, _ => other
    | _, .full => rids
    | .dense left _, .dense right _ => settleDense rids.rows (left.zipWith (· &&& ·) right)
    | .sparse members, _ => settleSparse rids.rows (members.filter other.contains)
    | _, .sparse members => settleSparse rids.rows (members.filter rids.contains)

/-- `union`. -/
def union (other : Rids) : Except String Rids :=
  (rids.sameTable other).map fun _ =>
    if rids.isFull || other.isFull then full rids.rows
    else settleDense rids.rows (other.members.foldl setBit rids.words)

end Rids

/-- `Pushed`. -/
structure Pushed where
  rids : Rids
  parts : Nat
  skipped : Nat
  stopped : Bool

namespace Rids
variable (rids : Rids)

/-- Where the run of a member starts, for a walk at the run of a parent. -/
def runStart (vector : BitVector) (parent place member : Nat) : Option Nat :=
  if member > parent then
    if member - parent > far then (vector.select0 (member - 1)).map (· + 1)
    else pastZeros vector.words place (member - parent)
  else some place

/-- What `push_runs` carries from one held parent to the next. -/
structure RunWalk where
  parent : Nat
  place : Nat
  kept : Nat
  asked : Bool
  list : List Nat
  words : List Word

/-- A run kept, as a list or as bits. -/
def RunWalk.keep (walk : RunWalk) (listed : Bool) (mark child run : Nat) : RunWalk :=
  if run > 0 then
    { walk with
      asked := walk.asked || mark ≤ child
      list := if listed then walk.list ++ List.range' child run else walk.list
      words := if listed then walk.words else setRange walk.words child (child + run)
      kept := walk.kept + run }
  else walk

/-- The loop of `push_runs`, and whether the early stop broke it. -/
def walkRuns (vector : BitVector) (listed : Bool) (mark : Nat) : RunWalk → List Nat → RunWalk × Bool
  | walk, [] => (walk, false)
  | walk, held :: rest =>
    match runStart vector walk.parent walk.place held with
    | .none => (walk, false)
    | some place =>
      let parent := if held > walk.parent then held else walk.parent
      if place > vector.len then (walk, false)
      else
        let run := onesFrom vector.words place vector.len
        let child := place - parent
        if run > 0 ∧ walk.asked = false ∧ mark ≤ child ∧ walk.kept = child then (walk, true)
        else walkRuns vector listed mark
          { walk.keep listed mark child run with place := place + run + 1, parent := parent + 1 } rest

/-- How many parts the rows of a list fall in. -/
def partsReached (list : List Nat) : Nat := (list.splitBy fun one other => one / partRows == other / partRows).length

/-- How many parts of a bitmap have no bit set. -/
def partsEmpty (words : List Word) : Nat :=
  (List.range ((words.length + partRows / 64 - 1) / (partRows / 64))).countP fun part =>
    ((words.drop (part * (partRows / 64))).take (partRows / 64)).all (· = 0)

/-- `push_runs`. -/
def pushRuns (vector : BitVector) (children parts : Nat) (stopping : Bool) : Pushed :=
  let expected := rids.len * children / max rids.rows 1
  let listed := decide (expected * sparseRatio < children)
  let words := if listed then [] else List.replicate ((children + 63) / 64) 0
  let mark := (children + stopAfter - 1) / stopAfter
  let (walk, stopped) := walkRuns vector listed mark
    { parent := 0, place := 0, kept := 0, asked := !stopping, list := [], words } rids.members
  if stopped then { rids := full children, parts, skipped := 0, stopped := true }
  else if listed then
    { rids := settleSparse children walk.list, parts, skipped := parts - partsReached walk.list, stopped := false }
  else { rids := settleDense children walk.words, parts, skipped := partsEmpty walk.words, stopped := false }

/-- What `push` carries from one part to the next. -/
structure Walk where
  words : List Word
  skipped : Nat
  kept : Nat
  asked : Bool

/-- One child of a part that is decoded. -/
def keepChild (held : Nat → Bool) (first : Nat) (walk : Walk) (entry : Nat × Nat) : Walk :=
  if entry.1 ≠ noParent ∧ held entry.1 then
    { walk with words := setBit walk.words (first + entry.2), kept := walk.kept + 1 }
  else walk

/-- The zone test of a part. -/
def reaches (link : Link) (part : Nat) : Bool :=
  match link.partBounds part with
  | some (some (low, high)) => rids.anyBetween low high
  | _ => false

/-- The loop of `push` over the parts, and whether the early stop returned from it. -/
def pushParts (link : Link) (held : Nat → Bool) (mark : Nat) : Walk → List Nat → Except String (Walk × Bool)
  | walk, [] => .ok (walk, false)
  | walk, part :: rest =>
    let first := part * partRows
    if walk.asked = false ∧ mark ≤ first ∧ walk.kept = first then .ok (walk, true)
    else
      let walk := { walk with asked := walk.asked || mark ≤ first }
      if rids.reaches link part then
        (link.forwardRun first (min (link.children - first) partRows)).bind fun parents =>
          pushParts link held mark (parents.zipIdx.foldl (keepChild held first) walk) rest
      else pushParts link held mark { walk with skipped := walk.skipped + 1 } rest

/-- How `push` tests a parent: in a bitmap laid out first for a set that is a list. -/
def held (parent : Nat) : Bool :=
  match rids.body with
  | .sparse _ => bit rids.words parent
  | _ => rids.contains parent

/-- `push`. -/
def push (link : Link) (stopping : Bool) : Except String Pushed :=
  if rids.rows ≠ link.parents then
    .error ("a set over " ++ toString rids.rows ++ " rows pushed through a link whose parent has " ++
      toString link.parents)
  else
    let children := link.children
    let parts := (children + partRows - 1) / partRows
    if rids.isFull ∧ link.linked = children then
      .ok { rids := full children, parts, skipped := 0, stopped := false }
    else match link.body with
      | .monotone vector => .ok (rids.pushRuns vector children parts stopping)
      | .packed .. =>
        (rids.pushParts link rids.held ((children + stopAfter - 1) / stopAfter)
            { words := List.replicate ((children + 63) / 64) 0, skipped := 0, kept := 0, asked := !stopping }
            (List.range parts)).map fun (walk, stopped) =>
          if stopped then { rids := full children, parts, skipped := walk.skipped, stopped := true }
          else { rids := settleDense children walk.words, parts, skipped := walk.skipped, stopped := false }

/-- `forward`. -/
def forward (link : Link) : Except String Pushed := rids.push link false

/-- `forward_or_stop`. -/
def forwardOrStop (link : Link) : Except String Pushed := rids.push link true

/-- One child of a part that is pushed back. -/
def keepParent (first : Nat) (words : List Word) (entry : Nat × Nat) : List Word :=
  if entry.1 ≠ noParent ∧ rids.contains (first + entry.2) then setBit words entry.1 else words

/-- The loop of `backward` over the parts. -/
def backwardParts (link : Link) : List Word → List Nat → Except String (List Word)
  | words, [] => .ok words
  | words, part :: rest =>
    let first := part * partRows
    let last := min (first + partRows) link.children - 1
    if rids.anyBetween first last then
      (link.forwardRun first (last - first + 1)).bind fun parents =>
        backwardParts link (parents.zipIdx.foldl (rids.keepParent first) words) rest
    else backwardParts link words rest

/-- `backward`. -/
def backward (link : Link) : Except String Rids :=
  if rids.rows ≠ link.children then
    .error ("a set over " ++ toString rids.rows ++ " rows pushed back through a link whose child has " ++
      toString link.children)
  else
    let words := List.replicate ((link.parents + 63) / 64) 0
    match rids.body with
    | .sparse members =>
      .ok (settleDense link.parents (((link.forwardEach members).filter (· ≠ noParent)).foldl setBit words))
    | _ =>
      (rids.backwardParts link words (List.range ((link.children + partRows - 1) / partRows))).map
        (settleDense link.parents)

end Rids
end Rudb.Graph
