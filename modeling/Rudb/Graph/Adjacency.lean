import Rudb.Graph.Rids
import Rudb.Lib.Dealing

/-! The backward adjacency: the child rows of each parent, grouped by a counting sort a radix at a
time, and the set of them that the parents of a set have. Threads only write their own buckets, so
each is taken whole. Embeds adjacency.rs of rudb-graph. -/
namespace Rudb.Graph
open Rudb.Lib Rudb.Encoding List

/-- `malformed`. -/
def malformedAdjacency (message : String) : String := "invalid rudb backward adjacency: " ++ message

/-- `Adjacency`. -/
structure Adjacency where
  children : Nat
  parents : Nat
  edges : Nat
  starts : BitVector
  rows : List UInt8
  width : Nat

/-- A list as the range of places it takes among the rows. -/
abbrev Span := Nat × Nat

/-- How many rows a list holds. -/
def spanLen (span : Span) : Nat := span.2 - span.1

/-- `Spans`. -/
structure Spans where
  lists : List Span
  rows : Nat
  children : Nat

namespace Adjacency

/-- `BUCKET_ROWS`. -/
def bucketRows : Nat := 2 ^ 16

/-- `AHEAD`. -/
def askAhead : Nat := 16

/-- `SHARED_ROWS`. -/
def sharedRows : Nat := 2 ^ 16

/-- `RANGE_BITS`. -/
def rangeBits : Nat := 10

/-- `width_for`: enough bits for the last row of the child table. -/
def widthFor (children : Nat) : Nat := max (children - 1).size 1

/-- The children that have a parent, each behind it. -/
def entries (parentsOf : List Nat) : List (Nat × Nat) := parentsOf.zipIdx.filter (·.1 ≠ noParent)

/-- The counting pass over the children, which refuses a parent past the end. -/
def countParents (parents : Nat) (bucket : Nat → Nat) : (counts : List Nat) → (parentsOf : List Nat) →
    Except String (List Nat)
  | counts, [] => .ok counts
  | counts, parent :: rest =>
    if parent = noParent then countParents parents bucket counts rest
    else if parent ≥ parents then
      .error (malformedAdjacency ("a child points at parent " ++ toString parent ++ " of a table with " ++
        toString parents ++ " rows"))
    else countParents parents bucket (counts.modify (bucket parent + 1) (· + 1)) rest

/-- The ones of a parent's children. -/
def markOnes (words : List Word) (first stop : Nat) : List Word := (List.range' first (stop - first)).foldl setBit words

/-- The grouped rows packed, and the starts over the words. -/
def pack (children parents edges : Nat) (grouped : List Nat) (words : List Word) : Except String Adjacency :=
  let width := widthFor children
  (packLinear grouped width).bind fun rows =>
    (BitVector.new words (edges + parents)).map fun starts => { children, parents, edges, starts, rows, width }

/-- `build_direct`. -/
def buildDirect (parentsOf : List Nat) (parents : Nat) : Except String Adjacency :=
  (countParents parents id (List.replicate (parents + 1) 0) parentsOf).bind fun counts =>
    let starts := sums 0 counts
    let edges := starts.getD parents 0
    let grouped := (placeNext Prod.fst Prod.snd (starts, List.replicate edges 0) (entries parentsOf)).2
    let words := (List.range parents).foldl
      (fun words parent => markOnes words (starts.getD parent 0 + parent) (starts.getD (parent + 1) 0 + parent))
      (List.replicate ((edges + parents + 63) / 64) 0)
    pack parentsOf.length parents edges grouped words

/-- One range of `build`: its children sorted by parent where they lie, and their ones marked. -/
def sortRange (width shift parents : Nat) (sizes : List Nat) (state : List Nat × List Word) (range : Nat) :
    List Nat × List Word :=
  let low := sizes.getD range 0
  let high := sizes.getD (range + 1) 0
  let first := range <<< shift
  let span := min (1 <<< shift) (parents - first)
  let held := (state.1.drop low).take (high - low)
  let starts := Lib.starts (· >>> width) span held
  let words := (List.range span).foldl
    (fun words index =>
      markOnes words (low + starts.getD index 0 + (first + index)) (low + starts.getD (index + 1) 0 + (first + index)))
    state.2
  let sorted := (placeNext (· >>> width) (· &&& (2 ^ width - 1)) (starts, held) held).2
  (state.1.take low ++ (sorted ++ state.1.drop high), words)

/-- `build`. -/
def build (parentsOf : List Nat) (parents : Nat) : Except String Adjacency :=
  let width := widthFor parentsOf.length
  let shift := parents.size - rangeBits
  if width + shift ≥ 64 then buildDirect parentsOf parents
  else
    let ranges := (parents >>> shift) + 1
    (countParents parents (· >>> shift) (List.replicate (ranges + 1) 0) parentsOf).bind fun counts =>
      let sizes := sums 0 counts
      let edges := sizes.getD ranges 0
      let within := 1 <<< shift - 1
      let grouped := (placeNext (fun entry : Nat × Nat => entry.1 >>> shift)
        (fun entry => (entry.1 &&& within) <<< width ||| entry.2)
        (sizes.take ranges, List.replicate edges 0) (entries parentsOf)).2
      let (grouped, words) := (List.range ranges).foldl (sortRange width shift parents sizes)
        (grouped, List.replicate ((edges + parents + 63) / 64) 0)
      pack parentsOf.length parents edges grouped words

variable (adjacency : Adjacency)

/-- `list`: where the list of a parent lies. -/
def list (parent : Nat) : Option Span :=
  if parent ≥ adjacency.parents then none
  else
    (if parent = 0 then some 0 else Link.cum adjacency.starts (parent - 1)).bind fun first =>
      (Link.cum adjacency.starts parent).map fun stop => (first, stop)

/-- So many rows from a place on. -/
def readRows : (count : Nat) → (place : Nat) → Except String (List Nat)
  | 0, _ => .ok []
  | count + 1, place =>
    (tailAt adjacency.rows adjacency.width place).bind fun row => (readRows count (place + 1)).map (row :: ·)

/-- `children_of`. -/
def childrenOf (parent : Nat) : Except String (List Nat) :=
  match adjacency.list parent with
  | none => .error (malformedAdjacency ("parent " ++ toString parent ++ " of " ++ toString adjacency.parents ++
      " is past the end"))
  | some span => adjacency.readRows (spanLen span) span.1

/-- The walk of `lists`, which hands each list to a step that can fail. -/
def walkLists {ε σ : Type} (fail : String → ε) (each : σ → Span → Except ε σ) :
    (parent place : Nat) → σ → (members : List Nat) → Except ε σ
  | _, _, state, [] => .ok state
  | parent, place, state, member :: rest =>
    match Rids.runStart adjacency.starts parent place member with
    | none => .error (fail (malformedAdjacency ("parent " ++ toString member ++ " of " ++ toString adjacency.parents ++
        " is past the end")))
    | some place =>
      let parent := if member > parent then member else parent
      let run := onesFrom adjacency.starts.words place adjacency.starts.len
      (each state (place - parent, place - parent + run)).bind fun state =>
        walkLists fail each (parent + 1) (place + run + 1) state rest

/-- `lists`. -/
def lists {ε σ : Type} (fail : String → ε) (held : Rids) (each : σ → Span → Except ε σ) (state : σ) : Except ε σ :=
  if held.rows ≠ adjacency.parents then
    .error (fail ("a set over " ++ toString held.rows ++ " rows pushed through an adjacency over " ++
      toString adjacency.parents ++ " parents"))
  else adjacency.walkLists fail each 0 0 state held.members

/-- `reached`. -/
def reached (held : Rids) : Except String Nat :=
  adjacency.lists id held (fun reached span => .ok (reached + spanLen span)) 0

/-- One list of `spans`, where the error without a text only stops the walk. -/
def takeSpan (most : Nat) (spans : Spans) (span : Span) : Except (Option String) Spans :=
  let rows := spans.rows + spanLen span
  if rows > most then .error none
  else .ok { spans with rows, lists := if spanLen span = 0 then spans.lists else spans.lists ++ [span] }

/-- `spans`. -/
def spans (held : Rids) (most : Nat) : Except String (Option Spans) :=
  match adjacency.lists some held (takeSpan most) { lists := [], rows := 0, children := adjacency.children } with
  | .ok spans => .ok (some spans)
  | .error none => .ok none
  | .error (some error) => .error error

/-- A child in its bucket, as its place there. -/
def dealChild (buckets : List (List Nat)) (child : Nat) : Except String (List (List Nat)) :=
  if child / bucketRows < buckets.length then .ok (buckets.modify (child / bucketRows) (· ++ [child % bucketRows]))
  else .error (malformedAdjacency ("child " ++ toString child ++ " past the end"))

/-- The dealer of `buckets`, for so many rows from a place on. -/
def dealRows : (count : Nat) → (place : Nat) → List (List Nat) → Except String (List (List Nat))
  | 0, _, buckets => .ok buckets
  | count + 1, place, buckets =>
    (tailAt adjacency.rows adjacency.width place).bind fun child =>
      (dealChild buckets child).bind (dealRows count (place + 1))

/-- The dealer of `buckets`. -/
def deal (buckets : List (List Nat)) (span : Span) : Except String (List (List Nat)) :=
  adjacency.dealRows (spanLen span) span.1 buckets

/-- `words`. -/
def words : Nat := (adjacency.children + 63) / 64

/-- The empty buckets of `buckets`. -/
def noBuckets : List (List Nat) := List.replicate ((adjacency.words + bucketRows / 64 - 1) / (bucketRows / 64)) []

/-- `read_lists`. -/
def readLists (buckets : List (List Nat)) : List Span → Except String (List (List Nat))
  | [] => .ok buckets
  | span :: rest => (adjacency.deal buckets span).bind fun buckets => readLists buckets rest

/-- One row of a bucket, as a bit of the words its bucket covers. -/
def setRow (words : List Word) (row : Nat) : Except String (List Word) :=
  if row / 64 < words.length then .ok (setBit words row) else .error (malformedAdjacency "a child past the end")

def setRows : List Word → List Nat → Except String (List Word)
  | words, [] => .ok words
  | words, row :: rest => (setRow words row).bind fun words => setRows words rest

/-- The rows that each dealing has in one bucket. -/
def setBucket (bucket : Nat) : List Word → (dealt : List (List (List Nat))) → Except String (List Word)
  | words, [] => .ok words
  | words, buckets :: rest => (setRows words (buckets.getD bucket [])).bind fun words => setBucket bucket words rest

/-- `set_bits`, a bucket's words at a time. -/
def setBits (dealt : List (List (List Nat))) (words : List Word) (first : Nat) : Except String (List Word) :=
  if words = [] then .ok []
  else
    (setBucket first (words.take (bucketRows / 64)) dealt).bind fun done =>
      (setBits dealt (words.drop (bucketRows / 64)) (first + 1)).map (done ++ ·)
termination_by words.length
decreasing_by
  have := List.length_pos_iff.mpr ‹_›
  simp only [List.length_drop, bucketRows]
  omega

/-- `dealt`: the set of the children in buckets. -/
def settle (buckets : List (List Nat)) : Except String Rids :=
  (setBits [buckets] (List.replicate adjacency.words 0) 0).bind (Rids.fromWords adjacency.children)

/-- The lists that wait to be read, the next of them to go, and the buckets. -/
structure Waiting where
  waiting : List Span
  next : Nat
  buckets : List (List Nat)

/-- One list of `push`, which is read `AHEAD` lists later. -/
def putOff (state : Waiting) (span : Span) : Except String Waiting :=
  (adjacency.deal state.buckets (state.waiting.getD state.next (0, 0))).map fun buckets =>
    { waiting := state.waiting.set state.next span, next := (state.next + 1) % askAhead, buckets }

/-- `push`. -/
def push (held : Rids) : Except String Rids :=
  (adjacency.lists id held adjacency.putOff
      { waiting := List.replicate askAhead (0, 0), next := 0, buckets := adjacency.noBuckets }).bind fun state =>
    (adjacency.readLists state.buckets state.waiting).bind adjacency.settle

/-- The lists cut into groups of about so many rows, after the groups made and the group begun. -/
def cut (per shares : Nat) : (made : Nat) → (group : List Span) → (held : Nat) → List Span → List (List Span)
  | _, group, _, [] => [group]
  | made, group, held, span :: rest =>
    let held := held + spanLen span
    if held ≥ per ∧ made + 1 < shares then (group ++ [span]) :: cut per shares (made + 1) [] 0 rest
    else cut per shares made (group ++ [span]) held rest

/-- The buckets of each group, a thread each. -/
def dealGroups : List (List Span) → Except String (List (List (List Nat)))
  | [] => .ok []
  | group :: rest =>
    (adjacency.readLists adjacency.noBuckets group).bind fun buckets => (dealGroups rest).map (buckets :: ·)

/-- The bits of each stretch of the words, a thread each. -/
def setStretches (dealt : List (List (List Nat))) (stretch : Nat) (words : List Word) (index : Nat) :
    Except String (List Word) :=
  if words = [] then .ok []
  else
    (setBits dealt (words.take (max stretch 1)) (index * stretch / (bucketRows / 64))).bind fun done =>
      (setStretches dealt stretch (words.drop (max stretch 1)) (index + 1)).map (done ++ ·)
termination_by words.length
decreasing_by
  have := List.length_pos_iff.mpr ‹_›
  simp only [List.length_drop]
  omega

/-- `push_spans`. -/
def pushSpans (spans : Spans) (threads : Nat) : Except String Rids :=
  if spans.children ≠ adjacency.children then
    .error ("lists over " ++ toString spans.children ++ " children pushed through an adjacency over " ++
      toString adjacency.children)
  else
    let shares := min (max (spans.rows / sharedRows) 1) (max threads 1)
    if shares = 1 then (adjacency.readLists adjacency.noBuckets spans.lists).bind adjacency.settle
    else
      let per := (spans.rows + shares - 1) / shares
      (adjacency.dealGroups (cut per shares 0 [] 0 spans.lists)).bind fun dealt =>
        let many := (adjacency.words + bucketRows / 64 - 1) / (bucketRows / 64)
        let stretch := (many + shares - 1) / shares * (bucketRows / 64)
        (setStretches dealt stretch (List.replicate adjacency.words 0) 0).bind (Rids.fromWords adjacency.children)

end Adjacency
end Rudb.Graph
