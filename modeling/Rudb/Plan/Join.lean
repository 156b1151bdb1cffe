import Rudb.Lib.Gather
import Rudb.Plan.Expr

/-! Joins of every kind, as the nested loop makes their rows. Embeds join.rs of rudb-exec. -/
namespace Rudb.Plan
open Rudb.Common Rudb.Lib

/-- `JoinKind`. -/
inductive JoinKind where
  | inner | left | right | full | semi | anti | single | mark | positional
  deriving DecidableEq, Repr

/-- The tables the two inputs of a join produce, none of them both. -/
structure Below where
  left : List Nat
  right : List Nat
  apart : ∀ table ∈ left, table ∉ right

def nulls : Tuple := fun _ => .null

/-- `pair`: both rows, left then right. -/
def Below.pair (below : Below) (left right : Tuple) : Tuple :=
  fun binding => if binding.table ∈ below.left then left binding else right binding

/-- `pad_right`. -/
def Below.padRight (below : Below) (left : Tuple) : Tuple := below.pair left nulls

/-- `pad_left`. -/
def Below.padLeft (below : Below) (right : Tuple) : Tuple := below.pair nulls right

/-- Whether every part of a filter keeps a row. -/
def passes (kernel : Kernel) (parts : List Expr) (row : Tuple) : Bool :=
  parts.all fun part => isTrue (eval kernel row part)

/-- A join: its kind, its conditions, the tables below it, and the column a mark join answers in, which is of no
table on its left. -/
structure Join where
  kind : JoinKind
  conditions : List Expr
  below : Below
  marker : ColumnBinding
  apart : marker.table ∉ below.left

namespace Join
variable (kernel : Kernel) (join : Join)

/-- What the conditions come to on a pair, with an `AND` between them. -/
def merged (left right : Tuple) : Value :=
  eval kernel (join.below.pair left right) (.conjunction .and join.conditions)

/-- Whether a pair matches. -/
def meets (left right : Tuple) : Bool := isTrue (join.merged kernel left right)

/-- `matching`: the right rows one left row matches. -/
def matching (rights : List Tuple) (left : Tuple) : List Tuple := rights.filter (join.meets kernel left)

/-- `marker`: true for a hit, null for no hit with an unknown comparison, false otherwise. -/
def markerOf (rights : List Tuple) (left : Tuple) : Value :=
  let merged := rights.map (join.merged kernel left)
  if merged.any isTrue then ofBool true else if merged.any (·.isNull) then .null else ofBool false

/-- The row a mark join gives for a left row. -/
def marked (left : Tuple) (mark : Value) : Tuple :=
  join.below.pair left fun binding => if binding = join.marker then mark else .null

/-- The rows a left row gives from the right rows it matched. A single join fails on a second one. -/
def emit (left : Tuple) (hits : List Tuple) : Option (List Tuple) :=
  match join.kind, hits with
  | .semi, [] => some []
  | .semi, _ :: _ => some [left]
  | .anti, [] => some [left]
  | .anti, _ :: _ => some []
  | .single, [] => some [join.below.padRight left]
  | .single, [hit] => some [join.below.pair left hit]
  | .single, _ :: _ :: _ => none
  | .left, [] => some [join.below.padRight left]
  | .full, [] => some [join.below.padRight left]
  | _, hits => some (hits.map (join.below.pair left))

/-- The right rows that no left row matched, which a right and a full join pad. -/
def leftOver (lefts rights : List Tuple) : List Tuple :=
  match join.kind with
  | .right | .full => (rights.filter fun right => !lefts.any fun left =>
    join.meets kernel left right).map join.below.padLeft
  | _ => []

/-- `positional`: the nth left row beside the nth right row, padding the shorter side. -/
def positional : List Tuple → List Tuple → List Tuple
  | [], rights => rights.map join.below.padLeft
  | left :: lefts, [] => (left :: lefts).map join.below.padRight
  | left :: lefts, right :: rights => join.below.pair left right :: positional lefts rights

/-- `joined`. -/
def joined (lefts rights : List Tuple) : Option (List Tuple) :=
  match join.kind with
  | .positional => some (join.positional lefts rights)
  | .mark => some (lefts.map fun left => join.marked left (join.markerOf kernel rights left))
  | _ => (gather (fun left => join.emit left (join.matching kernel rights left)) lefts).map
      (· ++ join.leftOver kernel lefts rights)

end Join
end Rudb.Plan
