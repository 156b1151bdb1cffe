import Rudb.Plan.JoinProofs

/-! What an equality between two columns lets a predicate on one of them say about the other, and
where a join's conditions let it be said. Embeds transitive.rs of rudb-opt. -/
namespace Rudb.Opt
open Rudb.Common Rudb.Plan

/-- `kept`: which sides of a join hand their rows on as they are. -/
def kept : JoinKind → Bool × Bool
  | .inner => (true, true)
  | .left | .semi | .anti | .single | .mark => (true, false)
  | .right => (false, true)
  | .full | .positional => (false, false)

/-- `droppable`: which sides of a join may lose a row that could never have paired with anything. -/
def droppable : JoinKind → Bool × Bool
  | .inner => (true, true)
  | .left | .semi | .anti | .single | .mark => (false, true)
  | .right => (true, false)
  | .full | .positional => (false, false)

/-- A column of a plan, with its type. -/
abbrev Column := ColumnBinding × LogicalType

/-- `equalities`: the pairs of columns of one type that the equalities in a list say are equal. -/
def equalities (parts : List Expr) : List (Column × Column) :=
  parts.filterMap fun part =>
    match part with
    | .compare .equal (.column one ty) (.column other ty') =>
      if one ≠ other ∧ ty = ty' then some ((one, ty), (other, ty')) else none
    | _ => none

/-- `only`: whether an expression reads a column and reads nothing else. -/
def only (expr : Expr) (binding : ColumnBinding) : Bool :=
  let read := expr.columns.map (·.1)
  read.contains binding && read.all (· = binding)

mutual

/-- `replace`: every reference to a column rewritten into another one. -/
def replace (origin : ColumnBinding) (target : Column) : Expr → Expr
  | .column binding ty => if binding = origin then .column target.1 target.2 else .column binding ty
  | .constant value ty => .constant value ty
  | .cast input tryCast ty => .cast (replace origin target input) tryCast ty
  | .compare op left right => .compare op (replace origin target left) (replace origin target right)
  | .conjunction op children => .conjunction op (replaceList origin target children)
  | .function name args ty => .function name (replaceList origin target args) ty
  | .case operands ty => .case (replaceList origin target operands) ty

def replaceList (origin : ColumnBinding) (target : Column) : List Expr → List Expr
  | [] => []
  | expr :: rest => replace origin target expr :: replaceList origin target rest

end

section
variable (kernel : Kernel)

/-- `copy`: a predicate with the one column it reads replaced, when that is worth writing down. -/
def copy (source : Expr) (origin target : Column) : Option Expr :=
  if !only source origin.1 || volatile kernel source then none else some (replace origin.1 target source)

/-- Whether a set of tables holds every table an expression reads. -/
def subset (expr : Expr) (tables : List Nat) : Bool := expr.columns.all fun read => tables.contains read.1.table

/-- One predicate copied onto one column, for the side that produces the column. -/
def acrossOne (drop : Bool × Bool) (conditions pending : List Expr) (below : Below) (source : Expr)
    (held : List Expr × List Expr) (turn : Column × Column) : List Expr × List Expr :=
  let table := turn.2.1.table
  let seen (into : List Expr) (made : Expr) := (pending ++ conditions ++ into).any (·.same made)
  if below.left.contains table then
    if drop.1 then
      match copy kernel source turn.1 turn.2 with
      | some made => if seen held.1 made then held else (held.1 ++ [made], held.2)
      | none => held
    else held
  else if below.right.contains table then
    if drop.2 then
      match copy kernel source turn.1 turn.2 with
      | some made => if seen held.2 made then held else (held.1, held.2 ++ [made])
      | none => held
    else held
  else held

/-- `across`: what the conditions of a join imply about each side, from the predicates above it. -/
def across (kind : JoinKind) (conditions pending : List Expr) (below : Below) : List Expr × List Expr :=
  let drop := droppable kind
  if !drop.1 && !drop.2 then ([], [])
  else
    let keep := kept kind
    let sources := pending.filter fun part => (keep.1 && subset part below.left) || (keep.2 && subset part below.right)
    (equalities conditions).foldl (fun held pair =>
      sources.foldl (fun held source =>
        [(pair.1, pair.2), (pair.2, pair.1)].foldl (acrossOne kernel drop conditions pending below source) held) held)
          ([], [])

end
end Rudb.Opt
