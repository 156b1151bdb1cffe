import Rudb.Kernels.Scalar
import Rudb.Plan.JoinProofs

/-! What a predicate says about a row that a join padded with nulls, and the kind of join that is
left when every padded row is thrown away. Embeds nulls.rs of rudb-opt. -/
namespace Rudb.Opt
open Rudb.Common Rudb.Plan Rudb.Kernels

/-- `TOLERANT`. -/
def tolerant : List String := ["coalesce", "greatest", "least", "__rudb_pg_array_fill"]

/-- `Known`. -/
inductive Known where
  | null | true | false | dropped | present | unknown
  deriving DecidableEq, Repr

namespace Known

/-- `dropped`: whether a `WHERE` clause throws the row away. -/
def isDropped : Known → Bool
  | null | false | dropped => Bool.true
  | _ => Bool.false

/-- `present`: whether the value is known not to be null. -/
def isPresent : Known → Bool
  | true | false | present => Bool.true
  | _ => Bool.false

/-- `compare`. -/
def compare (op : CompareOp) (left right : Known) : Known :=
  let either := left = .null || right = .null
  let both := left = .null && right = .null
  let one := either && (left.isPresent || right.isPresent)
  match op with
  | .notDistinctFrom => if both then .true else if one then .false else .unknown
  | .distinctFrom => if both then .false else if one then .true else .unknown
  | _ => if either then .null else .unknown

/-- `and`. -/
def and (parts : List Known) : Known :=
  if parts.contains .false then .false
  else if parts.any isDropped then .dropped
  else if parts.all (· = .true) then .true else .unknown

/-- `or`. -/
def or (parts : List Known) : Known :=
  if parts.contains .true then .true
  else if parts.all (· = .false) then .false
  else if parts.all fun part => part = .false || part = .null then .null
  else if parts.all isDropped then .dropped else .unknown

/-- `function`. -/
def function (name : String) (parts : List Known) : Known :=
  if name = "not" then
    match parts.head? with
    | some .true => .false
    | some .false => .true
    | some .null => .null
    | _ => .unknown
  else if tolerant.contains name then .unknown
  else if parts.contains .null then .null else .unknown

/-- What a constant is known to be. -/
def constant (value : Value) : Known :=
  if value.isNull then .null
  else match asBool value with
    | some Bool.true => .true
    | some Bool.false => .false
    | none => .present

end Known

mutual

/-- `known`: what an expression evaluates to when every column of these tables is null. -/
def known (nulled : List Nat) : Expr → Known
  | .column binding _ => if nulled.contains binding.table then .null else .unknown
  | .constant value _ => Known.constant value
  | .cast input .. => match known nulled input with
    | .null => .null
    | _ => .unknown
  | .compare op left right => Known.compare op (known nulled left) (known nulled right)
  | .conjunction .and children => Known.and (knownList nulled children)
  | .conjunction .or children => Known.or (knownList nulled children)
  | .function name args _ => Known.function name (knownList nulled args)
  | .case .. => .unknown

def knownList (nulled : List Nat) : List Expr → List Known
  | [] => []
  | expr :: rest => known nulled expr :: knownList nulled rest

end

/-- `rejects`. -/
def rejects (expr : Expr) (nulled : List Nat) : Bool := (known nulled expr).isDropped

/-- Whether every row padded on these tables is thrown away. -/
def gone (pending : List Expr) (side : List Nat) : Bool := pending.any (rejects · side)

/-- `narrow`: the kind a join really is, given the predicates above it. -/
def narrow (kind : JoinKind) (pending : List Expr) (below : Below) : JoinKind :=
  match kind with
  | .left => if gone pending below.right then .inner else .left
  | .right => if gone pending below.left then .inner else .right
  | .full =>
    match gone pending below.left, gone pending below.right with
    | true, true => .inner
    | true, false => .left
    | false, true => .right
    | false, false => .full
  | kind => kind

end Rudb.Opt
