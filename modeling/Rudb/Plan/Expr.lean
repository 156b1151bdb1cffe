import Rudb.Kernels.Compare

/-! The expressions of a bound plan and what they are worth on a row, in the three valued logic of
a query. What a function, a cast or a comparison beyond the bounds answers is the `Kernel`'s, a
parameter. Embeds expr.rs of rudb-plan. -/
namespace Rudb.Plan
open Rudb.Common

/-- `ColumnBinding`. -/
structure ColumnBinding where
  table : Nat
  column : Nat
  deriving DecidableEq, Repr

/-- `CompareOp`. -/
inductive CompareOp where
  | equal | notEqual | less | lessOrEqual | greater | greaterOrEqual | distinctFrom | notDistinctFrom
  deriving DecidableEq, Repr

namespace CompareOp

/-- `flip`. -/
def flip : CompareOp → CompareOp
  | less => greater
  | lessOrEqual => greaterOrEqual
  | greater => less
  | greaterOrEqual => lessOrEqual
  | other => other

/-- Whether a comparison holds of two values in an order. -/
def holds : CompareOp → Ordering → Bool
  | equal, order => order = .eq
  | notEqual, order => order ≠ .eq
  | less, order => order = .lt
  | lessOrEqual, order => order ≠ .gt
  | greater, order => order = .gt
  | greaterOrEqual, order => order ≠ .lt
  | distinctFrom, order => order ≠ .eq
  | notDistinctFrom, order => order = .eq

end CompareOp

/-- `ConjunctionOp`. -/
inductive ConjunctionOp where
  | and | or
  deriving DecidableEq, Repr

/-- `Expr`, with the type the plan records of it. The operands of a `CASE` are its `WHEN` and `THEN`
pairs in order, and the `ELSE` after them when there is one. Aggregates and windows are operators'
own and not expressions here. -/
inductive Expr where
  | column (binding : ColumnBinding) (ty : LogicalType)
  | constant (value : Value) (ty : LogicalType)
  | cast (input : Expr) (tryCast : Bool) (ty : LogicalType)
  | compare (op : CompareOp) (left right : Expr)
  | conjunction (op : ConjunctionOp) (children : List Expr)
  | function (name : String) (args : List Expr) (ty : LogicalType)
  | case (operands : List Expr) (ty : LogicalType)

namespace Expr

/-- `expr_type`. -/
def ty : Expr → LogicalType
  | column _ ty | constant _ ty | cast _ _ ty | function _ _ ty | case _ ty => ty
  | compare .. => .whole .boolean
  | conjunction .. => .whole .boolean

/-- Induction with every operand at hand. -/
@[elab_as_elim, induction_eliminator]
theorem induct {motive : Expr → Prop} (column : ∀ binding ty, motive (column binding ty))
    (constant : ∀ value ty, motive (constant value ty))
    (cast : ∀ input tryCast ty, motive input → motive (cast input tryCast ty))
    (compare : ∀ op left right, motive left → motive right → motive (compare op left right))
    (conjunction : ∀ op children, (∀ child ∈ children, motive child) → motive (conjunction op children))
    (function : ∀ name args ty, (∀ arg ∈ args, motive arg) → motive (function name args ty))
    (case : ∀ operands ty, (∀ operand ∈ operands, motive operand) → motive (case operands ty)) (expr : Expr) :
    motive expr := by
  refine @Expr.rec motive (fun list => ∀ expr ∈ list, motive expr) column constant cast compare conjunction function
    case ?_ ?_ expr
  · simp
  intro head tail first later expr member
  rcases List.mem_cons.mp member with rfl | member
  · exact first
  · exact later expr member

mutual

/-- `same`: two expressions written out alike. -/
def same : Expr → Expr → Bool
  | column left one, column right other => left = right && one = other
  | constant left one, constant right other => left = right && one = other
  | cast left leftTry one, cast right rightTry other => leftTry = rightTry && one = other && left.same right
  | compare leftOp leftOne leftOther, compare rightOp rightOne rightOther =>
    leftOp = rightOp && leftOne.same rightOne && leftOther.same rightOther
  | conjunction leftOp left, conjunction rightOp right => leftOp = rightOp && sameList left right
  | function leftName left one, function rightName right other =>
    leftName = rightName && one = other && sameList left right
  | case left one, case right other => one = other && sameList left right
  | _, _ => false

/-- `same_list`. -/
def sameList : List Expr → List Expr → Bool
  | [], [] => true
  | left :: one, right :: other => left.same right && sameList one other
  | _, _ => false

end

theorem sameList_iff (each : ∀ one ∈ left, ∀ other, one.same other = true ↔ one = other) :
    sameList left right = true ↔ left = right := by
  induction left generalizing right with
  | nil => cases right <;> simp [sameList]
  | cons one left ih =>
    cases right with
    | nil => simp [sameList]
    | cons other right =>
      simp only [List.mem_cons, forall_eq_or_imp] at each
      simp [sameList, each.1 other, ih each.2]

theorem same_iff {one : Expr} : one.same other = true ↔ one = other := by
  induction one generalizing other with
  | column | constant => cases other <;> simp [same]
  | cast _ _ _ ih => cases other <;> simp [same, ih]; tauto
  | compare _ _ _ left right => cases other <;> simp [same, left, right, and_assoc]
  | conjunction _ children ih =>
    cases other <;> simp [same, sameList_iff fun one member other => @ih one member other]
  | function _ args _ ih | case operands _ ih =>
    cases other <;> simp [same, sameList_iff fun one member other => @ih one member other]; tauto

instance : DecidableEq Expr := fun one other => decidable_of_iff (one.same other = true) same_iff

mutual

/-- `columns`: every column an expression reads, with its type. -/
def columns : Expr → List (ColumnBinding × LogicalType)
  | column binding ty => [(binding, ty)]
  | constant .. => []
  | cast input .. => input.columns
  | compare _ left right => left.columns ++ right.columns
  | conjunction _ children => columnsList children
  | function _ args _ => columnsList args
  | case operands _ => columnsList operands

def columnsList : List Expr → List (ColumnBinding × LogicalType)
  | [] => []
  | expr :: rest => expr.columns ++ columnsList rest

end

theorem mem_columnsList {read : ColumnBinding × LogicalType} :
    read ∈ columnsList exprs ↔ ∃ expr ∈ exprs, read ∈ expr.columns := by
  induction exprs with
  | nil => simp [columnsList]
  | cons expr rest ih => simp [columnsList, ih]

end Expr

/-- What the kernels do: how they order two values of a type no bound is taken of, how they cast from a type to
another and what a function of a name answers, and which functions can answer two calls with two values. -/
structure Kernel where
  rest : Value → Value → Option Ordering
  cast : (source target : LogicalType) → Bool → Value → Value
  call : String → LogicalType → List Value → Value
  volatileFunction : String → Bool

/-- Kernels of no function, that order nothing but what has bounds. -/
def bareKernel : Kernel where
  rest _ _ := none
  cast _ _ _ value := value
  call _ _ _ := .null
  volatileFunction _ := false

mutual

/-- `volatile`. -/
def volatile (kernel : Kernel) : Expr → Bool
  | .column .. => false
  | .constant .. => false
  | .cast input .. => volatile kernel input
  | .compare _ left right => volatile kernel left || volatile kernel right
  | .conjunction _ children => anyVolatile kernel children
  | .function name args _ => kernel.volatileFunction name || anyVolatile kernel args
  | .case operands _ => anyVolatile kernel operands

/-- `any_volatile`. -/
def anyVolatile (kernel : Kernel) : List Expr → Bool
  | [] => false
  | expr :: rest => volatile kernel expr || anyVolatile kernel rest

end

def ofBool (truth : Bool) : Value := .whole .boolean (if truth then 1 else 0)

/-- `as_bool`. -/
def asBool : Value → Option Bool
  | .whole .boolean number => some (decide (number ≠ 0))
  | _ => none

/-- Whether a filter keeps the row. -/
def isTrue (value : Value) : Bool := asBool value = some true

/-- A comparison of two values of a type. Two values the kernels cannot order are an error, and
have no answer here. -/
def comparison (kernel : Kernel) (op : CompareOp) (ty : LogicalType) (left right : Value) : Value :=
  match op with
  | .distinctFrom => ofBool (!notDistinct kernel ty left right)
  | .notDistinctFrom => ofBool (notDistinct kernel ty left right)
  | op => ((Kernels.orderAs kernel.rest ty left right).map fun order => ofBool (op.holds order)).getD .null
where
  /-- Equality that two nulls pass. -/
  notDistinct (kernel : Kernel) (ty : LogicalType) (left right : Value) : Bool :=
    match left, right with
    | .null, .null => true
    | .null, _ => false
    | _, .null => false
    | left, right => Kernels.orderAs kernel.rest ty left right = some .eq

/-- `AND` and `OR` of any number of operands. -/
def junction (op : ConjunctionOp) (values : List Value) : Value :=
  match op with
  | .and =>
    if values.any (asBool · = some false) then ofBool false
    else if values.all isTrue then ofBool true else .null
  | .or =>
    if values.any isTrue then ofBool true
    else if values.all (asBool · = some false) then ofBool false else .null

/-- The `THEN` of the first `WHEN` that is true, or the `ELSE`. -/
def chosen : List Value → Value
  | [] => .null
  | [otherwise] => otherwise
  | condition :: result :: rest => if isTrue condition then result else chosen rest

/-- A row, as what it holds in each column. -/
abbrev Tuple := ColumnBinding → Value

/-- A row whose columns hold values of their types. -/
def Fitting (types : ColumnBinding → LogicalType) (row : Tuple) : Prop := ∀ binding, (row binding).fits (types binding)

mutual

/-- What an expression is worth on a row. -/
def eval (kernel : Kernel) (row : Tuple) : Expr → Value
  | .column binding _ => row binding
  | .constant value _ => value
  | .cast input tryCast ty => kernel.cast input.ty ty tryCast (eval kernel row input)
  | .compare op left right => comparison kernel op left.ty (eval kernel row left) (eval kernel row right)
  | .conjunction op children => junction op (evalList kernel row children)
  | .function name args ty => kernel.call name ty (evalList kernel row args)
  | .case operands _ => chosen (evalList kernel row operands)

def evalList (kernel : Kernel) (row : Tuple) : List Expr → List Value
  | [] => []
  | expr :: rest => eval kernel row expr :: evalList kernel row rest

end

theorem evalList_eq (kernel : Kernel) (row : Tuple) (exprs : List Expr) :
    evalList kernel row exprs = exprs.map (eval kernel row) := by
  induction exprs with
  | nil => rfl
  | cons expr rest ih => simp [evalList, ih]

/-- An expression is worth the same on rows that agree on the columns it reads. -/
theorem eval_congr (kernel : Kernel)
    (agree : ∀ read ∈ expr.columns, row read.1 = other read.1) : eval kernel row expr = eval kernel other expr := by
  induction expr with
  | column binding ty => exact agree (binding, ty) (by simp [Expr.columns])
  | constant value ty => rfl
  | cast input tryCast ty ih => simp [eval, ih agree]
  | compare op left right first second =>
    simp only [Expr.columns, List.mem_append] at agree
    simp [eval, first fun read reads => agree read (.inl reads), second fun read reads => agree read (.inr reads)]
  | conjunction op children ih | function name args ty ih | case operands ty ih =>
    simp only [Expr.columns, Expr.mem_columnsList] at agree
    simp only [eval, evalList_eq, List.map_congr_left fun expr member => ih expr member fun read reads =>
      agree read ⟨expr, member, reads⟩]

@[simp] theorem asBool_ofBool (truth : Bool) : asBool (ofBool truth) = some truth := by cases truth <;> rfl

@[simp] theorem isTrue_ofBool (truth : Bool) : isTrue (ofBool truth) = truth := by cases truth <;> rfl

@[simp] theorem isTrue_null : isTrue .null = false := rfl

theorem isTrue_and :
    isTrue (eval kernel row (.conjunction .and children)) = true ↔
      ∀ child ∈ children, isTrue (eval kernel row child) = true := by
  simp only [eval, evalList_eq, junction]
  split
  · rename_i false_
    obtain ⟨child, member, false_⟩ : ∃ child ∈ children, asBool (eval kernel row child) = some false := by
      simpa using false_
    refine ⟨by simp, fun all => ?_⟩
    have here := all child member
    simp [isTrue, false_] at here
  · split <;> simp_all

end Rudb.Plan
