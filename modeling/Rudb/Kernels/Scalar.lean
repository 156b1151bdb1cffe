import Rudb.Plan.Expr

/-! The scalar functions that see a null argument, and the null rule that answers for the others.
The functions in modules of their own are parameters. Embeds scalar.rs of rudb-kernels. -/
namespace Rudb.Kernels
open Rudb.Common Rudb.Plan List

/-- What the functions in modules of their own answer: the ones asked before the null rule, which may
pass a call on, and the ones asked after it. With them, how a value is cast and written out, how two
arguments of `greatest` are weighed, and what hashes values. -/
structure Functions where
  special : String → List Value → LogicalType → Option Value
  value : String → List Value → LogicalType → Value
  castValue : Value → LogicalType → Value
  written : Value → Bytes
  weigh : LogicalType → Value → Value → Option Ordering
  hashAll : List Value → Nat
  not_special : ∀ args ty, special "not" args ty = none

section functions
variable (kernel : Kernel) (functions : Functions)

/-- The best of the arguments so far, unless two of them could not be weighed. -/
def better (wanted : Ordering) (returns : LogicalType) (best : Option (Option Value)) (value : Value) :
    Option (Option Value) :=
  match best with
  | none => none
  | some none => some (some value)
  | some (some held) =>
    (functions.weigh returns value held).map fun order => some (if order ≠ wanted then held else value)

/-- `greatest` and `least`, which look past a null argument. -/
def extreme (wanted : Ordering) (returns : LogicalType) (args : List Value) : Value :=
  (((args.filter (!·.isNull)).foldl (better functions wanted returns) (some none)).bind id).getD .null

/-- `nullif`: the first argument, unless the two are equal. -/
def nullif (returns : LogicalType) (left right : Value) : Value :=
  if order kernel.rest left right = some .eq then .null else functions.castValue left returns

/-- `concat`, which drops a null argument. -/
def concat (args : List Value) : Value := .varchar ((args.filter (!·.isNull)).flatMap functions.written)

/-- `not` of a boolean. -/
def negation (value : Value) : Value := ((asBool value).map fun held => ofBool !held).getD .null

/-- The functions of `scalar.rs` itself that answer above the null rule. -/
def early (name : String) (returns : LogicalType) (args : List Value) : Option Value :=
  if name = "coalesce" then some ((args.find? (!·.isNull)).getD .null)
  else if name = "greatest" then some (extreme functions .gt returns args)
  else if name = "least" then some (extreme functions .lt returns args)
  else if name = "nullif" then
    match args with
    | [left, right] => some (nullif kernel functions returns left right)
    | _ => none
  else if name = "concat" then some (concat functions args)
  else if name = "hash" then some (.whole .uBigInt (functions.hashAll args))
  else none

/-- The functions below the null rule. -/
def late (name : String) (returns : LogicalType) (args : List Value) : Value :=
  match decide (name = "not"), args with
  | true, [only] => negation only
  | _, args => functions.value name args returns

/-- `call_values`. A call that fails has no answer, which is a null here. -/
def callValues (name : String) (returns : LogicalType) (args : List Value) : Value :=
  match functions.special name args returns with
  | some answer => answer
  | none =>
    match early kernel functions name returns args with
    | some answer => answer
    | none => if args.any (·.isNull) then .null else late functions name returns args

end functions

/-- The kernels with these functions. -/
def scalarKernel (kernel : Kernel) (functions : Functions) : Kernel :=
  { kernel with call := callValues kernel functions }

/-- The names answered above the null rule, but for those of `special`. -/
def aboveNullRule : List String := ["coalesce", "greatest", "least", "nullif", "concat", "hash"]

/-- Every function below the null rule answers null when an argument is. -/
theorem call_null (below : name ∉ aboveNullRule) (plain : ∀ args ty, functions.special name args ty = none)
    (ty : LogicalType) (null : .null ∈ args) : (scalarKernel kernel functions).call name ty args = .null := by
  have any : args.any (·.isNull) = true := any_eq_true.mpr ⟨.null, null, rfl⟩
  have pass : early kernel functions name ty args = none := by
    simp only [aboveNullRule, mem_cons, not_mem_nil, or_false, not_or] at below
    simp [early, below]
  simp [scalarKernel, callValues, plain, pass, any]

theorem call_not (ty : LogicalType) (value : Value) :
    (scalarKernel kernel functions).call "not" ty [value] = negation value := by
  have null : value.isNull = true → negation value = .null := by
    cases value <;> simp [Value.isNull, negation, asBool]
  have pass : early kernel functions "not" ty [value] = none := by simp [early]
  simp only [scalarKernel, callValues, functions.not_special, pass, any_cons, any_nil, Bool.or_false]
  by_cases here : value.isNull = true
  · rw [if_pos here, null here]
  · rw [if_neg here]
    rfl

end Rudb.Kernels
