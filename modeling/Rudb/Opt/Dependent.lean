import Rudb.Exec.Key
import Rudb.Plan.Expr

/-! Group keys computed from other group keys: grouping without them, and when that answers as
grouping by all of them does. What an aggregate answers of a group is a parameter. Embeds
dependent.rs of rudb-opt. -/
namespace Rudb.Opt.Dependent
open Rudb.Common Rudb.Plan List

/-- A row goes to the first group whose first row it is alike, or starts a group. -/
def place (alike : Tuple → Tuple → Bool) (groups : List (Tuple × List Tuple)) (row : Tuple) :
    List (Tuple × List Tuple) :=
  match groups with
  | [] => [(row, [])]
  | (first, later) :: rest =>
    if alike first row then (first, later ++ [row]) :: rest else (first, later) :: place alike rest row

/-- A row of the table `index` with the values in its columns. -/
def output (index : Nat) (values : List Value) : Tuple :=
  fun binding => if binding.table = index then values.getD binding.column .null else .null

/-- An aggregate call, as what it answers of a group's rows. -/
structure Call where
  answer : List Tuple → Value
  ty : LogicalType

section
variable (kernel : Kernel) (naming : Exec.Naming) (expr : Nat → Expr)

/-- Whether two rows have the same group keys. -/
def alike (keys : List Nat) (one other : Tuple) : Bool :=
  keys.all fun key => Exec.same naming (eval kernel one (expr key)) (eval kernel other (expr key))

/-- `Node::Aggregate`: a row for each group, with the keys of the first row of it. -/
def aggregate (index : Nat) (keys : List Nat) (calls : List Call) (rows : List Tuple) : List Tuple :=
  (rows.foldl (place (alike kernel naming expr keys)) []).map fun (first, later) =>
    output index (keys.map (fun key => eval kernel first (expr key)) ++ calls.map (·.answer (first :: later)))

/-- `Node::Project`. -/
def project (index : Nat) (exprs : List Expr) (rows : List Tuple) : List Tuple :=
  rows.map fun row => output index (exprs.map (eval kernel row))

/-- The column that a key is, when it is one. -/
def bare (key : Nat) : Option ColumnBinding :=
  match expr key with
  | .column binding _ => some binding
  | _ => none

/-- Whether a key is computed from keys that are columns. -/
def dependent (keys : List Nat) (key : Nat) : Bool :=
  (bare expr key).isNone && !volatile kernel (expr key) &&
    (expr key).columns.all fun read => (keys.filterMap (bare expr)).contains read.1

/-- `base_outputs`: where the inner aggregate has a column, the last of the places where it has it. -/
def baseOutput (kept : List Nat) (binding : ColumnBinding) : Nat :=
  ((kept.zipIdx.reverse.find? fun held => bare expr held.1 = some binding).map (·.2)).getD 0

mutual

/-- `replay`: a key over the outputs of the inner aggregate. -/
def replay (table : Nat) (outputs : ColumnBinding → Nat) : Expr → Expr
  | .column binding ty => .column ⟨table, outputs binding⟩ ty
  | .constant value ty => .constant value ty
  | .cast input tryCast ty => .cast (replay table outputs input) tryCast ty
  | .compare op left right => .compare op (replay table outputs left) (replay table outputs right)
  | .conjunction op children => .conjunction op (replayList table outputs children)
  | .function name args ty => .function name (replayList table outputs args) ty
  | .case operands ty => .case (replayList table outputs operands) ty

def replayList (table : Nat) (outputs : ColumnBinding → Nat) : List Expr → List Expr
  | [] => []
  | expr :: rest => replay table outputs expr :: replayList table outputs rest

end

/-- `rewrite`: the keys the inner aggregate groups by, and what the projection over it computes. -/
def rewrite (staged : Nat) (keys : List Nat) (calls : List Call) : Option (List Nat × List Expr) :=
  let drop := dependent kernel expr keys
  if keys.length < 2 || !keys.any drop || keys.all drop then none
  else
    let kept := keys.filter (!drop ·)
    some (kept, keys.map (fun key =>
      if drop key then replay staged (baseOutput expr kept) (expr key)
      else .column ⟨staged, kept.idxOf key⟩ (expr key).ty) ++
      calls.zipIdx.map fun (call, offset) => .column ⟨staged, kept.length + offset⟩ call.ty)

end

theorem replayList_eq (exprs : List Expr) : replayList table outputs exprs = exprs.map (replay table outputs) := by
  induction exprs with
  | nil => rfl
  | cons expr rest ih => simp [replayList, ih]

theorem eval_replay : eval kernel row (replay table outputs expr) =
    eval kernel (fun binding => row ⟨table, outputs binding⟩) expr := by
  have ty (expr : Expr) : (replay table outputs expr).ty = expr.ty := by cases expr <;> rfl
  induction expr with
  | column | constant => rfl
  | cast input tryCast _ ih => simp [replay, eval, ih, ty]
  | compare op left right first second => simp [replay, eval, first, second, ty]
  | conjunction op children ih | function name args ty ih | case operands ty ih =>
    simp only [replay, eval, evalList_eq, replayList_eq, map_map]
    exact congrArg _ (map_congr_left ih)

section
variable {one other : Tuple → Tuple → Bool} {all : List Tuple}

theorem place_congr (agree : ∀ first ∈ all, ∀ row ∈ all, one first row = other first row) {groups}
    (inside : ∀ group ∈ groups, group.1 ∈ all) (member : row ∈ all) :
    place one groups row = place other groups row ∧ ∀ group ∈ place other groups row, group.1 ∈ all := by
  induction groups with
  | nil => simp [place, member]
  | cons group rest ih =>
    rw [forall_mem_cons] at inside
    obtain ⟨same, within⟩ := ih inside.2
    rw [place, place, agree group.1 inside.1 row member, same]
    split
    · exact ⟨rfl, forall_mem_cons.mpr inside⟩
    · exact ⟨rfl, forall_mem_cons.mpr ⟨inside.1, within⟩⟩

/-- Relations that agree on the rows make the same groups of them. -/
theorem groups_congr (agree : ∀ first ∈ all, ∀ row ∈ all, one first row = other first row) {rows groups}
    (inside : ∀ group ∈ groups, group.1 ∈ all) (among : rows ⊆ all) :
    rows.foldl (place one) groups = rows.foldl (place other) groups := by
  induction rows generalizing groups with
  | nil => rfl
  | cons row rows ih =>
    obtain ⟨member, among⟩ := cons_subset.mp among
    obtain ⟨same, within⟩ := place_congr agree inside member
    rw [foldl_cons, foldl_cons, same, ih within among]

end

section
variable {kernel : Kernel} {naming : Exec.Naming} {expr : Nat → Expr} {keys kept : List Nat}

/-- The inner aggregate has a column of the keys at the place the projection reads it from. -/
theorem baseOutput_holds (member : key ∈ kept) (column : bare expr key = some binding) :
    ∃ held ty, kept[baseOutput expr kept binding]? = some held ∧ expr held = .column binding ty := by
  obtain ⟨⟨held, at_⟩, found⟩ := Option.isSome_iff_exists.mp (find?_isSome.mpr
    ⟨(key, kept.idxOf key), mem_reverse.mpr (mem_zipIdx_iff_getElem?.mpr (getElem?_idxOf member)),
      by simpa using column⟩ : (kept.zipIdx.reverse.find? fun held => bare expr held.1 = some binding).isSome)
  have here := mem_zipIdx_iff_getElem?.mp (mem_reverse.mp (mem_of_find?_eq_some found))
  have reads : bare expr held = some binding := by simpa using find?_some found
  rw [bare] at reads
  split at reads
  · rename_i ty same
    cases reads
    exact ⟨held, ty, by simp [baseOutput, found, here], same⟩
  · cases reads

/-- The value of a key that the inner aggregate groups by. -/
theorem output_key (here : kept[at_]? = some key) (rest : List Value) :
    output staged (kept.map value ++ rest) ⟨staged, at_⟩ = value key := by
  obtain ⟨inside, rfl⟩ := List.getElem?_eq_some_iff.mp here
  simp [output, getElem?_append, inside]

/-- Rows of the types that are of one group in every key that is not computed from key columns are so in the
others: each key that is dropped is a congruence of the grouping equality. -/
def Congruent (kernel : Kernel) (naming : Exec.Naming) (expr : Nat → Expr) (types : ColumnBinding → LogicalType)
    (keys : List Nat) : Prop :=
  ∀ one other, Fitting types one → Fitting types other →
    alike kernel naming expr (keys.filter (!dependent kernel expr keys ·)) one other = true →
      alike kernel naming expr keys one other = true

/-- Where no two rows that are alike in the keys kept differ in another, the groups are those of all the keys, and
so is what is answered of them. -/
theorem rewrite_answers (fired : rewrite kernel expr staged keys calls = some (kept, exprs))
    (congruent : ∀ one ∈ rows, ∀ other ∈ rows, alike kernel naming expr kept one other = true →
      alike kernel naming expr keys one other = true) :
    project kernel index exprs (aggregate kernel naming expr staged kept calls rows) =
      aggregate kernel naming expr index keys calls rows := by
  simp only [rewrite] at fired
  split at fired
  · cases fired
  cases fired
  have agree one (first : one ∈ rows) other (second : other ∈ rows) :
      alike kernel naming expr (keys.filter (!dependent kernel expr keys ·)) one other =
        alike kernel naming expr keys one other := by
    refine Bool.eq_iff_iff.mpr ⟨congruent one first other second, fun all => ?_⟩
    simp only [alike, all_eq_true] at all ⊢
    exact fun key member => all key (mem_of_mem_filter member)
  rw [project, aggregate, aggregate, map_map, groups_congr agree (by simp) (Subset.refl rows)]
  refine map_congr_left fun (first, later) _ => congrArg (output index) ?_
  simp only [map_append, map_map]
  congr 1
  · refine map_congr_left fun key member => ?_
    simp only [Function.comp_apply]
    split
    · rename_i drop
      rw [eval_replay]
      refine eval_congr kernel fun read reads => ?_
      simp only [dependent, Bool.and_eq_true, all_eq_true, contains_iff_mem, mem_filterMap] at drop
      obtain ⟨base, among, column⟩ := drop.2 read reads
      have held : base ∈ keys.filter (!dependent kernel expr keys ·) :=
        mem_filter.mpr ⟨among, by simp [dependent, column]⟩
      obtain ⟨source, ty, here, same⟩ := baseOutput_holds held column
      rw [output_key here, same, eval]
    · rename_i keep
      have held : key ∈ keys.filter (!dependent kernel expr keys ·) := mem_filter.mpr ⟨member, by simpa using keep⟩
      rw [eval, output_key (getElem?_idxOf held)]
  · refine List.ext_getElem (by simp) fun at_ _ inside => ?_
    rw [length_map] at inside
    simp [eval, output, inside]

theorem rewrite_kept (fired : rewrite kernel expr staged keys calls = some (kept, exprs)) :
    kept = keys.filter (!dependent kernel expr keys ·) := by
  simp only [rewrite] at fired
  split at fired
  · cases fired
  · cases fired
    rfl

/-- The types of which each group has one value. -/
def single : LogicalType → Bool
  | .float | .double | .interval | .numeric | .variant | .nested _ => false
  | _ => true

theorem same_single (fits : one.fits ty = true) (one_of : single ty = true) (same : Exec.same naming one other = true) :
    one = other := by
  unfold Exec.same at same
  split at same <;> first
    | exact of_decide_eq_true same
    | cases ty <;> simp [Value.fits, single] at fits one_of

/-- Keys computed from columns of such types, whose own values group with themselves, can be dropped. -/
theorem congruent_of_single
    (columns : ∀ key ∈ keys, dependent kernel expr keys key = true → ∀ read ∈ (expr key).columns,
      single (types read.1) = true)
    (itself : ∀ key ∈ keys, dependent kernel expr keys key = true → ∀ row, Fitting types row →
      Exec.same naming (eval kernel row (expr key)) (eval kernel row (expr key)) = true) :
    Congruent kernel naming expr types keys := by
  intro one other first second same
  simp only [alike, all_eq_true, mem_filter, Bool.not_eq_true', and_imp] at same ⊢
  intro key member
  by_cases drop : dependent kernel expr keys key = true
  · have equal : eval kernel one (expr key) = eval kernel other (expr key) := by
      refine eval_congr kernel fun read reads => ?_
      have from_ := drop
      simp only [dependent, Bool.and_eq_true, all_eq_true, contains_iff_mem, mem_filterMap] at from_
      obtain ⟨base, among, column⟩ := from_.2 read reads
      have held := same base among (by simp [dependent, column])
      obtain ⟨ty, is⟩ : ∃ ty, expr base = .column read.1 ty := by
        unfold bare at column
        split at column
        · rename_i ty is
          exact ⟨ty, Option.some.inj column ▸ is⟩
        · cases column
      rw [is, eval, eval] at held
      exact same_single (first read.1) (columns key member drop read reads) held
    rw [equal]
    exact itself key member drop other second
  · exact same key member (by simpa using drop)

/-- Casts to text: a digit, and an interval of one day and one of 24 hours, as the engine writes them. -/
def writing : Kernel where
  __ := bareKernel
  cast _ _ _
    | .whole _ number => .varchar [48 + UInt8.ofNat number.toNat]
    | .interval 0 1 0 => .varchar [49, 32, 100, 97, 121]
    | .interval 0 0 86400000000 => .varchar [50, 52, 58, 48, 48, 58, 48, 48]
    | value => value

/-- `GROUP BY x, x::VARCHAR`. -/
def written (ty : LogicalType) : Nat → Expr
  | 0 => .column ⟨0, 0⟩ ty
  | _ => .cast (.column ⟨0, 0⟩ ty) false .varchar

end
end Rudb.Opt.Dependent
