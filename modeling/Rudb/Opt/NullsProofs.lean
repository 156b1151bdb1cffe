import Rudb.Opt.Nulls
import Rudb.Opt.TransitiveProofs

/-! When what is known of a predicate on a padded row is so: a row it is known to reject is rejected
then, and no row is lost when a join is narrowed. The functions that stand before the null rule are
where it is not. -/
namespace Rudb.Opt
open Rudb.Common Rudb.Plan Rudb.Kernels Rudb.Lib List

/-- What is said of a value by what is known of it. -/
def Known.Fits : Known → Value → Prop
  | .null, value => value = .null
  | .true, value => asBool value = some Bool.true
  | .false, value => asBool value = some Bool.false
  | .dropped, value => isTrue value = Bool.false
  | .present, value => value ≠ .null
  | .unknown, _ => True

namespace Known
theorem Fits.rejected {known : Known} (fits : known.Fits value) (dropped : known.isDropped = Bool.true) :
    isTrue value = Bool.false := by
  cases known with
  | null =>
    cases fits
    rfl
  | false => simp [Plan.isTrue, show asBool value = some Bool.false from fits]
  | dropped => exact fits
  | true | present | unknown => cases dropped

theorem Fits.not_null {known : Known} (fits : known.Fits value) (present : known.isPresent = Bool.true) :
    value ≠ .null := by
  rintro rfl
  cases known with
  | true | false => cases fits
  | present => exact fits rfl
  | null | dropped | unknown => cases present

theorem constant_fits (value : Value) : (constant value).Fits value := by
  unfold constant
  split
  · cases value <;> simp_all [Value.isNull, Fits]
  rename_i null
  split <;> rename_i held
  · exact held
  · exact held
  · rintro rfl
    exact null rfl

/-- The ordinary comparisons with a null are null. -/
theorem comparison_null (null : left = .null ∨ right = .null)
    (distinct : op ≠ .distinctFrom) (same : op ≠ .notDistinctFrom) : comparison kernel op ty left right = .null := by
  have none : orderAs kernel.rest ty left right = none := by
    rcases null with rfl | rfl
    · exact (orderAs_null kernel.rest ty right).1
    · exact (orderAs_null kernel.rest ty left).2
  unfold comparison
  split
  · contradiction
  · contradiction
  · simp [none]

theorem compare_fits (first : one.Fits left)
    (second : other.Fits right) : (compare op one other).Fits (comparison kernel op ty left right) := by
  -- the two comparisons that are never null, in the three ways the operands can be known
  have same : (if one = .null && other = .null then Known.true
      else if (one = .null || other = .null) && (one.isPresent || other.isPresent) then .false else .unknown).Fits
        (ofBool (comparison.notDistinct kernel ty left right)) ∧
      (if one = .null && other = .null then Known.false
      else if (one = .null || other = .null) && (one.isPresent || other.isPresent) then .true else .unknown).Fits
        (ofBool (!comparison.notDistinct kernel ty left right)) := by
    split
    · rename_i both
      simp only [Bool.and_eq_true, decide_eq_true_eq] at both
      obtain ⟨rfl, rfl⟩ := both
      cases first
      cases second
      exact ⟨rfl, rfl⟩
    split
    · rename_i one'
      have apart : comparison.notDistinct kernel ty left right = Bool.false := by
        simp only [Bool.and_eq_true, Bool.or_eq_true, decide_eq_true_eq] at one'
        obtain ⟨rfl | rfl, present⟩ := one'
        · cases first
          have there : right ≠ .null := second.not_null (by simpa [isPresent] using present)
          cases right <;> first | exact absurd rfl there | rfl
        · cases second
          have there : left ≠ .null := first.not_null (by simpa [isPresent] using present)
          cases left <;> first | exact absurd rfl there | rfl
      rw [apart]
      exact ⟨rfl, rfl⟩
    · exact ⟨trivial, trivial⟩
  unfold compare
  dsimp only
  split
  · exact same.1
  · exact same.2
  rename_i notSame distinct
  split
  · rename_i either
    simp only [Bool.or_eq_true, decide_eq_true_eq] at either
    refine comparison_null (either.imp ?_ ?_) distinct notSame
    · rintro rfl
      exact first
    · rintro rfl
      exact second
  · trivial

def FitAll (parts : List Known) (values : List Value) : Prop := List.Forall₂ Fits parts values

variable {parts : List Known} {values : List Value}

section
variable (fits : FitAll parts values)
include fits

/-- A known operand has a value that fits it. -/
theorem FitAll.value (member : part ∈ parts) : ∃ value ∈ values, part.Fits value := by
  induction fits with
  | nil => cases member
  | cons first _ ih =>
    rcases mem_cons.mp member with rfl | member
    · exact ⟨_, mem_cons_self, first⟩
    · obtain ⟨value, among, here⟩ := ih member
      exact ⟨value, mem_cons_of_mem _ among, here⟩

theorem FitAll.part {value : Value} (member : value ∈ values) : ∃ part ∈ parts, part.Fits value := by
  induction fits with
  | nil => cases member
  | cons first _ ih =>
    rcases mem_cons.mp member with rfl | member
    · exact ⟨_, mem_cons_self, first⟩
    · obtain ⟨part, among, here⟩ := ih member
      exact ⟨part, mem_cons_of_mem _ among, here⟩

theorem and_fits : (and parts).Fits (junction .and values) := by
  unfold and
  split
  · rename_i some_
    obtain ⟨value, member, false_⟩ := fits.value (contains_iff_mem.mp some_)
    have any : values.any (asBool · = some Bool.false) = Bool.true :=
      any_eq_true.mpr ⟨value, member, decide_eq_true false_⟩
    simp [junction, any, Fits]
  split
  · rename_i some_
    obtain ⟨part, among, dropped⟩ := any_eq_true.mp some_
    obtain ⟨value, member, here⟩ := fits.value among
    have notAll : values.all isTrue = Bool.false :=
      all_eq_false.mpr ⟨value, member, by simp [here.rejected dropped]⟩
    simp only [junction, notAll, Fits]
    split <;> simp
  split
  · rename_i all
    have each : ∀ value ∈ values, asBool value = some Bool.true := fun value member => by
      obtain ⟨part, among, here⟩ := fits.part member
      rw [of_decide_eq_true (all_eq_true.mp all part among)] at here
      exact here
    have none_ : values.any (asBool · = some Bool.false) = Bool.false :=
      any_eq_false.mpr fun value member => by simp [each value member]
    have all' : values.all isTrue = Bool.true := all_eq_true.mpr fun value member => by
      simp [Plan.isTrue, each value member]
    simp [junction, none_, all', Fits]
  · trivial

theorem or_fits : (or parts).Fits (junction .or values) := by
  unfold or
  split
  · rename_i some_
    obtain ⟨value, member, true_⟩ := fits.value (contains_iff_mem.mp some_)
    have any : values.any isTrue = Bool.true := any_eq_true.mpr ⟨value, member, decide_eq_true true_⟩
    simp [junction, any, Fits]
  have rejected (all : parts.all isDropped = Bool.true) : values.any isTrue = Bool.false :=
    any_eq_false.mpr fun value member => by
      obtain ⟨part, among, here⟩ := fits.part member
      simp [here.rejected (all_eq_true.mp all part among)]
  split
  · rename_i all
    have none_ : values.any isTrue = Bool.false := rejected (all_eq_true.mpr fun part among => by
      rw [of_decide_eq_true (all_eq_true.mp all part among)]
      rfl)
    have each : values.all (asBool · = some Bool.false) = Bool.true := all_eq_true.mpr fun value member => by
      obtain ⟨part, among, here⟩ := fits.part member
      rw [of_decide_eq_true (all_eq_true.mp all part among)] at here
      exact decide_eq_true here
    simp [junction, none_, each, Fits]
  · rename_i notAll
    split
    · rename_i all
      have kinds : ∀ part ∈ parts, part = .false ∨ part = .null := by simpa using all
      have none_ : values.any isTrue = Bool.false := rejected (all_eq_true.mpr fun part among => by
        rcases kinds part among with rfl | rfl <;> rfl)
      -- some operand is null, as not all of them are false
      obtain ⟨part, among, other⟩ : ∃ part ∈ parts, part ≠ .false := by simpa using notAll
      obtain ⟨value, member, null⟩ := fits.value among
      rw [(kinds part among).resolve_left other] at null
      cases null
      have notEach : values.all (asBool · = some Bool.false) = Bool.false :=
        all_eq_false.mpr ⟨_, member, by simp [asBool]⟩
      simp [junction, none_, notEach, Fits]
    · split
      · rename_i all
        simp only [junction, rejected all, Fits]
        split
        · contradiction
        · split <;> simp
      · trivial

end

end Known

/-- The parts of an expression that `known` reads: not those of a `CASE`, nor the arguments of a function that is
named as seeing nulls. -/
inductive Within (part : Expr) : Expr → Prop
  | self : Within part part
  | cast {input : Expr} {tryCast : Bool} {ty : LogicalType} (inner : Within part input) :
    Within part (.cast input tryCast ty)
  | left {op : CompareOp} {left right : Expr} (inner : Within part left) : Within part (.compare op left right)
  | right {op : CompareOp} {left right : Expr} (inner : Within part right) : Within part (.compare op left right)
  | child {op : ConjunctionOp} {children : List Expr} {child : Expr} (member : child ∈ children)
      (inner : Within part child) : Within part (.conjunction op children)
  | arg {name : String} {args : List Expr} {ty : LogicalType} {arg : Expr} (read : name ∉ tolerant)
      (member : arg ∈ args) (inner : Within part arg) : Within part (.function name args ty)

theorem Within.trans (outer : Within part expr) (inner : Within deeper part) : Within deeper expr := by
  induction outer with
  | self => exact inner
  | cast _ ih => exact .cast ih
  | left _ ih => exact .left ih
  | right _ ih => exact .right ih
  | child member _ ih => exact .child member ih
  | arg read member _ ih => exact .arg read member ih

theorem knownList_eq (nulled : List Nat) (exprs : List Expr) : knownList nulled exprs = exprs.map (known nulled) := by
  induction exprs with
  | nil => rfl
  | cons expr rest ih => simp [knownList, ih]

def NullOn (nulled : List Nat) (row : Tuple) : Prop := ∀ binding, binding.table ∈ nulled → row binding = .null

/-- A call or a cast is null, on the rows that are null on the tables, where an argument is known to be: what
`known` takes of every cast, and of every function it does not name. -/
def Fair (kernel : Kernel) (nulled : List Nat) : Expr → Prop
  | .cast input tryCast ty => known nulled input = .null → kernel.cast input.ty ty tryCast .null = .null
  | .function name args ty => name = "not" ∨ name ∈ tolerant ∨ ((∃ arg ∈ args, known nulled arg = .null) →
      ∀ row, NullOn nulled row → kernel.call name ty (args.map (eval kernel row)) = .null)
  | _ => True

/-- What is known of an expression is so on every row that is null on the tables. -/
def Right (kernel : Kernel) (nulled : List Nat) (expr : Expr) : Prop :=
  ∀ row, NullOn nulled row → (known nulled expr).Fits (eval kernel row expr)

/-- `not` has one operand, as the binder writes it. -/
def Formed (expr : Expr) : Prop := ∀ args ty, Within (.function "not" args ty) expr → args.length = 1

section sound
variable {base : Kernel} {functions : Functions}

theorem function_fits (one : name = "not" → args.length = 1)
    (fair : Fair (scalarKernel base functions) nulled (.function name args ty)) (padded : NullOn nulled row)
    (fits : name ∉ tolerant → Known.FitAll (args.map (known nulled))
    (args.map (eval (scalarKernel base functions) row))) :
    (Known.function name (args.map (known nulled))).Fits
      ((scalarKernel base functions).call name ty (args.map (eval (scalarKernel base functions) row))) := by
  unfold Known.function
  split
  · rename_i negated
    subst negated
    obtain ⟨arg, rfl⟩ := length_eq_one_iff.mp (one rfl)
    have here := (forall₂_cons.mp (fits (by decide))).1
    rw [map_singleton, map_singleton, call_not]
    generalize known nulled arg = part at here ⊢
    cases part with
    | null =>
      rw [show eval _ row arg = .null from here]
      rfl
    | true => simp [Known.Fits, negation, show asBool (eval _ row arg) = some true from here]
    | false => simp [Known.Fits, negation, show asBool (eval _ row arg) = some false from here]
    | dropped | present | unknown => trivial
  · rename_i other
    split
    · trivial
    rename_i intolerant
    split
    · rename_i null
      obtain ⟨arg, member, is⟩ := mem_map.mp (contains_iff_mem.mp null)
      exact ((fair.resolve_left other).resolve_left fun named => intolerant (contains_iff_mem.mpr named))
        ⟨arg, member, is⟩ row padded
    · trivial

/-- Where every call and cast that `known` reads is as it takes them to be, what it knows is so. -/
theorem known_fits (formed : Formed expr)
    (fair : ∀ part, Within part expr → Fair (scalarKernel base functions) nulled part) :
    Right (scalarKernel base functions) nulled expr := by
  intro row padded
  induction expr with
  | column binding ty =>
    simp only [known]
    split
    · rename_i inside
      exact padded binding (contains_iff_mem.mp inside)
    · trivial
  | constant value ty => exact Known.constant_fits value
  | cast input tryCast ty ih =>
    have inner := ih (fun args ty within => formed args ty (.cast within)) fun part within => fair part (.cast within)
    simp only [known]
    split
    · rename_i null
      rw [null] at inner
      simp only [eval, show eval _ row input = .null from inner]
      exact fair _ .self null
    · trivial
  | compare op left right first second =>
    exact Known.compare_fits
      (first (fun args ty within => formed args ty (.left within)) fun part within => fair part (.left within))
      (second (fun args ty within => formed args ty (.right within)) fun part within => fair part (.right within))
  | conjunction op children ih =>
    have each : Known.FitAll (children.map (known nulled)) (children.map (eval (scalarKernel base functions) row)) := by
      rw [Known.FitAll, forall₂_map_left_iff, forall₂_map_right_iff, forall₂_same]
      exact fun child member => ih child member (fun args ty within => formed args ty (.child member within))
        fun part within => fair part (.child member within)
    cases op with
    | and =>
      simp only [known, knownList_eq, eval, evalList_eq]
      exact Known.and_fits each
    | or =>
      simp only [known, knownList_eq, eval, evalList_eq]
      exact Known.or_fits each
  | function name args ty ih =>
    simp only [known, knownList_eq, eval, evalList_eq]
    refine function_fits (fun negated => formed args ty (negated ▸ .self)) (fair _ .self) padded fun read => ?_
    rw [Known.FitAll, forall₂_map_left_iff, forall₂_map_right_iff, forall₂_same]
    exact fun arg member => ih arg member (fun args ty within => formed args ty (.arg read member within))
      fun part within => fair part (.arg read member within)
  | case operands ty ih => trivial

/-- Where what is known of a call or a cast and of its arguments is so, it is as `known` takes it to be. -/
theorem Right.fair (right : ∀ inner, Within inner part → Right kernel nulled inner) : Fair kernel nulled part := by
  have here := right part .self
  cases part with
  | cast input tryCast ty =>
    intro null
    have padded : NullOn nulled nulls := fun _ _ => rfl
    have inner := right input (.cast .self) nulls padded
    have outer := here nulls padded
    rw [null] at inner
    simpa only [known, null, eval, show eval kernel nulls input = .null from inner, Known.Fits] using outer
  | function name args ty =>
    by_cases negated : name = "not"
    · exact .inl negated
    refine .inr (or_iff_not_imp_left.mpr fun named => ?_)
    rintro ⟨arg, member, null⟩ row padded
    have outer := here row padded
    have some_ : (args.map (known nulled)).contains .null = true :=
      contains_iff_mem.mpr (mem_map.mpr ⟨arg, member, null⟩)
    have unnamed : tolerant.contains name = false := by simpa using named
    simpa only [known, knownList_eq, Known.function, if_neg negated, unnamed, some_, if_true, eval, evalList_eq,
      Bool.false_eq_true, if_false, Known.Fits] using outer
  | column | constant | compare | conjunction | case => trivial

end sound

def outer : Bool → Bool → JoinKind
  | false, false => .inner
  | false, true => .left
  | true, false => .right
  | true, true => .full

/-- The rows of such a join: the pairs of each left row or its padding, and the padding of the right
rows without a pair. -/
theorem joined_outer (kernel : Kernel) {join : Join} (kind : join.kind = outer padsLeft padsRight)
    (lefts rights : List Tuple) :
    join.joined kernel lefts rights = some
      (lefts.flatMap (fun left => match join.matching kernel rights left with
        | [] => if padsRight then [join.below.padRight left] else []
        | hits => hits.map (join.below.pair left)) ++
      if padsLeft then (rights.filter fun right => !lefts.any fun left =>
        join.meets kernel left right).map join.below.padLeft
      else []) := by
  have emits (left : Tuple) (hits : List Tuple) : join.emit left hits = some (match hits with
      | [] => if padsRight then [join.below.padRight left] else []
      | hits => hits.map (join.below.pair left)) := by
    cases padsLeft <;> cases padsRight <;> simp only [outer] at kind <;> cases hits <;> simp [Join.emit, kind]
  cases padsLeft <;> cases padsRight <;> simp only [outer] at kind <;>
    simp [Join.joined, kind, emits, gather_some, Join.leftOver]

/-- A join that stops padding a side gives the same rows to a filter that no padded row passes. -/
theorem joined_outer_filter (kernel : Kernel) {one other : Join}
    (kind : one.kind = outer oneLeft oneRight) (kind' : other.kind = outer otherLeft otherRight)
    (conditions : other.conditions = one.conditions) (below : other.below = one.below) {filter : Tuple → Bool}
    (left : oneLeft ≠ otherLeft → ∀ right, filter (one.below.padLeft right) = false)
    (right : oneRight ≠ otherRight → ∀ left, filter (one.below.padRight left) = false) (lefts rights : List Tuple) :
    (other.joined kernel lefts rights).map (·.filter filter) =
      (one.joined kernel lefts rights).map (·.filter filter) := by
  have meets : other.meets kernel = one.meets kernel := by
    funext left right
    simp only [Join.meets, Join.merged, conditions, below]
  have matching : other.matching kernel = one.matching kernel := by
    funext rights left
    simp only [Join.matching, meets]
  rw [joined_outer kernel kind, joined_outer kernel kind']
  simp only [Option.map_some, filter_append, matching, meets, below]
  congr 2
  · rw [filter_flatMap, filter_flatMap]
    congr 1
    funext left
    cases one.matching kernel rights left with
    | cons hit hits => rfl
    | nil =>
      by_cases same : oneRight = otherRight
      · rw [same]
      · cases oneRight <;> cases otherRight <;> simp_all
  · by_cases same : oneLeft = otherLeft
    · rw [same]
    have dropped := left same
    cases oneLeft <;> cases otherLeft <;> first | contradiction | simp [filter_map, Function.comp_def, dropped]

section narrow
variable {base : Kernel} {functions : Functions} {pending : List Expr}

/-- A predicate that is known to be dropped keeps no row that is null on the tables. -/
theorem rejects_rows (right : Right kernel nulled part) (rejected : rejects part nulled = true)
    (padded : NullOn nulled row) : isTrue (eval kernel row part) = false :=
  (right row padded).rejected rejected

theorem gone_padded (right : ∀ part ∈ pending, Right kernel nulled part) (thrown : gone pending nulled = true)
    (padded : NullOn nulled row) : passes kernel pending row = false := by
  obtain ⟨part, member, rejected⟩ := any_eq_true.mp thrown
  exact all_eq_false.mpr ⟨part, member, by simp [rejects_rows (right part member) rejected padded]⟩

/-- A join that `narrow` can change is narrowed by the sides whose padding is gone. -/
theorem narrow_outer (padsLeft padsRight : Bool) : narrow (outer padsLeft padsRight) pending below =
      outer (padsLeft && !gone pending below.left) (padsRight && !gone pending below.right) := by
  unfold narrow
  cases padsLeft <;> cases padsRight <;> cases gone pending below.left <;> cases gone pending below.right <;> rfl

theorem narrow_other (other : ∀ padsLeft padsRight, kind ≠ outer padsLeft padsRight) :
    narrow kind pending below = kind := by
  cases kind with
  | left => exact absurd rfl (other false true)
  | right => exact absurd rfl (other true false)
  | full => exact absurd rfl (other true true)
  | inner | semi | anti | single | mark | positional => rfl

/-- The tables of the sides that a join pads with nulls. -/
def padded (join : Join) : List (List Nat) :=
  match join.kind with
  | .left => [join.below.right]
  | .right => [join.below.left]
  | .full => [join.below.left, join.below.right]
  | _ => []

/-- A join narrowed under predicates whose padded rows are known as they are gives them the same rows. -/
theorem narrow_joined {join : Join} (right : ∀ side ∈ padded join, ∀ part ∈ pending, Right kernel side part)
    (lefts rights : List Tuple) :
    (Join.joined kernel { join with kind := narrow join.kind pending join.below } lefts rights).map
        (·.filter (passes kernel pending)) =
      (join.joined kernel lefts rights).map (·.filter (passes kernel pending)) := by
  by_cases pads : ∃ padsLeft padsRight, join.kind = outer padsLeft padsRight
  · obtain ⟨padsLeft, padsRight, kind⟩ := pads
    have narrowed : { join with kind := narrow join.kind pending join.below }.kind =
        outer (padsLeft && !gone pending join.below.left) (padsRight && !gone pending join.below.right) := by
      rw [kind]
      exact narrow_outer padsLeft padsRight
    refine joined_outer_filter _ kind narrowed rfl rfl (fun changed other => ?_) (fun changed left => ?_) lefts rights
    · obtain ⟨pads, thrown⟩ : padsLeft = true ∧ gone pending join.below.left = true := by
        cases padsLeft <;> simp_all
      refine gone_padded (right join.below.left ?_) thrown fun binding inside => ?_
      · cases padsRight <;> simp_all [padded, outer]
      · simp [Below.padLeft, Below.pair, inside, nulls]
    obtain ⟨pads, thrown⟩ : padsRight = true ∧ gone pending join.below.right = true := by
      cases padsRight <;> simp_all
    refine gone_padded (right join.below.right ?_) thrown fun binding inside => Below.pair_right binding inside
    cases padsLeft <;> simp_all [padded, outer]
  · push Not at pads
    rw [narrow_other pads]

end narrow

def textFunctions : Functions where
  special _ _ _ := none
  value _ _ _ := .null
  castValue value _ := value
  written
    | .varchar text => text
    | _ => []
  weigh _ _ _ := none
  hashAll _ := 0
  not_special _ _ := rfl

def textKernel : Kernel := scalarKernel bareKernel textFunctions

/-- What a function of `x` and the second column of a table answers is `x`. -/
def answersX (name : String) (table : Nat) : Expr :=
  .compare .equal (.function name [.constant (.varchar [120]) .varchar, .column ⟨table, 1⟩ .varchar] .varchar)
    (.constant (.varchar [120]) .varchar)

/-- A function and its arguments are all that is read of it. -/
theorem within_answersX (within : Within part (answersX name table)) :
    part = answersX name table ∨ (∃ binding ty, part = .column binding ty) ∨ (∃ value ty, part = .constant value ty) ∨
      part = .function name [.constant (.varchar [120]) .varchar, .column ⟨table, 1⟩ .varchar] .varchar := by
  rcases within with _ | _ | inner | inner
  · exact .inl rfl
  · rcases inner with _ | _ | _ | _ | _ | ⟨_, member, inner⟩
    · exact .inr (.inr (.inr rfl))
    rcases mem_cons.mp member with rfl | member
    · cases inner
      exact .inr (.inr (.inl ⟨_, _, rfl⟩))
    rcases mem_singleton.mp member with rfl
    cases inner
    exact .inr (.inl ⟨_, _, rfl⟩)
  · cases inner
    exact .inr (.inr (.inl ⟨_, _, rfl⟩))

end Rudb.Opt
