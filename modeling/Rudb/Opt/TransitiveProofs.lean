import Rudb.Opt.Transitive

/-! When a predicate copied across the equalities of a join drops no row of the join's answer, which
for a mark join it may: a null there is an answer. -/
namespace Rudb.Opt
open Rudb.Common Rudb.Plan List

/-- An expression whose columns have the types the plan records for them. -/
def Typed (types : ColumnBinding → LogicalType) (expr : Expr) : Prop := ∀ read ∈ expr.columns, read.2 = types read.1

section replace
variable {types : ColumnBinding → LogicalType} {origin : ColumnBinding} {target : Column}

theorem replaceList_eq (exprs : List Expr) : replaceList origin target exprs = exprs.map (replace origin target) := by
  induction exprs with
  | nil => rfl
  | cons expr rest ih => simp [replaceList, ih]

section
variable {expr : Expr} (typed : Typed types expr) (same : target.2 = types origin)
include typed same

theorem replace_ty : (replace origin target expr).ty = expr.ty := by
  cases expr with
  | column binding ty =>
    have recorded : ty = types binding := typed (binding, ty) (by simp [Expr.columns])
    by_cases here : binding = origin
    · simp [replace, here, Expr.ty, recorded, same]
    · simp [replace, here, Expr.ty]
  | _ => rfl

/-- A copy is worth on a row what the source is worth with the column read from the other one. -/
theorem eval_replace :
    eval kernel row (replace origin target expr) = eval kernel (Function.update row origin (row target.1)) expr := by
  induction expr with
  | column binding ty =>
    by_cases here : binding = origin
    · simp [replace, here, eval]
    · simp [replace, here, eval]
  | constant value ty => rfl
  | cast input tryCast ty ih =>
    have inner : Typed types input := typed
    simp [replace, eval, ih inner, replace_ty inner same]
  | compare op left right first second =>
    have one : Typed types left := fun read reads => typed read (by simp [Expr.columns, reads])
    have other : Typed types right := fun read reads => typed read (by simp [Expr.columns, reads])
    simp [replace, eval, first one, second other, replace_ty one same]
  | conjunction op children ih | function name args ty ih | case operands ty ih =>
    simp only [Typed, Expr.columns, Expr.mem_columnsList] at typed
    simp only [replace, eval, evalList_eq, replaceList_eq, map_map]
    exact congrArg _ (map_congr_left fun expr member => ih expr member fun read reads =>
      typed read ⟨expr, member, reads⟩)

end

theorem columns_replace (alone : ∀ read ∈ expr.columns, read.1 = origin) :
    ∀ read ∈ (replace origin target expr).columns, read.1 = target.1 := by
  induction expr with
  | column binding ty =>
    have here : binding = origin := alone (binding, ty) (by simp [Expr.columns])
    simp [replace, here, Expr.columns]
  | constant value ty => simp [replace, Expr.columns]
  | cast input tryCast ty ih => exact ih alone
  | compare op left right first second =>
    intro read reads
    simp only [replace, Expr.columns, mem_append] at reads
    rcases reads with reads | reads
    · exact first (fun read reads => alone read (by simp [Expr.columns, reads])) read reads
    · exact second (fun read reads => alone read (by simp [Expr.columns, reads])) read reads
  | conjunction op children ih | function name args ty ih | case operands ty ih =>
    simp only [replace, Expr.columns, Expr.mem_columnsList, replaceList_eq, mem_map] at alone ⊢
    rintro read ⟨_, ⟨expr, member, rfl⟩, reads⟩
    exact ih expr member (fun read reads => alone read ⟨expr, member, reads⟩) read reads

end replace

/-- What is copied: a predicate of one column of an equality, read of the other. -/
theorem copy_some : copy kernel source origin target = some made ↔
    only source origin.1 = true ∧ volatile kernel source = false ∧ made = replace origin.1 target source := by
  unfold copy
  split
  · rename_i plain
    simp only [reduceCtorEq, false_iff]
    rintro ⟨alone, fixed, -⟩
    simp [alone, fixed] at plain
  · rename_i plain
    simp only [Bool.or_eq_true, Bool.not_eq_true', not_or, Bool.not_eq_false, Bool.not_eq_true] at plain
    simp [plain, eq_comm]

theorem only_columns (alone : only source origin = true) : ∀ read ∈ source.columns, read.1 = origin := by
  simp only [only, Bool.and_eq_true, all_eq_true, mem_map, decide_eq_true_eq] at alone
  exact fun read reads => alone.2 read.1 ⟨read, reads, rfl⟩

theorem mem_equalities {pair : Column × Column} (member : pair ∈ equalities parts) :
    .compare .equal (.column pair.1.1 pair.1.2) (.column pair.2.1 pair.2.2) ∈ parts ∧ pair.1.2 = pair.2.2 := by
  obtain ⟨part, among, found⟩ := mem_filterMap.mp member
  split at found
  · split at found
    · rename_i both
      cases found
      exact ⟨among, both.2⟩
    · cases found
  · cases found

theorem equalities_typed {pair : Column × Column}
    (typed : ∀ part ∈ parts, Typed types part) (member : pair ∈ equalities parts) :
    pair.1.2 = types pair.1.1 ∧ pair.2.2 = types pair.2.1 ∧ pair.1.2 = pair.2.2 := by
  obtain ⟨among, same⟩ := mem_equalities member
  have reads := typed _ among
  exact ⟨reads (pair.1.1, pair.1.2) (by simp [Expr.columns]), reads (pair.2.1, pair.2.2) (by simp [Expr.columns]), same⟩

/-- A fold has what its steps add. -/
theorem foldl_adds {Item Acc : Type} {step : Acc → Item → Acc} (has : Acc → Prop) {adds : Item → Prop}
    (one : ∀ acc item, has (step acc item) ↔ has acc ∨ adds item) (items : List Item) (acc : Acc) :
    has (items.foldl step acc) ↔ has acc ∨ ∃ item ∈ items, adds item := by
  induction items generalizing acc with
  | nil => simp
  | cons item rest ih =>
    rw [foldl_cons, ih, one]
    simp [or_assoc]

section across
variable {kernel : Kernel} {join : Join} {pending : List Expr}

/-- A predicate above a join that is about a side the join hands on as it is. -/
def Held (kind : JoinKind) (below : Below) (source : Expr) : Prop :=
  (kept kind).1 = true ∧ Reads below.left source ∨ (kept kind).2 = true ∧ Reads below.right source

/-- A predicate above a join that reads one column of an equality among its conditions, and that is not yet said of
the other column, which is of a side that may lose rows. -/
structure Copied (kernel : Kernel) (join : Join) (pending : List Expr) (source : Expr)
    (origin target : Column) : Prop where
  equal : (origin, target) ∈ equalities join.conditions ∨ (target, origin) ∈ equalities join.conditions
  above : source ∈ pending
  held : Held join.kind join.below source
  alone : only source origin.1 = true
  fixed : volatile kernel source = false
  fresh : replace origin.1 target source ∉ pending ++ join.conditions
  side : (droppable join.kind).1 = true ∧ target.1.table ∈ join.below.left ∨
    (droppable join.kind).2 = true ∧ target.1.table ∈ join.below.right

/-- Every predicate that is copied is true of a pair with the one column's value in place of the other's. -/
def Agree (kernel : Kernel) (join : Join) (pending : List Expr) (left right : Tuple) : Prop :=
  ∀ source origin target, Copied kernel join pending source origin target →
    isTrue (eval kernel (Function.update (join.below.pair left right) origin.1
      (join.below.pair left right target.1)) source) = true

theorem subset_iff : subset expr tables = true ↔ Reads tables expr := by
  simp [subset, Reads]

def side (left : Bool) (both : α × α) : α := if left then both.1 else both.2

theorem mem_acrossOne (left : Bool) {drop : Bool × Bool} {below : Below} {turn : Column × Column}
    {held : List Expr × List Expr} :
    made ∈ side left (acrossOne kernel drop conditions pending below source held turn) ↔
      made ∈ side left held ∨ side left drop = true ∧ turn.2.1.table ∈ side left (below.left, below.right) ∧
        copy kernel source turn.1 turn.2 = some made ∧ made ∉ pending ++ conditions := by
  unfold acrossOne
  dsimp only
  generalize pending ++ conditions = given
  have seen (into : List Expr) (made : Expr) :
      ((given ++ into).any (·.same made) = true) = (made ∈ given ∨ made ∈ into) := by
    simp [Expr.same_iff]
  simp only [seen, contains_iff_mem]
  by_cases inLeft : turn.2.1.table ∈ below.left
  · have notRight := below.apart _ inLeft
    cases drops : drop.1 <;> cases found : copy kernel source turn.1 turn.2 <;> cases left <;>
      simp only [side, inLeft, notRight, drops, if_true, if_false] <;> grind
  · cases drops : drop.2 <;> cases found : copy kernel source turn.1 turn.2 <;> cases left <;>
      simp only [side, inLeft, drops, if_true, if_false] <;> grind

/-- What is derived for a side is the copies onto its columns. -/
theorem mem_across (left : Bool) : made ∈ side left (across kernel join.kind join.conditions pending join.below) ↔
    ∃ source origin target, Copied kernel join pending source origin target ∧
      target.1.table ∈ side left (join.below.left, join.below.right) ∧ made = replace origin.1 target source := by
  unfold across
  dsimp only
  split
  · rename_i never
    simp only [Bool.and_eq_true, Bool.not_eq_true'] at never
    have nothing : side left (([], []) : List Expr × List Expr) = [] := by cases left <;> rfl
    rw [nothing]
    simp only [not_mem_nil, false_iff]
    rintro ⟨source, origin, target, copied, -⟩
    simpa [never] using copied.side
  refine (foldl_adds (made ∈ side left ·) (fun held pair => by
    exact foldl_adds (made ∈ side left ·) (fun held source => by
      exact foldl_adds (made ∈ side left ·) (fun held turn => by exact mem_acrossOne left) _ held) _ held) _ _).trans ?_
  have none : made ∉ side left (([], []) : List Expr × List Expr) := by cases left <;> simp [side]
  simp only [none, false_or, copy_some, mem_filter, mem_cons, not_mem_nil, or_false]
  constructor
  · rintro ⟨pair, equal, source, ⟨above, about⟩, turn, turned, drops, inside, ⟨alone, fixed, rfl⟩, fresh⟩
    refine ⟨source, turn.1, turn.2, ⟨?_, above, ?_, alone, fixed, fresh, ?_⟩, inside, rfl⟩
    · rcases turned with rfl | rfl
      · exact .inl equal
      · exact .inr equal
    · simpa [Held, subset_iff] using about
    · cases left
      · exact .inr ⟨drops, inside⟩
      · exact .inl ⟨drops, inside⟩
  · rintro ⟨source, origin, target, copied, inside, rfl⟩
    have drops : side left (droppable join.kind) = true := by
      rcases copied.side with ⟨drops, inside'⟩ | ⟨drops, inside'⟩ <;> cases left
      · exact absurd inside (join.below.apart _ inside')
      · exact drops
      · exact drops
      · exact absurd inside' (join.below.apart _ inside)
    have about := copied.held
    simp only [Held, ← subset_iff, ← Bool.and_eq_true, ← Bool.or_eq_true] at about
    rcases copied.equal with equal | equal
    · exact ⟨_, equal, source, ⟨copied.above, about⟩, (origin, target), .inl rfl, drops, inside,
        ⟨copied.alone, copied.fixed, rfl⟩, copied.fresh⟩
    · exact ⟨_, equal, source, ⟨copied.above, about⟩, (origin, target), .inr rfl, drops, inside,
        ⟨copied.alone, copied.fixed, rfl⟩, copied.fresh⟩

section
variable {source : Expr} {origin target : Column} (copied : Copied kernel join pending source origin target)
include copied

theorem Copied.reads (inside : target.1.table ∈ tables) : Reads tables (replace origin.1 target source) := by
  intro read reads
  rw [columns_replace (only_columns copied.alone) read reads]
  exact inside

/-- A copy is worth on a pair what the source is with the other column's value. -/
theorem Copied.worth (typed : ∀ part ∈ join.conditions ++ pending, Typed types part) :
    eval kernel row (replace origin.1 target source) =
      eval kernel (Function.update row origin.1 (row target.1)) source := by
  have conditions : ∀ part ∈ join.conditions, Typed types part := fun part member => typed part (by simp [member])
  refine eval_replace (typed source (by simp [copied.above])) ?_
  rcases copied.equal with equal | equal
  · obtain ⟨first, -, same⟩ := equalities_typed conditions equal
    exact same ▸ first
  · obtain ⟨-, second, same⟩ := equalities_typed conditions equal
    exact same.trans second

/-- No column of an equality is null in a pair that meets. -/
theorem Copied.not_null (meets : join.meets kernel left right = true) : join.below.pair left right target.1 ≠ .null := by
  intro null
  rcases copied.equal with equal | equal
  · have holds := isTrue_and.mp meets _ (mem_equalities equal).1
    simp [eval, comparison, null, Kernels.orderAs_null] at holds
  · have holds := isTrue_and.mp meets _ (mem_equalities equal).1
    simp [eval, comparison, null, Kernels.orderAs_null] at holds

end

theorem agree_iff (typed : ∀ part ∈ join.conditions ++ pending, Typed types part) :
    Agree kernel join pending left right ↔
      passes kernel (across kernel join.kind join.conditions pending join.below).1 left = true ∧
        passes kernel (across kernel join.kind join.conditions pending join.below).2 right = true := by
  rw [passes_iff, passes_iff]
  constructor
  · intro agree
    refine ⟨fun made member => ?_, fun made member => ?_⟩
    · obtain ⟨source, origin, target, copied, inside, rfl⟩ := (mem_across true).mp member
      rw [← Below.OfLeft.eval Below.pair_left (copied.reads inside), copied.worth typed]
      exact agree source origin target copied
    · obtain ⟨source, origin, target, copied, inside, rfl⟩ := (mem_across false).mp member
      rw [← Below.OfRight.eval Below.pair_right (copied.reads inside), copied.worth typed]
      exact agree source origin target copied
  · rintro ⟨lefts, rights⟩ source origin target copied
    rw [← copied.worth typed]
    rcases copied.side with ⟨-, inside⟩ | ⟨-, inside⟩
    · rw [Below.OfLeft.eval Below.pair_left (copied.reads inside)]
      exact lefts _ ((mem_across true).mpr ⟨source, origin, target, copied, inside, rfl⟩)
    · rw [Below.OfRight.eval Below.pair_right (copied.reads inside)]
      exact rights _ ((mem_across false).mpr ⟨source, origin, target, copied, inside, rfl⟩)

theorem across_spares : join.Spares kernel (passes kernel (across kernel join.kind join.conditions pending join.below).1)
    (passes kernel (across kernel join.kind join.conditions pending join.below).2) where
  left inner right left := by
    refine passes_iff.mpr fun made member => ?_
    obtain ⟨source, origin, target, copied, inside, rfl⟩ := (mem_across true).mp member
    rcases copied.side with ⟨drops, -⟩ | ⟨-, inside'⟩
    · cases kind : join.kind <;> simp_all [droppable]
    · exact absurd inside' (join.below.apart _ inside)
  right kind right := by
    refine passes_iff.mpr fun made member => ?_
    obtain ⟨source, origin, target, copied, inside, rfl⟩ := (mem_across false).mp member
    rcases copied.side with ⟨-, inside'⟩ | ⟨drops, -⟩
    · exact absurd inside (join.below.apart _ inside')
    · rcases kind with kind | kind | kind <;> simp [kind, droppable] at drops
  padRight left right meets dropped alike := by
    obtain ⟨made, member, -⟩ := all_eq_false.mp dropped
    obtain ⟨source, origin, target, copied, inside, rfl⟩ := (mem_across false).mp member
    exact copied.not_null meets (alike ▸ Below.pair_right target.1 inside)
  padLeft left right meets dropped alike := by
    obtain ⟨made, member, -⟩ := all_eq_false.mp dropped
    obtain ⟨source, origin, target, copied, inside, rfl⟩ := (mem_across true).mp member
    exact copied.not_null meets (alike ▸ Below.pair_left target.1 inside)

end across

def numbered (table : Nat) (value : Value) : Tuple := fun binding => if binding = ⟨table, 0⟩ then value else .null

def keyed (kind : JoinKind) : Join where
  kind := kind
  conditions := [.compare .equal (.column ⟨0, 0⟩ (.whole .integer)) (.column ⟨1, 0⟩ (.whole .integer))]
  below := { left := [0], right := [1, 2], apart := by decide }
  marker := ⟨2, 0⟩
  apart := by decide

def pastTwo : Expr :=
  .compare .greater (.column ⟨0, 0⟩ (.whole .integer)) (.constant (.whole .integer 2) (.whole .integer))

end Rudb.Opt
