import Rudb.Storage.Zone

/-! What the ends of a range promise about the rows it covers, and that folding ranges, opening them
to one more row, writing over a row and taking rows out keep the promise. -/
namespace Rudb.Storage.Zones
open Rudb.Common Rudb.Vectors List Option

variable {ty : LogicalType} {range : Range} {rows : List Value}

/-- A null, or a value with a bound in the domain of the type that `P` holds of. -/
def Bounded (ty : LogicalType) (P : Bound → Prop) (value : Value) : Prop :=
  value = .null ∨ ∃ bound, Bound.ofValue value = some bound ∧ bound.In ty ∧ P bound

/-- An end that no row is `further` than. -/
structure EndCovers (ty : LogicalType) (further : Ordering) (rows : List Value) (end_ : Bound) : Prop where
  inside : end_.In ty
  covers : ∀ value ∈ rows, Bounded ty (fun bound => cmp end_.key bound.key ≠ further) value

/-- An end that no constant of the type compares with. -/
def Quiet (ty : LogicalType) (end_ : Bound) : Prop :=
  ∀ constant : Value, constant.fits ty → ∀ bound, Bound.ofValue constant = some bound → end_.order bound = none

/-- A range that says nothing, and never will. -/
def Silent (range : Range) : Prop := range.low = none ∧ range.high = none ∧ range.exact = false

/-- What a range says of the rows it covers. -/
structure Covers (ty : LogicalType) (range : Range) (rows : List Value) : Prop where
  quiet : ty.asked = false → ∀ end_, range.low = some end_ ∨ range.high = some end_ → Quiet ty end_
  low : ty.asked = true → ∀ end_, range.low = some end_ → EndCovers ty .gt rows end_
  high : ty.asked = true → ∀ end_, range.high = some end_ → EndCovers ty .lt rows end_
  paired : ty.asked = true → range.exact = true → (range.low = none ↔ range.high = none)
  empty : ty.asked = true → range.empty = true → ∀ value ∈ rows, value = .null
  nulls : Silent range ∨ rows.countP Value.isNull ≤ range.nulls

theorem Covers.of_silent (silent : Silent range) : Covers ty range rows := by
  obtain ⟨low, high, exact⟩ := silent
  refine ⟨fun _ end_ found => ?_, fun _ end_ found => ?_, fun _ end_ found => ?_, fun _ found => ?_, fun _ found => ?_,
    .inl ⟨low, high, exact⟩⟩
  · rcases found with found | found <;> simp_all
  · simp_all
  · simp_all
  · simp [exact] at found
  · simp [Range.empty, exact] at found

variable {value : Value}

theorem Bounded.imp (bounded : Bounded ty P value)
    (weaker : ∀ bound, bound.In ty → P bound → Q bound) : Bounded ty Q value := by
  rcases bounded with null | ⟨bound, found, inside, holds⟩
  · exact .inl null
  · exact .inr ⟨bound, found, inside, weaker bound inside holds⟩

section order
variable {α : Type} [LinearOrder α] {one two : α}

theorem cmp_ne_of_further (side : further ≠ .eq) (moves : cmp one two = further) (covers : cmp one three ≠ further) :
    cmp two three ≠ further := by
  cases further with
  | lt =>
    simp only [ne_eq, cmp_eq_lt_iff, not_lt] at *
    exact covers.trans moves.le
  | eq => exact absurd rfl side
  | gt =>
    simp only [ne_eq, cmp_eq_gt_iff, not_lt] at *
    exact moves.le.trans covers

theorem cmp_ne_trans (side : further ≠ .eq) (stays : cmp one two ≠ further) (covers : cmp two three ≠ further) :
    cmp one three ≠ further := by
  cases further with
  | lt =>
    simp only [ne_eq, cmp_eq_lt_iff, not_lt] at *
    exact covers.trans stays
  | eq => exact absurd rfl side
  | gt =>
    simp only [ne_eq, cmp_eq_gt_iff, not_lt] at *
    exact stays.trans covers

end order

namespace EndCovers
theorem mono (covers : EndCovers ty further rows mine) (fewer : ∀ value ∈ more, value ∈ rows ∨ value = .null) :
    EndCovers ty further more mine where
  inside := covers.inside
  covers value member := (fewer value member).elim (covers.covers value) .inl

theorem append (covers : EndCovers ty further rows mine) (too : EndCovers ty further more mine) :
    EndCovers ty further (rows ++ more) mine where
  inside := covers.inside
  covers value member := (mem_append.mp member).elim (covers.covers value) (too.covers value)

/-- The one of two ends that is further out covers the rows of both. -/
theorem fold (side : further ≠ .eq) (mine_ : EndCovers ty further rows mine)
    (theirs_ : EndCovers ty further more theirs) :
    EndCovers ty further (rows ++ more) (if mine.order theirs = some further then theirs else mine) := by
  rw [Bound.order_key mine_.inside theirs_.inside]
  simp only [some.injEq]
  split
  · rename_i moves
    refine append ⟨theirs_.inside, fun value member => ?_⟩ theirs_
    exact (mine_.covers value member).imp fun bound _ => cmp_ne_of_further side moves
  · rename_i stays
    refine mine_.append ⟨mine_.inside, fun value member => ?_⟩
    exact (theirs_.covers value member).imp fun bound _ => cmp_ne_trans side stays

end EndCovers

variable {further : Ordering} {end_ : Bound}

theorem foldEnd_from
    (found : Range.foldEnd further mine theirs = some end_) : mine = some end_ ∨ theirs = some end_ := by
  match mine, theirs with
  | some one, some two =>
    cases found
    split
    · exact .inr rfl
    · exact .inl rfl
  | none, _ => cases found
  | some _, none => cases found

theorem empty_iff : range.empty = true ↔ range.exact = true ∧ range.low = none ∧ range.high = none := by
  simp [Range.empty, and_assoc]

theorem Silent.not_empty (silent : Silent range) : range.empty = false := by
  simp [Range.empty, silent.2.2]

theorem foldEnd_none (further : Ordering) (mine : Option Bound) : Range.foldEnd further mine none = none := by
  cases mine <;> rfl

theorem Silent.widen (silent : Silent range ∨ Silent other) : Silent (range.widen other) := by
  rcases silent with silent | silent
  · obtain ⟨low, high, exact⟩ := silent
    have open_ := Silent.not_empty ⟨low, high, exact⟩
    cases blank : other.empty <;> simp [Silent, Range.widen, open_, blank, low, high, exact, Range.foldEnd]
  · obtain ⟨low, high, exact⟩ := silent
    have open_ := Silent.not_empty ⟨low, high, exact⟩
    cases blank : range.empty <;> simp [Silent, Range.widen, open_, blank, low, high, exact, foldEnd_none]

/-- One side of `widen`: a range of nulls alone has nothing to say about the ends. -/
theorem widenEnd_covers (side : further ≠ .eq) (mine_ : ∀ end_, mine = some end_ → EndCovers ty further rows end_)
    (theirs_ : ∀ end_, theirs = some end_ → EndCovers ty further more end_)
    (nothing : blank = true → ∀ value ∈ rows, value = .null)
    (nothing' : blank' = true → ∀ value ∈ more, value = .null)
    (found : (if blank then theirs else if blank' then mine else Range.foldEnd further mine theirs) = some end_) :
    EndCovers ty further (rows ++ more) end_ := by
  cases blank with
  | true =>
    refine (theirs_ end_ found).mono fun value member => ?_
    exact (mem_append.mp member).symm.imp id (nothing rfl value)
  | false =>
    cases blank' with
    | true =>
      refine (mine_ end_ found).mono fun value member => ?_
      exact (mem_append.mp member).imp id (nothing' rfl value)
    | false =>
      match mine, theirs with
      | some one, some two =>
        cases found
        exact .fold side (mine_ one rfl) (theirs_ two rfl)
      | none, _ => cases found
      | some _, none => cases found

theorem widenEnd_from {blank blank' : Bool}
    (found : (if blank then theirs else if blank' then mine else Range.foldEnd further mine theirs) = some end_) :
    mine = some end_ ∨ theirs = some end_ := by
  cases blank with
  | true => exact .inr found
  | false =>
    cases blank' with
    | true => exact .inl found
    | false => exact foldEnd_from found

theorem Covers.ends (covers : Covers ty range rows) (asked : ty.asked = true) (exact : range.exact = true) :
    range.empty = true ∨ ∃ low high, range.low = some low ∧ range.high = some high := by
  have paired := covers.paired asked exact
  cases low : range.low with
  | none => exact .inl (empty_iff.mpr ⟨exact, low, paired.mp low⟩)
  | some one =>
    cases high : range.high with
    | none => simp [low, high] at paired
    | some two => exact .inr ⟨one, two, rfl, rfl⟩

/-- A range opened to cover another covers the rows of both. -/
theorem Covers.widen (covers : Covers ty range rows) (too : Covers ty other more) :
    Covers ty (range.widen other) (rows ++ more) where
  quiet asked end_ found := by
    rcases found with found | found
    · rcases widenEnd_from found with mine | theirs
      · exact covers.quiet asked end_ (.inl mine)
      · exact too.quiet asked end_ (.inl theirs)
    · rcases widenEnd_from found with mine | theirs
      · exact covers.quiet asked end_ (.inr mine)
      · exact too.quiet asked end_ (.inr theirs)
  low asked end_ found := widenEnd_covers (by decide) (covers.low asked) (too.low asked) (covers.empty asked)
    (too.empty asked) found
  high asked end_ found := widenEnd_covers (by decide) (covers.high asked) (too.high asked) (covers.empty asked)
    (too.empty asked) found
  paired asked exact := by
    obtain ⟨exact, exact'⟩ := Bool.and_eq_true_iff.mp exact
    rcases covers.ends asked exact with blank | ⟨low, high, one, two⟩
    · simp only [Range.widen, blank, if_true]
      exact too.paired asked exact'
    rcases too.ends asked exact' with blank | ⟨low', high', one', two'⟩
    · obtain ⟨-, none_, none'⟩ := empty_iff.mp blank
      simp [Range.widen, Range.empty, one, two, exact', none_, none']
    · simp [Range.widen, Range.empty, Range.foldEnd, one, two, one', two']
  empty asked blank := by
    obtain ⟨exact, low, high⟩ := empty_iff.mp blank
    obtain ⟨exact, exact'⟩ := Bool.and_eq_true_iff.mp exact
    have both : range.empty = true ∧ other.empty = true := by
      rcases covers.ends asked exact with blank | ⟨low', high', one, two⟩
      · refine ⟨blank, empty_iff.mpr ⟨exact', ?_⟩⟩
        simpa [Range.widen, blank] using And.intro low high
      rcases too.ends asked exact' with blank | ⟨_, _, one', two'⟩
      · obtain ⟨-, none_, none'⟩ := empty_iff.mp blank
        simp [Range.widen, Range.empty, one, exact', none_, none'] at low
      · simp [Range.widen, Range.empty, Range.foldEnd, one, one'] at low
    intro value member
    exact (mem_append.mp member).elim (covers.empty asked both.1 value) (too.empty asked both.2 value)
  nulls := by
    rcases covers.nulls with silent | count
    · exact .inl (.widen (.inl silent))
    · rcases too.nulls with silent | count'
      · exact .inl (.widen (.inr silent))
      · exact .inr (by rw [countP_append]; exact Nat.add_le_add count count')

theorem One.empty_range (one : One) :
    one.range.empty = (match one with
      | .null exact _ => exact
      | _ => false) := by
  rcases one with ⟨_ | _, sum⟩ | ⟨bound, sum⟩ | (_ | number) | text <;> rfl

/-- `widen_one` is `widen` by the range of the one row. -/
theorem widenOne_eq (range : Range) (one : One) : range.widenOne one = range.widen one.range := by
  have reach (further : Ordering) (value : Bound) (mine : Option Bound) :
      Range.reachEnd further value mine = Range.foldEnd further mine (some value) := by cases mine <;> rfl
  have blank := One.empty_range one
  cases none_ : range.empty with
  | true =>
    obtain ⟨exact, low, high⟩ := empty_iff.mp none_
    rcases one with ⟨_ | _, sum⟩ | ⟨bound, sum⟩ | (_ | number) | text <;>
      simp [Range.widenOne, Range.widen, One.range, Range.reach, none_, exact, low, high]
  | false =>
    rcases one with ⟨_ | _, sum⟩ | ⟨bound, sum⟩ | (_ | number) | text <;>
      simp only [Range.widenOne, Range.widen, Range.reach, none_, blank] <;>
      simp [One.range, foldEnd_none, reach]

theorem Covers.single (inside : bound.In ty) (found : Bound.ofValue value = some bound)
    (exact : Bool) (sum : Option Int) : Covers ty { low := some bound, high := some bound, exact, sum } [value] := by
  have covers (further : Ordering) (side : further ≠ .eq) : EndCovers ty further [value] bound := by
    refine ⟨inside, fun other member => ?_⟩
    rw [mem_singleton.mp member]
    exact .inr ⟨bound, found, inside, by simpa using side.symm⟩
  refine ⟨fun asked => ?_, fun _ end_ same => ?_, fun _ end_ same => ?_, by simp, fun _ blank => ?_, .inr ?_⟩
  · rw [inside.asked] at asked
    cases asked
  · exact some.inj same ▸ covers .gt (by decide)
  · exact some.inj same ▸ covers .lt (by decide)
  · simp [Range.empty] at blank
  · have there : value.isNull = false := by cases value <;> first | rfl | cases found
    simp [there]

/-- What `of_one` says of a value is true of it. -/
theorem One.covers (fits : value.fits ty) (found : One.of value ty = some one) :
    Covers ty one.range [value] := by
  have null (exact : Bool) (sum : Option Int) : Covers ty { nulls := 1, exact, sum } [.null] := by
    cases exact with
    | false => exact .of_silent ⟨rfl, rfl, rfl⟩
    | true => exact ⟨by simp, by simp, by simp, by simp, by simp, .inr (by simp [Value.isNull])⟩
  unfold One.of at found
  split at found
  · cases found
    exact null ..
  · cases found
    exact null ..
  · cases found
    exact null ..
  · obtain ⟨total, -, rfl⟩ := map_eq_some_iff.mp found
    exact null ..
  · rename_i one_ number type
    split at found
    · subst one_
      obtain ⟨total, totals, rfl⟩ := map_eq_some_iff.mp found
      have small : type ≠ .uHugeInt := by rintro rfl; cases totals
      have holds : wide number = some number := by
        simp only [Value.fits, Whole.holds, small, if_false, decide_true, Bool.true_and] at fits
        obtain ⟨held, fits⟩ := isSome_iff_exists.mp fits
        rwa [wide_eq fits] at fits
      exact .single (Bound.scaledAs_in holds) (by simp [Bound.ofValue, small]) ..
    · cases found
  · rename_i value
    cases found
    cases is : value.widen.number with
    | none => exact .of_silent ⟨rfl, rfl, rfl⟩
    | some number => exact .single (by simp [Bound.In]) (by simp [Bound.ofValue, is]) ..
  · rename_i value
    cases found
    cases is : value.number with
    | none => exact .of_silent ⟨rfl, rfl, rfl⟩
    | some number => exact .single (by simp [Bound.In]) (by simp [Bound.ofValue, is]) ..
  · cases found
    exact .single (by simp [Bound.In]) rfl ..
  · cases found

/-- What `holds` found an end to be. -/
theorem holds_end {value : Bound} (told : holds bound value wanted = true) :
    ∃ end_ order, bound = some end_ ∧ end_.order value = some order ∧ order ∈ wanted := by
  cases bound with
  | none => simp [holds] at told
  | some end_ =>
    cases ordered : end_.order value with
    | none => simp [holds, ordered] at told
    | some order => exact ⟨end_, order, rfl, ordered, by simpa [holds, ordered] using told⟩

/-- The constant a column of the type is compared with, and the bound of it. -/
structure Asks (ty : LogicalType) (constant : Value) (bound : Bound) : Prop where
  fits : constant.fits ty
  found : Bound.ofValue constant = some bound

section asks
variable {constant : Value} {bound : Bound}

/-- A constant that an end was ordered against is in the domain of the type. -/
theorem Asks.key (asks : Asks ty constant bound) (inside : end_.In ty)
    (ordered : end_.order bound = some order) : bound.In ty ∧ cmp end_.key bound.key = order := by
  rcases Bound.ofValue_in asks.fits inside.asked asks.found with within | rfl
  · exact ⟨within, by simpa [Bound.order_key inside within] using ordered⟩
  · cases end_ <;> simp [Bound.order] at ordered

theorem Asks.orderAs (asks : Asks ty constant bound) (within : bound.In ty)
    (fits : value.fits ty) (found : Bound.ofValue value = some mine) (inside : mine.In ty)
    (rest : Value → Value → Option Ordering) :
    Kernels.orderAs rest ty value constant = some (cmp mine.key bound.key) := by
  have plain (value : Value) : Kernels.enumPlace ty value = none := by
    have asked := inside.asked
    cases ty <;> first | rfl | cases asked
  simp only [Kernels.orderAs, plain]
  exact Kernels.order_of_bounds rest fits asks.fits found asks.found (Bound.order_key inside within)

/-- How a row stands to a constant that an end is `order` of. -/
structure Stands (rest : Value → Value → Option Ordering) (ty : LogicalType) (further : Ordering) (order : Ordering)
    (constant value : Value) (result : Ordering) : Prop where
  ordered : Kernels.orderAs rest ty value constant = some result
  past : order = further → result = further
  within : order ≠ further.swap → result ≠ further.swap

/-- Rows that stand on one side of a constant pass as that side does. -/
theorem passes_of_stands {wanted : List Ordering}
    (null : .null ∈ rows → Kernels.passes rest ty op .null constant = answer)
    (stands : ∃ order ∈ wanted, ∀ value ∈ rows, value = .null ∨
    ∃ result, Stands rest ty further order constant value result)
    (told : ∀ order ∈ wanted, ∀ result, (order = further → result = further) →
      (order ≠ further.swap → result ≠ further.swap) → op.holds result = answer) :
    ∀ value ∈ rows, Kernels.passes rest ty op value constant = answer := by
  obtain ⟨order, member, stands⟩ := stands
  intro value row
  rcases stands value row with rfl | ⟨result, ordered, past, within⟩
  · exact null row
  · simp only [Kernels.passes, ordered]
    exact told order member result past within

/-- The rows an end covers stand on its side of a constant. -/
theorem EndCovers.stands (side : further ≠ .eq)
    (covers : EndCovers ty further rows end_) (asks : Asks ty constant bound) (ordered : end_.order bound = some order)
    (member : value ∈ rows) (fits : value.fits ty) (rest : Value → Value → Option Ordering) :
    value = .null ∨ ∃ result, Stands rest ty further order constant value result := by
  obtain ⟨within, rfl⟩ := asks.key covers.inside ordered
  rcases covers.covers value member with null | ⟨mine, found, inside, stands⟩
  · exact .inl null
  refine .inr ⟨_, asks.orderAs within fits found inside rest, ?_, ?_⟩
  all_goals
    cases further with
    | eq => exact absurd rfl side
    | lt | gt =>
      simp only [Ordering.swap, ne_eq, cmp_eq_lt_iff, cmp_eq_gt_iff, not_lt] at *
      grind

/-- What a range says through one of its ends. -/
theorem told (side : further ≠ .eq) {end_ : Option Bound}
    (quiet : ty.asked = false → ∀ held, end_ = some held → Quiet ty held)
    (covers : ty.asked = true → ∀ held, end_ = some held → EndCovers ty further rows held)
    (asks : Asks ty constant bound) (told : holds end_ bound wanted = true)
    (fits : ∀ value ∈ rows, value.fits ty) (rest : Value → Value → Option Ordering) :
    ∃ order ∈ wanted, ∀ value ∈ rows, value = .null ∨ ∃ result, Stands rest ty further order constant value result := by
  obtain ⟨held, order, rfl, ordered, member⟩ := holds_end told
  cases asked : ty.asked with
  | true =>
    refine ⟨order, member, fun value row => ?_⟩
    exact (covers asked held rfl).stands side asks ordered row (fits value row) rest
  | false =>
    have silent := quiet asked held rfl constant asks.fits bound asks.found
    simp [silent] at ordered

section
variable (covers : Covers ty range rows) (asks : Asks ty constant bound) (fits : ∀ value ∈ rows, value.fits ty)
  (rest : Value → Value → Option Ordering)
include covers asks fits rest

theorem Covers.told_low (told_ : holds range.low bound wanted = true) :
    ∃ order ∈ wanted, ∀ value ∈ rows, value = .null ∨ ∃ result, Stands rest ty .gt order constant value result :=
  told (by decide) (fun asked held low => covers.quiet asked held (.inl low)) covers.low asks told_ fits rest

theorem Covers.told_high (told_ : holds range.high bound wanted = true) :
    ∃ order ∈ wanted, ∀ value ∈ rows, value = .null ∨ ∃ result, Stands rest ty .lt order constant value result :=
  told (by decide) (fun asked held high => covers.quiet asked held (.inr high)) covers.high asks told_ fits rest

/-- No row passes what its range excludes. -/
theorem Covers.excludes
    (told : range.excludes op bound = true) : ∀ value ∈ rows, Kernels.passes rest ty op value constant = false := by
  have null (_ : Value.null ∈ rows) : Kernels.passes rest ty op .null constant = false := by
    simp [Kernels.passes, Kernels.orderAs_null]
  cases op with
  | less | lessOrEqual => exact passes_of_stands null (covers.told_low asks fits rest told) (by decide)
  | greater | greaterOrEqual => exact passes_of_stands null (covers.told_high asks fits rest told) (by decide)
  | equal =>
    rcases Bool.or_eq_true_iff.mp told with told | told
    · exact passes_of_stands null (covers.told_low asks fits rest told) (by decide)
    · exact passes_of_stands null (covers.told_high asks fits rest told) (by decide)

/-- Every row passes what its range is certain of. -/
theorem Covers.certain
    (told : range.certain op bound = true) : ∀ value ∈ rows, Kernels.passes rest ty op value constant = true := by
  obtain ⟨nulls, told⟩ := Bool.and_eq_true_iff.mp told
  have here : Value.null ∉ rows := by
    intro row
    rcases covers.nulls with ⟨low, high, -⟩ | count
    · cases op <;> simp [Common.certain, holds, low, high] at told
    · have none_ : rows.countP Value.isNull = 0 := by simpa [of_decide_eq_true nulls] using count
      exact countP_eq_zero.mp none_ .null row rfl
  cases op with
  | greater | greaterOrEqual => exact passes_of_stands (absurd · here) (covers.told_low asks fits rest told) (by decide)
  | less | lessOrEqual => exact passes_of_stands (absurd · here) (covers.told_high asks fits rest told) (by decide)
  | equal =>
    -- the row is between two ends that both are the constant
    obtain ⟨low, high⟩ := Bool.and_eq_true_iff.mp told
    obtain ⟨order, member, above⟩ := covers.told_low asks fits rest low
    obtain ⟨order', member', below⟩ := covers.told_high asks fits rest high
    cases mem_singleton.mp member
    cases mem_singleton.mp member'
    intro value row
    have some_ : value ≠ .null := fun null => here (null ▸ row)
    obtain ⟨result, ordered, -, within⟩ := (above value row).resolve_left some_
    obtain ⟨result', ordered', -, within'⟩ := (below value row).resolve_left some_
    cases ordered.symm.trans ordered'
    have equal : result = .eq := by
      cases result with
      | lt => exact absurd rfl (within (by decide))
      | eq => rfl
      | gt => exact absurd rfl (within' (by decide))
    simp [Kernels.passes, ordered, equal, Op.holds]

end

end asks

section
variable (covers : Covers ty range rows)
include covers

/-- Ends stay, inexact, over rows that were covered. -/
theorem Covers.loosen {nulls : Nat}
    (fewer : ∀ value ∈ more, value ∈ rows ∨ value = .null) (count : Silent range ∨ more.countP Value.isNull ≤ nulls) :
    Covers ty { range with nulls, exact := false, sum := none } more where
  quiet := covers.quiet
  low asked end_ found := (covers.low asked end_ found).mono fewer
  high asked end_ found := (covers.high asked end_ found).mono fewer
  paired _ := nofun
  empty _ := nofun
  nulls := count.imp (fun silent => ⟨silent.1, silent.2.1, rfl⟩) id

theorem Covers.rewrite (there : rows[place]? = some old) (fits : value.fits ty) :
    Covers ty (range.rewrite old.isNull value ty) (rows.set place value) := by
  obtain ⟨inside, here⟩ := List.getElem?_eq_some_iff.mp there
  have count : Silent range ∨ (rows.set place value).countP Value.isNull ≤
      range.nulls - (if old.isNull ∧ 0 < range.nulls then 1 else 0) + if value.isNull then 1 else 0 := by
    refine covers.nulls.imp id fun count => ?_
    rw [countP_set inside, here]
    grind
  have among (other : Value) (member : other ∈ rows.set place value) : other ∈ rows ∨ other = value :=
    mem_or_eq_of_mem_set member
  unfold Range.rewrite
  cases found : One.of value ty with
  | none => exact .of_silent ⟨rfl, rfl, rfl⟩
  | some one =>
    by_cases null : value.isNull = true
    · simp only [null, if_true] at count ⊢
      refine covers.loosen (fun other member => ?_) count
      rw [← Value.isNull_iff.mp null]
      exact among other member
    simp only [null] at count ⊢
    rw [widenOne_eq]
    refine (covers.widen (One.covers fits found)).loosen (fun other member => ?_) ?_
    · exact .inl (mem_append.mpr ((among other member).imp id mem_singleton.mpr))
    · exact count.imp (fun silent => .widen (.inl silent)) id

theorem Covers.take (split : rows.Perm (rest ++ taken)) :
    Covers ty (range.take (taken.countP Value.isNull)) rest := by
  refine covers.loosen (fun value member => .inl (split.mem_iff.mpr (mem_append_left taken member))) ?_
  refine covers.nulls.imp id fun count => ?_
  rw [split.countP_eq, countP_append] at count
  omega

theorem Covers.widenValue (fits : value.fits ty) : Covers ty (range.widenValue value ty) (rows ++ [value]) := by
  unfold Range.widenValue
  cases found : One.of value ty with
  | none => exact .of_silent ⟨rfl, rfl, rfl⟩
  | some one =>
    simp only [widenOne_eq]
    exact covers.widen (One.covers fits found)

end

end Rudb.Storage.Zones
