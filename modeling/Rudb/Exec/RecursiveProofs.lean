import Mathlib.Data.List.Forall2
import Mathlib.Logic.Function.Iterate
import Rudb.Exec.Recursive
import Rudb.Lib.Firsts
import Rudb.Lib.Rounds

/-! Plain values that group together are hashed as one. On rows of them a recursion without a key reaches the least
set of rows that holds the anchor's and is closed under a round, and lists each of them where it was first made. -/
namespace Rudb.Exec
open Rudb.Common Lib List

theorem sameFloat_iff {one other : F64} : sameFloat one other = true ↔ one.number = other.number := by
  unfold sameFloat F64.eq
  by_cases nan : one.isNan <;> by_cases nan' : other.isNan <;> simp [F64.number, nan, nan']

theorem canonical_eq {one other : F64} (same : one.number = other.number) : canonical one = canonical other := by
  unfold canonical
  by_cases nan : one.isNan
  · have nan' := F64.number_eq_none.mp (same.symm.trans (F64.number_eq_none.mpr nan))
    rw [if_pos nan, if_pos nan']
  · have nan' : ¬other.isNan := fun is => nan (F64.number_eq_none.mp (same.trans (F64.number_eq_none.mpr is)))
    obtain rfl | ⟨zero, zero'⟩ := F64.number_inj same nan nan'
    · rfl
    · rw [if_neg nan, if_neg nan', if_pos zero, if_pos zero']

/-- What a value is grouped by: a float by its number, in a nested value too. -/
def label (naming : Naming) : Value → Value × Option Int × Bytes × List (Option Int ⊕ Bytes)
  | .float number => (.float ⟨0⟩, number.widen.number, [], [])
  | .double number => (.double ⟨0⟩, number.number, [], [])
  | .interval months days micros => (.interval 0 0 0, some (intervalMicros months days micros), [], [])
  | .numeric bytes => (.numeric [], none, numericKey bytes, [])
  | .variant bytes => (.variant [], none, naming.sortKeyOf bytes, [])
  | .nested kind parts => (.nested kind [], none, [], parts.map fun
    | .float number => .inl number.number
    | .other bytes => .inr bytes)
  | value => (value, none, [], [])

theorem same_iff_label {naming : Naming} {held : Set Value} (plain : Plain naming held) {one other : Value}
    (first : one ∈ held) (second : other ∈ held) : same naming one other = true ↔
    label naming one = label naming other := by
  unfold same
  split
  · simp [label, sameFloat_iff]
  · simp [label, sameFloat_iff]
  · simp [label]
  · simp [label]
  · simp only [label, Bool.or_eq_true, decide_eq_true_eq, Prod.mk.injEq, true_and, and_true]
    exact or_iff_right_of_imp (congrArg _)
  · rename_i kind parts kind' parts'
    have each (pair : Part × Part) (member : pair ∈ parts.zip parts') : samePart pair.1 pair.2 = true ↔
        (match pair.1 with | .float number => Sum.inl number.number | .other bytes => .inr bytes) =
          match pair.2 with | .float number => Sum.inl number.number | .other bytes => .inr bytes := by
      obtain ⟨one, other⟩ := pair
      cases one <;> cases other <;> simp [samePart, F64.eq]
      rename_i number _
      exact fun same => Option.isSome_iff_ne_none.mpr fun nan =>
        plain.nan kind parts number first (of_mem_zip member).1 (F64.number_eq_none.mp nan)
    simp only [label, Bool.and_eq_true, decide_eq_true_eq, all_eq_true, Prod.mk.injEq, Value.nested.injEq, and_true,
      true_and, and_assoc]
    refine and_congr_right fun _ => ?_
    rw [forall₂_congr each, ← forall₂_eq_eq_eq, forall₂_map_left_iff, forall₂_map_right_iff, forall₂_iff_zip]
    simp
  · rename_i float double interval numeric variant nested
    cases one <;> cases other <;> first
      | exact (interval _ _ _ _ _ _ rfl rfl).elim
      | exact (nested _ _ _ _ rfl rfl).elim
      | simp_all [label]

/-- Values that group together are hashed as one, where they are plain. -/
theorem keysOf_lawful (plain : Plain naming held) : (keysOf naming held).Lawful where
  refl value := (same_iff_label plain value.2 value.2).mpr rfl
  symm one other is := (same_iff_label plain other.2 one.2).mpr ((same_iff_label plain one.2 other.2).mp is).symm
  trans one other third is then_ := (same_iff_label plain one.2 third.2).mpr
    (((same_iff_label plain one.2 other.2).mp is).trans ((same_iff_label plain other.2 third.2).mp then_))
  hash one other is := by
    have labels := (same_iff_label plain one.2 other.2).mp is
    obtain ⟨one, first⟩ := one
    obtain ⟨other, second⟩ := other
    funext state
    change hashValue naming one state = hashValue naming other state
    cases one <;> cases other <;>
      simp only [label, Prod.mk.injEq, reduceCtorEq, false_and, and_true, true_and] at labels
    case float.float | double.double => simp only [hashValue, discriminant, canonical_eq labels]
    case interval.interval => simp only [hashValue, discriminant, Option.some.inj labels]
    case numeric.numeric | variant.variant => simp only [hashValue, discriminant, labels]
    case nested.nested kind _ _ _ =>
      cases labels.1
      cases kind <;> simp only [hashValue, discriminant, plain.zero _ _ _ first second is]
    case null.null => rfl
    all_goals rw [labels]

open Bool

namespace Keys
variable {Value : Type} {keys : Keys Value}

theorem eq_iff :
    keys.eq left right = true ↔ List.Forall₂ (fun one other => keys.same one other = true) left right := by
  simp [eq, forall₂_iff_zip]

namespace Lawful

section
variable (lawful : keys.Lawful)
include lawful

theorem eq_refl (row : List Value) : keys.eq row row = true :=
  eq_iff.mpr (forall₂_same.mpr fun value _ => lawful.refl value)

theorem eq_symm (is : keys.eq one other = true) : keys.eq other one = true :=
  eq_iff.mpr ((eq_iff.mp is).flip.imp fun _ _ => lawful.symm _ _)

theorem eq_trans (is : keys.eq one other = true)
    (then_ : keys.eq other third = true) : keys.eq one third = true := by
  rw [eq_iff] at *
  induction is generalizing third with
  | nil => exact then_
  | cons head _ ih =>
    cases then_ with
    | cons next rest => exact .cons (lawful.trans _ _ _ head next) (ih rest)

/-- Rows that compare equal are hashed as one, so a table finds what compares equal. -/
theorem finds_eq : keys.finds = keys.eq := by
  funext held key
  cases is : keys.eq held key with
  | false => rw [finds, is, Bool.and_false]
  | true =>
    have folds (state : UInt64) : held.foldl (fun state value => keys.hashValue value state) state =
        key.foldl (fun state value => keys.hashValue value state) state := by
      induction eq_iff.mp is generalizing state with
      | nil => rfl
      | cons head _ ih =>
        rw [foldl_cons, lawful.hash _ _ head]
        exact ih (by rw [eq_iff]; assumption) _
    have hashes : keys.hash held = keys.hash key := congrArg spread (folds 0)
    rw [finds, is, hashes, beq_self_eq_true, Bool.and_true]

end

end Lawful

/-- Keeping the rows that were not seen adds the first of each kind to what was seen. -/
theorem retain_eq (seen rows : List (List Value)) : (keys.retain seen rows).2 = seen ++ (keys.retain seen rows).1 ∧
      rows.foldl (pushNew keys.finds) seen = seen ++ (keys.retain seen rows).1 := by
  induction rows generalizing seen with
  | nil => simp [retain]
  | cons row rest ih =>
    rw [retain, foldl_cons, pushNew]
    split
    · exact ih seen
    · have kept := ih (seen ++ [row])
      rw [append_assoc] at kept
      exact kept

def rowsOf (keys : Keys Value) (rows : List (List Value)) : Set (List Value) :=
  {row | ∃ held ∈ rows, keys.eq held row = true}

theorem rowsOf_append (one other : List (List Value)) :
    keys.rowsOf (one ++ other) = keys.rowsOf one ∪ keys.rowsOf other := by
  ext row
  simp only [rowsOf, mem_append, Set.mem_ofPred_eq, Set.mem_union]
  constructor
  · rintro ⟨held, left | right, is⟩
    · exact .inl ⟨held, left, is⟩
    · exact .inr ⟨held, right, is⟩
  · rintro (⟨held, left, is⟩ | ⟨held, right, is⟩)
    · exact ⟨held, .inl left, is⟩
    · exact ⟨held, .inr right, is⟩

theorem rowsOf_firsts (lawful : keys.Lawful) (rows : List (List Value)) :
    keys.rowsOf (firsts keys.eq rows) = keys.rowsOf rows := by
  ext row
  constructor
  · rintro ⟨held, member, is⟩
    exact ⟨held, mem_of_mem_firsts member, is⟩
  · rintro ⟨made, member, is⟩
    obtain ⟨held, among, first⟩ := exists_mem_firsts lawful.eq_refl member
    exact ⟨held, among, lawful.eq_trans first is⟩

end Keys

namespace Fixpoint
variable {Value State : Type} {fixpoint : Fixpoint Value State} {anchor : List (List Value)}

/-- What a recursion without a key has listed after so many rounds. -/
def after (fixpoint : Fixpoint Value State) (anchor : List (List Value)) (rounds : Nat) : Listed Value :=
  fixpoint.next^[rounds] (fixpoint.start anchor)

/-- Every row the anchor and so many rounds made, produced or not. -/
def made (fixpoint : Fixpoint Value State) (anchor : List (List Value)) : (rounds : Nat) → List (List Value)
  | 0 => anchor
  | rounds + 1 =>
    fixpoint.made anchor rounds ++
      fixpoint.round (fixpoint.after anchor rounds).working (fixpoint.after anchor rounds).out

theorem after_succ (rounds : Nat) : fixpoint.after anchor (rounds + 1) = fixpoint.next (fixpoint.after anchor rounds) :=
  Function.iterate_succ_apply' _ _ _

/-- A loop that ends has listed what some number of rounds has. -/
theorem listedFrom_some
    (ends : fixpoint.listedFrom rounds from' = some out) : ∃ count, out = (fixpoint.next^[count] from').out ∧
      ((fixpoint.next^[count] from').working = [] ∨ fixpoint.enough out = true) := by
  induction rounds generalizing from' with
  | zero =>
    rw [listedFrom] at ends
    split at ends
    · rename_i stop
      cases ends
      exact ⟨0, rfl, stop.imp isEmpty_iff.mp id⟩
    · cases ends
  | succ rounds ih =>
    rw [listedFrom] at ends
    split at ends
    · rename_i stop
      cases ends
      exact ⟨0, rfl, stop.imp isEmpty_iff.mp id⟩
    · obtain ⟨count, rest⟩ := ih ends
      exact ⟨count + 1, rest⟩

/-- Without `ALL` what is listed is what was first made of each kind. -/
theorem after_out (lawful : fixpoint.keys.Lawful) (distinct : fixpoint.all = false) (rounds : Nat) :
    (fixpoint.after anchor rounds).seen = (fixpoint.after anchor rounds).out ∧
      (fixpoint.after anchor rounds).out = firsts fixpoint.keys.eq (fixpoint.made anchor rounds) := by
  rw [← lawful.finds_eq]
  induction rounds with
  | zero =>
    have kept := @Keys.retain_eq _ fixpoint.keys [] anchor
    simp only [after, Function.iterate_zero_apply, start, produced, distinct, false_eq_true, if_false]
    exact ⟨kept.1, kept.2.symm⟩
  | succ rounds ih =>
    have kept := @Keys.retain_eq _ fixpoint.keys (fixpoint.after anchor rounds).seen
      (fixpoint.round (fixpoint.after anchor rounds).working (fixpoint.after anchor rounds).out)
    rw [after_succ, made, firsts, foldl_append, ← firsts, ← ih.2]
    simp only [next, produced, distinct, false_eq_true, if_false]
    rw [ih.1] at kept ⊢
    exact ⟨kept.1, kept.2.symm⟩

/-- A round whose rows are a function of the rows it works on, as sets, that distributes over union. -/
structure Distributes (fixpoint : Fixpoint Value State) (round : Set (List Value) → Set (List Value)) : Prop where
  rows : ∀ working soFar, fixpoint.keys.rowsOf (fixpoint.round working soFar) = round (fixpoint.keys.rowsOf working)
  union : ∀ one other, round (one ∪ other) = round one ∪ round other
  empty : round ∅ = ∅

theorem rounds_after (lawful : fixpoint.keys.Lawful) (distinct : fixpoint.all = false)
    {round : Set (List Value) → Set (List Value)} (distributes : Distributes fixpoint round) (count : Nat) :
    Rounds round (fixpoint.keys.rowsOf anchor) (fixpoint.keys.rowsOf (fixpoint.after anchor count).out)
      (fixpoint.keys.rowsOf (fixpoint.after anchor count).working) := by
  induction count with
  | zero =>
    have out := (@after_out _ _ fixpoint anchor lawful distinct 0).2
    have same : fixpoint.keys.rowsOf (fixpoint.after anchor 0).out = fixpoint.keys.rowsOf anchor := by
      rw [out, Keys.rowsOf_firsts lawful, made]
    rw [← same]
    exact .begin' distributes.empty
  | succ count ih =>
    have out := (@after_out _ _ fixpoint anchor lawful distinct (count + 1)).2
    have before := (@after_out _ _ fixpoint anchor lawful distinct count).2
    have split : (fixpoint.after anchor (count + 1)).out =
        (fixpoint.after anchor count).out ++ (fixpoint.after anchor (count + 1)).working := by
      rw [after_succ]
      rfl
    have new : fixpoint.keys.rowsOf (fixpoint.after anchor (count + 1)).out =
        fixpoint.keys.rowsOf (fixpoint.after anchor count).out ∪
          round (fixpoint.keys.rowsOf (fixpoint.after anchor count).working) := by
      rw [out, Keys.rowsOf_firsts lawful, made, Keys.rowsOf_append, distributes.rows, before,
        Keys.rowsOf_firsts lawful]
    rw [split, Keys.rowsOf_append] at new ⊢
    exact ih.next distributes.union new

theorem out_prefix (listed : Listed Value) (count : Nat) : listed.out <+: (fixpoint.next^[count] listed).out := by
  induction count with
  | zero => exact prefix_rfl
  | succ count ih =>
    rw [Function.iterate_succ_apply']
    exact ih.trans (prefix_append _ _)

/-- With a wanted count the loop ends where it has as many rows, or sooner. -/
theorem listedFrom_wanted {rounds wanted : Nat} {from' : Listed Value} {out : List (List Value)}
    (ends : { fixpoint with wanted := none }.listedFrom rounds from' = some out) :
    ∃ short, { fixpoint with wanted := some wanted }.listedFrom rounds from' = some short ∧
      short.take wanted = out.take wanted := by
  induction rounds generalizing from' with
  | zero =>
    rw [listedFrom] at ends ⊢
    split at ends
    · rename_i stop
      cases ends
      exact ⟨_, if_pos (.inl (stop.resolve_right (by simp [enough]))), rfl⟩
    · cases ends
  | succ rounds ih =>
    obtain ⟨count, eq, _⟩ := listedFrom_some ends
    have extends_ : from'.out <+: out := by
      rw [eq]
      exact out_prefix from' count
    rw [listedFrom] at ends ⊢
    split at ends
    · rename_i stop
      cases ends
      exact ⟨_, if_pos (.inl (stop.resolve_right (by simp [enough]))), rfl⟩
    rename_i going
    by_cases full : wanted ≤ from'.out.length
    · refine ⟨_, if_pos (.inr (by simpa [enough] using full)), ?_⟩
      obtain ⟨more, rfl⟩ := extends_
      rw [take_append_of_le_length full]
    obtain ⟨short, is, same⟩ := ih ends
    rw [if_neg]
    · exact ⟨short, is, same⟩
    · rintro (empty | enough_)
      · exact going (.inl empty)
      · exact full (by simpa [enough] using enough_)

end Fixpoint

end Rudb.Exec
