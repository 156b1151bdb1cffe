import Rudb.Kernels.LikeProofs

/-! `GLOB` holds exactly when the bytes match the pattern read as runs, single bytes and sets. -/
namespace Rudb.Kernels
open Rudb.Lib List Option

/-- The members of a set up to the closing bracket, as ranges, and the pattern behind it. The bracket is a member where
the set opens. -/
def readMembers (opens : Bool) : (pattern : List UInt8) → Option (List (UInt8 × UInt8) × List UInt8)
  | [] => none
  | [first] => if first = 93 ∧ opens = false then some ([], []) else none
  | first :: second :: rest =>
    if first = 93 ∧ opens = false then some ([], second :: rest)
    else if second = 45 then
      match rest with
      | [] => none
      | last :: rest => (readMembers false rest).map fun read => ((first, last) :: read.1, read.2)
    else (readMembers false (second :: rest)).map fun read => ((first, first) :: read.1, read.2)

def among (ranges : List (UInt8 × UInt8)) (byte : UInt8) : Bool :=
  ranges.any fun range => range.1 ≤ byte && byte ≤ range.2

/-- A set behind its opening bracket: the bytes it takes and the pattern behind it. -/
def readSet : (pattern : List UInt8) → Option ((UInt8 → Bool) × List UInt8)
  | [] => none
  | first :: rest =>
    if first = 33 then (readMembers true rest).map fun read => ((!among read.1 ·), read.2)
    else (readMembers true (first :: rest)).map fun read => (among read.1, read.2)

theorem readMembers_suffix {read : List (UInt8 × UInt8) × List UInt8}
    (found : readMembers opens pattern = some read) : read.2 <:+ pattern := by
  fun_induction readMembers opens pattern generalizing read with
  | case1 | case3 | case5 => cases found
  | case2 | case4 =>
    cases found
    exact suffix_cons _ _
  | case6 =>
    rename_i ih
    obtain ⟨_, members, rfl⟩ := map_eq_some_iff.mp found
    exact (ih members).trans (suffix_append [_, _, _] _)
  | case7 =>
    rename_i ih
    obtain ⟨_, members, rfl⟩ := map_eq_some_iff.mp found
    exact (ih members).trans (suffix_cons _ _)

theorem readSet_suffix {after : List UInt8} (found : readSet rest = some (takes, after)) :
    after <:+ rest := by
  unfold readSet at found
  split at found
  · cases found
  split at found <;>
  · obtain ⟨_, members, same⟩ := map_eq_some_iff.mp found
    cases same
    first
    | exact (readMembers_suffix members).trans (suffix_cons _ _)
    | exact readMembers_suffix members

/-- The bytes taken by what is not a run, and the pattern behind it: `?` any byte, a set its members, a backslash the
byte behind it, and any other byte itself. None for a set never closed and for a backslash with nothing behind it. -/
def readOne (wanted : UInt8) (rest : List UInt8) : Option ((UInt8 → Bool) × List UInt8) :=
  if wanted = 63 then some (fun _ => true, rest)
  else if wanted = 91 then readSet rest
  else if wanted = 92 then rest.head?.map fun literal => ((· == literal), rest.tail)
  else some ((· == wanted), rest)

variable {rest : List UInt8} {wanted : UInt8}

theorem readOne_suffix {read : (UInt8 → Bool) × List UInt8}
    (found : readOne wanted rest = some read) : read.2 <:+ rest := by
  unfold readOne at found
  split at found
  · cases found
    exact suffix_refl _
  split at found
  · exact readSet_suffix found
  split at found
  · obtain ⟨_, _, rfl⟩ := map_eq_some_iff.mp found
    exact tail_suffix _
  · cases found
    exact suffix_refl _

/-- A pattern broken off here matches nothing. -/
def never : List (Token UInt8) := [.one fun _ => false]

/-- What a pattern stands for, with `*` any run. -/
def globTokens : (pattern : List UInt8) → List (Token UInt8)
  | [] => []
  | wanted :: rest =>
    if wanted = 42 then .any :: globTokens rest
    else
      match _found : readOne wanted rest with
      | none => never
      | some read => .one read.1 :: globTokens read.2
termination_by pattern => pattern.length
decreasing_by
  · exact Nat.lt_succ_self _
  · exact Nat.lt_succ_of_le (readOne_suffix _found).length_le

section Bracket
variable {start place : Nat}

theorem drop_of_getElem? {α : Type} {items : List α} {place : Nat} {item : α} (here : items[place]? = some item) :
    items.drop place = item :: items.drop (place + 1) := by
  obtain ⟨lt, rfl⟩ := List.getElem?_eq_some_iff.mp here
  exact List.drop_eq_getElem_cons lt

theorem drop_of_getElem?_none {α : Type} {items : List α} {place : Nat} (beyond : items[place]? = none) :
    items.drop place = [] :=
  drop_eq_nil_of_le (getElem?_eq_none_iff.mp beyond)

theorem readMembers_closes : readMembers false (93 :: rest) = some ([], rest) := by
  cases rest with
  | nil => rfl
  | cons =>
    rw [readMembers.eq_def]
    rfl

theorem readMembers_one {opens : Bool} {first second : UInt8} (stays : ¬(first = 93 ∧ opens = false))
    (different : second ≠ 45) : readMembers opens (first :: second :: rest) =
      (readMembers false (second :: rest)).map fun read => ((first, first) :: read.1, read.2) := by
  rw [readMembers.eq_def]
  dsimp only
  rw [if_neg stays, if_neg different]

theorem stays_open (le : start ≤ place) {first : UInt8} (more : ¬(first = 93 ∧ place > start)) :
    ¬(first = 93 ∧ decide (place = start) = false) := fun ⟨same, past⟩ =>
  more ⟨same, lt_of_le_of_ne le (Ne.symm (of_decide_eq_false past))⟩

theorem found_again (found invert here later : Bool) :
    (if (if found = invert ∧ here = true then !invert else found) = invert ∧ later = true then !invert
      else if found = invert ∧ here = true then !invert else found) =
      if found = invert ∧ (here || later) = true then !invert else found := by
  cases found <;> cases invert <;> cases here <;> cases later <;> rfl

/-- The loop of `bracket` reads the members from its place on. -/
theorem bracketFrom_eq (le : start ≤ place) :
    bracketFrom byte pattern invert start place found =
      (readMembers (decide (place = start)) (pattern.drop place)).map fun read =>
        (if found = invert ∧ among read.1 byte = true then !invert else found, pattern.length - read.2.length) := by
  fun_induction bracketFrom byte pattern invert start place found with
  | case1 place found beyond =>
    rw [drop_of_getElem?_none beyond]
    rfl
  | case2 place found first here inside closes =>
    obtain ⟨rfl, past⟩ := closes
    rw [drop_of_getElem? here, decide_eq_false past.ne', readMembers_closes, map_some]
    simp only [among, any_nil, Bool.false_eq_true, and_false, if_false, length_drop]
    rw [show pattern.length - (pattern.length - (place + 1)) = place + 1 by omega]
  | case3 place found first here inside more beyond =>
    rw [drop_of_getElem? here, drop_of_getElem?_none beyond, readMembers, if_neg (stays_open le more)]
    rfl
  | case4 place found first here inside more beyond there =>
    rw [drop_of_getElem? here, drop_of_getElem? there, drop_of_getElem?_none beyond,
      readMembers, if_neg (stays_open le more)]
    rfl
  | case5 place found first here inside more last beyond there ih =>
    rw [drop_of_getElem? here, drop_of_getElem? there, drop_of_getElem? beyond, readMembers,
      if_neg (stays_open le more), if_pos rfl]
    simp only [dite_eq_ite] at ih ⊢
    rw [ih (by omega), decide_eq_false (by omega), Option.map_map]
    congr 1
    funext read
    have again := found_again found invert (first ≤ byte && byte ≤ last) (among read.1 byte)
    simp only [Bool.and_eq_true, decide_eq_true_eq] at again
    simp only [Function.comp_apply, again]
    rfl
  | case6 place found first here inside more other there different ih =>
    rw [drop_of_getElem? here, drop_of_getElem? there, readMembers_one (stays_open le more) different,
      ← drop_of_getElem? there]
    simp only [dite_eq_ite] at ih ⊢
    rw [ih (by omega), decide_eq_false (by omega), Option.map_map]
    congr 1
    funext read
    have again := found_again found invert (first ≤ byte && byte ≤ first) (among read.1 byte)
    have one : first ≤ byte ∧ byte ≤ first ↔ first = byte := antisymm_iff
    simp only [Bool.and_eq_true, decide_eq_true_eq, one] at again
    simp only [Function.comp_apply, again]
    rfl

theorem bracket_eq : bracket byte pattern place =
    (readSet (pattern.drop place)).map fun read => (read.1 byte, pattern.length - read.2.length) := by
  unfold bracket
  cases here : pattern[place]? with
  | none =>
    rw [drop_of_getElem?_none here]
    rfl
  | some first =>
    rw [drop_of_getElem? here, readSet]
    dsimp only
    rw [bracketFrom_eq le_rfl]
    by_cases invert : first = 33
    · simp only [invert, decide_true, if_true, Option.map_map]
      congr 1
      funext read
      cases hit : among read.1 byte <;> simp [hit]
    simp only [invert, decide_false, if_false, Option.map_map, Bool.false_eq_true, drop_of_getElem? here]
    congr 1
    funext read
    cases hit : among read.1 byte <;> simp [hit]

end Bracket

section Walk
variable {text pattern : List UInt8}

theorem globTokens_run : globTokens (42 :: rest) = .any :: globTokens rest := by
  rw [globTokens, if_pos rfl]

theorem globTokens_broken (tame : wanted ≠ 42) (broken : readOne wanted rest = none) :
    globTokens (wanted :: rest) = never := by
  rw [globTokens, if_neg tame]
  split
  · rfl
  · rename_i found
    rw [broken] at found
    cases found

theorem globTokens_one {read : (UInt8 → Bool) × List UInt8} (tame : wanted ≠ 42)
    (found : readOne wanted rest = some read) : globTokens (wanted :: rest) = .one read.1 :: globTokens read.2 := by
  rw [globTokens, if_neg tame]
  split
  · rename_i broken
    rw [found] at broken
    cases broken
  rename_i found_
  rw [found] at found_
  cases found_
  rfl

/-- The runs behind a run add nothing to it. -/
theorem globTokens_dropWhile : Matches text (.any :: globTokens rest) ↔
    Matches text (.any :: globTokens (rest.dropWhile (· = 42))) := by
  induction rest with
  | nil => exact Iff.rfl
  | cons wanted rest ih =>
    by_cases wild : wanted = 42
    · rw [dropWhile_cons_of_pos (by simpa using wild), ← ih, wild, globTokens_run, matches_any_any]
    · rw [dropWhile_cons_of_neg (by simpa using wild)]

/-- What the walk asks of a place is what is read there. -/
theorem globOne_eq (here : pattern[against]? = some wanted) : globOne byte pattern against =
    (readOne wanted (pattern.drop (against + 1))).map fun read => (read.1 byte, pattern.length - read.2.length) := by
  have lt := (List.getElem?_eq_some_iff.mp here).1
  have past : pattern.length - (pattern.drop (against + 1)).length = against + 1 := by
    rw [List.length_drop]
    omega
  unfold globOne readOne
  rw [here]
  dsimp only
  split
  · rw [map_some, past]
  split
  · exact bracket_eq
  split
  · rw [head?_drop]
    cases there : pattern[against + 1]? with
    | none => rfl
    | some literal =>
      have lt := (List.getElem?_eq_some_iff.mp there).1
      simp only [map_some, tail_drop, List.length_drop, Bool.beq_eq_decide_eq]
      rw [show pattern.length - (pattern.length - (against + 1 + 1)) = against + 2 by omega]
  · rw [map_some, past]
    rfl

theorem globOne_broken (tame : pattern[against]? ≠ some 42) (broken : globOne byte pattern against = none) :
    globTokens (pattern.drop against) = never := by
  cases here : pattern[against]? with
  | none => simp [globOne, here] at broken
  | some wanted =>
    rw [globOne_eq here, map_eq_none_iff] at broken
    rw [drop_of_getElem? here]
    exact globTokens_broken (fun same => tame (by rw [here, same])) broken

/-- Where the pattern takes one byte, what is read there stands before the pattern past it. -/
theorem globOne_reads {held : Bool} {next : Nat} (inside : against < pattern.length) (tame : pattern[against]? ≠ some 42)
    (one : globOne byte pattern against = some (held, next)) : ∃ takes, takes byte = held ∧ next ≤ pattern.length ∧
      globTokens (pattern.drop against) = .one takes :: globTokens (pattern.drop next) := by
  have here := getElem?_eq_getElem inside
  rw [globOne_eq here] at one
  obtain ⟨read, found, same⟩ := map_eq_some_iff.mp one
  cases same
  have left := (readOne_suffix found).trans (drop_suffix _ _)
  refine ⟨read.1, rfl, Nat.sub_le _ _, ?_⟩
  rw [drop_of_getElem? here, globTokens_one (fun same => tame (by rw [here, same])) found, ← suffix_iff_eq_drop.mp left]

theorem globOne_fails {next : Nat} (tame : pattern[against]? ≠ some 42)
    (one : globOne byte pattern against = some (false, next)) :
    ¬Matches (byte :: rest) (globTokens (pattern.drop against)) := by
  by_cases inside : against < pattern.length
  · obtain ⟨takes, fails, -, tokens⟩ := globOne_reads inside tame one
    rw [tokens, matches_one_cons, fails]
    exact fun absurd_ => Bool.false_ne_true absurd_.1
  · rw [drop_eq_nil_of_le (not_lt.mp inside), globTokens, matches_nil]
    exact cons_ne_nil _ _

theorem globTokens_runs : (∀ token ∈ globTokens rest, token = .any) ↔ ∀ wanted ∈ rest, wanted = 42 := by
  induction rest with
  | nil => simp [globTokens]
  | cons wanted rest ih =>
    by_cases wild : wanted = 42
    · rw [wild, globTokens_run]
      simp [ih]
    have one : ∃ takes tokens, globTokens (wanted :: rest) = .one takes :: tokens := by
      cases found : readOne wanted rest with
      | none => exact ⟨_, _, globTokens_broken wild found⟩
      | some read => exact ⟨_, _, globTokens_one wild found⟩
    obtain ⟨takes, tokens, same⟩ := one
    rw [same]
    simp [wild]

namespace GlobWalk

def back (walk : GlobWalk text pattern) : Back UInt8 :=
  walk.star.map fun back => (text.drop back.2, globTokens (pattern.drop back.1))

theorem run_iff (walk : GlobWalk text pattern) (within : walk.against ≤ pattern.length)
    (passed : Passed (text.drop walk.place) (globTokens (pattern.drop walk.against)) walk.back) :
    walk.run = true ↔ Answer (text.drop walk.place) (globTokens (pattern.drop walk.against)) walk.back := by
  fun_induction run walk with
  | case1 walk more wild last =>
    rw [drop_of_getElem? wild, globTokens_run] at passed ⊢
    rw [answer_run passed, globTokens_dropWhile, ← drop_skipRun, last, drop_length, globTokens, matches_any]
    exact iff_of_true rfl ⟨_, [], (append_nil _).symm, matches_nil.mpr rfl⟩
  | case2 walk more wild further ih =>
    have lt := (List.getElem?_eq_some_iff.mp wild).1
    rw [drop_of_getElem? wild, globTokens_run] at passed ⊢
    rw [answer_run passed, globTokens_dropWhile, ← drop_skipRun, matches_any_iff_answer]
    exact ih (skipRun_le lt) passed_here
  | case3 walk more tame broken =>
    rw [globOne_broken tame broken] at passed ⊢
    exact iff_of_false Bool.false_ne_true (not_answer_never passed)
  | case4 walk more tame next one ih =>
    have inside : walk.against < pattern.length := by
      by_contra beyond
      simp [globOne, getElem?_eq_none_iff.mpr (not_lt.mp beyond)] at one
    obtain ⟨takes, passes, le, tokens⟩ := globOne_reads inside tame one
    rw [tokens, List.drop_eq_getElem_cons more] at passed ⊢
    exact (ih le passed.one).trans (Iff.symm (answer_one passes))
  | case5 walk more tame next one star =>
    rw [List.drop_eq_getElem_cons more]
    unfold GlobWalk.back
    rw [star]
    exact iff_of_false Bool.false_ne_true (answer_stuck (globOne_fails tame one))
  | case6 walk more tame next one resume from_ star ih =>
    obtain ⟨before, behind⟩ := walk.behind _ star
    have left : text.drop from_ ≠ [] := by
      rw [Ne, drop_eq_nil_iff]
      omega
    have here : walk.back = some (text.drop from_, globTokens (pattern.drop resume)) := by
      rw [GlobWalk.back, star]
      rfl
    rw [here, List.drop_eq_getElem_cons more, answer_back (globOne_fails tame one) left, tail_drop]
    exact ih (before.trans within) passed_here
  | case7 walk more =>
    rw [drop_eq_nil_of_le (not_lt.mp more)] at passed ⊢
    rw [answer_end passed, decide_eq_true_eq, skipRun_eq_length within, globTokens_runs]

end GlobWalk

theorem glob_iff : glob text pattern = true ↔ Matches text (globTokens pattern) := by
  rw [glob, (GlobWalk.start text pattern).run_iff (Nat.zero_le _) passed_none]
  exact answer_start

end Walk

end Rudb.Kernels
