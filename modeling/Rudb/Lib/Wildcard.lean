import Mathlib.Data.List.Basic
import Mathlib.Data.List.Forall2

/-! Patterns of tokens that take any run or one item, and the walk over a text that keeps only the last
any-run token to go back to. -/
namespace Rudb.Lib
open List
variable {α : Type}

/-- One token of a pattern: any run of items, or one item that passes. -/
inductive Token (α : Type) where
  | any
  | one (takes : α → Bool)

def Token.Fits (piece : List α) : Token α → Prop
  | any => True
  | one takes => ∃ item, piece = [item] ∧ takes item = true

/-- A text is a pattern when it is cut into one piece for each token, in order. -/
def Matches (text : List α) (tokens : List (Token α)) : Prop :=
  ∃ pieces : List (List α), pieces.flatten = text ∧ List.Forall₂ Token.Fits pieces tokens

variable {text : List α} {tokens : List (Token α)}

@[simp] theorem matches_nil : Matches text [] ↔ text = [] := by
  constructor
  · rintro ⟨pieces, rfl, fits⟩
    cases fits
    rfl
  · rintro rfl
    exact ⟨[], rfl, .nil⟩

theorem matches_one : Matches text (.one takes :: tokens) ↔
    ∃ item rest, text = item :: rest ∧ takes item = true ∧ Matches rest tokens := by
  constructor
  · rintro ⟨_, rfl, _ | ⟨⟨item, rfl, passes⟩, fits⟩⟩
    exact ⟨item, _, rfl, passes, _, rfl, fits⟩
  · rintro ⟨item, _, rfl, passes, pieces, rfl, fits⟩
    exact ⟨[item] :: pieces, rfl, .cons ⟨item, rfl, passes⟩ fits⟩

theorem matches_one_cons : Matches (item :: text) (.one takes :: tokens) ↔ takes item = true ∧ Matches text tokens := by
  rw [matches_one]
  constructor
  · rintro ⟨_, _, same, passes, found⟩
    cases same
    exact ⟨passes, found⟩
  · rintro ⟨passes, found⟩
    exact ⟨item, text, rfl, passes, found⟩

theorem matches_any : Matches text (.any :: tokens) ↔ ∃ run rest, text = run ++ rest ∧ Matches rest tokens := by
  constructor
  · rintro ⟨_, rfl, _ | ⟨-, fits⟩⟩
    exact ⟨_, _, flatten_cons, _, rfl, fits⟩
  · rintro ⟨run, _, rfl, pieces, rfl, fits⟩
    exact ⟨run :: pieces, rfl, .cons trivial fits⟩

theorem matches_any_iff_drop : Matches text (.any :: tokens) ↔
    ∃ count ≤ text.length, Matches (text.drop count) tokens := by
  rw [matches_any]
  constructor
  · rintro ⟨run, rest, rfl, found⟩
    exact ⟨run.length, by simp, by rwa [drop_left]⟩
  · rintro ⟨count, -, found⟩
    exact ⟨text.take count, text.drop count, (take_append_drop count text).symm, found⟩

/-- Any run takes in what lies before it. -/
theorem Matches.any_of_drop {count : Nat} (found : Matches (text.drop count) (.any :: tokens)) :
    Matches text (.any :: tokens) := by
  obtain ⟨run, rest, split, found⟩ := matches_any.mp found
  exact matches_any.mpr ⟨text.take count ++ run, rest, by rw [append_assoc, ← split, take_append_drop], found⟩

/-- A match of two patterns one behind the other cuts the text in two. -/
theorem matches_append : Matches text (tokens ++ rest) ↔ ∃ front after, text = front ++ after ∧
    Matches front tokens ∧ Matches after rest := by
  constructor
  · rintro ⟨pieces, rfl, fits⟩
    refine ⟨_, _, ?_, ⟨_, rfl, forall₂_take_append pieces tokens rest fits⟩,
      ⟨_, rfl, forall₂_drop_append pieces tokens rest fits⟩⟩
    rw [← flatten_append, take_append_drop]
  · rintro ⟨_, _, rfl, ⟨front, rfl, fits_front⟩, ⟨after, rfl, fits_after⟩⟩
    exact ⟨front ++ after, flatten_append, rel_append fits_front fits_after⟩

/-- Two runs in a row are one. -/
theorem matches_any_any : Matches text (.any :: .any :: tokens) ↔ Matches text (.any :: tokens) := by
  rw [matches_any_iff_drop]
  exact ⟨fun ⟨_, _, found⟩ => found.any_of_drop, fun found => ⟨0, Nat.zero_le _, found⟩⟩

/-- The empty text is a pattern of runs only. -/
theorem matches_empty : Matches ([] : List α) tokens ↔ ∀ token ∈ tokens, token = .any := by
  induction tokens with
  | nil => simp
  | cons token tokens ih =>
    cases token with
    | any =>
      rw [matches_any]
      simp [ih]
    | one takes =>
      rw [matches_one]
      simp

/-- Tokens that take one item each, off the front. -/
theorem Matches.ones {ones : List (Token α)} (single : ∀ token ∈ ones, token ≠ .any)
    (found : Matches text (ones ++ rest)) :
    ones.length ≤ text.length ∧ Matches (text.drop ones.length) rest := by
  induction ones generalizing text with
  | nil => exact ⟨Nat.zero_le _, found⟩
  | cons token ones ih =>
    simp only [mem_cons, forall_eq_or_imp] at single
    cases token with
    | any => exact absurd rfl single.1
    | one takes =>
      obtain ⟨item, rest, rfl, -, found⟩ := matches_one.mp found
      obtain ⟨le, found⟩ := ih single.2 found
      exact ⟨Nat.succ_le_succ le, found⟩

/-- The text and the pattern left to try when the walk goes back: the text from one item further on. -/
abbrev Back (α : Type) := Option (List α × List (Token α))

/-- Some later place to put the last run ends in a match. -/
def Later (text : List α) (tokens : List (Token α)) : Prop :=
  ∃ count, 0 < count ∧ count ≤ text.length ∧ Matches (text.drop count) tokens

/-- What the walk is to answer: the rest matches from here, or does after it goes back. -/
def Answer (text : List α) (tokens : List (Token α)) (back : Back α) : Prop :=
  Matches text tokens ∨ ∃ from_ ∈ back, Later from_.1 from_.2

/-- Since the last run the walk passed one item for each token. -/
def Passed (text : List α) (tokens : List (Token α)) (back : Back α) : Prop :=
  ∀ from_ ∈ back, ∃ ones : List (Token α), (∀ token ∈ ones, token ≠ .any) ∧ from_.2 = ones ++ tokens ∧
    ones.length ≤ from_.1.length ∧ text = from_.1.drop ones.length

theorem passed_none : Passed text tokens none := fun _ absurd_ => by cases absurd_

theorem passed_here : Passed text tokens (some (text, tokens)) := by
  intro from_ same
  cases same
  exact ⟨[], by simp, rfl, Nat.zero_le _, rfl⟩

theorem Passed.one (passed : Passed (item :: text) (.one takes :: tokens) back) : Passed text tokens back := by
  intro from_ member
  obtain ⟨ones, single, same, le, drop⟩ := passed from_ member
  have more : ones.length < from_.1.length := by
    by_contra none_
    rw [drop_eq_nil_of_le (Nat.le_of_not_lt none_)] at drop
    cases drop
  refine ⟨ones ++ [.one takes], ?_, by rw [same, append_assoc]; rfl,
    by rw [length_append]; exact more, ?_⟩
  · intro token among
    rcases mem_append.mp among with among | among
    · exact single token among
    · rw [mem_singleton.mp among]
      exact fun absurd_ => by cases absurd_
  · rw [length_append, ← drop_drop, ← drop]
    rfl

/-- A place found by going back is past the place the walk is at. -/
theorem Passed.later (passed : Passed text tokens back) {from_ : List α × List (Token α)} (member : from_ ∈ back)
    (later : Later from_.1 from_.2) : ∃ count, 0 < count ∧ count ≤ text.length ∧ Matches (text.drop count) tokens := by
  obtain ⟨ones, single, same, le, rfl⟩ := passed from_ member
  obtain ⟨count, positive, few, found⟩ := later
  rw [same] at found
  obtain ⟨room, found⟩ := found.ones single
  rw [length_drop] at room
  refine ⟨count, positive, by rw [length_drop]; omega, ?_⟩
  rwa [drop_drop, Nat.add_comm, ← drop_drop]

/-- At a run: the ways to place the runs before it need no more be tried. -/
theorem answer_run (passed : Passed text (.any :: tokens) back) :
    Answer text (.any :: tokens) back ↔ Matches text (.any :: tokens) := by
  refine ⟨?_, .inl⟩
  rintro (found | ⟨from_, member, later⟩)
  · exact found
  · obtain ⟨count, -, -, found⟩ := passed.later member later
    exact found.any_of_drop

/-- To match from a run on, the walk starts behind it with the run as the place to go back to. -/
theorem matches_any_iff_answer : Matches text (.any :: tokens) ↔ Answer text tokens (some (text, tokens)) := by
  rw [matches_any_iff_drop]
  constructor
  · rintro ⟨count, le, found⟩
    rcases Nat.eq_zero_or_pos count with rfl | positive
    · exact .inl found
    · exact .inr ⟨_, rfl, count, positive, le, found⟩
  rintro (found | ⟨_, same, count, -, le, found⟩)
  · exact ⟨0, Nat.zero_le _, found⟩
  · cases same
    exact ⟨count, le, found⟩

theorem answer_one (passes : takes item = true) :
    Answer (item :: text) (.one takes :: tokens) back ↔ Answer text tokens back :=
  or_congr_left (by rw [matches_one_cons, passes]; exact ⟨And.right, fun found => ⟨rfl, found⟩⟩)

/-- Where nothing matches from here on, the walk goes back one item past where it last was. -/
theorem answer_back {after : List (Token α)} (none_ : ¬Matches text tokens) (some_ : from_ ≠ []) :
    Answer text tokens (some (from_, after)) ↔ Answer from_.tail after (some (from_.tail, after)) := by
  have positive := length_pos_iff.mpr some_
  constructor
  · rintro (found | ⟨_, same, count, more, le, found⟩)
    · exact absurd found none_
    cases same
    dsimp only at le found
    rcases Nat.lt_or_eq_of_le (Nat.succ_le_of_lt more) with further | rfl
    · refine .inr ⟨_, rfl, count - 1, by omega, by rw [length_tail]; omega, ?_⟩
      rwa [drop_tail, Nat.sub_add_cancel (by omega)]
    · exact .inl (by rwa [← drop_one])
  · rintro (found | ⟨_, same, count, more, le, found⟩)
    · exact .inr ⟨_, rfl, 1, Nat.one_pos, positive, by rwa [drop_one]⟩
    cases same
    rw [length_tail] at le
    rw [drop_tail] at found
    exact .inr ⟨_, rfl, count + 1, by omega, by dsimp only; omega, found⟩

/-- With nowhere to go back to there is only the match from here. -/
theorem answer_start : Answer text tokens none ↔ Matches text tokens := by
  refine ⟨?_, .inl⟩
  rintro (found | ⟨_, absurd_, -⟩)
  · exact found
  · cases absurd_

theorem answer_stuck (none_ : ¬Matches text tokens) : ¬Answer text tokens none :=
  fun found => none_ (answer_start.mp found)

/-- At the end of the text going back leaves too little of it. -/
theorem answer_end (passed : Passed [] tokens back) : Answer [] tokens back ↔ ∀ token ∈ tokens, token = .any := by
  rw [← matches_empty]
  refine ⟨?_, .inl⟩
  rintro (found | ⟨from_, member, later⟩)
  · exact found
  · obtain ⟨count, positive, le, -⟩ := passed.later member later
    simp at le
    omega

/-- A pattern that ends in a token nothing passes has no match, from here or after going back. -/
theorem not_answer_never (passed : Passed text [.one fun _ => false] back) :
    ¬Answer text [.one fun _ => false] back := by
  have never (text : List α) : ¬Matches text [.one fun _ => false] := by
    rw [matches_one]
    rintro ⟨_, _, _, absurd_, _⟩
    cases absurd_
  rintro (found | ⟨from_, member, later⟩)
  · exact never _ found
  · obtain ⟨_, _, _, found⟩ := passed.later member later
    exact never _ found

end Rudb.Lib
