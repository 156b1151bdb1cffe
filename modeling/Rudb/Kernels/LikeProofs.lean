import Mathlib.Data.List.TakeWhile
import Rudb.Kernels.Like

/-! The pattern matches hold exactly when the text is cut into pieces for the tokens of its pattern. -/
namespace Rudb.Kernels
open Rudb.Lib List Option

section Run
variable {α : Type} [DecidableEq α] {item : α} {pattern : List α}

theorem drop_skipRun : pattern.drop (skipRun item pattern against) = (pattern.drop against).dropWhile (· = item) := by
  have split := takeWhile_append_dropWhile (p := fun other => decide (other = item)) (l := pattern.drop against)
  rw [skipRun, ← drop_drop]
  nth_rewrite 2 [← split]
  exact drop_left

theorem skipRun_le (within : against ≤ pattern.length) : skipRun item pattern against ≤ pattern.length := by
  have few := (takeWhile_sublist (fun other => decide (other = item)) (l := pattern.drop against)).length_le
  rw [length_drop] at few
  unfold skipRun
  omega

theorem skipRun_eq_length (within : against ≤ pattern.length) :
    skipRun item pattern against = pattern.length ↔ ∀ other ∈ pattern.drop against, other = item := by
  have total : ((pattern.drop against).takeWhile (· = item)).length +
    ((pattern.drop against).dropWhile (· = item)).length =
      pattern.length - against := by
    rw [← length_append, takeWhile_append_dropWhile, length_drop]
  have all : (pattern.drop against).dropWhile (· = item) = [] ↔ ∀ other ∈ pattern.drop against, other = item := by
    simp
  rw [← all, ← length_eq_zero_iff, skipRun]
  omega

end Run

def likeToken (char : Char) : Token Char :=
  if char = '%' then .any else if char = '_' then .one fun _ => true else .one (· == char)

def likeTokens (pattern : List Char) : List (Token Char) := pattern.map likeToken

theorem likeToken_any : likeToken char = .any ↔ char = '%' := by
  unfold likeToken
  split
  · simp_all
  · split <;> simp_all

theorem likeToken_one (tame : char ≠ '%') :
    likeToken char = .one fun other => decide (char = '_') || decide (char = other) := by
  unfold likeToken
  rw [if_neg tame]
  split
  · simp_all
  rename_i other
  rw [decide_eq_false other]
  congr 1
  funext taken
  exact decide_eq_decide.mpr eq_comm

namespace LikeWalk
variable {text pattern : List Char}

def back (walk : LikeWalk text pattern) : Back Char :=
  walk.star.map fun back => (text.drop walk.resume, (likeTokens pattern).drop (back + 1))

theorem drop_likeTokens {against : Nat} (here : pattern[against]? = some char) :
    (likeTokens pattern).drop against = likeToken char :: (likeTokens pattern).drop (against + 1) := by
  obtain ⟨lt, same⟩ := List.getElem?_eq_some_iff.mp here
  unfold likeTokens
  rw [List.drop_eq_getElem_cons (by rwa [List.length_map]), List.getElem_map, same]

/-- Where the walk neither meets a run nor passes a character, nothing matches from there. -/
theorem not_matches {place against : Nat} (more : place < text.length) (tame : pattern[against]? ≠ some '%')
    (stuck : ¬(pattern[against]?.any fun char => char = '_' || char = text[place]) = true) :
    ¬Matches (text.drop place) ((likeTokens pattern).drop against) := by
  rw [drop_eq_getElem_cons more]
  cases here : pattern[against]? with
  | none =>
    have beyond : (likeTokens pattern).length ≤ against := by
      rw [likeTokens, length_map]
      exact getElem?_eq_none_iff.mp here
    rw [drop_eq_nil_of_le beyond, matches_nil]
    exact cons_ne_nil _ _
  | some char =>
    rw [here] at tame stuck
    rw [drop_likeTokens here, likeToken_one (fun same => tame (by rw [same])), matches_one_cons]
    exact fun found => stuck found.1

theorem run_iff (walk : LikeWalk text pattern) (within : walk.against ≤ pattern.length)
    (passed : Passed (text.drop walk.place) ((likeTokens pattern).drop walk.against) walk.back) :
    walk.run = true ↔ Answer (text.drop walk.place) ((likeTokens pattern).drop walk.against) walk.back := by
  fun_induction run walk with
  | case1 walk more wild ih =>
    have here := drop_likeTokens wild
    rw [likeToken_any.mpr rfl] at here
    rw [here] at passed ⊢
    rw [answer_run passed, matches_any_iff_answer]
    exact ih (List.getElem?_eq_some_iff.mp wild).1 passed_here
  | case2 walk more tame takes ih =>
    obtain ⟨char, here, takes⟩ : ∃ char, pattern[walk.against]? = some char ∧
        (decide (char = '_') || decide (char = text[walk.place])) = true := by
      cases here : pattern[walk.against]? with
      | none => simp [here] at takes
      | some char => exact ⟨char, rfl, by simpa [here] using takes⟩
    have tokens := drop_likeTokens here
    rw [likeToken_one (fun same => tame (by rw [here, same]))] at tokens
    rw [tokens, List.drop_eq_getElem_cons more] at passed ⊢
    exact (ih (List.getElem?_eq_some_iff.mp here).1 passed.one).trans (Iff.symm (answer_one takes))
  | case3 walk more tame stuck back star ih =>
    have left : text.drop walk.resume ≠ [] := by
      have := walk.before
      rw [Ne, drop_eq_nil_iff]
      omega
    have behind := walk.behind back star
    simp only [LikeWalk.back, star, map_some] at ih ⊢
    rw [answer_back (not_matches more tame stuck) left, tail_drop]
    exact ih (by omega) passed_here
  | case4 walk more tame stuck star =>
    unfold LikeWalk.back
    rw [star]
    exact iff_of_false Bool.false_ne_true (answer_stuck (not_matches more tame stuck))
  | case5 walk more =>
    rw [drop_eq_nil_of_le (not_lt.mp more)] at passed ⊢
    rw [answer_end passed, decide_eq_true_eq, skipRun_eq_length within, likeTokens, ← map_drop]
    simp only [List.mem_map, forall_exists_index, and_imp, forall_apply_eq_imp_iff₂, likeToken_any]

end LikeWalk

/-- The walk with one place to go back to finds a match exactly when there is one. -/
theorem like_iff : like text pattern = true ↔ Matches text (likeTokens pattern) := by
  rw [like, (LikeWalk.start text pattern).run_iff (Nat.zero_le _) passed_none]
  exact answer_start

/-- What a pattern with an escape stands for; none when it ends in a lone escape. -/
def escapedTokens (escape : Char) : List Char → Option (List (Token Char))
  | [] => some []
  | [wanted] => if wanted = escape then none else some [likeToken wanted]
  | wanted :: literal :: rest =>
    if wanted = escape then (escapedTokens escape rest).map (.one (· == literal) :: ·)
    else (escapedTokens escape (literal :: rest)).map (likeToken wanted :: ·)

section Escaped
/-- An answer that is not an error, and holds exactly when a proposition does. -/
def Answers (answer : Except String Bool) (holds : Prop) : Prop := ∃ held, answer = .ok held ∧ (held = true ↔ holds)

theorem answers_ok (same : held = true ↔ holds) : Answers (.ok held) holds := ⟨held, rfl, same⟩

theorem Answers.congr (answers : Answers answer one) (same : one ↔ other) :
    Answers answer other :=
  ⟨_, answers.choose_spec.1, answers.choose_spec.2.trans same⟩

theorem escapedTokens_cons (tame : wanted ≠ escape) (read : escapedTokens escape (wanted :: pattern) = some tokens) :
    ∃ behind, escapedTokens escape pattern = some behind ∧ likeToken wanted :: behind = tokens := by
  refine map_eq_some_iff.mp (Eq.trans ?_ read)
  cases pattern with
  | nil => simp [escapedTokens, tame]
  | cons => rw [escapedTokens, if_neg tame]

theorem escapedTokens_escape (read : escapedTokens escape (escape :: literal :: pattern) = some tokens) :
    ∃ behind, escapedTokens escape pattern = some behind ∧ .one (· == literal) :: behind = tokens := by
  rw [escapedTokens, if_pos rfl] at read
  exact map_eq_some_iff.mp read

theorem escapedRest_answers (read : escapedTokens escape pattern = some tokens) :
    Answers (escapedRest escape [] pattern) (∀ token ∈ tokens, token = .any) := by
  induction pattern generalizing tokens with
  | nil =>
    cases read
    exact answers_ok (by simp)
  | cons wanted pattern ih =>
    unfold escapedRest
    by_cases here : wanted = escape
    · rw [if_pos here]
      cases pattern with
      | nil => simp [escapedTokens, here] at read
      | cons literal pattern =>
        subst here
        obtain ⟨tokens, -, rfl⟩ := escapedTokens_escape read
        exact answers_ok (by simp)
    obtain ⟨tokens, behind, rfl⟩ := escapedTokens_cons here read
    rw [if_neg here]
    by_cases wild : wanted = '%'
    · rw [if_neg (not_not.mpr wild)]
      exact (ih behind).congr (by simp [likeToken_any, wild])
    · rw [if_pos wild]
      exact answers_ok (by simp [likeToken_any, wild])

theorem firstHeld_answers {holds : List Char → Prop}
    (answers : ∀ text, Answers (tries text) (holds text)) :
    Answers (firstHeld tries texts) (∃ text ∈ texts, holds text) := by
  induction texts with
  | nil => exact answers_ok (by simp)
  | cons text texts ih =>
    obtain ⟨held, same, holds_⟩ := answers text
    rw [firstHeld, same]
    cases held with
    | true => exact answers_ok (by simp [holds_.mp rfl])
    | false => exact ih.congr (by simp [show ¬holds text from fun absurd_ => by cases holds_.mpr absurd_])

/-- The runs behind a run add nothing to it. -/
theorem escapedTokens_dropWhile (tame : '%' ≠ escape) (read : escapedTokens escape pattern = some tokens) :
    ∃ after, escapedTokens escape (pattern.dropWhile (· = '%')) = some after ∧
      ∀ text, Matches text (.any :: tokens) ↔ Matches text (.any :: after) := by
  induction pattern generalizing tokens with
  | nil => exact ⟨tokens, read, fun _ => Iff.rfl⟩
  | cons wanted pattern ih =>
    by_cases wild : wanted = '%'
    · rw [wild] at read
      obtain ⟨tokens, behind, rfl⟩ := escapedTokens_cons tame read
      obtain ⟨after, left, same⟩ := ih behind
      refine ⟨after, by rwa [dropWhile_cons_of_pos (by simpa using wild)], fun text => ?_⟩
      rw [likeToken_any.mpr rfl, matches_any_any, same]
    · rw [dropWhile_cons_of_neg (by simpa using wild)]
      exact ⟨tokens, read, fun _ => Iff.rfl⟩

/-- A pattern that starts with no run takes a character of the text. -/
theorem not_matches_nil (tame : pattern.head? ≠ some '%') (some_ : pattern ≠ [])
    (read : escapedTokens escape pattern = some tokens) :
    ¬Matches [] tokens := by
  obtain ⟨wanted, pattern, rfl⟩ := exists_cons_of_ne_nil some_
  rw [matches_empty]
  intro all
  by_cases here : wanted = escape
  · cases pattern with
    | nil => simp [escapedTokens, here] at read
    | cons literal pattern =>
      subst here
      obtain ⟨tokens, -, rfl⟩ := escapedTokens_escape read
      cases all _ mem_cons_self
  · obtain ⟨tokens, -, rfl⟩ := escapedTokens_cons here read
    exact tame (by rw [head?_cons, likeToken_any.mp (all _ mem_cons_self)])

theorem likeEscaped_answers (read : escapedTokens escape pattern = some tokens) :
    Answers (likeEscaped escape text pattern) (Matches text tokens) := by
  fun_induction likeEscaped escape text pattern generalizing tokens with
  | case1 => simp [escapedTokens] at read
  | case2 char chars literal rest different =>
    obtain ⟨tokens, -, rfl⟩ := escapedTokens_escape read
    exact answers_ok (by simp [matches_one_cons, different.symm])
  | case3 char chars literal rest same ih =>
    obtain ⟨tokens, behind, rfl⟩ := escapedTokens_escape read
    exact (ih behind).congr (by simp [matches_one_cons, not_not.mp same])
  | case4 rest char chars tame ih =>
    obtain ⟨tokens, behind, rfl⟩ := escapedTokens_cons tame read
    exact (ih behind).congr (by simp [likeToken, matches_one_cons])
  | case5 rest char chars after none_ tame =>
    obtain ⟨tokens, behind, rfl⟩ := escapedTokens_cons tame read
    obtain ⟨left, read_, same⟩ := escapedTokens_dropWhile tame behind
    rw [show rest.dropWhile (· = '%') = [] from none_] at read_
    cases read_
    exact answers_ok (by simp [likeToken_any.mpr, same, matches_any])
  | case6 rest char chars after some_ tame =>
    rename_i ih
    obtain ⟨tokens, behind, rfl⟩ := escapedTokens_cons tame read
    obtain ⟨left, read_, same⟩ := escapedTokens_dropWhile tame behind
    have head : after.head? ≠ some '%' := by
      have tops := head?_dropWhile_not (· = '%') rest
      intro wild
      rw [show (rest.dropWhile (· = '%')).head? = _ from wild] at tops
      simp at tops
    refine (firstHeld_answers fun text => ih text read_).congr ?_
    rw [likeToken_any.mpr rfl, same, matches_any_iff_drop]
    -- the text with nothing left is no place for a pattern that takes a character
    constructor
    · rintro ⟨_, member, found⟩
      obtain ⟨count, few, rfl⟩ := mem_map.mp member
      exact ⟨count, le_of_lt (mem_range.mp few), found⟩
    rintro ⟨count, few, found⟩
    refine ⟨_, mem_map.mpr ⟨count, mem_range.mpr (lt_of_le_of_ne few ?_), rfl⟩, found⟩
    rintro rfl
    rw [show (char :: chars).drop (chars.length + 1) = [] from drop_length] at found
    exact not_matches_nil head some_ read_ found
  | case7 rest char chars tame one wild ih =>
    obtain ⟨tokens, behind, rfl⟩ := escapedTokens_cons tame read
    rw [likeToken, if_neg wild, if_neg one]
    exact (ih behind).congr (by simp [matches_one_cons])
  | case8 wanted rest char chars tame one wild different =>
    obtain ⟨tokens, behind, rfl⟩ := escapedTokens_cons tame read
    rw [likeToken, if_neg wild, if_neg one]
    exact answers_ok (by simp [matches_one_cons, Ne.symm different])
  | case9 text =>
    cases read
    exact answers_ok (by simp)
  | case10 wanted rest =>
    rw [matches_empty]
    exact escapedRest_answers read

end Escaped

end Rudb.Kernels
