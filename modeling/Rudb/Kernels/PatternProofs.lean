import Rudb.Kernels.GlobProofs

/-! A compiled `LIKE` pattern gives the answer of the walk over characters, whichever shape it was compiled to, and every
pattern match is the cut of the text its pattern stands for. -/
namespace Rudb.Kernels
open Rudb.Lib List Option

section Literals
variable {literals : List Char}

section
variable (plain_ : ∀ char ∈ literals, char ≠ '%' ∧ char ≠ '_')
include plain_

theorem matches_literals :
    Matches text (likeTokens literals ++ rest) ↔ ∃ after, text = literals ++ after ∧ Matches after rest := by
  induction literals generalizing text with
  | nil => simp [likeTokens]
  | cons char literals ih =>
    simp only [mem_cons, forall_eq_or_imp] at plain_
    obtain ⟨⟨wild, one⟩, plain_⟩ := plain_
    have token : likeToken char = .one (· == char) := by rw [likeToken, if_neg wild, if_neg one]
    rw [likeTokens, map_cons, token, cons_append, matches_one]
    constructor
    · rintro ⟨item, behind, rfl, same, found⟩
      obtain ⟨after, rfl, found_after⟩ := (ih plain_).mp found
      exact ⟨after, by rw [eq_of_beq same, cons_append], found_after⟩
    · rintro ⟨after, rfl, found⟩
      exact ⟨char, literals ++ after, rfl, beq_self_eq_true char, (ih plain_).mpr ⟨after, rfl, found⟩⟩

theorem matches_literals_end : Matches text (likeTokens literals) ↔ text = literals := by
  rw [← append_nil (likeTokens literals), matches_literals plain_]
  simp

end

theorem plain_iff : plain literals = true ↔ ∀ char ∈ literals, char ≠ '%' ∧ char ≠ '_' := by
  simp only [plain, Bool.and_eq_true, Bool.not_eq_true', contains_eq_mem, decide_eq_false_iff_not]
  constructor
  · rintro ⟨wild, one⟩ char member
    exact ⟨fun same => wild (same ▸ member), fun same => one (same ▸ member)⟩
  · intro all
    exact ⟨fun member => (all _ member).1 rfl, fun member => (all _ member).2 rfl⟩

end Literals

section Find
theorem find_some (found : find needle haystack = some place) :
    ∃ run rest, haystack = run ++ (needle ++ rest) ∧ run.length = place ∧
      ∀ other behind, haystack = other ++ (needle ++ behind) → place ≤ other.length := by
  obtain ⟨here, few, first⟩ := find?_range_eq_some.mp found
  obtain ⟨rest, split⟩ := isPrefixOf_iff_prefix.mp here
  have le : place ≤ haystack.length := Nat.le_of_lt_succ (mem_range.mp few)
  refine ⟨haystack.take place, rest, by rw [split, take_append_drop], length_take_of_le le, ?_⟩
  rintro other behind rfl
  by_contra before
  have absurd_ := first _ (not_le.mp before)
  rw [drop_left, isPrefixOf_iff_prefix.mpr (prefix_append _ _)] at absurd_
  cases absurd_

theorem find_none (none_ : find needle haystack = none) (run rest : List UInt8) :
    haystack ≠ run ++ (needle ++ rest) := by
  rintro rfl
  have absurd_ := find?_range_eq_none.mp none_ run.length (by simp only [length_append]; omega)
  rw [drop_left, isPrefixOf_iff_prefix.mpr (prefix_append _ _)] at absurd_
  cases absurd_

end Find

section Segments
/-- A run before each piece. -/
def between (pieces : List (List Char)) : List (Token Char) := pieces.flatMap fun piece => .any :: likeTokens piece

theorem exists_between_any (pieces : List (List Char)) : ∃ rest, between pieces ++ [.any] = .any :: rest := by
  cases pieces with
  | nil | cons => exact ⟨_, rfl⟩

/-- The first place of a piece leaves the most text for what comes behind it. -/
theorem matches_leftmost {before after : List Char}
    (plain_ : ∀ char ∈ piece, char ≠ '%' ∧ char ≠ '_')
    (first : ∀ other behind, before ++ (piece ++ after) = other ++ (piece ++ behind) → before.length ≤ other.length) :
    Matches (before ++ (piece ++ after)) (.any :: (likeTokens piece ++ .any :: rest)) ↔
      Matches after (.any :: rest) := by
  rw [matches_any]
  constructor
  · rintro ⟨other, _, same, found⟩
    obtain ⟨behind, rfl, found_behind⟩ := (matches_literals plain_).mp found
    obtain ⟨more, rfl⟩ := prefix_of_prefix_length_le ⟨_, rfl⟩ ⟨_, same.symm⟩ (first other behind same)
    rw [append_assoc] at same
    have later : after.drop more.length = behind := by
      have drop := congrArg (List.drop (piece.length + more.length)) (append_cancel_left same)
      rw [← drop_drop, drop_left, Nat.add_comm, ← drop_drop, drop_left, drop_left] at drop
      exact drop
    rw [← later] at found_behind
    exact found_behind.any_of_drop
  · intro found
    exact ⟨before, piece ++ after, rfl, (matches_literals plain_).mpr ⟨after, rfl, found⟩⟩

/-- Looking for the pieces in order, each at its first place, finds them when there is a way to. -/
theorem findAll_iff (some_ : ∀ middle ∈ middles, middle ≠ [])
    (plain_ : ∀ middle ∈ middles, ∀ char ∈ middle, char ≠ '%' ∧ char ≠ '_') :
    findAll (utf8 text) middles = true ↔ Matches text (between middles ++ [.any]) := by
  induction middles generalizing text with
  | nil => exact iff_of_true rfl (matches_any.mpr ⟨text, [], (append_nil _).symm, matches_nil.mpr rfl⟩)
  | cons middle middles ih =>
    simp only [mem_cons, forall_eq_or_imp] at some_ plain_
    obtain ⟨rest, rest_eq⟩ := exists_between_any middles
    have ih (text : List Char) := @ih text some_.2 plain_.2
    have tokens : between (middle :: middles) ++ [.any] = .any :: (likeTokens middle ++ .any :: rest) := by
      rw [← rest_eq, between, flatMap_cons, ← between]
      simp
    rw [tokens, findAll]
    cases found : find (utf8 middle) (utf8 text) with
    | none =>
      refine iff_of_false Bool.false_ne_true fun matched => ?_
      obtain ⟨run, _, rfl, behind⟩ := matches_any.mp matched
      obtain ⟨after, rfl, -⟩ := (matches_literals plain_.1).mp behind
      exact find_none found (utf8 run) (utf8 after) (by simp)
    | some place =>
      obtain ⟨run, behind, split, length_run, first⟩ := find_some found
      obtain ⟨before, after, rfl, rfl, rfl⟩ := utf8_infix some_.1 split
      have drop : (utf8 (before ++ (middle ++ after))).drop (place + (utf8 middle).length) = utf8 after := by
        rw [← length_run, ← drop_drop, utf8_append, utf8_append, drop_left, drop_left]
      dsimp only
      rw [drop, ih after, rest_eq, matches_leftmost plain_.1]
      intro other behind same
      have early := first (utf8 other) (utf8 behind) (by rw [same]; simp)
      by_contra shorter
      obtain ⟨more, rfl⟩ := prefix_of_prefix_length_le ⟨_, same.symm⟩ ⟨_, rfl⟩ (Nat.le_of_not_le shorter)
      have some_more : more ≠ [] := fun none_ => shorter (by simp [none_])
      have := length_pos_iff.mpr (utf8_eq_nil.not.mpr some_more)
      rw [← length_run, utf8_append, length_append] at early
      omega

/-- The bytes between the two ends are those of the characters between them. -/
theorem Split.holds_iff {split : Split} (some_ : ∀ middle ∈ split.middles, middle ≠ [])
    (plain_ : ∀ middle ∈ split.middles, ∀ char ∈ middle, char ≠ '%' ∧ char ≠ '_') : split.holds (utf8 text) = true ↔
      ∃ inner, text = split.opening ++ (inner ++ split.closing) ∧ Matches inner (between split.middles ++ [.any]) := by
  constructor
  · intro holds_
    unfold Split.holds at holds_
    split at holds_
    · cases holds_
    rename_i ends
    simp only [Bool.or_eq_true, Bool.not_eq_true', not_or, Bool.not_eq_false] at ends
    split at holds_
    · cases holds_
    dsimp only at holds_
    split at holds_
    · cases holds_
    rename_i room fits
    obtain ⟨rest, front⟩ := isPrefixOf_iff_prefix.mp ends.1
    obtain ⟨run, back⟩ := isSuffixOf_iff_suffix.mp ends.2
    have length_run : (utf8 text).length - (utf8 split.closing).length = run.length := by
      rw [← back, length_append, Nat.add_sub_cancel]
    rw [length_run] at fits holds_
    obtain ⟨inner, rfl⟩ := prefix_of_prefix_length_le ⟨rest, front⟩ ⟨_, back⟩ (not_lt.mp fits)
    obtain ⟨before, rfl, bytes⟩ := utf8_back back.symm
    obtain ⟨between_, rfl, inner_bytes⟩ := utf8_front bytes
    rw [← back, take_left, drop_left, ← inner_bytes] at holds_
    exact ⟨between_, append_assoc _ _ _, (findAll_iff some_ plain_).mp holds_⟩
  · rintro ⟨inner, rfl, found⟩
    have length_eq : (utf8 (split.opening ++ (inner ++ split.closing))).length =
        (utf8 split.opening).length + ((utf8 inner).length + (utf8 split.closing).length) := by simp
    have stop : (utf8 (split.opening ++ (inner ++ split.closing))).length - (utf8 split.closing).length =
        (utf8 split.opening ++ utf8 inner).length := by
      rw [length_append]
      omega
    unfold Split.holds
    rw [if_neg, if_neg]
    · rw [stop, if_neg (by rw [length_append]; omega), utf8_append, utf8_append, ← append_assoc, take_left,
        drop_left, findAll_iff some_ plain_]
      exact found
    · omega
    simp only [Bool.or_eq_true, Bool.not_eq_true', not_or, Bool.not_eq_false]
    refine ⟨ isPrefixOf_iff_prefix.mpr ⟨_, (utf8_append _ _).symm⟩, isSuffixOf_iff_suffix.mpr ?_⟩
    rw [utf8_append, utf8_append, ← append_assoc]
    exact suffix_append _ _

/-- An empty piece is two runs in a row, which are one. -/
theorem matches_between_filter :
    Matches text (between (middles.filter (· ≠ [])) ++ [.any]) ↔ Matches text (between middles ++ [.any]) := by
  induction middles generalizing text with
  | nil => exact Iff.rfl
  | cons middle middles ih =>
    by_cases empty : middle = []
    · subst empty
      obtain ⟨rest, rest_eq⟩ := exists_between_any middles
      have tokens : between ([] :: middles) ++ [.any] = .any :: (between middles ++ [.any]) := rfl
      rw [filter_cons_of_neg (by simp), ih, tokens, rest_eq, matches_any_any]
    have tokens (rest : List (List Char)) : between (middle :: rest) ++ [.any] =
        (.any :: likeTokens middle) ++ (between rest ++ [.any]) := by
      rw [between, flatMap_cons, ← between, append_assoc]
    rw [filter_cons_of_pos (by simpa using empty), tokens, tokens, matches_append, matches_append]
    simp only [ih]

theorem likeTokens_append (one other : List Char) : likeTokens (one ++ other) = likeTokens one ++ likeTokens other :=
  map_append

theorem splitAt_self :
    splitAt item (item :: rest) = ([], (splitAt item rest).1 :: (splitAt item rest).2) := by
  exact if_pos rfl

theorem splitAt_other (different : first ≠ item) :
    splitAt item (first :: rest) = (first :: (splitAt item rest).1, (splitAt item rest).2) := by
  exact if_neg different

theorem likeTokens_splitAt (spelling : List Char) :
    likeTokens spelling = likeTokens (splitAt '%' spelling).1 ++ between (splitAt '%' spelling).2 := by
  induction spelling with
  | nil => rfl
  | cons char spelling ih =>
    by_cases wild : char = '%'
    · rw [wild]
      have tokens : likeTokens ('%' :: spelling) = .any :: likeTokens spelling := rfl
      rw [tokens, ih]
      rfl
    rw [splitAt_other wild]
    have tokens : likeTokens (char :: spelling) = likeToken char :: likeTokens spelling := rfl
    rw [tokens, ih]
    rfl

theorem splitAt_plain (none_ : '_' ∉ spelling) :
    ∀ piece ∈ (splitAt '%' spelling).1 :: (splitAt '%' spelling).2, ∀ char ∈ piece, char ≠ '%' ∧ char ≠ '_' := by
  induction spelling with
  | nil => simp [splitAt]
  | cons char spelling ih =>
    simp only [mem_cons, not_or] at none_
    have ih := ih none_.2
    by_cases wild : char = '%'
    · rw [wild, splitAt_self]
      intro piece member
      rcases mem_cons.mp member with rfl | member
      · simp
      · exact ih piece member
    rw [splitAt_other wild]
    intro piece member
    rcases mem_cons.mp member with rfl | member
    · intro other among
      rcases mem_cons.mp among with rfl | among
      · exact ⟨wild, Ne.symm none_.1⟩
      · exact ih _ mem_cons_self other among
    · exact ih piece (mem_cons_of_mem _ member)

theorem segmentsOf_holds (none_ : '_' ∉ spelling) (cut : segmentsOf spelling = some split) :
    split.holds (utf8 text) = true ↔ Matches text (likeTokens spelling) := by
  have plain_ := splitAt_plain none_
  have tokens := likeTokens_splitAt spelling
  unfold segmentsOf at cut
  cases pieces_eq : splitAt '%' spelling with
  | mk opening pieces =>
    rw [pieces_eq] at cut plain_ tokens
    dsimp only at cut tokens plain_
    split at cut
    · cases cut
    rename_i some_
    cases cut
    obtain ⟨middles, closing, rfl⟩ := (eq_nil_or_concat' pieces).resolve_left some_
    have plain_closing := plain_ closing (by simp)
    have plain_opening := plain_ opening (by simp)
    have tokens_eq : between (middles ++ [closing]) = (between middles ++ [.any]) ++ likeTokens closing := by
      simp [between]
    rw [Split.holds_iff, tokens, matches_literals plain_opening, tokens_eq]
    · simp only [dropLast_concat, getLastD_concat, matches_between_filter]
      constructor
      · rintro ⟨inner, rfl, found⟩
        exact ⟨_, rfl, matches_append.mpr ⟨inner, closing, rfl, found, (matches_literals_end plain_closing).mpr rfl⟩⟩
      · rintro ⟨_, rfl, found⟩
        obtain ⟨inner, _, rfl, found_inner, found_closing⟩ := matches_append.mp found
        exact ⟨inner, by rw [(matches_literals_end plain_closing).mp found_closing], found_inner⟩
    · simp
    · simp only [dropLast_concat, mem_filter]
      exact fun middle member => plain_ middle (by simp [member.1])

end Segments

section Shapes
theorem stripFront_eq (stripped : stripFront item text = some rest) : text = item :: rest := by
  cases text with
  | nil => cases stripped
  | cons first text =>
    rw [stripFront] at stripped
    split at stripped
    · rename_i same
      cases stripped
      rw [same]
    · cases stripped

theorem stripBack_eq {head : List Char} (stripped : stripBack item text = some head) : text = head ++ [item] := by
  unfold stripBack at stripped
  split at stripped
  · rename_i last
    cases stripped
    exact (dropLast_append_getLast? item last).symm
  · cases stripped

theorem contains_holds (plain_ : ∀ char ∈ needle, char ≠ '%' ∧ char ≠ '_') :
    (find (utf8 needle) (utf8 text)).isSome = true ↔ Matches text (likeTokens ('%' :: (needle ++ ['%']))) := by
  have tokens : likeTokens ('%' :: (needle ++ ['%'])) = .any :: (likeTokens needle ++ [.any]) := by
    rw [likeTokens, map_cons, ← likeTokens, likeTokens_append]
    rfl
  rw [tokens, matches_any]
  constructor
  · intro found
    obtain ⟨place, found⟩ := isSome_iff_exists.mp found
    obtain ⟨run, rest, split, -, -⟩ := find_some found
    have cut : ∃ before after, text = before ++ (needle ++ after) := by
      by_cases empty : needle = []
      · exact ⟨[], text, by simp [empty]⟩
      · obtain ⟨before, after, same, -, -⟩ := utf8_infix empty split
        exact ⟨before, after, same⟩
    obtain ⟨before, after, rfl⟩ := cut
    refine ⟨before, _, rfl, (matches_literals plain_).mpr ⟨after, rfl, matches_any.mpr ?_⟩⟩
    exact ⟨after, [], (append_nil _).symm, matches_nil.mpr rfl⟩
  · rintro ⟨before, _, rfl, found⟩
    obtain ⟨after, rfl, -⟩ := (matches_literals plain_).mp found
    rw [isSome_iff_ne_none]
    exact fun none_ => find_none none_ (utf8 before) (utf8 after) (by simp)

section
variable {against : List Char} (plain_ : ∀ char ∈ against, char ≠ '%' ∧ char ≠ '_')
include plain_

theorem suffix_holds : (utf8 against).isSuffixOf (utf8 text) = true ↔ Matches text (likeTokens ('%' :: against)) := by
  have tokens : likeTokens ('%' :: against) = .any :: likeTokens against := rfl
  rw [tokens, matches_any]
  constructor
  · intro ends
    obtain ⟨run, split⟩ := isSuffixOf_iff_suffix.mp ends
    obtain ⟨before, rfl, -⟩ := utf8_back split.symm
    exact ⟨before, against, rfl, (matches_literals_end plain_).mpr rfl⟩
  · rintro ⟨before, _, rfl, found⟩
    rw [(matches_literals_end plain_).mp found, utf8_append]
    exact isSuffixOf_iff_suffix.mpr (suffix_append _ _)

theorem prefix_holds : (utf8 against).isPrefixOf (utf8 text) = true ↔ Matches text (likeTokens (against ++ ['%'])) := by
  rw [likeTokens_append, matches_literals plain_]
  constructor
  · intro starts
    obtain ⟨rest, split⟩ := isPrefixOf_iff_prefix.mp starts
    obtain ⟨after, rfl, -⟩ := utf8_front split.symm
    exact ⟨after, rfl, matches_any.mpr ⟨after, [], (append_nil _).symm, matches_nil.mpr rfl⟩⟩
  · rintro ⟨after, rfl, -⟩
    rw [utf8_append]
    exact isPrefixOf_iff_prefix.mpr (prefix_append _ _)

end

/-- Every shape a spelling is compiled to holds exactly when the spelling matches. -/
theorem compile_holds : (Pattern.compile spelling).holds text = true ↔ Matches text (likeTokens spelling) := by
  unfold Pattern.compile
  split
  · rename_i literal
    rw [matches_literals_end (plain_iff.mp literal), Pattern.holds, decide_eq_true_eq]
    exact ⟨utf8_inj, congrArg utf8⟩
  split
  · rename_i inner kept
    obtain ⟨stripped, plain_⟩ := filter_eq_some_iff.mp kept
    obtain ⟨rest, front, back⟩ := bind_eq_some_iff.mp stripped
    rw [stripFront_eq front, stripBack_eq back]
    exact contains_holds (plain_iff.mp plain_)
  split
  · rename_i rest kept
    obtain ⟨front, plain_⟩ := filter_eq_some_iff.mp kept
    rw [stripFront_eq front]
    exact suffix_holds (plain_iff.mp plain_)
  split
  · rename_i head kept
    obtain ⟨back, plain_⟩ := filter_eq_some_iff.mp kept
    rw [stripBack_eq back]
    exact prefix_holds (plain_iff.mp plain_)
  split
  · rename_i none_
    split
    · rename_i split cut
      exact segmentsOf_holds (by simpa using none_) cut
    · exact like_iff
  · exact like_iff

end Shapes

/-- `LIKE`, its compiled shapes, `LIKE ... ESCAPE` and `GLOB` hold exactly when the text is cut into pieces for what the
pattern stands for. -/
theorem patterns_match_as_defined :
    (∀ text pattern : List Char, like text pattern = true ↔ Matches text (likeTokens pattern)) ∧
    (∀ spelling text : List Char, (Pattern.compile spelling).holds text = like text spelling) ∧
    (∀ (escape : Char) (text pattern : List Char) (tokens : List (Token Char)),
      escapedTokens escape pattern = some tokens →
      ∃ held, likeEscaped escape text pattern = .ok held ∧ (held = true ↔ Matches text tokens)) ∧
    (∀ text pattern : List UInt8, glob text pattern = true ↔ Matches text (globTokens pattern)) := by
  refine ⟨fun _ _ => like_iff, fun spelling text => ?_, fun _ _ _ _ read =>
    likeEscaped_answers read, fun _ _ => glob_iff⟩
  rw [Bool.eq_iff_iff, compile_holds, like_iff]

/-- An escaped `%` is itself. -/
theorem patterns_match_as_defined_escaped :
    ∃ held, likeEscaped '!' ['%'] ['!', '%'] = .ok held ∧ (held = true ↔ Matches ['%'] [.one (· == '%')]) :=
  patterns_match_as_defined.2.2.1 '!' ['%'] ['!', '%'] _ rfl

end Rudb.Kernels
