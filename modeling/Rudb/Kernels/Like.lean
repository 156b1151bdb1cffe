import Rudb.Lib.Utf8
import Rudb.Lib.Wildcard

/-! The pattern matches of SQL: `LIKE` with its compiled shapes, `LIKE ... ESCAPE` and `GLOB`.
Embeds scalar.rs and glob.rs of rudb-kernels. -/
namespace Rudb.Kernels
open Rudb.Lib List Option

/-- The place past a run of one item. -/
def skipRun {α : Type} [DecidableEq α] (item : α) (pattern : List α) (against : Nat) : Nat :=
  against + ((pattern.drop against).takeWhile (· = item)).length

/-- Where the walk of `like` is, and the last wildcard it can go back to. -/
structure LikeWalk (text pattern : List Char) where
  place : Nat
  against : Nat
  star : Option Nat
  resume : Nat
  inside : place ≤ text.length
  before : resume ≤ place
  behind : ∀ back ∈ star, back < against

namespace LikeWalk
variable {text pattern : List Char}

/-- The loop of `like`. -/
def run (walk : LikeWalk text pattern) : Bool :=
  if more : walk.place < text.length then
    if wild : pattern[walk.against]? = some '%' then
      run { walk with
        star := some walk.against, resume := walk.place, against := walk.against + 1, before := le_rfl
        behind := fun back same => by cases same; exact Nat.lt_succ_self _ }
    else if pattern[walk.against]?.any fun char => char = '_' || char = text[walk.place] then
      run { walk with
        place := walk.place + 1, against := walk.against + 1, inside := more, before := Nat.le_succ_of_le walk.before
        behind := fun back member => Nat.lt_succ_of_lt (walk.behind back member) }
    else
      match star : walk.star with
      | some back =>
        run { walk with
          against := back + 1, resume := walk.resume + 1, place := walk.resume + 1
          inside := walk.before.trans_lt more, before := le_rfl
          behind := fun other member => by rw [star] at member; cases member; exact Nat.lt_succ_self _ }
      | none => false
  else skipRun '%' pattern walk.against = pattern.length
termination_by (pattern.length - (walk.star.map (· + 1)).getD 0, text.length - walk.resume, text.length - walk.place)
decreasing_by
  · refine Prod.Lex.left _ _ ?_
    have lt := (List.getElem?_eq_some_iff.mp wild).1
    have behind := walk.behind
    cases star : walk.star with
    | none =>
      simp only [map_some, map_none, getD_some, getD_none]
      omega
    | some back =>
      have := behind back star
      simp only [map_some, getD_some]
      omega
  · refine Prod.Lex.right _ (Prod.Lex.right _ ?_)
    omega
  · refine Prod.Lex.right _ (Prod.Lex.left _ _ ?_)
    have := walk.before
    omega

def start (text pattern : List Char) : LikeWalk text pattern where
  place := 0
  against := 0
  star := none
  resume := 0
  inside := Nat.zero_le _
  before := le_rfl
  behind _ absurd_ := by cases absurd_

end LikeWalk

/-- `like`. -/
def like (text pattern : List Char) : Bool := (LikeWalk.start text pattern).run

/-- `find`: the leftmost place of a needle. -/
def find (needle haystack : List UInt8) : Option Nat :=
  (List.range (haystack.length + 1)).find? fun place => needle.isPrefixOf (haystack.drop place)

/-- `Split`. -/
structure Split where
  opening : List Char
  closing : List Char
  middles : List (List Char)

/-- The middle pieces looked for in order, each behind the one before it. -/
def findAll : (rest : List UInt8) → (middles : List (List Char)) → Bool
  | _, [] => true
  | rest, middle :: middles =>
    match find (utf8 middle) rest with
    | none => false
    | some place => findAll (rest.drop (place + (utf8 middle).length)) middles

/-- `Split::holds`. -/
def Split.holds (split : Split) (text : List UInt8) : Bool :=
  if !(utf8 split.opening).isPrefixOf text || !(utf8 split.closing).isSuffixOf text then false
  else if text.length < (utf8 split.closing).length then false
  else
    let stop := text.length - (utf8 split.closing).length
    if (utf8 split.opening).length > stop then false
    else findAll ((text.take stop).drop (utf8 split.opening).length) split.middles

/-- `Pattern`. -/
inductive Pattern where
  | exact_ (against : List Char)
  | prefix_ (against : List Char)
  | suffix_ (against : List Char)
  | contains (needle : List Char)
  | segments (split : Split)
  | general (against : List Char)

/-- No wildcard at all. -/
def plain (text : List Char) : Bool := !text.contains '%' && !text.contains '_'

/-- `strip_prefix`. -/
def stripFront (item : Char) : List Char → Option (List Char)
  | [] => none
  | first :: rest => if first = item then some rest else none

/-- `strip_suffix`. -/
def stripBack (item : Char) (text : List Char) : Option (List Char) :=
  if text.getLast? = some item then some text.dropLast else none

/-- `split`: the pieces between the places of an item. -/
def splitAt (item : Char) : List Char → List Char × List (List Char)
  | [] => ([], [])
  | first :: rest =>
    let (piece, pieces) := splitAt item rest
    if first = item then ([], piece :: pieces) else (first :: piece, pieces)

/-- The pieces of a spelling without `_`, when there are two or more. -/
def segmentsOf (spelling : List Char) : Option Split :=
  let (opening, pieces) := splitAt '%' spelling
  if pieces = [] then none
  else some { opening, closing := pieces.getLastD [], middles := pieces.dropLast.filter (· ≠ []) }

/-- `Pattern::compile`. -/
def Pattern.compile (spelling : List Char) : Pattern :=
  if plain spelling then .exact_ spelling
  else
    match ((stripFront '%' spelling).bind (stripBack '%')).filter plain with
    | some inner => .contains inner
    | none =>
      match (stripFront '%' spelling).filter plain with
      | some rest => .suffix_ rest
      | none =>
        match (stripBack '%' spelling).filter plain with
        | some head => .prefix_ head
        | none =>
          if !spelling.contains '_' then
            match segmentsOf spelling with
            | some split => .segments split
            | none => .general spelling
          else .general spelling

/-- `Pattern::holds`, where the text is the characters of a string and every shape but the last reads its
bytes. -/
def Pattern.holds (pattern : Pattern) (text : List Char) : Bool :=
  match pattern with
  | .exact_ against => utf8 text = utf8 against
  | .prefix_ against => (utf8 against).isPrefixOf (utf8 text)
  | .suffix_ against => (utf8 against).isSuffixOf (utf8 text)
  | .contains needle => (find (utf8 needle) (utf8 text)).isSome
  | .segments split => split.holds (utf8 text)
  | .general against => like text against

/-- The message for a pattern whose last character is a lone escape. -/
def endsInEscape : String := "Like pattern must not end with escape character!"

/-- The rest of a pattern after the text: wildcards only, or not matched. -/
def escapedRest (escape : Char) (text : List Char) : (pattern : List Char) → Except String Bool
  | [] => .ok (text = [])
  | wanted :: rest =>
    if wanted = escape then if rest = [] then .error endsInEscape else .ok false
    else if wanted ≠ '%' then .ok false
    else escapedRest escape text rest

/-- The first try that holds, or an error on the way to it. -/
def firstHeld (tries : List Char → Except String Bool) : (texts : List (List Char)) → Except String Bool
  | [] => .ok false
  | text :: texts => (tries text).bind fun held => if held then .ok true else firstHeld tries texts

/-- `like_escaped`. -/
def likeEscaped (escape : Char) (text pattern : List Char) : Except String Bool :=
  match pattern, text with
  | wanted :: rest, char :: chars =>
    if wanted = escape then
      match rest with
      | [] => .error endsInEscape
      | literal :: rest => if literal ≠ char then .ok false else likeEscaped escape chars rest
    else if wanted = '_' then likeEscaped escape chars rest
    else if wanted = '%' then
      let after := rest.dropWhile (· = '%')
      if after = [] then .ok true
      else firstHeld (fun text => likeEscaped escape text after)
        ((List.range (chars.length + 1)).map (char :: chars).drop)
    else if wanted = char then likeEscaped escape chars rest
    else .ok false
  | [], text => escapedRest escape text []
  | wanted :: rest, [] => escapedRest escape [] (wanted :: rest)
termination_by pattern.length
decreasing_by
  all_goals simp only [length_cons]
  · omega
  · omega
  · exact Nat.lt_succ_of_le (dropWhile_suffix _).length_le
  · omega

/-- The loop of `bracket` from a place in the set on. -/
def bracketFrom (byte : UInt8) (pattern : List UInt8) (invert : Bool) (start place : Nat) (found : Bool) :
    Option (Bool × Nat) :=
  match here : pattern[place]? with
  | none => none
  | some first =>
    have : place < pattern.length := (List.getElem?_eq_some_iff.mp here).1
    if first = 93 ∧ place > start then some (found, place + 1)
    else
      match pattern[place + 1]? with
      | none => none
      | some second =>
        if second = 45 then
          match pattern[place + 2]? with
          | none => none
          | some last =>
            bracketFrom byte pattern invert start (place + 3)
              (if found = invert ∧ first ≤ byte ∧ byte ≤ last then !invert else found)
        else bracketFrom byte pattern invert start (place + 1) (if found = invert ∧ first = byte then !invert else found)
termination_by pattern.length - place

/-- `bracket`: whether a byte is in the set that starts at a place, and the place past the set. -/
def bracket (byte : UInt8) (pattern : List UInt8) (place : Nat) : Option (Bool × Nat) :=
  match pattern[place]? with
  | none => none
  | some first =>
    let invert : Bool := first = 33
    let start := if invert then place + 1 else place
    bracketFrom byte pattern invert start start invert

variable {pattern : List UInt8} {byte : UInt8} {next : Nat}

theorem bracketFrom_le
    (read : bracketFrom byte pattern invert start place found = some (held, next)) : place ≤ next := by
  fun_induction bracketFrom byte pattern invert start place found with
  | case1 | case3 | case4 => cases read
  | case2 =>
    cases read
    omega
  | case5 | case6 =>
    rename_i further
    have := further read
    omega

theorem bracket_le
    (read : bracket byte pattern place = some (held, next)) : place ≤ next := by
  unfold bracket at read
  split at read
  · cases read
  · have le := bracketFrom_le read
    split at le <;> omega

/-- Whether the pattern takes one byte at a place, and the place past what takes it; none when the pattern is broken
off there. -/
def globOne (byte : UInt8) (pattern : List UInt8) (against : Nat) : Option (Bool × Nat) :=
  match pattern[against]? with
  | none => some (false, against)
  | some wanted =>
    if wanted = 63 then some (true, against + 1)
    else if wanted = 91 then bracket byte pattern (against + 1)
    else if wanted = 92 then pattern[against + 1]?.map fun literal => (byte = literal, against + 2)
    else some (byte = wanted, against + 1)

theorem globOne_le
    (read : globOne byte pattern against = some (held, next)) : against ≤ next := by
  unfold globOne at read
  split at read
  · cases read
    omega
  split at read
  · cases read
    omega
  split at read
  · have := bracket_le read
    omega
  split at read
  · obtain ⟨_, _, same⟩ := map_eq_some_iff.mp read
    cases same
    omega
  · cases read
    omega

/-- Where the walk of `glob` is, and the last run it can go back to: the pattern behind it and the text it is
tried at. -/
structure GlobWalk (text pattern : List UInt8) where
  place : Nat
  against : Nat
  star : Option (Nat × Nat)
  inside : place ≤ text.length
  behind : ∀ back ∈ star, back.1 ≤ against ∧ back.2 ≤ place

namespace GlobWalk
variable {text pattern : List UInt8}

/-- The loop of `glob`. -/
def run (walk : GlobWalk text pattern) : Bool :=
  if more : walk.place < text.length then
    if wild : pattern[walk.against]? = some 42 then
      if skipRun 42 pattern (walk.against + 1) = pattern.length then true
      else
        run { walk with
          star := some (skipRun 42 pattern (walk.against + 1), walk.place)
          against := skipRun 42 pattern (walk.against + 1)
          behind := fun back same => by cases same; exact ⟨le_rfl, le_rfl⟩ }
    else
      match one : globOne text[walk.place] pattern walk.against with
      | none => false
      | some (true, next) =>
        run { walk with
          place := walk.place + 1, against := next, inside := more
          behind := fun back member =>
            ⟨Nat.le_trans (walk.behind back member).1 (globOne_le one), Nat.le_succ_of_le (walk.behind back member).2⟩ }
      | some (false, _) =>
        match star : walk.star with
        | none => false
        | some (resume, from_) =>
          run { walk with
            star := some (resume, from_ + 1), place := from_ + 1, against := resume
            inside := Nat.lt_of_le_of_lt (walk.behind _ star).2 more
            behind := fun back same => by cases same; exact ⟨le_rfl, le_rfl⟩ }
  else skipRun 42 pattern walk.against = pattern.length
termination_by (pattern.length - (walk.star.map Prod.fst).getD 0,
  text.length - (walk.star.map Prod.snd).getD 0, text.length - walk.place)
decreasing_by
  · refine Prod.Lex.left _ _ ?_
    have lt := (List.getElem?_eq_some_iff.mp wild).1
    have behind := walk.behind
    have further : walk.against + 1 ≤ skipRun 42 pattern (walk.against + 1) := Nat.le_add_right _ _
    cases star : walk.star with
    | none =>
      simp only [map_some, map_none, getD_some, getD_none]
      omega
    | some back =>
      have := (behind back star).1
      simp only [map_some, getD_some]
      omega
  · refine Prod.Lex.right _ (Prod.Lex.right _ ?_)
    omega
  · have := (walk.behind _ star).2
    dsimp only at this
    simp only [star, map_some, getD_some]
    refine Prod.Lex.right _ (Prod.Lex.left _ _ ?_)
    omega

def start (text pattern : List UInt8) : GlobWalk text pattern where
  place := 0
  against := 0
  star := none
  inside := Nat.zero_le _
  behind _ absurd_ := by cases absurd_

end GlobWalk

/-- `glob`. -/
def glob (text pattern : List UInt8) : Bool := (GlobWalk.start text pattern).run

end Rudb.Kernels
