import Rudb.Csv.EnclosedProofs

/-! The blocks read the records the byte loop reads. From the place a run of blocks starts at, every byte
has a parity of the quotes before it and is covered by an escape or not; the masks of each block hold
these, and a field end that neither hides is where the byte loop ends the field. -/
namespace Rudb.Csv
open Rudb.Graph Lib List Option

section Places
variable (bytes : List UInt8) (dialect : Dialect) (first : Nat)

def escapeAt (place : Nat) : Bool :=
  dialect.escapeByte ≠ dialect.quoteByte && bytes[place]? = some dialect.escapeByte

/-- Whether an escape covers a place, in a run that starts at the first one. -/
def coverAt (place : Nat) : Bool := covered (fun step => escapeAt bytes dialect (first + step)) false (place - first)

def quoteAt (place : Nat) : Bool := bytes[place]? = some dialect.quoteByte && !coverAt bytes dialect first place

/-- Whether there is an odd number of quotes before a place. -/
def parityAt (place : Nat) : Bool :=
  parity (fun step => quoteAt bytes dialect first (first + step)) false (place - first)

def endAt (place : Nat) : Bool :=
  bytes[place]? = some dialect.delimiter || bytes[place]? = some newline || bytes[place]? = some carriageReturn

/-- A byte that can end a field and is not hidden. -/
def structAt (place : Nat) : Bool :=
  endAt bytes dialect place && !parityAt bytes dialect first (place + 1) && !coverAt bytes dialect first place

def markAt (place : Nat) : Bool := bytes[place]? = some dialect.quoteByte || bytes[place]? = some dialect.escapeByte

end Places

section Places
variable {bytes : List UInt8} {dialect : Dialect} {first place : Nat}

theorem structAt_iff : structAt bytes dialect first place = true ↔ endAt bytes dialect place = true ∧
    parityAt bytes dialect first (place + 1) = false ∧ coverAt bytes dialect first place = false := by
  rw [structAt, Bool.and_eq_true, Bool.and_eq_true, Bool.not_eq_true', Bool.not_eq_true', and_assoc]

theorem coverAt_self : coverAt bytes dialect first first = false := by
  rw [coverAt, Nat.sub_self, covered]

theorem parityAt_self : parityAt bytes dialect first first = false := by
  rw [parityAt, Nat.sub_self, parity]

theorem coverAt_succ (le : first ≤ place) : coverAt bytes dialect first (place + 1) =
    (escapeAt bytes dialect place && !coverAt bytes dialect first place) := by
  rw [coverAt, Nat.succ_sub le, covered, coverAt, Nat.add_sub_cancel' le]

theorem parityAt_succ (le : first ≤ place) : parityAt bytes dialect first (place + 1) =
    (parityAt bytes dialect first place ^^ quoteAt bytes dialect first place) := by
  rw [parityAt, Nat.succ_sub le, parity, parityAt, Nat.add_sub_cancel' le]

theorem coverAt_same (same : dialect.escapeByte = dialect.quoteByte) (place : Nat) :
    coverAt bytes dialect first place = false := by
  rw [coverAt]
  cases place - first with
  | zero => rfl
  | succ count => simp [covered, escapeAt, same]

theorem coverAt_add (le : first ≤ place) (count : Nat) : coverAt bytes dialect first (place + count) =
    covered (fun step => escapeAt bytes dialect (place + step)) (coverAt bytes dialect first place) count := by
  rw [coverAt, Nat.sub_add_comm le, covered_add]
  congr 1
  funext step
  rw [← add_assoc, Nat.add_sub_cancel' le]

theorem parityAt_add (le : first ≤ place) (count : Nat) : parityAt bytes dialect first (place + count) =
    parity (fun step => quoteAt bytes dialect first (place + step)) (parityAt bytes dialect first place) count := by
  rw [parityAt, Nat.sub_add_comm le, parity_add]
  congr 1
  funext step
  rw [← add_assoc, Nat.add_sub_cancel' le]

/-- Between marks nothing is covered and the parity stays. -/
theorem unmarked_to (le : first ≤ place) (free : coverAt bytes dialect first place = false)
    (outside : parityAt bytes dialect first place = false) (through : place ≤ stop)
    (unmarked : ∀ other, place ≤ other → other < stop → markAt bytes dialect other = false) :
    coverAt bytes dialect first stop = false ∧ parityAt bytes dialect first stop = false := by
  induction stop, through using Nat.le_induction with
  | base => exact ⟨free, outside⟩
  | succ stop ge ih =>
    obtain ⟨cover, parity⟩ := ih fun other ge lt => unmarked other ge (by omega)
    have plain := unmarked stop ge (Nat.lt_succ_self _)
    rw [markAt, Bool.or_eq_false_iff] at plain
    rw [coverAt_succ (by omega), parityAt_succ (by omega), parity, escapeAt, quoteAt, plain.1, plain.2]
    simp

end Places

section Block
variable {bytes : List UInt8} {dialect : Dialect} {first block : Nat}

variable {bit : Nat}

/-- A bit of a block's mask stands for the byte that far into the block. -/
theorem getLsbD_block (needle : UInt8) (lt : bit < 64) :
    (maskOf needle ((bytes.drop block).take (min bytes.length (block + 64) - block))).getLsbD bit =
      decide (bytes[block + bit]? = some needle) := by
  rw [getLsbD_maskOf needle _ lt, getElem?_take, getElem?_drop]
  split
  · rfl
  · rw [getElem?_eq_none_iff.mpr (show bytes.length ≤ block + bit by omega)]

/-- What is carried into a block from those before it. -/
structure Carries (bytes : List UInt8) (dialect : Dialect) (first block : Nat) (inside : Word) (carried : Bool) :
    Prop where
  le : first ≤ block
  inside : ∀ bit < 64, inside.getLsbD bit = parityAt bytes dialect first block
  carried : dialect.escapeByte ≠ dialect.quoteByte → carried = coverAt bytes dialect first block

def blockMasks (bytes : List UInt8) (dialect : Dialect) (block : Nat) : Masks :=
  masks ((bytes.drop block).take (min bytes.length (block + 64) - block)) dialect.delimiter dialect.quoteByte
    dialect.escapeByte

def blockCovered (bytes : List UInt8) (dialect : Dialect) (block : Nat) (carried : Bool) : Word × Bool :=
  if dialect.escapeByte = dialect.quoteByte then (0, carried)
  else coveredBy (blockMasks bytes dialect block).escapes carried

def blockParity (bytes : List UInt8) (dialect : Dialect) (block : Nat) (inside : Word) (carried : Bool) : Word :=
  prefixXor ((blockMasks bytes dialect block).quotes &&& ~~~(blockCovered bytes dialect block carried).1) ^^^ inside

def blockMarks (bytes : List UInt8) (dialect : Dialect) (block : Nat) : Word :=
  (blockMasks bytes dialect block).quotes ||| (blockMasks bytes dialect block).escapes

def blockEnds (bytes : List UInt8) (dialect : Dialect) (block : Nat) (inside : Word) (carried : Bool) : Word :=
  (blockMasks bytes dialect block).ends &&& ~~~blockParity bytes dialect block inside carried &&&
    ~~~(blockCovered bytes dialect block carried).1

theorem getLsbD_marked (lt : bit < 64) :
    (blockMarks bytes dialect block).getLsbD bit = markAt bytes dialect (block + bit) := by
  rw [blockMarks, BitVec.getLsbD_or, blockMasks, masks, getLsbD_block _ lt, getLsbD_block _ lt, markAt]

theorem getLsbD_lines (lt : bit < 64) : (blockMasks bytes dialect block).lines.getLsbD bit =
    (decide (bytes[block + bit]? = some newline) || decide (bytes[block + bit]? = some carriageReturn)) := by
  rw [blockMasks, masks, BitVec.getLsbD_or, getLsbD_block _ lt, getLsbD_block _ lt]

namespace Carries
variable {inside : Word} {carried : Bool}

section
variable (carries : Carries bytes dialect first block inside carried)
include carries

/-- The escapes that were found are the escapes that count, up to a bound. -/
theorem covered_eq (differ : dialect.escapeByte ≠ dialect.quoteByte) (le : bit ≤ 64) :
    covered (blockMasks bytes dialect block).escapes.getLsbD carried bit =
      coverAt bytes dialect first (block + bit) := by
  rw [coverAt_add carries.le, ← carries.carried differ]
  refine covered_congr fun other lt => ?_
  rw [blockMasks, masks, getLsbD_block _ (by omega), escapeAt, decide_eq_true differ, Bool.true_and]

theorem cover (lt : bit < 64) :
    (blockCovered bytes dialect block carried).1.getLsbD bit = coverAt bytes dialect first (block + bit) := by
  rw [blockCovered]
  split
  · rename_i same
    rw [coverAt_same same]
    exact BitVec.getLsbD_zero
  · rename_i differ
    rw [(coveredBy_spec _ _).1 bit lt, carries.covered_eq differ lt.le]

theorem parity (lt : bit < 64) :
    (blockParity bytes dialect block inside carried).getLsbD bit = parityAt bytes dialect first (block + bit + 1) := by
  have quotes (other : Nat) (less : other < bit + 1) : ((blockMasks bytes dialect block).quotes &&&
      ~~~(blockCovered bytes dialect block carried).1).getLsbD other = quoteAt bytes dialect first (block + other) := by
    rw [BitVec.getLsbD_and, BitVec.getLsbD_not, carries.cover (by omega), blockMasks, masks,
      getLsbD_block _ (by omega), quoteAt, decide_eq_true (show other < 64 by omega), Bool.true_and]
  rw [blockParity, BitVec.getLsbD_xor, getLsbD_prefixXor _ lt, carries.inside bit lt, add_assoc,
    parityAt_add carries.le, parity_congr quotes]
  exact (parity_first _).symm

theorem structural (lt : bit < 64) :
    (blockEnds bytes dialect block inside carried).getLsbD bit = structAt bytes dialect first (block + bit) := by
  rw [blockEnds, BitVec.getLsbD_and, BitVec.getLsbD_and, BitVec.getLsbD_not, BitVec.getLsbD_not, carries.cover lt,
    carries.parity lt, structAt, endAt, blockMasks, masks, BitVec.getLsbD_or, BitVec.getLsbD_or, getLsbD_block _ lt,
    getLsbD_block _ lt, getLsbD_block _ lt, decide_eq_true lt, Bool.true_and, Bool.true_and, Bool.or_assoc]

end

/-- The bits that say whether a block ended inside a quote. -/
theorem getLsbD_spread (word : Word) (lt : bit < 64) : ((0 : Word) - word >>> 63).getLsbD bit = word.getLsbD 63 := by
  have top : word >>> 63 = if word.getLsbD 63 then 1 else 0 := by
    refine BitVec.eq_of_getLsbD_eq fun place less => ?_
    rw [BitVec.getLsbD_ushiftRight]
    cases place with
    | zero => cases word.getLsbD 63 <;> simp
    | succ place =>
      rw [BitVec.getLsbD_of_ge word _ (by omega)]
      cases word.getLsbD 63 <;> simp
  rw [top]
  cases word.getLsbD 63 with
  | false => simp
  | true =>
    have ones : (0 : Word) - 1 = BitVec.allOnes 64 := by decide
    simp only [if_true]
    rw [ones, BitVec.getLsbD_allOnes, decide_eq_true lt]

theorem next (carries : Carries bytes dialect first block inside carried) :
    Carries bytes dialect first (block + 64) ((0 : Word) - blockParity bytes dialect block inside carried >>> 63)
      (blockCovered bytes dialect block carried).2 where
  le := carries.le.trans (Nat.le_add_right _ _)
  inside bit lt := by rw [getLsbD_spread _ lt, carries.parity (by omega)]
  carried differ := by rw [blockCovered, if_neg differ, (coveredBy_spec _ _).2, carries.covered_eq differ le_rfl]

end Carries

end Block

section Scan
variable {bytes : List UInt8} {dialect : Dialect} {first : Nat} {eof : Bool} {limit : Nat}

/-- What holds of a scan when every unhidden field end before a place has been dealt with: the byte loop
goes on at the field with the fields so far, and reading the records one by one goes on at the record. -/
structure Reads (bytes : List UInt8) (dialect : Dialect) (first : Nat) (eof : Bool) (limit : Nat)
    (target : List (List Span) × Except String Nat) (block place : Nat) (scan : Scan) : Prop where
  record_le : first ≤ scan.record
  field_le : scan.record ≤ scan.field
  field_in : scan.field ≤ bytes.length
  outside : parityAt bytes dialect first scan.field = false
  free : coverAt bytes dialect first scan.field = false
  dealt : ∀ other, scan.field ≤ other → other < place → structAt bytes dialect first other = false
  quoted : scan.quoted = true ↔ ∃ other, scan.field ≤ other ∧ other < block ∧ markAt bytes dialect other = true
  pending : fieldsFrom (spanFields bytes dialect) bytes dialect eof scan.record [] =
    fieldsFrom (spanFields bytes dialect) bytes dialect eof scan.field scan.pending
  target : target = byteRecords bytes dialect eof limit scan.record scan.out

/-- What the masks need of a dialect: the delimiter and an escape of its own are no quote and no line
ending, there is no comment, and the quote is not a newline. -/
structure Plain (dialect : Dialect) : Prop where
  masked : dialect.masked = true
  quote : dialect.quoteByte ≠ newline

namespace Plain

theorem delimiter (plain : Plain dialect) : dialect.delimiter ≠ dialect.quoteByte ∧ dialect.delimiter ≠ newline ∧
    dialect.delimiter ≠ carriageReturn := by
  have masked := plain.masked
  simp only [Dialect.masked, lineEnd, Bool.and_eq_true, Bool.not_eq_true', Bool.or_eq_false_iff, decide_eq_false_iff_not]
    at masked
  exact ⟨masked.1.2.1, masked.1.2.2.1, masked.1.2.2.2⟩

theorem comment (plain : Plain dialect) : dialect.comment = none := by
  have masked := plain.masked
  simp only [Dialect.masked, Bool.and_eq_true, isNone_iff_eq_none] at masked
  exact masked.2

theorem not_escape (plain : Plain dialect) (ends : endAt bytes dialect place = true) :
    escapeAt bytes dialect place = false := by
  have masked := plain.masked
  simp only [Dialect.masked, lineEnd, Bool.and_eq_true, Bool.or_eq_true, Bool.not_eq_true', Bool.or_eq_false_iff,
    decide_eq_true_eq, decide_eq_false_iff_not] at masked
  by_contra escape
  simp only [escapeAt, Bool.not_eq_false, Bool.and_eq_true, decide_eq_true_eq] at escape
  obtain ⟨differ, here⟩ := escape
  rcases masked.1.1 with same | ⟨⟨_, newline, carriage⟩, delimiter⟩
  · exact differ same
  simp only [endAt, here, Option.some.injEq, Bool.or_eq_true, decide_eq_true_eq] at ends
  rcases ends with (same | same) | same
  · exact delimiter same
  · exact newline same
  · exact carriage same

end Plain

theorem endAt_lt (ends : endAt bytes dialect place = true) : place < bytes.length := by
  by_contra past
  rw [endAt, getElem?_eq_none_iff.mpr (by omega)] at ends
  simp at ends

theorem stops_eq (plain : Plain dialect) (here : bytes[place]? = some byte) :
    dialect.stops byte = endAt bytes dialect place := by
  simp [Dialect.stops, lineEnd, endAt, here, plain.comment, Bool.or_assoc]

/-- A field that is not quoted ends at the first byte that can end it. -/
theorem spanBare_to (plain : Plain dialect) (le : start ≤ stop)
    (ends : endAt bytes dialect stop = true)
    (none_ : ∀ other, start ≤ other → other < stop → endAt bytes dialect other = false) :
    spanBare bytes dialect start = stop := by
  have inside := endAt_lt ends
  obtain ⟨count, rfl⟩ := Nat.exists_eq_add_of_le le
  clear le
  induction count generalizing start with
  | zero =>
    have here := getElem?_eq_getElem inside
    exact spanBare_stops here ((stops_eq plain here).trans ends)
  | succ count ih =>
    have lt : start < bytes.length := by omega
    have here := getElem?_eq_getElem lt
    have goes := none_ start le_rfl (by omega)
    rw [spanBare_goes here (by rw [stops_eq plain here, goes]; exact Bool.false_ne_true)]
    rw [show start + (count + 1) = start + 1 + count by omega] at ends inside none_ ⊢
    exact ih ends (fun other ge less => none_ other (by omega) less) inside

theorem exists_bit {word : Word} (some_ : word ≠ 0) : ∃ bit < 64, word.getLsbD bit = true := by
  obtain ⟨here, lt⟩ := trailingZeros_isNth some_
  exact ⟨_, lt, here.1⟩

namespace Reads
variable {target : List (List Span) × Except String Nat} {block place : Nat} {scan : Scan}

section
variable {bit : Nat} (reads : Reads bytes dialect first eof limit target block place scan)
include reads

theorem marked_iff (lt : bit < 64) (ge : scan.field ≤ block + bit) :
    (scan.quoted || decide (blockMarks bytes dialect block &&& below bit &&& ~~~below (scan.field - block) ≠ 0)) = true ↔
      ∃ other, scan.field ≤ other ∧ other < block + bit ∧ markAt bytes dialect other = true := by
  have bits (inner : Nat) (less : inner < 64) :
    (blockMarks bytes dialect block &&& below bit &&& ~~~below (scan.field - block)).getLsbD inner = true ↔
        markAt bytes dialect (block + inner) = true ∧ inner < bit ∧ scan.field ≤ block + inner := by
    rw [BitVec.getLsbD_and, BitVec.getLsbD_and, getLsbD_marked less, BitVec.getLsbD_not, getLsbD_below lt,
      getLsbD_below (by omega)]
    simp only [Bool.and_eq_true, decide_eq_true_eq, Bool.not_eq_true', decide_eq_false_iff_not,
      less, true_and, and_assoc]
    refine and_congr_right fun _ => and_congr_right fun _ => ?_
    omega
  rw [Bool.or_eq_true, decide_eq_true_eq, reads.quoted]
  constructor
  · rintro (⟨other, ge, less, mark⟩ | some_)
    · exact ⟨other, ge, by omega, mark⟩
    · obtain ⟨inner, less, set⟩ := exists_bit some_
      obtain ⟨mark, before, after⟩ := (bits inner less).mp set
      exact ⟨block + inner, after, by omega, mark⟩
  rintro ⟨other, after, before, mark⟩
  by_cases old : other < block
  · exact .inl ⟨other, after, old, mark⟩
  refine .inr fun zero => ?_
  have set := (bits (other - block) (by omega)).mpr
    ⟨by rwa [Nat.add_sub_cancel' (by omega)], by omega, by omega⟩
  rw [zero] at set
  simp at set

/-- The masks vouch for a field only when the byte loop reads it so. -/
theorem field (plain : Plain dialect)
    (lt : bit < 64) (ge : scan.field ≤ block + bit) (unhidden : structAt bytes dialect first (block + bit) = true)
    (dealt : ∀ other, scan.field ≤ other → other < block + bit → structAt bytes dialect first other = false)
    {span : Span}
    (found : fieldSpan bytes dialect block (blockMarks bytes dialect block) bit scan = some span) :
    readField (spanFields bytes dialect) bytes dialect eof scan.field = .ok (some (block + bit, span)) := by
  have le : first ≤ scan.field := reads.record_le.trans reads.field_le
  obtain ⟨ends, outside, free⟩ := structAt_iff.mp unhidden
  have inside := endAt_lt ends
  have here := getElem?_eq_getElem inside
  unfold fieldSpan at found
  unfold readField
  split at found
  · obtain ⟨mark, shaped, rfl⟩ := map_eq_some_iff.mp found
    obtain ⟨more, opens, closes⟩ := enclosed_spec inside shaped fun same even quote => by
      -- the quotes of the field come in pairs, so one more behind them would hide itself
      have before := @parityAt_add bytes dialect first scan.field le (block + bit - scan.field)
      have counted := @parity_congr (fun step => quoteAt bytes dialect first (scan.field + step)) false
        (fun step => decide (bytes[scan.field + step]? = some dialect.quoteByte)) (block + bit - scan.field)
        fun step _ => by rw [quoteAt, coverAt_same same, Bool.not_false, Bool.and_true]
      rw [reads.outside, counted, even, Nat.add_sub_cancel' ge] at before
      rw [parityAt_succ (by omega), before, quoteAt, quote, free] at outside
      simp at outside
    rw [if_pos opens]
    simp only [spanFields, closes, map_some, show block + bit - 1 + 1 = block + bit by omega, here]
    rw [if_pos ((stops_eq plain here).trans ends)]
  · rename_i unmarked
    rw [reads.marked_iff lt ge] at unmarked
    have clear (other : Nat) (after : scan.field ≤ other) (before : other < block + bit) :
        markAt bytes dialect other = false := by
      by_contra mark
      exact unmarked ⟨other, after, before, by simpa using mark⟩
    have calm {stop : Nat} (after : scan.field ≤ stop) (before : stop ≤ block + bit) :=
      unmarked_to le reads.free reads.outside after fun other ge less => clear other ge (by omega)
    have none_ (other : Nat) (after : scan.field ≤ other) (before : other < block + bit) :
        endAt bytes dialect other = false := by
      have hidden := dealt other after before
      rw [structAt, (calm after (by omega)).1, (calm (show scan.field ≤ other + 1 by omega) (by omega)).2] at hidden
      simpa using hidden
    have bare : bytes[scan.field]? ≠ some dialect.quoteByte := by
      intro quote
      rcases lt_or_eq_of_le ge with less | same
      · have := clear scan.field le_rfl less
        simp [markAt, quote] at this
      · rw [← same, parityAt_succ le, reads.outside, quoteAt, quote, reads.free] at outside
        simp at outside
    have stop := spanBare_to plain ge ends none_
    cases found
    rw [if_neg bare]
    simp only [spanFields, stop]
    rw [if_neg (by simp; omega)]

end

end Reads

/-- Behind an unhidden field end nothing is covered and the parity is even. -/
theorem calm_after (plain : Plain dialect) (le : first ≤ place)
    (unhidden : structAt bytes dialect first place = true) :
    parityAt bytes dialect first (place + 1) = false ∧ coverAt bytes dialect first (place + 1) = false := by
  obtain ⟨ends, outside, _⟩ := structAt_iff.mp unhidden
  exact ⟨outside, by rw [coverAt_succ le, plain.not_escape ends, Bool.false_and]⟩

/-- And so behind the whole line ending, as its second half is not a quote. -/
theorem calm_behind (plain : Plain dialect) {next : Nat} (le : first ≤ place)
    (unhidden : structAt bytes dialect first place = true) (behind : behindLine bytes place eof = some next) :
    parityAt bytes dialect first next = false ∧ coverAt bytes dialect first next = false ∧ next ≤ bytes.length := by
  obtain ⟨outside, free⟩ := calm_after plain le unhidden
  have inside := endAt_lt (structAt_iff.mp unhidden).1
  revert behind
  fun_cases behindLine bytes place eof with
  | case1 _ there =>
    rintro ⟨⟩
    have ends : endAt bytes dialect (place + 1) = true := by simp [endAt, there]
    refine ⟨?_, ?_, lt_of_getElem? there⟩
    · rw [parityAt_succ (by omega), outside, quoteAt, there]
      simp [plain.quote.symm]
    · rw [coverAt_succ (by omega), plain.not_escape ends, Bool.false_and]
  | case2 | case3 | case5 =>
    rintro ⟨⟩
    exact ⟨outside, free, inside⟩
  | case4 => rintro ⟨⟩

theorem fieldsFrom_plain (plain : Plain dialect) {span : Span} (before : List Span)
    (read : readField (spanFields bytes dialect) bytes dialect eof start = .ok (some (stop, span))) :
    fieldsFrom (spanFields bytes dialect) bytes dialect eof start before =
      if bytes[stop]? = some dialect.delimiter then
        fieldsFrom (spanFields bytes dialect) bytes dialect eof (stop + 1) (before ++ [span])
      else .ok (closeLine bytes eof (before ++ [span]) stop) := by
  rw [fieldsFrom_some read, plain.comment]
  cases bytes[stop]? <;> simp

namespace Reads
variable {target : List (List Span) × Except String Nat} {block place : Nat} {scan : Scan}

section
variable {span : Span} (reads : Reads bytes dialect first eof limit target block place scan)
  (plain : Plain dialect)
include reads plain

/-- A field that a delimiter ends. -/
theorem delimiter (ge : scan.field ≤ stop) (within : block ≤ stop)
    (unhidden : structAt bytes dialect first stop = true)
    (read : readField (spanFields bytes dialect) bytes dialect eof scan.field = .ok (some (stop, span)))
    (here : bytes[stop]? = some dialect.delimiter) : Reads bytes dialect first eof limit target block (stop + 1)
      { scan with pending := scan.pending ++ [span], field := stop + 1, quoted := false } := by
  have le := reads.record_le
  have le' := reads.field_le
  obtain ⟨outside, free⟩ := calm_after plain (by omega) unhidden
  exact
    { record_le := le
      field_le := by simp only; omega
      field_in := lt_of_getElem? here
      outside := outside
      free := free
      dealt := fun other after before => by simp only at after; omega
      quoted := by
        refine ⟨(fun no => by cases no), fun ⟨other, after, before, _⟩ => ?_⟩
        simp only at after
        omega
      pending := by rw [reads.pending, fieldsFrom_plain plain scan.pending read, if_pos here]
      target := reads.target }

/-- The record a line ending ends, as the byte loop reads it. -/
theorem spans_line (inside : stop < bytes.length) (ge : scan.field ≤ stop)
    (read : readField (spanFields bytes dialect) bytes dialect eof scan.field = .ok (some (stop, span)))
    (line : bytes[stop]? ≠ some dialect.delimiter) : spans bytes scan.record dialect eof =
      .ok ((behindLine bytes stop eof).map fun next => (scan.pending ++ [span], next)) := by
  have le := reads.field_le
  rw [spans, readRecord_line _ (by omega), reads.pending, fieldsFrom_plain plain scan.pending read, if_neg line,
    closeLine, if_neg (by rw [getElem?_eq_getElem inside]; exact some_ne_none _)]
  cases behindLine bytes stop eof <;> rfl

/-- A record that a line ending ends. -/
theorem line (room : scan.out.length < limit) {next : Nat} (ge : scan.field ≤ stop) (within : block ≤ stop)
    (unhidden : structAt bytes dialect first stop = true)
    (read : readField (spanFields bytes dialect) bytes dialect eof scan.field = .ok (some (stop, span)))
    (line : bytes[stop]? ≠ some dialect.delimiter) (behind : behindLine bytes stop eof = some next) :
    Reads bytes dialect first eof limit target block (stop + 1)
      (.fresh (scan.out ++ [scan.pending ++ [span]]) next) := by
  have le := reads.record_le
  have le' := reads.field_le
  have lt := lt_behindLine behind
  obtain ⟨outside, free, inside⟩ := calm_behind plain (by omega) unhidden behind
  have ends : stop < bytes.length := by omega
  have found := reads.spans_line plain ends ge read line
  rw [behind] at found
  exact
    { record_le := by simp only [Scan.fresh]; omega
      field_le := le_rfl
      field_in := inside
      outside := outside
      free := free
      dealt := fun other after before => by simp only [Scan.fresh] at after; omega
      quoted := by
        refine ⟨(fun no => by cases no), ?_⟩
        rintro ⟨other, after, before, _⟩
        simp only [Scan.fresh] at after
        omega
      pending := rfl
      target := by
        rw [reads.target, byteRecords, if_pos room, found]
        rfl }

end

end Reads

/-- What a walk comes to. -/
def Walked.Right (bytes : List UInt8) (dialect : Dialect) (first : Nat) (eof : Bool) (limit : Nat)
    (target : List (List Span) × Except String Nat) (block : Nat) : Walked → Prop
  | .on scan => Reads bytes dialect first eof limit target block (block + 64) scan ∧ scan.out.length < limit
  | .stuck scan => target = byteRecords bytes dialect eof limit scan.record scan.out
  | .answer out next => target = (out, .ok next)

section Walk
variable {target : List (List Span) × Except String Nat} {block place : Nat} {scan : Scan}

theorem Reads.on (reads : Reads bytes dialect first eof limit target block place scan)
    (dealt : ∀ other, place ≤ other → other < later → structAt bytes dialect first other = false) :
    Reads bytes dialect first eof limit target block later scan :=
  { reads with
    dealt := fun other after before => by
      by_cases old : other < place
      · exact reads.dealt other after old
      · exact dealt other (by omega) before }

/-- The bits of the unhidden field ends of a block from a place on. -/
def Left (bytes : List UInt8) (dialect : Dialect) (first block : Nat) (structural : Word) (place : Nat) : Prop :=
  ∀ bit < 64, structural.getLsbD bit = (decide (place ≤ block + bit) && structAt bytes dialect first (block + bit))

variable {structural : Word}

section
variable (left : Left bytes dialect first block structural place) (within : block ≤ place)
  (some_ : structural ≠ 0)
include left within some_

theorem Left.lowest : trailingZeros structural < 64 ∧ place ≤ block + trailingZeros structural ∧
      structAt bytes dialect first (block + trailingZeros structural) = true ∧
      ∀ other, place ≤ other → other < block + trailingZeros structural →
        structAt bytes dialect first other = false := by
  obtain ⟨⟨set, none_⟩, lt⟩ := trailingZeros_isNth some_
  have here := left _ lt
  rw [set, eq_comm, Bool.and_eq_true, decide_eq_true_eq] at here
  refine ⟨lt, here.1, here.2, fun other after before => ?_⟩
  have there := left (other - block) (by omega)
  rw [not_of_tally_eq_zero none_ (by omega), Nat.add_sub_cancel' (by omega), decide_eq_true after] at there
  exact there.symm

theorem Left.rest : Left bytes dialect first block (clearLowest structural) (block + trailingZeros structural + 1) := by
  obtain ⟨lt, ge, _, none_⟩ := left.lowest within some_
  intro bit less
  rw [getLsbD_clearLowest some_, left bit less]
  rcases lt_trichotomy bit (trailingZeros structural) with before | here | after
  · rw [decide_eq_false (show ¬ block + trailingZeros structural + 1 ≤ block + bit by omega), Bool.false_and]
    by_cases old : place ≤ block + bit
    · rw [none_ (block + bit) old (by omega), Bool.and_false, Bool.false_and]
    · rw [decide_eq_false old, Bool.false_and, Bool.false_and]
  · rw [here]
    simp
  · rw [decide_eq_true (show place ≤ block + bit by omega),
      decide_eq_true (show block + trailingZeros structural + 1 ≤ block + bit by omega),
      decide_eq_true (show bit ≠ trailingZeros structural by omega), Bool.and_true]

end

theorem walkBits_right (plain : Plain dialect)
    (reads : Reads bytes dialect first eof limit target block place scan) (room : scan.out.length < limit)
    (within : block ≤ place) (left : Left bytes dialect first block structural place) :
    (walkBits bytes dialect eof limit block (blockMarks bytes dialect block) (blockMasks bytes dialect block).lines
      structural scan).Right bytes dialect first eof limit target block := by
  induction size : structural.toNat using Nat.strong_induction_on generalizing structural place scan with
  | _ count ih =>
    rw [walkBits]
    by_cases some_ : structural = 0
    · rw [dif_pos some_]
      refine ⟨reads.on fun other after before => ?_, room⟩
      have bit := left (other - block) (by omega)
      rw [some_, Nat.add_sub_cancel' (by omega), decide_eq_true after] at bit
      simpa using bit.symm
    rw [dif_neg some_]
    obtain ⟨lt, ge, unhidden, none_⟩ := left.lowest within some_
    have rest := left.rest within some_
    have fewer := size ▸ clearLowest_lt some_
    simp only
    generalize trailingZeros structural = bit at lt ge unhidden none_ rest ⊢
    have reached := reads.on none_
    split
    · -- the second half of a line ending
      have passed : Reads bytes dialect first eof limit target block (block + bit + 1) scan :=
        { reached with dealt := fun other after before => by omega }
      exact ih _ fewer passed room (by omega) rest rfl
    have ahead : scan.field ≤ block + bit := by omega
    cases found : fieldSpan bytes dialect block (blockMarks bytes dialect block) bit scan with
    | none => exact reads.target
    | some span =>
      have read := reached.field plain lt ahead unhidden (fun other after before =>
        reached.dealt other after before) found
      have ends := (structAt_iff.mp unhidden).1
      simp only [getLsbD_lines lt]
      split
      · rename_i noLine
        have here : bytes[block + bit]? = some dialect.delimiter := by
          simp only [Bool.not_eq_true', Bool.or_eq_false_iff, decide_eq_false_iff_not] at noLine
          simpa [endAt, noLine.1, noLine.2] using ends
        exact ih _ fewer (reached.delimiter plain ahead (by omega) unhidden read here) room (by omega) rest rfl
      rename_i line
      have other : bytes[block + bit]? ≠ some dialect.delimiter := by
        intro here
        simp [here, plain.delimiter.2.1, plain.delimiter.2.2] at line
      cases behind : behindLine bytes (block + bit) eof with
      | none =>
        have found := reached.spans_line plain (endAt_lt ends) ahead read other
        rw [behind] at found
        rw [reads.target, byteRecords, if_pos room, found]
        rfl
      | some next =>
        have after := reached.line plain room ahead (by omega) unhidden read other behind
        simp only
        split
        · rw [after.target, byteRecords, if_neg]
          · rfl
          · simp only [Scan.fresh]
            omega
        rename_i short
        refine ih _ fewer after ?_ (by omega) rest rfl
        simp only [Scan.fresh, length_append, length_singleton] at short ⊢
        omega

theorem ne_zero_shift {word : Word} :
    word >>> low ≠ 0 ↔ ∃ bit, low ≤ bit ∧ bit < 64 ∧ word.getLsbD bit = true := by
  constructor
  · intro some_
    obtain ⟨bit, lt, set⟩ := exists_bit some_
    rw [BitVec.getLsbD_ushiftRight] at set
    refine ⟨low + bit, by omega, ?_, set⟩
    by_contra past
    rw [BitVec.getLsbD_of_ge _ _ (by omega)] at set
    cases set
  rintro ⟨bit, ge, lt, set⟩ zero
  have gone : (word >>> low).getLsbD (bit - low) = true := by
    rw [BitVec.getLsbD_ushiftRight, Nat.add_sub_cancel' ge, set]
  rw [zero] at gone
  simp at gone

/-- Whether the field that goes on behind a block has a quote or an escape in it so far. -/
theorem Reads.carry (reads : Reads bytes dialect first eof limit target block (block + 64) scan) :
    Reads bytes dialect first eof limit target (block + 64) (block + 64) { scan with
        quoted := scan.quoted || (decide (scan.field < block + 64) && decide
          (blockMarks bytes dialect block >>> (scan.field - block) ≠ 0)) } :=
  { reads with
    quoted := by
      simp only [Bool.or_eq_true, Bool.and_eq_true, decide_eq_true_eq, reads.quoted, ne_zero_shift]
      constructor
      · rintro (⟨other, after, before, mark⟩ | ⟨_, bit, ge, lt, mark⟩)
        · exact ⟨other, after, by omega, mark⟩
        · rw [getLsbD_marked lt] at mark
          exact ⟨block + bit, by omega, by omega, mark⟩
      rintro ⟨other, after, before, mark⟩
      by_cases old : other < block
      · exact .inl ⟨other, after, old, mark⟩
      · refine .inr ⟨by omega, other - block, by omega, by omega, ?_⟩
        rwa [getLsbD_marked (by omega), Nat.add_sub_cancel' (by omega)] }

theorem blocksFrom_block {carried : Bool} (more : block < bytes.length ∧ scan.out.length < limit) :
    blocksFrom bytes dialect eof limit block inside carried scan =
      match walkBits bytes dialect eof limit block (blockMarks bytes dialect block)
        (blockMasks bytes dialect block).lines (blockEnds bytes dialect block inside carried) scan with
      | .on scan => blocksFrom bytes dialect eof limit (min bytes.length (block + 64))
          ((0 : Word) - blockParity bytes dialect block inside carried >>> 63)
            (blockCovered bytes dialect block carried).2
          { scan with quoted := scan.quoted || (decide (scan.field < min bytes.length (block + 64)) && decide
          (blockMarks bytes dialect block >>> (scan.field - block) ≠ 0)) } | walked => walked := by
  rw [blocksFrom, if_pos more]
  rfl

theorem blocksFrom_end {carried : Bool} (none_ : ¬ (block < bytes.length ∧ scan.out.length < limit)) :
    blocksFrom bytes dialect eof limit block inside carried scan = .stuck scan := by
  rw [blocksFrom, if_neg none_]

/-- However the blocks end, reading the records one by one goes on from there. -/
theorem blocksFrom_right {carried : Bool} (plain : Plain dialect)
    (carries : Carries bytes dialect first block inside carried)
    (reads : Reads bytes dialect first eof limit target block block scan) :
    match blocksFrom bytes dialect eof limit block inside carried scan with
    | .on scan | .stuck scan => target = byteRecords bytes dialect eof limit scan.record scan.out
    | .answer out next => target = (out, .ok next) := by
  induction size : bytes.length - block using Nat.strong_induction_on generalizing block inside carried scan with
  | _ count ih =>
    by_cases more : block < bytes.length ∧ scan.out.length < limit
    · rw [blocksFrom_block more]
      have left : Left bytes dialect first block (blockEnds bytes dialect block inside carried) block := by
        intro bit lt
        rw [carries.structural lt, decide_eq_true (Nat.le_add_right _ _), Bool.true_and]
      have walked := walkBits_right plain reads more.2 le_rfl left
      generalize walkBits bytes dialect eof limit block _ _ _ scan = result at walked ⊢
      cases result with
      | stuck | answer => exact walked
      | on reached =>
        by_cases full : block + 64 ≤ bytes.length
        · simp only [min_eq_right full]
          exact ih _ (by omega) carries.next walked.1.carry rfl
        · simp only [min_eq_left (show bytes.length ≤ block + 64 by omega)]
          rw [blocksFrom_end fun both => absurd both.1 (lt_irrefl _)]
          exact walked.1.target
    · rw [blocksFrom_end more]
      exact reads.target

theorem byteRecords_past {record : Nat} (past : limit ≤ out.length ∨ bytes.length ≤ record) :
    byteRecords bytes dialect eof limit record out = (out, .ok record) := by
  rw [byteRecords]
  split
  · rw [spans, readRecord_past _ (by omega)]
  · rfl

/-- A run of blocks from the start of a record. -/
theorem blocksFrom_fresh (plain : Plain dialect) (record : Nat) (out : List (List Span)) :
    match blocksFrom bytes dialect eof limit record 0 false (.fresh out record) with
    | .on scan | .stuck scan =>
      byteRecords bytes dialect eof limit record out = byteRecords bytes dialect eof limit scan.record scan.out
    | .answer rows next => byteRecords bytes dialect eof limit record out = (rows, .ok next) := by
  by_cases inside : record ≤ bytes.length
  · have carries : Carries bytes dialect record record 0 false := by
      refine ⟨le_rfl, fun bit lt => ?_, fun _ => coverAt_self.symm⟩
      rw [parityAt_self]
      exact BitVec.getLsbD_zero
    have reads : Reads bytes dialect record eof limit (byteRecords bytes dialect eof limit record out) record record
        (.fresh out record) :=
      { record_le := le_rfl
        field_le := le_rfl
        field_in := inside
        outside := parityAt_self
        free := coverAt_self
        dealt := fun other after before => absurd after (Nat.not_le.mpr before)
        quoted := ⟨(fun no => by cases no), fun ⟨_, after, before, _⟩ => absurd after (Nat.not_le.mpr before)⟩
        pending := rfl
        target := rfl }
    exact blocksFrom_right plain carries reads
  · rw [blocksFrom_end fun both => inside both.1.le]
    rfl

/-- The blocks read what the byte loop reads. -/
theorem blocks_eq (plain : Plain dialect) (record : Nat) (out : List (List Span)) :
    blocks bytes dialect eof limit record out = byteRecords bytes dialect eof limit record out := by
  have right := fun record out => @blocksFrom_fresh bytes dialect eof limit plain record out
  fun_induction blocks bytes dialect eof limit record out with
  | case1 record out rows next found =>
    have same := right record out
    rw [found] at same
    exact same.symm
  | case2 record out scan found past | case6 record out scan found past =>
    have same := right record out
    rw [found] at same
    exact (same.trans (byteRecords_past past)).symm
  | case3 record out scan found inside message read | case7 record out scan found inside message read
  | case4 record out scan found inside read | case8 record out scan found inside read =>
    have same := right record out
    rw [found] at same
    rw [same, byteRecords, if_pos (by omega), read]
  | case5 record out scan found inside fields next read ih | case9 record out scan found inside fields next read ih =>
    have same := right record out
    rw [found] at same
    rw [ih, same, eq_comm, byteRecords, if_pos (by omega), read]

/-- Whatever the dialect, the records are those of the byte loop, unless the masks take the end of a line for a
quote. -/
theorem records_eq (dialect : Dialect) (quote : dialect.masked = true → dialect.quoteByte ≠ newline) (record : Nat)
    (out : List (List Span)) :
    records bytes dialect eof limit record out = byteRecords bytes dialect eof limit record out := by
  unfold records
  split
  · rename_i masked
    exact blocks_eq ⟨masked, quote masked⟩ record out
  · rfl

end Walk

end Scan

end Rudb.Csv
