import Rudb.Csv.BlocksProofs
import Rudb.Csv.RefillProofs

/-! Reading many records at a time is reading them one by one, and reading a file bit by bit is reading
it whole. -/
namespace Rudb.Csv

section Records
variable {Text : Type} (lossy : List UInt8 → Text) (bytes : List UInt8) (dialect : Dialect) (eof : Bool)

/-- The byte loop that keeps ranges, called again and again. -/
theorem byteRecords_eq (limit start : Nat) (out : List (List Span)) :
    byteRecords bytes dialect eof limit start out =
      let taken := repeatRecords (fun start => spans bytes start dialect eof) (limit - out.length) start
      (out ++ taken.1, taken.2) := by
  induction size : limit - out.length generalizing start out with
  | zero =>
    rw [byteRecords, if_neg (by omega)]
    simp [repeatRecords]
  | succ left ih =>
    rw [byteRecords, if_pos (by omega), repeatRecords]
    cases spans bytes start dialect eof with
    | error message => simp
    | ok found =>
      cases found with
      | none => simp
      | some found =>
        have length : limit - (out ++ [found.1]).length = left := by
          rw [List.length_append, List.length_singleton]
          omega
        simp [ih found.2 (out ++ [found.1]) length]

theorem record_eq (small : bytes.length ≤ Span.most) (start : Nat) : record lossy bytes start dialect eof =
    (spans bytes start dialect eof).map
      (Option.map (Prod.map (List.map fun span => span.text lossy bytes dialect) id)) := by
  rw [record, (spans_view small).readRecord, spans]
  cases readRecord (spanFields bytes dialect) bytes dialect eof start with
  | error message => rfl
  | ok found =>
    cases found with
    | none => rfl
    | some found =>
      simp only [Except.map, Option.map_some, Prod.map, id_eq, List.map_map]
      rfl

theorem repeatRecords_map (view : Row → Other) (call : Nat → Except String (Option (Row × Nat)))
    (limit start : Nat) : repeatRecords (fun start => (call start).map (Option.map (Prod.map view id))) limit start =
      Prod.map (List.map view) id (repeatRecords call limit start) := by
  induction limit generalizing start with
  | zero => rfl
  | succ limit ih =>
    rw [repeatRecords, repeatRecords]
    cases call start with
    | error message => rfl
    | ok found =>
      cases found with
      | none => rfl
      | some found =>
        have rest := ih found.2
        change (view found.1 :: (repeatRecords _ limit found.2).1, (repeatRecords _ limit found.2).2) = _
        rw [rest]
        rfl

section newline
variable {plain : UInt8} {dialect : Dialect}

/-- A line, and behind it one of two fields, written with one byte besides those of the dialect. -/
def twoLines (plain delimiter : UInt8) : List UInt8 :=
  [plain, carriageReturn, newline, plain, delimiter, plain, newline]

variable (masked : dialect.masked = true) (quote : dialect.quoteByte = newline)
  (apart : plain ≠ dialect.delimiter ∧ plain ≠ dialect.escapeByte ∧ plain ≠ newline ∧ plain ≠ carriageReturn)
include masked quote apart

theorem dialect_apart : dialect.delimiter ≠ newline ∧ dialect.delimiter ≠ carriageReturn ∧
    (dialect.escapeByte = newline ∨ dialect.escapeByte ≠ newline ∧ dialect.escapeByte ≠ carriageReturn ∧
      dialect.escapeByte ≠ dialect.delimiter) ∧ dialect.comment = none := by
  simp [Dialect.masked, lineEnd, quote] at masked
  tauto

/-- With a newline for a quote the second half of the line ending hides the delimiter behind it. -/
theorem records_twoLines : (records (twoLines plain dialect.delimiter) dialect true 2 0 []).1 =
    [[Span.new 0 1 false], [Span.new 3 6 false]] := by
  obtain ⟨line, line', escape, -⟩ := dialect_apart masked quote apart
  obtain ⟨one, two, three, four⟩ := apart
  have lines : carriageReturn ≠ newline := by decide
  have delimiters : maskOf dialect.delimiter (twoLines plain dialect.delimiter) = 0x10 := by
    simp [twoLines, maskOf, one, line.symm, line'.symm]
  have newlines : maskOf newline (twoLines plain dialect.delimiter) = 0x44 := by
    simp [twoLines, maskOf, three, line, lines]
  have returns : maskOf carriageReturn (twoLines plain dialect.delimiter) = 0x02 := by
    simp [twoLines, maskOf, four, line', lines.symm]
  have walked : walkBits (twoLines plain dialect.delimiter) dialect true 2 0 0x44 0x46 0x42 (.fresh [] 0) =
      .answer [[Span.new 0 1 false], [Span.new 3 6 false]] 7 := by
    have first : fieldSpan (twoLines plain dialect.delimiter) dialect 0 0x44 1 (.fresh [] 0) =
        some (Span.new 0 1 false) := if_neg (by decide)
    have second : fieldSpan (twoLines plain dialect.delimiter) dialect 0 0x44 6 (.fresh [[Span.new 0 1 false]] 3) =
        some (Span.new 3 6 false) := if_neg (by decide +kernel)
    have behind : behindLine (twoLines plain dialect.delimiter) 1 true = some 3 := by simp [behindLine, twoLines]
    have behind' : behindLine (twoLines plain dialect.delimiter) 6 true = some 7 := by
      simp [behindLine, twoLines, lines.symm]
    have one : Graph.trailingZeros 0x42 = 1 ∧ Graph.clearLowest 0x42 = 0x40 := by decide +kernel
    have six : Graph.trailingZeros 0x40 = 6 := by decide +kernel
    rw [walkBits, dif_neg (by decide)]
    simp only [one.1, one.2, first, Nat.zero_add, behind]
    rw [if_neg (by simp [Scan.fresh]), if_neg (by decide), if_neg (by decide), walkBits, dif_neg (by decide)]
    simp only [Scan.fresh, List.nil_append, six, Nat.zero_add, behind'] at second ⊢
    rw [if_neg (by decide), second]
    rfl
  have found : blocksFrom (twoLines plain dialect.delimiter) dialect true 2 0 0 false (.fresh [] 0) =
      .answer [[Span.new 0 1 false], [Span.new 3 6 false]] 7 := by
    have hidden : (0x10 ||| (0x44 ||| 0x02)) &&& ~~~(prefixXor (0x44 &&& ~~~0) ^^^ 0) &&& ~~~(0 : Graph.Word) =
        0x42 := by
      decide +kernel
    have covered : coveredBy 0 false = (0, false) := by simp [coveredBy, coveredFrom]
    have whole : ((twoLines plain dialect.delimiter).drop 0).take
        (min (twoLines plain dialect.delimiter).length (0 + 64) - 0) = twoLines plain dialect.delimiter := rfl
    rw [blocksFrom, if_pos (by simp [twoLines, Scan.fresh])]
    simp only [whole, masks, quote, newlines, delimiters, returns]
    rcases escape with escape | ⟨other, other', other''⟩
    · simp only [escape, newlines, if_true]
      rw [hidden, show (0x44 ||| 0x44 : Graph.Word) = 0x44 from rfl, show (0x44 ||| 0x02 : Graph.Word) = 0x46 from rfl,
        walked]
    · have none : maskOf dialect.escapeByte (twoLines plain dialect.delimiter) = 0 := by
        simp [twoLines, maskOf, two, other.symm, other'.symm, other''.symm]
      simp only [none, covered, if_neg other]
      rw [hidden, show (0x44 ||| 0 : Graph.Word) = 0x44 from rfl, show (0x44 ||| 0x02 : Graph.Word) = 0x46 from rfl,
        walked]
  have answered : blocks (twoLines plain dialect.delimiter) dialect true 2 0 [] =
      ([[Span.new 0 1 false], [Span.new 3 6 false]], .ok 7) := by
    rw [blocks]
    split
    · simp_all
    · simp_all
    · simp_all
  rw [records, if_pos masked, answered]

theorem spans_twoLines : (repeatRecords (fun start =>
    spans (twoLines plain dialect.delimiter) start dialect true) 2 0).1 =
    [[Span.new 0 1 false], [Span.new 3 4 false, Span.new 5 6 false]] := by
  obtain ⟨line, line', escape, comment⟩ := dialect_apart masked quote apart
  obtain ⟨one, two, three, four⟩ := apart
  have lines : carriageReturn ≠ newline := by decide
  have stops : dialect.stops plain = false := by simp [Dialect.stops, lineEnd, one, three, four, comment]
  have bare {start : Nat} (here : (twoLines plain dialect.delimiter)[start]? = some plain) {byte : UInt8}
      (next : (twoLines plain dialect.delimiter)[start + 1]? = some byte) (ends : dialect.stops byte = true) :
      readField (spanFields (twoLines plain dialect.delimiter) dialect) (twoLines plain dialect.delimiter) dialect true
        start = .ok (some (start + 1, Span.new start (start + 1) false)) := by
    have place : spanBare (twoLines plain dialect.delimiter) dialect start = start + 1 := by
      rw [spanBare_goes here (by simp [stops]), spanBare_stops next ends]
    simp [readField, here, quote, three, spanFields, place]
  have ends : dialect.stops carriageReturn = true ∧ dialect.stops newline = true ∧
      dialect.stops dialect.delimiter = true := by simp [Dialect.stops, lineEnd]
  have first : spans (twoLines plain dialect.delimiter) 0 dialect true = .ok (some ([Span.new 0 1 false], 3)) := by
    have front := fieldsFrom_some (@bare 0 rfl _ rfl ends.1) []
    rw [spans, readRecord, if_neg (by simp [twoLines])]
    simp [twoLines, comment, line'.symm, closeLine, behindLine] at front
    split <;> rename_i found <;> simp_all [twoLines]
  have second : spans (twoLines plain dialect.delimiter) 3 dialect true =
      .ok (some ([Span.new 3 4 false, Span.new 5 6 false], 7)) := by
    have front := fieldsFrom_some (@bare 3 rfl _ rfl ends.2.2) []
    have rest := fieldsFrom_some (@bare 5 rfl _ rfl ends.2.1) [Span.new 3 4 false]
    rw [spans, readRecord, if_neg (by simp [twoLines])]
    simp [twoLines, comment, line.symm, lines.symm, closeLine, behindLine] at front rest
    split <;> rename_i found <;> simp_all [twoLines]
  simp [repeatRecords, first, second]

end newline

/-- A dialect's records are read many at a time as they are read one by one, in every buffer that ranges can address,
just when the masks are not given a newline for a quote. In any dialect a record that is found while more may follow is
found in every longer buffer, and however a file is cut into refills its records are those of the whole file. -/
theorem records_as_one_by_one :
    ((∀ bytes eof start limit out, bytes.length ≤ Span.most →
      ∃ rows, (records bytes dialect eof limit start out).1 = out ++ rows ∧
        repeatRecords (fun start => record lossy bytes start dialect eof) (limit - out.length) start =
          (rows.map (List.map fun span => span.text lossy bytes dialect),
            (records bytes dialect eof limit start out).2)) ↔
      (dialect.masked = true → dialect.quoteByte ≠ newline)) ∧
    (∀ bytes start fields next, record lossy bytes start dialect false = .ok (some (fields, next)) → ∀ more eof,
      record lossy (bytes ++ more) start dialect eof = .ok (some (fields, next))) ∧
    ∀ bytes start refills, readThrough lossy dialect refills bytes start =
      let whole := bytes ++ (refills.map Prod.snd).flatten
      repeatRecords (fun start => record lossy whole start dialect true) (whole.length + 1) start := by
  refine ⟨⟨fun same masked quote => ?_, fun quote bytes eof start limit out small => ?_⟩,
    fun bytes start fields next found more eof => record_longer lossy (by simp) found more eof,
    fun bytes start refills => readThrough_whole lossy refills bytes start⟩
  · obtain ⟨plain, apart⟩ : ∃ plain : UInt8, plain ≠ dialect.delimiter ∧ plain ≠ dialect.escapeByte ∧
        plain ≠ newline ∧ plain ≠ carriageReturn := by
      have fewer : ({dialect.delimiter, dialect.escapeByte} : Finset UInt8).card < ({97, 98, 99} : Finset UInt8).card :=
        lt_of_le_of_lt Finset.card_le_two (by decide)
      obtain ⟨plain, member, free⟩ := Finset.exists_mem_notMem_of_card_lt_card fewer
      have others : ∀ plain ∈ ({97, 98, 99} : Finset UInt8), plain ≠ newline ∧ plain ≠ carriageReturn := by
        simp [newline, carriageReturn]
      simp only [Finset.mem_insert, Finset.mem_singleton, not_or] at free
      exact ⟨plain, free.1, free.2, others plain member⟩
    obtain ⟨rows, read, loop⟩ := same (twoLines plain dialect.delimiter) true 0 2 [] (by simp [twoLines, Span.most])
    rw [records_twoLines masked quote apart, List.nil_append] at read
    simp only [record_eq lossy (twoLines plain dialect.delimiter) dialect true (by simp [twoLines, Span.most]),
      repeatRecords_map] at loop
    have first := congrArg Prod.fst loop
    simp only [Prod.map, List.length_nil, Nat.sub_zero] at first
    rw [spans_twoLines masked quote apart, ← read] at first
    simp at first
  · rw [records_eq dialect quote, byteRecords_eq]
    refine ⟨_, rfl, ?_⟩
    simp only [record_eq lossy bytes dialect eof small, repeatRecords_map]
    rfl

end Records

/-- Two fields in quotes and a short line, and a dialect whose comments keep it from the masks. -/
theorem records_as_one_by_one_quoted :
    (let bytes : List UInt8 := [34, 97, 44, 34, 34, 34, 44, 98, 13, 10, 99, 10]
     let dialect : Dialect := ⟨44, none, none, none⟩
     ∃ rows, (records bytes dialect true 5 0 []).1 = rows ∧
       (rows.map (List.map fun span => span.text id bytes dialect), (records bytes dialect true 5 0 []).2) =
         ([[[97, 44, 34], [98]], [[99]]], .ok 12)) ∧
    (records [97, 13, 10, 98, 44, 99, 10] ⟨44, some 10, none, some 35⟩ true 5 0 []).1.length = 2 := by
  obtain ⟨rows, out, answer⟩ := (records_as_one_by_one id ⟨44, none, none, none⟩).1.mpr (by decide)
    [34, 97, 44, 34, 34, 34, 44, 98, 13, 10, 99, 10] true 0 5 [] (by decide)
  obtain ⟨rows', out', answer'⟩ := (records_as_one_by_one id ⟨44, some 10, none, some 35⟩).1.mpr (by decide)
    [97, 13, 10, 98, 44, 99, 10] true 0 5 [] (by decide)
  refine ⟨⟨rows, out, ?_⟩, ?_⟩
  · rw [← answer]
    decide +kernel
  · rw [out', List.nil_append]
    have read := congrArg (fun taken => taken.1.length) answer'
    simp only [List.length_map] at read
    rw [← read]
    decide +kernel

/-- A newline for a quote: the blocks take the second half of a line ending for the start of a quoted
field and miss the delimiter behind it, which the byte loop sees. -/
theorem newline_quote_hides_delimiter :
    (let bytes : List UInt8 := [97, 13, 10, 98, 44, 99, 10]
     let dialect : Dialect := ⟨44, some 10, none, none⟩
     (records bytes dialect true 5 0 []).1.map (List.map fun span => span.text id bytes dialect) =
         [[[97]], [[98, 44, 99]]] ∧
       repeatRecords (fun start => record id bytes start dialect true) 5 0 =
         ([[[97]], [[98], [99]]], .ok 7)) := by
  decide +kernel

end Rudb.Csv
