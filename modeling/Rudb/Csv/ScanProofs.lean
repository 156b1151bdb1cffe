import Rudb.Csv.Scan

/-! The ranges the one byte loop keeps hold the text the other one keeps, and a record that is found
before the end of a file is found in every longer buffer. -/
namespace Rudb.Csv
open List

def slice (bytes : List UInt8) (start stop : Nat) : List UInt8 := (bytes.drop start).take (stop - start)

section slice
theorem slice_empty (le : stop ≤ start) : slice bytes start stop = [] := by
  rw [slice, Nat.sub_eq_zero_of_le le, take_zero]

theorem slice_cons (here : bytes[start]? = some byte) (lt : start < stop) :
    slice bytes start stop = byte :: slice bytes (start + 1) stop := by
  obtain ⟨inside, value⟩ := List.getElem?_eq_some_iff.mp here
  rw [slice, slice, List.drop_eq_getElem_cons inside, value, show stop - start = (stop - (start + 1)) + 1 by omega,
    List.take_succ_cons]

theorem slice_getElem? (lt : place < stop - start) :
    (slice bytes start stop)[place]? = bytes[start + place]? := by
  rw [slice, getElem?_take_of_lt lt, getElem?_drop]

end slice

namespace Span
variable {last : Nat}

theorem start_new (le : first ≤ most) : (new first last marked).start = first := by
  have small : first < 2 ^ 32 := by
    unfold most at le
    omega
  rw [start, new, BitVec.toNat_ofNat, Nat.mod_eq_of_lt small]

theorem getLsbD_escapedBit (place : Nat) : escapedBit.getLsbD place = decide (place = 31) := by
  by_cases lt : place < 32
  · revert place
    decide
  · rw [BitVec.getLsbD_of_ge _ _ (by omega), decide_eq_false (by omega)]

section
variable (le : last ≤ most)
include le

theorem getLsbD_top : (BitVec.ofNat 32 last).getLsbD 31 = false := by
  have small : last < 2 ^ 31 := by
    unfold most at le
    omega
  rw [BitVec.getLsbD_ofNat, Nat.testBit_lt_two_pow small, Bool.and_false]

theorem getLsbD_endBits (place : Nat) : (new first last marked).endBits.getLsbD place =
    ((BitVec.ofNat 32 last).getLsbD place && decide (place ≠ 31) || decide (place = 31) && marked) := by
  have flag : (if marked then escapedBit else 0).getLsbD place = (decide (place = 31) && marked) := by
    cases marked <;> simp [getLsbD_escapedBit]
  rw [new, BitVec.getLsbD_or, flag]
  by_cases top : place = 31
  · rw [top, getLsbD_top le]
    simp
  · simp [top]

theorem stop_new : (new first last marked).stop = last := by
  have small : last < 2 ^ 31 := by
    unfold most at le
    omega
  have bits : (new first last marked).endBits &&& ~~~escapedBit = BitVec.ofNat 32 last := by
    refine BitVec.eq_of_getLsbD_eq fun place lt => ?_
    rw [BitVec.getLsbD_and, BitVec.getLsbD_not, getLsbD_endBits le, getLsbD_escapedBit]
    by_cases top : place = 31
    · rw [top, getLsbD_top le]
      simp
    · simp [top, lt]
  rw [stop, bits, BitVec.toNat_ofNat, Nat.mod_eq_of_lt (by omega)]

theorem escaped_new : (new first last marked).escaped = marked := by
  have top : ((new first last marked).endBits &&& escapedBit).getLsbD 31 = marked := by
    rw [BitVec.getLsbD_and, getLsbD_endBits le, getLsbD_escapedBit]
    simp
  cases marked with
  | false =>
    refine decide_eq_false (not_not.mpr (BitVec.eq_of_getLsbD_eq fun place lt => ?_))
    rw [BitVec.getLsbD_and, getLsbD_endBits le, getLsbD_escapedBit]
    by_cases here : place = 31 <;> simp [here]
  | true =>
    refine decide_eq_true fun zero => ?_
    rw [zero] at top
    cases top

end

theorem raw_new (bytes : List UInt8) (firstLe : first ≤ most) (lastLe : last ≤ most) :
    (new first last marked).raw bytes = slice bytes first last := by
  rw [raw, start_new firstLe, stop_new lastLe, slice]

end Span

section Readers
variable {bytes : List UInt8} {dialect : Dialect}

theorem lt_of_getElem? (here : bytes[place]? = some byte) : place < bytes.length :=
  (List.getElem?_eq_some_iff.mp here).1

variable {start : Nat}

theorem spanBare_none (here : bytes[start]? = none) : spanBare bytes dialect start = start := by
  unfold spanBare
  split <;> simp_all

theorem spanBare_stops (here : bytes[start]? = some byte)
    (stops : dialect.stops byte = true) : spanBare bytes dialect start = start := by
  unfold spanBare
  split <;> simp_all

theorem spanBare_goes (here : bytes[start]? = some byte)
    (stops : ¬ dialect.stops byte = true) : spanBare bytes dialect start = spanBare bytes dialect (start + 1) := by
  rw [spanBare]
  split <;> simp_all

/-- A field that is not quoted is the bytes up to the one that ends it. -/
theorem splitBare_eq (start : Nat) (field : List UInt8) : splitBare bytes dialect start field =
    (spanBare bytes dialect start, field ++ slice bytes start (spanBare bytes dialect start)) := by
  fun_induction splitBare bytes dialect start field with
  | case1 start field here => rw [spanBare_none here, slice_empty le_rfl, append_nil]
  | case2 start field byte here stops => rw [spanBare_stops here stops, slice_empty le_rfl, append_nil]
  | case3 start field byte here stops ih =>
    rw [ih, spanBare_goes here stops, slice_cons here (spanBare_le bytes dialect (start + 1)), append_assoc,
      singleton_append]

theorem spanBare_le_length {start : Nat} (le : start ≤ bytes.length) : spanBare bytes dialect start ≤ bytes.length := by
  fun_induction spanBare bytes dialect start with
  | case1 | case2 => exact le
  | case3 start byte here stops ih => exact ih (lt_of_getElem? here)

theorem splitQuoted_some (here : bytes[start]? = some byte) (field : List UInt8) :
    splitQuoted bytes dialect start field =
      if byte = dialect.escapeByte ∧ dialect.escapeByte ≠ dialect.quoteByte then
        match bytes[start + 1]? with
        | none => none
        | some next => splitQuoted bytes dialect (start + 2) (field ++ [next])
      else if byte = dialect.escapeByte ∧ bytes[start + 1]? = some dialect.quoteByte then
        splitQuoted bytes dialect (start + 2) (field ++ [dialect.quoteByte])
      else if byte = dialect.quoteByte then some (start + 1, field)
      else splitQuoted bytes dialect (start + 1) (field ++ [byte]) := by
  rw [splitQuoted]
  split
  · simp_all
  · rename_i other there
    cases here.symm.trans there
    rfl

theorem unescape_plain (escape : ¬ (byte = dialect.escapeByte ∧ dialect.escapeByte ≠ dialect.quoteByte))
    (doubled : ¬ (byte = dialect.escapeByte ∧ rest[0]? = some dialect.quoteByte)) :
    unescape dialect (byte :: rest) = byte :: unescape dialect rest := by
  cases rest with
  | nil => rfl
  | cons next rest =>
    rw [unescape, if_neg escape, if_neg fun both => doubled ⟨both.1, congrArg some both.2⟩]

/-- The bytes of a quoted field are those of its range with the escapes taken out, and without a mark
there is none to take out. -/
theorem splitQuoted_of_span (field : List UInt8)
    (found : spanQuoted bytes dialect start escaped = some (stop, mark)) :
    splitQuoted bytes dialect start field = some (stop + 1, field ++ unescape dialect (slice bytes start stop)) ∧
      (mark = false → escaped = false ∧ unescape dialect (slice bytes start stop) = slice bytes start stop) := by
  fun_induction spanQuoted bytes dialect start escaped generalizing field with
  | case1 | case2 => cases found
  | case3 start escaped byte here escape more ih =>
    obtain ⟨next, there⟩ : ∃ next, bytes[start + 1]? = some next := ⟨_, getElem?_eq_getElem (by omega)⟩
    have le := spanQuoted_le bytes dialect found
    obtain ⟨split, marked⟩ := ih (field ++ [next]) found
    obtain ⟨rfl, differ⟩ := escape
    rw [splitQuoted_some here, if_pos ⟨rfl, differ⟩, slice_cons here (by omega), slice_cons there (by omega),
      unescape, if_pos ⟨rfl, differ⟩]
    simp only [there]
    refine ⟨by rw [split, append_assoc, singleton_append], fun clear => ?_⟩
    cases (marked clear).1
  | case4 start escaped byte here escape doubled ih =>
    have le := spanQuoted_le bytes dialect found
    obtain ⟨split, marked⟩ := ih (field ++ [dialect.quoteByte]) found
    obtain ⟨rfl, there⟩ := doubled
    rw [splitQuoted_some here, if_neg escape, if_pos ⟨rfl, there⟩, slice_cons here (by omega),
      slice_cons there (by omega), unescape, if_neg escape, if_pos ⟨rfl, rfl⟩]
    refine ⟨by rw [split, append_assoc, singleton_append], fun clear => ?_⟩
    cases (marked clear).1
  | case5 start escaped here escape doubled =>
    cases found
    rw [splitQuoted_some here, if_neg escape, if_neg doubled, if_pos rfl, slice_empty le_rfl]
    exact ⟨by rw [unescape, append_nil], fun clear => ⟨clear, rfl⟩⟩
  | case6 start escaped byte here escape doubled closing ih =>
    have le := spanQuoted_le bytes dialect found
    obtain ⟨split, marked⟩ := ih (field ++ [byte]) found
    have plain : ¬ (byte = dialect.escapeByte ∧
        (slice bytes (start + 1) stop)[0]? = some dialect.quoteByte) := by
      intro both
      refine doubled ⟨both.1, ?_⟩
      by_cases more : start + 1 < stop
      · rw [← both.2, slice_getElem? (by omega)]
      · rw [slice_empty (by omega)] at both
        cases both.2
    rw [splitQuoted_some here, if_neg escape, if_neg doubled, if_neg closing, slice_cons here (by omega),
      unescape_plain escape plain]
    refine ⟨by rw [split, append_assoc, singleton_append], fun clear => ?_⟩
    rw [(marked clear).2]
    exact ⟨(marked clear).1, rfl⟩

theorem splitQuoted_none (field : List UInt8)
    (found : spanQuoted bytes dialect start escaped = none) : splitQuoted bytes dialect start field = none := by
  fun_induction spanQuoted bytes dialect start escaped generalizing field with
  | case1 start escaped here =>
    rw [splitQuoted]
    split <;> simp_all
  | case2 start escaped byte here escape past =>
    rw [splitQuoted_some here, if_pos escape, getElem?_eq_none_iff.mpr past]
  | case3 start escaped byte here escape more ih =>
    obtain ⟨next, there⟩ : ∃ next, bytes[start + 1]? = some next := ⟨_, getElem?_eq_getElem (by omega)⟩
    rw [splitQuoted_some here, if_pos escape]
    simp only [there]
    exact ih (field ++ [next]) found
  | case4 start escaped byte here escape doubled ih =>
    rw [splitQuoted_some here, if_neg escape, if_pos doubled]
    exact ih _ found
  | case5 => cases found
  | case6 start escaped byte here escape doubled closing ih =>
    rw [splitQuoted_some here, if_neg escape, if_neg doubled, if_neg closing]
    exact ih _ found

theorem spanQuoted_lt
    (found : spanQuoted bytes dialect start escaped = some (stop, mark)) : stop < bytes.length := by
  fun_induction spanQuoted bytes dialect start escaped with
  | case1 | case2 => cases found
  | case3 start escaped byte here escape more ih | case4 start escaped byte here escape doubled ih
  | case6 start escaped byte here escape doubled closing ih => exact ih found
  | case5 start escaped here escape doubled =>
    cases found
    exact lt_of_getElem? here

end Readers

section Loop
variable {Field : Type}

theorem fieldsFrom_error (found : readField reader bytes dialect eof start = .error message)
    (before : List Field) : fieldsFrom reader bytes dialect eof start before = .error message := by
  unfold fieldsFrom
  split <;> simp_all

theorem fieldsFrom_short (found : readField reader bytes dialect eof start = .ok none) (before : List Field) :
    fieldsFrom reader bytes dialect eof start before = .ok .short := by
  unfold fieldsFrom
  split <;> simp_all

theorem fieldsFrom_some (found : readField reader bytes dialect eof start = .ok (some (stop, field)))
    (before : List Field) : fieldsFrom reader bytes dialect eof start before =
      if bytes[stop]?.isSome && bytes[stop]? = dialect.comment then
        match commentEnd bytes stop eof with
        | none => .ok .short
        | some next =>
          if bytes[start]? ≠ some dialect.quoteByte && dropped (reader.raw field) before.length then .ok (.skipped next)
          else .ok (.ends (before ++ [field]) next)
      else if bytes[stop]? = some dialect.delimiter then
        fieldsFrom reader bytes dialect eof (stop + 1) (before ++ [field])
      else .ok (closeLine bytes eof (before ++ [field]) stop) := by
  rw [fieldsFrom]
  split
  · simp_all
  · simp_all
  · rename_i there
    cases found.symm.trans there
    rfl

end Loop

def Line.map {Field Other : Type} (view : Field → Other) : Line Field → Line Other
  | .short => .short
  | .ends fields next => .ends (fields.map view) next
  | .skipped next => .skipped next

section View
variable {Field Other : Type} {one : FieldReader Field} {other : FieldReader Other} {view : Field → Other}
  {bytes : List UInt8} {dialect : Dialect} {eof : Bool}

/-- One reader finds the fields another does, seen another way. -/
structure Views (one : FieldReader Field) (other : FieldReader Other) (view : Field → Other) (bytes : List UInt8) :
    Prop where
  quoted : ∀ start ≤ bytes.length, other.quoted start = (one.quoted start).map (Prod.map id view)
  bare : ∀ start ≤ bytes.length, other.bare start = Prod.map id view (one.bare start)
  raw : ∀ start ≤ bytes.length, other.raw (view (one.bare start).2) = one.raw (one.bare start).2

theorem Views.readField (views : Views one other view bytes) {start : Nat} (le : start ≤ bytes.length) :
    readField other bytes dialect eof start =
      (readField one bytes dialect eof start).map (Option.map (Prod.map id view)) := by
  unfold Csv.readField
  split
  · rename_i here
    rw [views.quoted (start + 1) (lt_of_getElem? here)]
    cases one.quoted (start + 1) with
    | none => rfl
    | some found =>
      simp only [Option.map_some, Prod.map_fst, Prod.map_snd, id_eq]
      cases bytes[found.1]? with
      | none => cases eof <;> rfl
      | some byte =>
        simp only
        split <;> rfl
  · rw [views.bare start le]
    simp only [Prod.map_fst, id_eq]
    split <;> rfl

theorem Views.readField_some (views : Views one other view bytes)
    (le : start ≤ bytes.length) (found : Csv.readField one bytes dialect eof start = .ok (some (stop, field))) :
    Csv.readField other bytes dialect eof start = .ok (some (stop, view field)) := by
  rw [views.readField le, found]
  rfl

theorem closeLine_map (fields : List Field) (stop : Nat) :
    closeLine bytes eof (fields.map view) stop = (closeLine bytes eof fields stop).map view := by
  unfold closeLine
  split
  · rfl
  · split <;> rfl

theorem readField_bare (bare : bytes[start]? ≠ some dialect.quoteByte)
    (found : readField one bytes dialect eof start = .ok (some (stop, field))) : one.bare start = (stop, field) := by
  unfold readField at found
  rw [if_neg bare] at found
  split at found
  · cases found
  · simpa using found

/-- The readers drop the same fields in front of a comment. -/
theorem Views.dropped (views : Views one other view bytes)
    (le : start ≤ bytes.length) (found : Csv.readField one bytes dialect eof start = .ok (some (stop, field)))
    (count : Nat) :
    (decide (bytes[start]? ≠ some dialect.quoteByte) && Csv.dropped (other.raw (view field)) count) =
      (decide (bytes[start]? ≠ some dialect.quoteByte) && Csv.dropped (one.raw field) count) := by
  by_cases bare : bytes[start]? ≠ some dialect.quoteByte
  · have same := views.raw start le
    rw [readField_bare bare found] at same
    rw [same]
  · rw [decide_eq_false bare, Bool.false_and, Bool.false_and]

theorem Views.fieldsFrom (views : Views one other view bytes) {start : Nat} (le : start ≤ bytes.length)
    (before : List Field) : fieldsFrom other bytes dialect eof start (before.map view) =
      (fieldsFrom one bytes dialect eof start before).map (Line.map view) := by
  fun_induction Csv.fieldsFrom one bytes dialect eof start before with
  | case1 start before message found =>
    have there := @Views.readField _ _ one other view bytes dialect eof views start le
    rw [found] at there
    exact fieldsFrom_error there _
  | case2 start before found =>
    have there := @Views.readField _ _ one other view bytes dialect eof views start le
    rw [found] at there
    exact fieldsFrom_short there _
  | case3 start before stop field found comment ended =>
    have there := views.readField_some le found
    rw [fieldsFrom_some there, if_pos comment, ended]
    rfl
  | case4 start before stop field found comment next ended taken =>
    have there := views.readField_some le found
    rw [fieldsFrom_some there, if_pos comment, ended, length_map]
    simp only [views.dropped le found, taken]
    rfl
  | case5 start before stop field found comment next ended kept =>
    have there := views.readField_some le found
    rw [fieldsFrom_some there, if_pos comment, ended, length_map]
    simp only [views.dropped le found, if_neg kept]
    simp [Except.map, Line.map]
  | case6 start before stop field found comment delimiter ih =>
    have there := views.readField_some le found
    have next := ih (lt_of_getElem? delimiter)
    rw [map_append, map_singleton] at next
    rw [fieldsFrom_some there, if_neg comment, if_pos delimiter, next]
  | case7 start before stop field found comment delimiter =>
    have there := views.readField_some le found
    rw [fieldsFrom_some there, if_neg comment, if_neg delimiter, ← map_singleton, ← map_append,
      closeLine_map]
    rfl

end View

section View
variable {Field Other : Type}

theorem readRecord_past (reader : FieldReader Field) (past : start ≥ bytes.length) :
    readRecord reader bytes dialect eof start = .ok none := by
  unfold readRecord
  rw [if_pos past]

theorem readRecord_line (reader : FieldReader Field) (inside : ¬ start ≥ bytes.length) :
    readRecord reader bytes dialect eof start =
      match fieldsFrom reader bytes dialect eof start [] with
      | .error message => .error message
      | .ok .short => .ok none
      | .ok (.ends fields next) => .ok (some (fields, next))
      | .ok (.skipped next) => readRecord reader bytes dialect eof next := by
  rw [readRecord, if_neg inside]
  split <;> rename_i found <;> rw [found]

theorem Views.readRecord (views : Views one other view bytes) (start : Nat) : readRecord other bytes dialect eof start =
      (readRecord one bytes dialect eof start).map (Option.map (Prod.map (map view) id)) := by
  have line := fun start le => @Views.fieldsFrom _ _ one other view bytes dialect eof views start le []
  fun_induction Csv.readRecord one bytes dialect eof start with
  | case1 start past => exact readRecord_past other past
  | case2 start inside message found | case3 start inside found | case4 start inside fields next found =>
    have there := line start (by omega)
    rw [found, map_nil] at there
    rw [readRecord_line other inside, there]
    rfl
  | case5 start inside next found ih =>
    have there := line start (by omega)
    rw [found, map_nil] at there
    rw [readRecord_line other inside, there]
    exact ih

/-- The ranges hold what the other loop keeps, in a buffer that a range can reach the end of. -/
theorem spans_view (small : bytes.length ≤ Span.most) :
    Views (spanFields bytes dialect) (splitFields bytes dialect) (fun span => span.held bytes dialect) bytes where
  quoted start le := by
    simp only [spanFields, splitFields]
    cases found : spanQuoted bytes dialect start false with
    | none => rw [splitQuoted_none [] found]; rfl
    | some pair =>
      have lt := spanQuoted_lt found
      obtain ⟨split, marked⟩ := splitQuoted_of_span [] found
      rw [split]
      simp only [Option.map_some, Prod.map_apply, id_eq, nil_append, Option.some.injEq, Prod.mk.injEq, true_and]
      rw [Span.held, Span.escaped_new (by omega), Span.raw_new bytes (by omega) (by omega)]
      split
      · rfl
      · rename_i clear
        exact (marked (by simpa using clear)).2
  bare start le := by
    have stop := @spanBare_le_length bytes dialect start le
    simp only [spanFields, splitFields, splitBare_eq, Prod.map_apply, id_eq, nil_append, Prod.mk.injEq, true_and]
    rw [Span.held, Span.escaped_new (by omega), Span.raw_new bytes (by omega) (by omega)]
    rfl
  raw start le := by
    have stop := @spanBare_le_length bytes dialect start le
    simp only [spanFields, splitFields, id_eq]
    rw [Span.held, Span.escaped_new (by omega)]
    rfl

end View

end Rudb.Csv
