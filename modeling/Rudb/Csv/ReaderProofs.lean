import Rudb.Csv.Reader

/-! What a reader over a stretch takes, in terms of the records one reader meets from a place on: a first
part of them, up to the first that starts behind the stretch. -/
namespace Rudb.Csv
open List

section Buffer
variable {Row : Type} {source : Source Row}

def Place.span (place : Place) : Span := Span.new place.start place.stop place.escaped

theorem places_view (small : bytes.length ≤ Span.most) :
    Views (placeFields bytes dialect) (spanFields bytes dialect) Place.span bytes where
  quoted start le := by
    simp only [spanFields, placeFields, Option.map_map]
    rfl
  bare start le := rfl
  raw start le := by
    have stop := @spanBare_le_length bytes dialect start le
    exact Span.raw_new bytes (le.trans small) (stop.trans small)

/-- `scan::records` on the file finds the records that are read here, in blocks or not. -/
theorem records_recordAt (small : source.file.length ≤ Span.most) (limit here : Nat) :
    records source.file source.dialect true limit here [] =
      Prod.map (map fun record => record.fields.map Place.span) id (repeatRecords (recordAt source) limit here) := by
  have one (here : Nat) : spans source.file here source.dialect true =
      (recordAt source here).map (Option.map (Prod.map (fun record => record.fields.map Place.span) id)) := by
    rw [spans, (places_view small).readRecord, recordAt]
    cases readRecord (placeFields source.file source.dialect) source.file source.dialect true here with
    | error message => rfl
    | ok found => cases found <;> rfl
  rw [records_eq source.dialect source.plain, byteRecords_eq]
  simp only [one, repeatRecords_map]
  rfl

end Buffer

section Stream
variable {Row : Type} (source : Source Row)

def stream (here : Nat) : List Record × Option String :=
  match _found : recordAt source here with
  | .error message => ([], some message)
  | .ok none => ([], none)
  | .ok (some (record, next)) => (record :: (stream next).1, (stream next).2)
termination_by source.file.length - here
decreasing_by
  all_goals
    have := recordAt_some _found
    omega

def after (here : Nat) (records : List Record) : Nat := (records.getLast?.map Record.next).getD here

end Stream

section Stream
variable {Row : Type} {source : Source Row} {here next line : Nat} {stop : Option Nat}

variable {message : String}

theorem stream_error (found : recordAt source here = .error message) : stream source here = ([], some message) := by
  unfold stream
  split <;> simp_all

theorem stream_none (found : recordAt source here = .ok none) : stream source here = ([], none) := by
  unfold stream
  split <;> simp_all

theorem stream_some {record : Record} (found : recordAt source here = .ok (some (record, next))) :
    stream source here = (record :: (stream source next).1, (stream source next).2) := by
  rw [stream]
  split <;> simp_all

theorem after_cons (record : Record) (rest : List Record) : after here (record :: rest) = after record.next rest := by
  cases rest with
  | nil => rfl
  | cons second rest =>
    cases found : (second :: rest).getLast? with
    | none => simp at found
    | some last => rfl

theorem after_append (front rest : List Record) : after here (front ++ rest) = after (after here front) rest := by
  induction front generalizing here with
  | nil => rfl
  | cons record front ih => rw [cons_append, after_cons, ih, after_cons]

theorem stream_cons {record : Record} (eq : (stream source here).1 = record :: rest) :
    record.start = here ∧ here < record.next ∧ stream source record.next = (rest, (stream source here).2) := by
  cases found : recordAt source here with
  | error message =>
    rw [stream_error found] at eq
    cases eq
  | ok line =>
    cases line with
    | none =>
      rw [stream_none found] at eq
      cases eq
    | some line =>
      have lt := recordAt_some found
      rw [stream_some found] at eq ⊢
      cases eq
      exact ⟨lt.2.2.1, lt.2.2.2.symm ▸ lt.1, by rw [lt.2.2.2]⟩

variable {records : List Record}

theorem stream_mem (eq : (stream source here).1 = records) :
    ∀ record ∈ records, here ≤ record.start ∧ record.start < record.next := by
  induction records generalizing here with
  | nil => simp
  | cons head rest ih =>
    obtain ⟨start, lt, rest⟩ := stream_cons eq
    intro record member
    rcases mem_cons.mp member with rfl | later
    · omega
    · have := ih (congrArg Prod.fst rest) record later
      omega

theorem stream_after (eq : (stream source here).1 = front ++ rest) :
    stream source (after here front) = (rest, (stream source here).2) ∧ here ≤ after here front ∧
      ∀ record ∈ front, record.next ≤ after here front := by
  induction front generalizing here with
  | nil => exact ⟨Prod.ext eq rfl, le_rfl, by simp⟩
  | cons head front ih =>
    obtain ⟨start, lt, behind⟩ := stream_cons eq
    obtain ⟨same, le, before⟩ := ih (congrArg Prod.fst behind)
    rw [after_cons]
    refine ⟨by rw [same, behind], by omega, fun record member => ?_⟩
    rcases mem_cons.mp member with rfl | later
    · exact le
    · exact before record later

/-- Records that were taken from a place on: the first ones there are, none of them behind the stretch. -/
structure Takes (source : Source Row) (stop : Option Nat) (here : Nat) (records rest : List Record) (next : Nat) :
    Prop where
  split : (stream source here).1 = records ++ rest
  next : next = after here records
  inside : ∀ record ∈ records, past stop record.start = false

def Ends (source : Source Row) (stop : Option Nat) (next : Nat) : Prop :=
  past stop next = true ∨ recordAt source next = .ok none

namespace Takes
variable {records rest : List Record}

section
variable (takes : Takes source stop here records rest next)
include takes

theorem behind :
    stream source next = (rest, (stream source here).2) := takes.next ▸ (stream_after takes.split).1

theorem append (then_ : Takes source stop next more left later) :
    Takes source stop here (records ++ more) left later where
  split := by
    have eq : rest = more ++ left := by simpa [takes.behind] using then_.split
    rw [takes.split, eq, append_assoc]
  next := by rw [after_append, ← takes.next, then_.next]
  inside record member := (mem_append.mp member).elim (takes.inside record) (then_.inside record)

/-- Where nothing more is to be taken, everything was. -/
theorem all (ends : Ends source stop next) :
    records = (stream source here).1.takeWhile (fun record => !past stop record.start) ∧
      rest = (stream source here).1.dropWhile (fun record => !past stop record.start) := by
  have inside : ∀ record ∈ records, (!past stop record.start) = true := fun record member => by
    rw [takes.inside record member, Bool.not_false]
  have stops : rest.takeWhile (fun record => !past stop record.start) = [] ∧
      rest.dropWhile (fun record => !past stop record.start) = rest := by
    rcases rest with _ | ⟨head, tail⟩
    · exact ⟨rfl, rfl⟩
    have start := (stream_cons (congrArg Prod.fst takes.behind)).1
    rcases ends with beyond | none_
    · simp [start, beyond]
    · have behind := takes.behind
      rw [stream_none none_] at behind
      cases congrArg Prod.fst behind
  rw [takes.split, takeWhile_append_of_pos inside, dropWhile_append_of_pos inside, stops.1, stops.2]
  simp

end

end Takes

theorem recordsUntil_takes (read : recordsUntil source stop left here = .ok (records, next)) :
    ∃ rest, Takes source stop here records rest next ∧ (records.length < left → Ends source stop next) := by
  fun_induction recordsUntil source stop left here generalizing records with
  | case1 =>
    cases read
    exact ⟨_, ⟨rfl, rfl, by simp⟩, fun less => absurd less (Nat.not_lt_zero _)⟩
  | case2 left here beyond =>
    cases read
    exact ⟨_, ⟨rfl, rfl, by simp⟩, fun _ => .inl beyond⟩
  | case3 => cases read
  | case4 left here before found =>
    cases read
    exact ⟨_, ⟨rfl, rfl, by simp⟩, fun _ => .inr found⟩
  | case5 left here before line behind found ih =>
    obtain ⟨taken, later, same⟩ := map_ok read
    cases same
    obtain ⟨rest, takes, short⟩ := ih later
    obtain ⟨_, _, start, at'⟩ := recordAt_some found
    refine ⟨rest, ⟨?_, ?_, fun record member => ?_⟩, fun less => short (by simpa using less)⟩
    · rw [stream_some found, takes.split, cons_append]
    · rw [after_cons, at', takes.next]
    · rcases mem_cons.mp member with rfl | later
      · simpa [start] using before
      · exact takes.inside record later

theorem recordsUntil_error (read : recordsUntil source stop left here = .error message) :
    (stream source here).2 = some message := by
  fun_induction recordsUntil source stop left here with
  | case1 | case2 | case4 => cases read
  | case3 left here before other found =>
    cases read
    rw [stream_error found]
  | case5 left here before line behind found ih =>
    rw [stream_some found]
    cases later : recordsUntil source stop left behind with
    | error other =>
      rw [later] at read
      cases read
      exact ih later
    | ok taken => simp [later, Except.map] at read

theorem nextRecords_takes (read : nextRecords source stop here line = .ok (records, next)) :
    ∃ rest, Takes source stop here records rest next ∧ (records = [] → Ends source stop next) := by
  rcases nextRecords_ok read with ⟨beyond, none_⟩ | ⟨whole, first, eq⟩
  · cases none_
    exact ⟨_, ⟨rfl, rfl, by simp⟩, fun _ => .inl beyond⟩
  have some_ : records = [] → records.length < vectorSize := fun empty => by
    rw [empty]
    exact (by decide : 0 < vectorSize)
  split at eq
  · obtain ⟨rest, takes, short⟩ := recordsUntil_takes eq
    exact ⟨rest, takes, fun empty => short (some_ empty)⟩
  rename_i within
  cases eq
  obtain ⟨rest, takes, short⟩ := recordsUntil_takes first
  refine ⟨rest, ⟨takes.split, takes.next, fun record member => ?_⟩, fun empty => .inr ?_⟩
  · have lt := (stream_mem takes.split record (mem_append_left _ member)).2
    have le := takes.next ▸ (stream_after takes.split).2.2 record member
    cases stop with
    | none => rfl
    | some stop =>
      simp only [Option.any_some, decide_eq_true_eq] at within
      simp only [past, Option.any_some, decide_eq_false_iff_not]
      omega
  · exact (short (some_ empty)).resolve_left (by simp [past])

/-- No record is longer than the limit, the comments before it included. -/
def Short (source : Source Row) (here : Nat) : Prop :=
  ∀ record ∈ (stream source here).1, record.next - record.start ≤ source.limit

theorem Short.behind (short : Short source here)
    (takes : Takes source stop here records rest next) : Short source next := by
  intro record member
  rw [takes.behind] at member
  exact short record (takes.split ▸ mem_append_right _ member)

theorem measured_ok
    (short : ∀ record ∈ records, record.next - record.start ≤ source.limit) :
    measured source end_ line start row records = .ok () := by
  induction records generalizing start row with
  | nil => rfl
  | cons record rest ih =>
    have fits (number : Nat) : refuseLong source (slice source.file record.start record.next) number = .ok () := by
      have size := short record (by simp)
      have length : (slice source.file record.start record.next).length ≤ record.next - record.start := by
        rw [slice, length_take]
        omega
      have drop (bytes : List UInt8) : bytes.dropLast.length ≤ bytes.length := by simp
      unfold refuseLong
      rw [if_pos]
      split
      · refine le_trans ?_ (length.trans size)
        split <;> split
        · exact (drop _).trans (drop _)
        · exact drop _
        · exact drop _
        · exact le_rfl
      · omega
    rw [measured.eq_def]
    simp only [fits, ite_self]
    exact ih fun other member => short other (mem_cons_of_mem _ member)

theorem nextRecords_error (short : Short source here)
    (read : nextRecords source stop here line = .error message) : (stream source here).2.isSome := by
  unfold nextRecords at read
  split at read
  · cases read
  cases whole : recordsUntil source none vectorSize here with
  | error other => rw [recordsUntil_error whole]; rfl
  | ok whole' =>
    simp only [whole] at read
    split at read
    · rename_i other eq
      split at eq
      · rw [recordsUntil_error eq]; rfl
      · cases eq
    rename_i taken eq
    have among : ∀ record ∈ taken.1, record ∈ (stream source here).1 := by
      intro record member
      split at eq
      · obtain ⟨rest, takes, _⟩ := recordsUntil_takes eq
        exact takes.split ▸ mem_append_left _ member
      · cases eq
        obtain ⟨rest, takes, _⟩ := recordsUntil_takes whole
        exact takes.split ▸ mem_append_left _ member
    have fine : longLine source here taken.2 line taken.1 = .ok () := by
      unfold longLine
      split
      · rfl
      · exact measured_ok fun record member => short record (among record member)
    simp [fine, Except.map] at read

theorem skim_ok (read : skim source stop here = .ok found) :
    found = after here ((stream source here).1.takeWhile fun record => !past stop record.start) := by
  have taken : ∃ records rest, Takes source stop here records rest found ∧ Ends source stop found := by
    fun_induction skim source stop here with
    | case1 => cases read
    | case2 here next eq =>
      cases read
      obtain ⟨rest, takes, done⟩ := nextRecords_takes eq
      exact ⟨_, rest, takes, done rfl⟩
    | case3 here head tail next eq ih =>
      obtain ⟨rest, takes, _⟩ := nextRecords_takes eq
      obtain ⟨more, left, then_, done⟩ := ih read
      exact ⟨_, left, takes.append then_, done⟩
  obtain ⟨records, rest, takes, done⟩ := taken
  rw [takes.next, (takes.all done).1]

theorem skim_error (short : Short source here) (read : skim source stop here = .error message) :
    (stream source here).2.isSome := by
  fun_induction skim source stop here with
  | case1 here other eq => exact nextRecords_error short eq
  | case2 => cases read
  | case3 here head tail next eq ih =>
    obtain ⟨rest, takes, _⟩ := nextRecords_takes eq
    have behind := ih (short.behind takes) read
    rwa [takes.behind] at behind

/-- What a chunk holds: the rows of some records, all of which convert. -/
structure Converts (source : Source Row) (stop : Option Nat) (here line : Nat)
    (chunk : Option (List Row)) (next later : Nat)
    (records rest : List Record) : Prop where
  takes : Takes source stop here records rest next
  fine : ∀ record ∈ records, source.bad record = false
  rows : chunk.getD [] = records.filterMap source.row
  line : later = line + records.length
  done : chunk = none → Ends source stop next

theorem nextChunk_ok
    (read : nextChunk source stop here line = .ok (chunk, next, later)) :
    ∃ records rest, Converts source stop here line chunk next later records rest := by
  fun_induction nextChunk source stop here line with
  | case1 | case3 => cases read
  | case2 here line behind eq =>
    cases read
    obtain ⟨rest, takes, done⟩ := nextRecords_takes eq
    exact ⟨[], rest, takes, by simp, rfl, rfl, fun _ => done rfl⟩
  | case4 here line head tail behind eq fine rows empty ih =>
    obtain ⟨rest, takes, _⟩ := nextRecords_takes eq
    obtain ⟨more, left, then_⟩ := ih read
    simp only [any_eq_true, not_exists, not_and, Bool.not_eq_true] at fine
    refine ⟨head :: tail ++ more, left, takes.append then_.takes, fun record member => ?_, ?_, ?_, then_.done⟩
    · exact (mem_append.mp member).elim (fine record) (then_.fine record)
    · have none_ : (head :: tail).filterMap source.row = [] := isEmpty_iff.mp empty
      rw [filterMap_append, then_.rows, none_, nil_append]
    · rw [then_.line, length_append]
      omega
  | case5 here line head tail behind eq fine rows some_ =>
    obtain ⟨rfl, rfl, rfl⟩ := read
    obtain ⟨rest, takes, _⟩ := nextRecords_takes eq
    simp only [any_eq_true, not_exists, not_and, Bool.not_eq_true] at fine
    exact ⟨_, rest, takes, fine, rfl, rfl, fun no => by cases no⟩

/-- A reader fails only where the file is malformed or holds a record that does not convert. -/
def Fails (source : Source Row) (here : Nat) : Prop :=
  (stream source here).2.isSome ∨ ∃ record ∈ (stream source here).1, source.bad record = true

theorem Fails.before (takes : Takes source stop here records rest next)
    (fails : Fails source next) : Fails source here := by
  rw [Fails, takes.behind] at fails
  refine fails.imp id fun ⟨record, member, bad⟩ => ⟨record, ?_, bad⟩
  exact takes.split ▸ mem_append_right _ member

theorem nextChunk_error (short : Short source here)
    (read : nextChunk source stop here line = .error message) : Fails source here := by
  fun_induction nextChunk source stop here line with
  | case1 here line other eq => exact .inl (nextRecords_error short eq)
  | case2 | case5 => cases read
  | case3 here line head tail behind eq bad =>
    obtain ⟨rest, takes, _⟩ := nextRecords_takes eq
    obtain ⟨record, member, bad⟩ := any_eq_true.mp bad
    exact .inr ⟨record, takes.split ▸ mem_append_left _ member, bad⟩
  | case4 here line head tail behind eq fine rows empty ih =>
    obtain ⟨rest, takes, _⟩ := nextRecords_takes eq
    exact (ih (short.behind takes) read).before takes

section Chunks
variable {head : Record} {tail : List Record}

theorem nextChunk_refused (read : nextRecords source stop here line = .error message) :
    nextChunk source stop here line = .error message := by
  rw [nextChunk]
  split <;> simp_all

/-- A chunk whose records all convert to nothing is passed over. -/
theorem nextChunk_cons (read : nextRecords source stop here line = .ok (head :: tail, next))
    (fine : ∀ record ∈ head :: tail, source.bad record = false) :
    nextChunk source stop here line =
      if ((head :: tail).filterMap source.row).isEmpty then
        nextChunk source stop next (line + (head :: tail).length)
      else .ok (some ((head :: tail).filterMap source.row), next, line + (head :: tail).length) := by
  have none_ : (head :: tail).any source.bad = false := by simpa using fine
  rw [nextChunk]
  split
  · simp_all
  · simp_all
  · rename_i found
    cases found.symm.trans read
    simp [none_]

theorem readAll_refused (read : nextChunk source none here line = .error message) :
    readAll source here line = ([], some message) := by
  rw [readAll]
  split <;> simp_all

theorem readAll_none (read : nextChunk source none here line = .ok (none, next, after')) :
    readAll source here line = ([], none) := by
  rw [readAll]
  split <;> simp_all

theorem readAll_some (read : nextChunk source none here line = .ok (some rows, next, after')) :
    readAll source here line = (rows ++ (readAll source next after').1, (readAll source next after').2) := by
  rw [readAll]
  split
  · simp_all
  · simp_all
  · rename_i found
    cases found.symm.trans read
    rfl

end Chunks

/-- A reader of the whole file hands back the rows of all its records. -/
theorem readAll_fine (short : Short source here) (fine : ¬ Fails source here) :
    readAll source here line = ((stream source here).1.filterMap source.row, none) := by
  induction size : source.file.length - here using Nat.strongRecOn generalizing here line with
  | ind size ih =>
    cases read : nextChunk source none here line with
    | error message => exact absurd (nextChunk_error short read) fine
    | ok found =>
      obtain ⟨chunk, next, later⟩ := found
      obtain ⟨records, rest, converts⟩ := nextChunk_ok read
      cases chunk with
      | none =>
        have empty : rest = [] := by
          rcases converts.done rfl with beyond | none_
          · cases beyond
          · have behind := converts.takes.behind
            rw [stream_none none_] at behind
            exact (congrArg Prod.fst behind).symm
        rw [readAll_none read, converts.takes.split, empty, append_nil, ← converts.rows]
        rfl
      | some rows =>
        have lt := nextChunk_forward read
        have rows_ : rows = records.filterMap source.row := converts.rows
        rw [readAll_some read, ih _ (by omega) (short.behind converts.takes)
          (fun fails => fine (fails.before converts.takes)) rfl, converts.takes.behind, converts.takes.split,
          filterMap_append, rows_]

theorem readAll_fails (fails : Fails source here) : (readAll source here line).2.isSome := by
  induction size : source.file.length - here using Nat.strongRecOn generalizing here line with
  | ind size ih =>
    cases read : nextChunk source none here line with
    | error message => rw [readAll_refused read]; rfl
    | ok found =>
      obtain ⟨chunk, next, later⟩ := found
      obtain ⟨records, rest, converts⟩ := nextChunk_ok read
      -- what fails is not among the records of the chunk
      have behind : Fails source next := by
        rw [Fails, converts.takes.behind]
        refine fails.imp id fun ⟨record, member, bad⟩ => ⟨record, ?_, bad⟩
        rw [converts.takes.split] at member
        refine (mem_append.mp member).resolve_left fun here => ?_
        rw [converts.fine record here] at bad
        cases bad
      cases chunk with
      | none =>
        rcases converts.done rfl with beyond | none_
        · cases beyond
        · rw [Fails, stream_none none_] at behind
          simp at behind
      | some rows =>
        have lt := nextChunk_forward read
        rw [readAll_some read]
        exact ih _ (by omega) behind rfl

/-- Passing over records that convert leaves the error a reader meets first. -/
theorem readAll_behind {head : Record} {tail : List Record}
    (read : nextRecords source none here line = .ok (head :: tail, next))
    (fine : ∀ record ∈ head :: tail, source.bad record = false) :
    (readAll source here line).2 = (readAll source next (line + (head :: tail).length)).2 := by
  have chunk := nextChunk_cons read fine
  split at chunk
  · rw [readAll, chunk, ← readAll]
  · rw [readAll_some chunk]

/-- The records that end at or before a place convert. -/
def FineTo (source : Source Row) (target : Option Nat) (here : Nat) : Prop :=
  ∀ record ∈ (stream source here).1, target.all (record.next ≤ ·) → source.bad record = false

/-- Skipping meets the error a reader meets first, or stops before it. -/
theorem skipTo_right {target : Option Nat} (fine : FineTo source target here) :
    match skipTo source target here line with
    | .error message => (readAll source here line).2 = some message
    | .ok (next, later) => (readAll source next later).2 = (readAll source here line).2 := by
  fun_induction skipTo source target here line with
  | case1 here line message read => rw [readAll_refused (nextChunk_refused read)]
  | case2 | case3 => rfl
  | case4 here line head tail next read within ih =>
    obtain ⟨rest, takes, _⟩ := nextRecords_takes read
    have converts : ∀ record ∈ head :: tail, source.bad record = false := by
      intro record member
      refine fine record (takes.split ▸ mem_append_left _ member) ?_
      have le := takes.next ▸ (stream_after takes.split).2.2 record member
      cases target with
      | none => rfl
      | some target =>
        simp only [Option.any_some, decide_eq_true_eq] at within
        simp only [Option.all_some, decide_eq_true_eq]
        omega
    have later : FineTo source target next := by
      intro record member
      rw [takes.behind] at member
      exact fine record (takes.split ▸ mem_append_right _ member)
    rw [readAll_behind read converts]
    exact ih later

end Stream

end Rudb.Csv
