import Rudb.Csv.ScanProofs

/-! A record or an error that is found while more bytes may follow is found in every longer buffer, so
a file that is read through refills gives the records of the whole file. -/
namespace Rudb.Csv
open List

section Longer
variable {bytes : List UInt8}

theorem getElem?_longer {place : Nat} (here : bytes[place]? = some byte) :
    (bytes ++ more)[place]? = some byte := by
  rw [getElem?_append_left (lt_of_getElem? here), here]

theorem behindLine_longer {next : Nat} (here : bytes[at']? = some byte)
    (behind : behindLine bytes at' false = some next) : behindLine (bytes ++ more) at' eof = some next := by
  revert behind
  rw [behindLine.eq_def (bytes ++ more), getElem?_longer here, ← here]
  fun_cases behindLine bytes at' false with
  | case1 line there => simp [line, getElem?_longer there]
  | case2 _ _ there => simp [getElem?_longer there, *]
  | case3 _ _ never => cases never
  | case4 => rintro ⟨⟩
  | case5 line => simp [line]

theorem commentEnd_longer {next : Nat} (lt : at' < bytes.length)
    (behind : commentEnd bytes at' false = some next) : commentEnd (bytes ++ more) at' eof = some next := by
  unfold commentEnd at behind ⊢
  cases found : (bytes.drop at').findIdx? lineEnd with
  | none => simp [found] at behind
  | some place =>
    rw [found] at behind
    have longer : ((bytes ++ more).drop at').findIdx? lineEnd = some place := by
      rw [drop_append_of_le_length lt.le, findIdx?_append, found, Option.some_or]
    rw [longer]
    obtain ⟨inside, _⟩ := findIdx?_eq_some_iff_getElem.mp found
    rw [length_drop] at inside
    exact behindLine_longer (getElem?_eq_getElem (by omega)) behind

/-- A quoted field with a byte behind its closing quote, which says that the quote is not doubled. -/
theorem splitQuoted_longer (inside : stop < bytes.length)
    (read : splitQuoted bytes dialect start field = some (stop, out)) :
    splitQuoted (bytes ++ more) dialect start field = some (stop, out) := by
  fun_induction splitQuoted bytes dialect start field with
  | case1 | case2 => cases read
  | case3 start field byte here escape next follows ih =>
    rw [splitQuoted_some (getElem?_longer here), if_pos escape, getElem?_longer follows]
    exact ih read
  | case4 start field byte here escape doubled ih =>
    rw [splitQuoted_some (getElem?_longer here), if_neg escape, if_pos ⟨doubled.1, getElem?_longer doubled.2⟩]
    exact ih read
  | case5 start field here escape doubled =>
    cases read
    rw [splitQuoted_some (getElem?_longer here), if_neg escape, if_neg, if_pos rfl]
    rwa [getElem?_append_left inside]
  | case6 start field byte here escape doubled closing ih =>
    have plain : ¬ byte = dialect.escapeByte := by
      intro same
      refine escape ⟨same, fun both => closing (same.trans both)⟩
    rw [splitQuoted_some (getElem?_longer here), if_neg escape, if_neg fun both => plain both.1, if_neg closing]
    exact ih read

theorem splitBare_longer
    (inside : (splitBare bytes dialect start field).1 < bytes.length) :
    splitBare (bytes ++ more) dialect start field = splitBare bytes dialect start field := by
  fun_induction splitBare bytes dialect start field with
  | case1 start field here =>
    have := getElem?_eq_none_iff.mp here
    omega
  | case2 start field byte here stops =>
    unfold splitBare
    split
    · rfl
    · rename_i there
      cases (getElem?_longer here).symm.trans there
      rw [if_pos stops]
  | case3 start field byte here stops ih =>
    rw [splitBare]
    split
    · rename_i there
      cases (getElem?_longer here).symm.trans there
    rename_i there
    cases (getElem?_longer here).symm.trans there
    rw [if_neg stops]
    exact ih inside

end Longer

section Longer
variable {bytes : List UInt8}

/-- A field that is found while more may follow has a byte behind it. -/
theorem readField_inside
    (read : readField reader bytes dialect false start = .ok (some (stop, field))) : stop < bytes.length := by
  revert read
  fun_cases readField reader bytes dialect false start with
  | case1 | case2 | case4 | case5 => rintro ⟨⟩
  | case3 _ found field quoted byte here =>
    rintro ⟨⟩
    exact lt_of_getElem? here
  | case6 _ short =>
    intro read
    rw [Option.some.inj (Except.ok.inj read)] at short
    simpa using short

/-- A field, or the error behind one, that is found while more may follow. -/
theorem readField_longer
    (inside : start < bytes.length) (settled : result ≠ .ok none)
    (read : readField (splitFields bytes dialect) bytes dialect false start = result) :
    readField (splitFields (bytes ++ more) dialect) (bytes ++ more) dialect eof start = result := by
  unfold readField at read ⊢
  rw [getElem?_append_left inside]
  split at read
  · rename_i here
    rw [if_pos here]
    simp only [splitFields] at read ⊢
    cases quoted : splitQuoted bytes dialect (start + 1) [] with
    | none =>
      rw [quoted] at read
      exact absurd read.symm settled
    | some found =>
      rw [quoted] at read
      simp only at read
      cases behind : bytes[found.1]? with
      | none =>
        rw [behind] at read
        exact absurd read.symm settled
      | some byte =>
        rw [behind] at read
        rw [splitQuoted_longer (lt_of_getElem? behind) quoted]
        simp only [getElem?_longer behind]
        exact read
  · rename_i here
    rw [if_neg here]
    by_cases stop : ((splitFields bytes dialect).bare start).1 < bytes.length
    · have same : (splitFields (bytes ++ more) dialect).bare start = (splitFields bytes dialect).bare start :=
        splitBare_longer stop
      rw [if_neg (by simpa using stop)] at read
      have longer : ¬ ((splitFields bytes dialect).bare start).1 ≥ (bytes ++ more).length := by
        rw [length_append]
        omega
      rw [same, decide_eq_false longer, Bool.false_and, if_neg Bool.false_ne_true, read]
    · rw [if_pos (by simpa using stop)] at read
      exact absurd read.symm settled

theorem readField_past {Field : Type} (reader : FieldReader Field) (past : bytes.length ≤ start) :
    readField reader bytes dialect false start = .ok none := by
  have le := reader.bare_le start
  unfold readField
  rw [getElem?_eq_none_iff.mpr past, if_neg (by simp), if_pos (by simp; omega)]

theorem closeLine_longer (inside : stop < bytes.length)
    (settled : closeLine bytes false fields stop ≠ .short) :
    closeLine (bytes ++ more) eof fields stop = closeLine bytes false fields stop := by
  have here := getElem?_eq_getElem inside
  unfold closeLine at settled ⊢
  rw [getElem?_longer here, here, if_neg (by simp), if_neg (by simp)]
  rw [here, if_neg (by simp)] at settled
  cases behind : behindLine bytes stop false with
  | none => exact absurd (by rw [behind]) settled
  | some next => rw [behindLine_longer here behind]

/-- The fields of a record that is all there, or the error in one. -/
theorem fieldsFrom_longer
    (settled : result ≠ .ok .short)
    (read : fieldsFrom (splitFields bytes dialect) bytes dialect false start before = result) :
    fieldsFrom (splitFields (bytes ++ more) dialect) (bytes ++ more) dialect eof start before = result := by
  by_cases inside : start < bytes.length
  · fun_induction fieldsFrom (splitFields bytes dialect) bytes dialect false start before with
    | case1 start before message found =>
      rw [fieldsFrom_error (readField_longer inside (by simp) found), read]
    | case2 start before found | case3 start before stop field found comment ended => exact absurd read.symm settled
    | case4 start before stop field found comment next ended taken
    | case5 start before stop field found comment next ended taken =>
      have stopped := readField_inside found
      rw [fieldsFrom_some (readField_longer inside (by simp) found), getElem?_append_left stopped, if_pos comment,
        commentEnd_longer stopped ended, getElem?_append_left inside, ← read]
      first | exact if_pos taken | exact if_neg taken
    | case6 start before stop field found comment delimiter ih =>
      have stopped := readField_inside found
      rw [fieldsFrom_some (readField_longer inside (by simp) found), getElem?_append_left stopped, if_neg comment,
        if_pos delimiter]
      by_cases more_ : stop + 1 < bytes.length
      · exact ih read more_
      · rw [fieldsFrom_short (readField_past _ (by omega))] at read
        exact absurd read.symm settled
    | case7 start before stop field found comment delimiter =>
      have stopped := readField_inside found
      rw [fieldsFrom_some (readField_longer inside (by simp) found), getElem?_append_left stopped, if_neg comment,
        if_neg delimiter, closeLine_longer stopped fun short => settled (by rw [← read, short]), read]
  · rw [fieldsFrom_short (readField_past _ (by omega))] at read
    exact absurd read.symm settled

theorem readRecord_longer
    (settled : result ≠ .ok none) (read : readRecord (splitFields bytes dialect) bytes dialect false start = result) :
    readRecord (splitFields (bytes ++ more) dialect) (bytes ++ more) dialect eof start = result := by
  have longer (start : Nat) (inside : ¬ start ≥ bytes.length) : ¬ start ≥ (bytes ++ more).length := by
    rw [length_append]
    omega
  fun_induction readRecord (splitFields bytes dialect) bytes dialect false start with
  | case1 start past | case3 start inside found => exact absurd read.symm settled
  | case2 start inside message found | case4 start inside fields next found =>
    rw [readRecord_line _ (longer start inside), fieldsFrom_longer (by simp) found, ← read]
  | case5 start inside next found ih =>
    rw [readRecord_line _ (longer start inside), fieldsFrom_longer (by simp) found]
    exact ih read

end Longer

section Record
variable {Text : Type} (lossy : List UInt8 → Text) {bytes : List UInt8} {dialect : Dialect}

/-- A record, or an error, that is found while more may follow is found in every longer buffer. -/
theorem record_longer {start : Nat} {result : Except String (Option (List Text × Nat))} (settled : result ≠ .ok none)
    (read : record lossy bytes start dialect false = result) (more : List UInt8) (eof : Bool) :
    record lossy (bytes ++ more) start dialect eof = result := by
  unfold record at read ⊢
  have whole : readRecord (splitFields bytes dialect) bytes dialect false start ≠ .ok none := by
    intro short
    rw [short] at read
    exact settled read.symm
  rw [readRecord_longer whole rfl]
  exact read

end Record

/-- Records read one after another from a place on, up to a limit, and where the first one that was not
taken starts or the error that was met. -/
def repeatRecords {Row : Type} (call : Nat → Except String (Option (Row × Nat))) :
    (limit start : Nat) → List Row × Except String Nat
  | 0, start => ([], .ok start)
  | limit + 1, start =>
    match call start with
    | .error message => ([], .error message)
    | .ok none => ([], .ok start)
    | .ok (some (row, next)) =>
      let rest := repeatRecords call limit next
      (row :: rest.1, rest.2)

section Repeat
variable {Row : Type} {call : Nat → Except String (Option (Row × Nat))}

/-- What is read of a longer buffer begins with what was read of the shorter one. -/
theorem repeatRecords_longer (grows : ∀ start result, result ≠ .ok none → call start = result → longer start = result)
    (limit more start : Nat) :
    repeatRecords longer ((repeatRecords call limit start).1.length + (more + 1)) start =
      match (repeatRecords call limit start).2 with
      | .error message => ((repeatRecords call limit start).1, .error message)
      | .ok next =>
        let rest := repeatRecords longer (more + 1) next
        ((repeatRecords call limit start).1 ++ rest.1, rest.2) := by
  induction limit generalizing start with
  | zero => simp [repeatRecords]
  | succ limit ih =>
    rw [repeatRecords]
    cases read : call start with
    | error message =>
      have there := grows start _ (by simp) read
      simp [repeatRecords, there]
    | ok found =>
      cases found with
      | none => simp
      | some found =>
        have there := grows start _ (by simp) read
        have rest := ih found.2
        simp only [length_cons, show ∀ count, count + 1 + (more + 1) = (count + (more + 1)) + 1 by omega]
        rw [repeatRecords, there]
        simp only [rest]
        cases (repeatRecords call limit found.2).2 <;> rfl

/-- A limit that is more than what is left of the buffer is no limit. -/
theorem repeatRecords_enough (past : ∀ start, size ≤ start → call start = .ok none)
    (forward : ∀ start row next, call start = .ok (some (row, next)) → start < next)
    {start : Nat} (enough : size < start + limit) (enough' : size < start + other) :
    repeatRecords call limit start = repeatRecords call other start := by
  have nothing (limit : Nat) {start : Nat} (le : size ≤ start) : repeatRecords call limit start = ([], .ok start) := by
    cases limit with
    | zero => rfl
    | succ limit => rw [repeatRecords, past start le]
  induction limit generalizing other start with
  | zero => rw [nothing 0 (by omega), nothing other (by omega)]
  | succ limit ih =>
    cases other with
    | zero => rw [nothing 0 (by omega), nothing (limit + 1) (by omega)]
    | succ other =>
      rw [repeatRecords, repeatRecords]
      cases read : call start with
      | error message => rfl
      | ok found =>
        cases found with
        | none => rfl
        | some found =>
          have := forward start found.1 found.2 read
          simp only [@ih other found.2 (by omega) (by omega)]

end Repeat

section Refills
variable {Text : Type} (lossy : List UInt8 → Text) {bytes : List UInt8} {dialect : Dialect}

theorem record_forward {next : Nat}
    (read : record lossy bytes start dialect eof = .ok (some (fields, next))) : start < next := by
  revert read
  fun_cases record lossy bytes start dialect eof with
  | case1 | case2 => rintro ⟨⟩
  | case3 fields next found =>
    rintro ⟨⟩
    exact lt_readRecord found

/-- A file that is read into a buffer bit by bit: records up to some limit, more bytes behind those that
are there, and so on until there are no more. -/
def readThrough (dialect : Dialect) : List (Nat × List UInt8) → List UInt8 → Nat → List (List Text) × Except String Nat
  | [], bytes, start => repeatRecords (fun start => record lossy bytes start dialect true) (bytes.length + 1) start
  | (limit, chunk) :: rest, bytes, start =>
    let taken := repeatRecords (fun start => record lossy bytes start dialect false) limit start
    match taken.2 with
    | .error message => (taken.1, .error message)
    | .ok next =>
      let after := readThrough dialect rest (bytes ++ chunk) next
      (taken.1 ++ after.1, after.2)

/-- However a file is cut into refills, its records are those of the whole file. -/
theorem readThrough_whole (refills : List (Nat × List UInt8)) (bytes : List UInt8) (start : Nat) :
    readThrough lossy dialect refills bytes start =
      let whole := bytes ++ (refills.map Prod.snd).flatten
      repeatRecords (fun start => record lossy whole start dialect true) (whole.length + 1) start := by
  induction refills generalizing bytes start with
  | nil => simp [readThrough]
  | cons refill rest ih =>
    obtain ⟨limit, chunk⟩ := refill
    simp only [readThrough, ih, map_cons, flatten_cons, append_assoc]
    generalize bytesEq : bytes ++ (chunk ++ (rest.map Prod.snd).flatten) = whole
    have grows := fun start result settled read => @record_longer Text lossy bytes dialect start result settled read
      (chunk ++ (rest.map Prod.snd).flatten) true
    rw [bytesEq] at grows
    have longer := repeatRecords_longer grows limit whole.length start
    exact longer.symm.trans (repeatRecords_enough (fun start le => by rw [record, readRecord_past _ le])
      (fun start row next => record_forward lossy) (by omega) (by omega))

end Refills

end Rudb.Csv
