import Rudb.Csv.MasksProofs
import Rudb.Csv.ScanProofs

/-! A field that is shaped like a quoted one is the field the byte loop reads as quoted, and it has an
even number of quotes when a quote is escaped by another. -/
namespace Rudb.Csv
open Lib List

section Quoted
variable {bytes : List UInt8} {dialect : Dialect}

variable {start : Nat}

theorem spanQuoted_some (here : bytes[start]? = some byte) (escaped : Bool) :
    spanQuoted bytes dialect start escaped =
      if byte = dialect.escapeByte ∧ dialect.escapeByte ≠ dialect.quoteByte then
        if start + 1 ≥ bytes.length then none else spanQuoted bytes dialect (start + 2) true
      else if byte = dialect.escapeByte ∧ bytes[start + 1]? = some dialect.quoteByte then
        spanQuoted bytes dialect (start + 2) true
      else if byte = dialect.quoteByte then some (start, escaped)
      else spanQuoted bytes dialect (start + 1) escaped := by
  rw [spanQuoted]
  split
  · simp_all
  · rename_i other there
    cases here.symm.trans there
    rfl

/-- Bytes that are neither a quote nor an escape are stepped over. -/
theorem spanQuoted_skip {count : Nat}
    (plain : ∀ place < count, ∃ byte, bytes[start + place]? = some byte ∧ byte ≠ dialect.quoteByte ∧
      byte ≠ dialect.escapeByte) :
    spanQuoted bytes dialect start escaped = spanQuoted bytes dialect (start + count) escaped := by
  induction count with
  | zero => rfl
  | succ count ih =>
    obtain ⟨byte, here, quote, escape⟩ := plain count (Nat.lt_succ_self _)
    rw [ih fun place lt => plain place (by omega), spanQuoted_some here, if_neg fun both => escape both.1,
      if_neg fun both => escape both.1, if_neg quote, add_assoc]

def Stands (bytes : List UInt8) (start : Nat) (inner : List UInt8) : Prop :=
  ∀ place < inner.length, bytes[start + place]? = inner[place]?

variable {inner : List UInt8}

theorem Stands.drop (stands : Stands bytes start inner) (count : Nat) :
    Stands bytes (start + count) (inner.drop count) := by
  intro place lt
  rw [length_drop] at lt
  rw [getElem?_drop, add_assoc, stands (count + place) (by omega)]

theorem Stands.slice (le : stop ≤ bytes.length) : Stands bytes start (slice bytes start stop) := by
  intro place lt
  have : (Csv.slice bytes start stop).length = stop - start := by
    rw [Csv.slice, length_take, length_drop]
    omega
  rw [slice_getElem? (by omega)]

theorem Stands.before (stands : Stands bytes start inner)
    (first : inner.findIdx? test = some found) :
    ∃ byte, bytes[start + found]? = some byte ∧ inner[found]? = some byte ∧ test byte = true ∧
      ∀ place < found, ∃ byte, bytes[start + place]? = some byte ∧ test byte = false := by
  obtain ⟨inside, passes, before⟩ := findIdx?_eq_some_iff_getElem.mp first
  refine ⟨inner[found], ?_, getElem?_eq_getElem inside, passes, fun place lt => ?_⟩
  · rw [stands found inside, getElem?_eq_getElem inside]
  · have within : place < inner.length := by omega
    refine ⟨inner[place], ?_, by simpa using before place lt⟩
    rw [stands place within, getElem?_eq_getElem]

theorem Stands.none (stands : Stands bytes start inner) (nowhere : inner.findIdx? test = none) :
    ∀ place < inner.length, ∃ byte, bytes[start + place]? = some byte ∧ test byte = false := by
  intro place lt
  refine ⟨inner[place], ?_, ?_⟩
  · rw [stands place lt, getElem?_eq_getElem lt]
  · rw [findIdx?_eq_none_iff] at nowhere
    exact nowhere _ (getElem_mem lt)

/-- The inside of a field whose quotes are all doubled ends at its closing quote, and leaves the parity
of the quotes as it is. -/
theorem pairsOnly_spec (same : dialect.escapeByte = dialect.quoteByte)
    (pairs : pairsOnly dialect.quoteByte inner escaped = some mark) (stands : Stands bytes start inner) :
    (bytes[start + inner.length]? = some dialect.quoteByte → bytes[start + inner.length + 1]? ≠ some dialect.quoteByte →
        spanQuoted bytes dialect start escaped = some (start + inner.length, mark)) ∧
      ∀ first, parity (fun place => decide (bytes[start + place]? = some dialect.quoteByte)) first inner.length =
        first := by
  fun_induction pairsOnly dialect.quoteByte inner escaped generalizing start with
  | case1 inner escaped nowhere =>
    cases pairs
    have plain := stands.none nowhere
    refine ⟨fun closing behind => ?_, fun first => ?_⟩
    · have beyond : spanQuoted bytes dialect start mark = spanQuoted bytes dialect (start + inner.length) mark := by
        refine spanQuoted_skip fun place lt => ?_
        obtain ⟨byte, here, fails⟩ := plain place lt
        exact ⟨byte, here, by simpa using fails, by simpa [same] using fails⟩
      rw [beyond, spanQuoted_some closing, if_neg fun both => both.2 same, if_neg fun both => behind both.2, if_pos rfl]
    have flat := @parity_const (fun place => decide (bytes[start + place]? = some dialect.quoteByte)) first 0
      inner.length
    rw [zero_add] at flat
    refine flat fun place _ lt => ?_
    obtain ⟨byte, here, fails⟩ := plain place lt
    simpa [here] using fails
  | case2 inner escaped found first doubled ih =>
    obtain ⟨byte, here, _, quote, plain⟩ := stands.before first
    obtain rfl : byte = dialect.quoteByte := by simpa using quote
    obtain ⟨more, _⟩ := List.getElem?_eq_some_iff.mp doubled
    have next : bytes[start + (found + 1)]? = some dialect.quoteByte := by rw [stands (found + 1) more, doubled]
    have length : start + (found + 2) + (inner.drop (found + 2)).length = start + inner.length := by
      rw [length_drop]
      omega
    obtain ⟨closes, even⟩ := ih pairs (stands.drop (found + 2))
    rw [length] at closes
    refine ⟨fun closing behind => ?_, fun first => ?_⟩
    · have beyond : spanQuoted bytes dialect start escaped = spanQuoted bytes dialect (start + found) escaped := by
        refine spanQuoted_skip fun place lt => ?_
        obtain ⟨byte, there, fails⟩ := plain place lt
        exact ⟨byte, there, by simpa using fails, by simpa [same] using fails⟩
      rw [beyond, spanQuoted_some here, if_neg fun both => both.2 same, if_pos ⟨same.symm, next⟩]
      exact closes closing behind
    -- no quote before the pair, the pair changes the parity twice, and the rest leaves it alone
    have flat := @parity_const (fun place => decide (bytes[start + place]? = some dialect.quoteByte)) first 0 found
    rw [zero_add] at flat
    have before := flat fun place _ lt => by
      obtain ⟨byte, there, fails⟩ := plain place lt
      simpa [there] using fails
    have pair : parity (fun place => decide (bytes[start + place]? = some dialect.quoteByte)) first (found + 2) =
        first := by
      simp only [parity]
      rw [before]
      simp [here, next, parity]
    have split : inner.length = found + 2 + (inner.drop (found + 2)).length := by
      omega
    have rest := even first
    rw [split, parity_add, pair]
    simp only [add_assoc] at rest ⊢
    exact rest
  | case3 inner escaped found first alone => cases pairs

theorem escapesOnly_spec (differ : dialect.escapeByte ≠ dialect.quoteByte)
    (covers : escapesOnly dialect.quoteByte dialect.escapeByte inner escaped = some mark)
    (stands : Stands bytes start inner) :
    0 < inner.length ∧ spanQuoted bytes dialect start escaped = some (start + inner.length - 1, mark) := by
  fun_induction escapesOnly dialect.quoteByte dialect.escapeByte inner escaped generalizing start with
  | case1 inner escaped nowhere | case3 inner escaped found first quote last
  | case4 inner escaped found first quote past => cases covers
  | case2 inner escaped found first quote last =>
    cases covers
    obtain ⟨byte, here, there, _, plain⟩ := stands.before first
    cases there.symm.trans quote
    have beyond : spanQuoted bytes dialect start mark = spanQuoted bytes dialect (start + found) mark := by
      refine spanQuoted_skip fun place lt => ?_
      obtain ⟨byte, there, fails⟩ := plain place lt
      exact ⟨byte, there, by simpa using fails⟩
    refine ⟨by omega, ?_⟩
    rw [beyond, spanQuoted_some here, if_neg fun both => differ both.1.symm, if_neg fun both => differ both.1.symm,
      if_pos rfl, show start + inner.length - 1 = start + found by omega]
  | case5 inner escaped found first quote more ih =>
    obtain ⟨byte, here, there, either, plain⟩ := stands.before first
    have escape : byte = dialect.escapeByte := by
      have : byte = dialect.quoteByte ∨ byte = dialect.escapeByte := by simpa using either
      rcases this with rfl | escape
      · exact absurd there quote
      · exact escape
    have next : start + found + 1 < bytes.length := by
      have inside : (found + 1) < inner.length := by omega
      have := stands (found + 1) inside
      rw [getElem?_eq_getElem inside] at this
      exact lt_of_getElem? this
    have beyond : spanQuoted bytes dialect start escaped = spanQuoted bytes dialect (start + found) escaped := by
      refine spanQuoted_skip fun place lt => ?_
      obtain ⟨byte, there, fails⟩ := plain place lt
      exact ⟨byte, there, by simpa using fails⟩
    obtain ⟨some_, closes⟩ := ih covers (stands.drop (found + 2))
    rw [length_drop] at some_ closes
    refine ⟨by omega, ?_⟩
    rw [beyond, spanQuoted_some here, if_pos ⟨escape, differ⟩, if_neg (by omega)]
    rw [show start + inner.length - 1 = start + (found + 2) + (inner.length - (found + 2)) - 1 by omega]
    exact closes

/-- A field that is shaped like a quoted one, with a byte behind it that ends a field, is read as quoted.
The byte is no quote when the quotes before it come in pairs. -/
theorem enclosed_spec (inside : stop < bytes.length)
    (shaped : enclosed (slice bytes start stop) dialect.quoteByte dialect.escapeByte = some mark)
    (behind : dialect.escapeByte = dialect.quoteByte →
      (∀ first, parity (fun place => decide (bytes[start + place]? = some dialect.quoteByte)) first (stop - start) =
        first) →
        bytes[stop]? ≠ some dialect.quoteByte) : start + 1 < stop ∧ bytes[start]? = some dialect.quoteByte ∧
      spanQuoted bytes dialect (start + 1) false = some (stop - 1, mark) := by
  have lt : start < stop := by
    by_contra le
    rw [slice_empty (by omega)] at shaped
    cases shaped
  obtain ⟨first, here⟩ : ∃ first, bytes[start]? = some first := ⟨_, getElem?_eq_getElem (by omega)⟩
  have length : (slice bytes (start + 1) stop).length = stop - (start + 1) := by
    rw [slice, length_take, length_drop]
    omega
  rw [slice_cons here lt, enclosed] at shaped
  split at shaped
  · cases shaped
  rename_i quote
  obtain rfl : first = dialect.quoteByte := by simpa using quote
  have stands : Stands bytes (start + 1) (slice bytes (start + 1) stop) := Stands.slice (by omega)
  split at shaped
  · rename_i differ
    obtain ⟨some_, closes⟩ := escapesOnly_spec differ shaped stands
    rw [length] at some_ closes
    refine ⟨by omega, here, ?_⟩
    rw [closes, show start + 1 + (stop - (start + 1)) - 1 = stop - 1 by omega]
  rename_i same
  have same : dialect.escapeByte = dialect.quoteByte := by simpa using same
  split at shaped
  · rename_i last
    generalize inner : slice bytes (start + 1) stop = field at shaped last stands length
    have some_ : 0 < field.length := by
      rcases field with _ | ⟨byte, rest⟩
      · cases last
      · exact Nat.succ_pos _
    have kept : Stands bytes (start + 1) field.dropLast := by
      intro place lt
      rw [length_dropLast] at lt
      rw [stands place (by omega), getElem?_dropLast, if_pos (by omega)]
    have size : field.dropLast.length = stop - start - 2 := by
      rw [length_dropLast]
      omega
    have closing : bytes[start + 1 + field.dropLast.length]? = some dialect.quoteByte := by
      rw [stands _ (by omega), ← last, getLast?_eq_getElem?, length_dropLast]
    obtain ⟨closes, even⟩ := pairsOnly_spec same shaped kept
    have pairs (first : Bool) :
        parity (fun place => decide (bytes[start + place]? = some dialect.quoteByte)) first (stop - start) = first := by
      have rest := even (!first)
      rw [show stop - start = 1 + (field.dropLast.length + 1) by omega, parity_add]
      simp only [← add_assoc, closing, parity, add_zero, here, decide_true, Bool.xor_true, rest, Bool.not_not]
    have open_ := behind same pairs
    refine ⟨by omega, here, ?_⟩
    rw [closes closing (by rwa [show start + 1 + field.dropLast.length + 1 = stop by omega]), size,
      show start + 1 + (stop - start - 2) = stop - 1 by omega]
  · cases shaped

end Quoted

end Rudb.Csv
