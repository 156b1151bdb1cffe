import Rudb.Lib.Extremes
import Rudb.Lib.Padded
import Rudb.Storage.ZoneProofs
import Rudb.Vectors.Built

/-! Ends that cover the rows of a column, and that the walks over flat columns and over strings find
them. -/
namespace Rudb.Storage.Zones
open Rudb.Common Rudb.Vectors List Function

variable {ty : LogicalType} {rows : List Value} {found : Option Bound × Option Bound}

structure EndsCover (ty : LogicalType) (found : Option Bound × Option Bound) (rows : List Value) : Prop where
  low : ∀ end_, found.1 = some end_ → EndCovers ty .gt rows end_
  high : ∀ end_, found.2 = some end_ → EndCovers ty .lt rows end_

/-- Ends that no row is past, two of them unless every row is null. -/
structure Spans (ty : LogicalType) (found : Option Bound × Option Bound) (rows : List Value) : Prop
    extends EndsCover ty found rows where
  paired : found.1 = none ↔ found.2 = none
  empty : found.1 = none → ∀ value ∈ rows, value = .null

def scaledEnds (ty : LogicalType) (found : Option Bound × Option Bound) : Option Bound × Option Bound :=
  (found.1.map (·.scaledAs ty), found.2.map (·.scaledAs ty))

theorem EndsCover.none : EndsCover ty (none, none) rows := ⟨nofun, nofun⟩

theorem Spans.of_null (null : ∀ value ∈ rows, value = .null) : Spans ty (none, none) rows :=
  ⟨.none, by simp, fun _ => null⟩

variable {α : Type}

/-- The smallest and the largest of the values that the rows are the bounds of. -/
theorem Spans.of_extremes [LinearOrder α] {ends : Option α × Option α}
    (of : Extremes.Of held ends) (into : α → Bound) (inside : ∀ one ∈ held, (into one).In ty)
    (ordered : ∀ one other, cmp (into one).key (into other).key = cmp one other)
    (named : ∀ value ∈ rows, value = .null ∨ ∃ one ∈ held, Bound.ofValue value = some (into one)) :
    Spans ty (ends.1.map into, ends.2.map into) rows := by
  have covers {further : Ordering} {end_ : α} (member : end_ ∈ held)
      (past : ∀ one ∈ held, cmp end_ one ≠ further) : EndCovers ty further rows (into end_) := by
    refine ⟨inside end_ member, fun value row => ?_⟩
    rcases named value row with null | ⟨one, there, bound⟩
    · exact .inl null
    refine .inr ⟨into one, bound, inside one there, ?_⟩
    show cmp (into end_).key (into one).key ≠ further
    rw [ordered]
    exact past one there
  refine ⟨⟨fun end_ same => ?_, fun end_ same => ?_⟩, ?_, fun nothing value row => ?_⟩
  · obtain ⟨low, first, rfl⟩ := Option.map_eq_some_iff.mp same
    obtain ⟨member, least⟩ := of.fst_le first
    refine covers member fun one there => ?_
    simpa using least one there
  · obtain ⟨high, second, rfl⟩ := Option.map_eq_some_iff.mp same
    obtain ⟨member, most⟩ := of.le_snd second
    refine covers member fun one there => ?_
    simpa using most one there
  · simp [of.fst_eq_none, of.snd_eq_none]
  · obtain rfl : held = [] := of.fst_eq_none.mp (by simpa using nothing)
    simpa using named value row

theorem numberAs_bound (packed : packs ty) (asked : ty.asked = true) (fits : wide number = some number) :
    Bound.ofValue (numberAs ty number) = some ((Bound.int number).scaledAs ty) ∧
      ((Bound.int number).scaledAs ty).In ty := by
  cases ty with
  | whole type =>
    have small : type ≠ .uHugeInt := by simpa [packs] using packed
    exact ⟨by simp [numberAs, Bound.ofValue, small], Bound.scaledAs_in fits⟩
  | decimal width scale => exact ⟨rfl, rfl, fits⟩
  | enum => cases asked
  | _ => cases packed

variable {held : List Int}

theorem Spans.of_ints {ends : Option Int × Option Int} (of : Extremes.Of held ends)
    (packed : packs ty) (asked : ty.asked = true) (fits : ∀ number ∈ held, wide number = some number)
    (named : ∀ value ∈ rows, value = .null ∨ ∃ number ∈ held, value = numberAs ty number) :
    Spans ty (scaledEnds ty (ends.1.map .int, ends.2.map .int)) rows := by
  have spans : Spans ty _ rows := .of_extremes of (fun number => (Bound.int number).scaledAs ty)
    (fun number member => (numberAs_bound packed asked (fits number member)).2)
    (fun one other => by
      simp only [Bound.scaledAs_key]
      exact Sum.Lex.inl_strictMono.cmp_map_eq one other)
    (fun value row => (named value row).imp id fun ⟨number, member, same⟩ =>
      ⟨number, member, same ▸ (numberAs_bound packed asked (fits number member)).1⟩)
  simpa [scaledEnds, comp_def] using spans

theorem bytesAs_bound (text : textual ty) (asked : ty.asked = true) (bytes : Bytes) :
    Bound.ofValue (bytesAs ty bytes) = some (.bytes bytes) ∧ (Bound.bytes bytes).In ty := by
  cases ty <;> first | exact ⟨rfl, by simp [Bound.In]⟩ | (cases text; done) | cases asked

variable {one other : Bytes}

theorem bytes_key_le : (Bound.bytes one).key ≤ (Bound.bytes other).key ↔ one ≤ other :=
  Sum.Lex.inr_strictMono.le_iff_le.trans Sum.Lex.inr_strictMono.le_iff_le

theorem Spans.of_bytes {held : List Bytes} {ends : Option Bytes × Option Bytes} (of : Extremes.Of held ends)
    (text : textual ty) (asked : ty.asked = true)
    (named : ∀ value ∈ rows, value = .null ∨ ∃ bytes ∈ held, value = bytesAs ty bytes) :
    Spans ty (scaledEnds ty (ends.1.map .bytes, ends.2.map .bytes)) rows := by
  have bound := bytesAs_bound text asked
  have spans : Spans ty _ rows := .of_extremes of .bytes (fun bytes _ => (bound bytes).2)
    (fun one other => by
      simp only [Bound.key]
      exact (Sum.Lex.inr_strictMono.cmp_map_eq ..).trans (Sum.Lex.inr_strictMono.cmp_map_eq ..))
    (fun value row => (named value row).imp id fun ⟨bytes, member, same⟩ => ⟨bytes, member, same ▸ (bound bytes).1⟩)
  simpa [scaledEnds, comp_def, Bound.scaledAs] using spans

theorem EndsCover.of_bytes {held : List Bytes} {ends : Option Bytes × Option Bytes}
    (least : ∀ low, ends.1 = some low → ∀ bytes ∈ held, low ≤ bytes)
    (most : ∀ high, ends.2 = some high → ∀ bytes ∈ held, bytes ≤ high) (text : textual ty) (asked : ty.asked = true)
    (named : ∀ value ∈ rows, value = .null ∨ ∃ bytes ∈ held, value = bytesAs ty bytes) :
    EndsCover ty (scaledEnds ty (ends.1.map .bytes, ends.2.map .bytes)) rows := by
  have bound := bytesAs_bound text asked
  have covers {further : Ordering} {end_ : Bytes}
      (past : ∀ bytes ∈ held, cmp (Bound.bytes end_).key (Bound.bytes bytes).key ≠ further) :
      EndCovers ty further rows (.bytes end_) := by
    refine ⟨(bound end_).2, fun value member => ?_⟩
    refine (named value member).imp id fun ⟨bytes, there, same⟩ => ⟨.bytes bytes, ?_, (bound bytes).2, past bytes there⟩
    rw [same, (bound bytes).1]
  refine ⟨fun end_ found => ?_, fun end_ found => ?_⟩
  · obtain ⟨low, here, rfl⟩ : ∃ low, ends.1 = some low ∧ Bound.bytes low = end_ := by
      simpa [scaledEnds, comp_def, Bound.scaledAs] using found
    refine covers fun bytes member => ?_
    simpa using bytes_key_le.mpr (least low here bytes member)
  obtain ⟨high, here, rfl⟩ : ∃ high, ends.2 = some high ∧ Bound.bytes high = end_ := by
    simpa [scaledEnds, comp_def, Bound.scaledAs] using found
  refine covers fun bytes member => ?_
  simpa using bytes_key_le.mpr (most high here bytes member)

theorem endsOf_extremes [LinearOrder α] (held : List α) : Extremes.Of held (endsOf held) := by
  have of : Extremes.Of ([] ++ held) (endsOf held) := .foldl .none
  exact of

variable {vector : Vector} {value : Value}

theorem mem_values (member : value ∈ vector.values) :
    value = .null ∨ ∃ row, vector.head.live row ∧ value = vector.valueAt row := by
  obtain ⟨row, inside, rfl⟩ := mem_map.mp member
  by_cases live : vector.head.live row
  · exact .inr ⟨row, live, rfl⟩
  · left
    cases vector <;> exact if_neg live

theorem mem_liveOf {head : Head} {held : List α} (length : held.length = head.len) {one : α} :
    one ∈ liveOf head held ↔ ∃ row, head.live row ∧ held[row]? = some one := by
  unfold liveOf
  split
  · simp only [mem_map, mem_filter, mem_zipIdx_iff_getElem?, Prod.exists]
    grind
  rename_i full
  rw [mem_iff_getElem?]
  refine exists_congr fun row => ⟨fun there => ⟨?_, there⟩, And.right⟩
  have inside : row < head.len := length ▸ (List.getElem?_eq_some_iff.mp there).1
  exact Head.live_of_not_hasNulls (by simpa using full) inside

section views

instance byteBot : OrderBot UInt8 where
  bot := 0
  bot_le _ := UInt8.zero_le

/-- The first bytes of a string, as a number. -/
abbrev front (width : Nat) (text : Bytes) : Nat := Padded.number 256 UInt8.toNat (Padded.pad width text)

theorem front_lt : front width one < front width other ↔ Padded.pad width one < Padded.pad width other :=
  Padded.number_lt_iff (fun _ _ => UInt8.lt_iff_toNat_lt.mp) UInt8.toNat_lt (by simp)

theorem leading_eq (text : Bytes) : leading text = front 4 text := by
  rw [front, Padded.pad_eq]
  rfl

theorem inlineKey_eq {text : Bytes} (short : text.length ≤ 12) :
    inlineKey text = some (front 12 text * 2 ^ 32 + text.length) := by
  rw [front, Padded.pad_eq]
  exact if_pos short

theorem lt_of_leading_lt (below : leading one < leading other) : one < other := by
  rw [leading_eq, leading_eq, front_lt] at below
  exact Padded.lt_of_pad_lt below

theorem key_lt (short : one.length ≤ 12) (short' : other.length ≤ 12) :
    front 12 one * 2 ^ 32 + one.length < front 12 other * 2 ^ 32 + other.length ↔ one < other := by
  rw [Padded.digits_lt_iff (by omega) (by omega), front_lt]
  rcases lt_trichotomy (Padded.pad 12 one) (Padded.pad 12 other) with below | same | above
  · simp [below, Padded.lt_of_pad_lt below]
  · simp [front, same, Padded.lt_iff_length_lt same short short']
  · have not_same : front 12 one ≠ front 12 other := (front_lt.mpr above).ne'
    simp [not_same, above.not_gt, (Padded.lt_of_pad_lt above).not_gt]

theorem inlineKey_some {text : Bytes} (found : inlineKey text = some key) :
    text.length ≤ 12 ∧ key = front 12 text * 2 ^ 32 + text.length := by
  have short : text.length ≤ 12 := by
    by_contra long
    simp [inlineKey, long] at found
  exact ⟨short, Option.some.inj (found.symm.trans (inlineKey_eq short))⟩

theorem viewOrder_iff (one other : Bytes) :
    (viewOrder one other = .lt ↔ one < other) ∧ (viewOrder one other = .gt ↔ other < one) := by
  unfold viewOrder
  split
  · rename_i key held first second
    obtain ⟨short, rfl⟩ := inlineKey_some first
    obtain ⟨short', rfl⟩ := inlineKey_some second
    simp only [cmp_eq_lt_iff, cmp_eq_gt_iff, key_lt, short, short', and_self]
  constructor
  · convert cmp_eq_lt_iff one other
    rfl
  · convert cmp_eq_gt_iff one other
    rfl

def viewEnds (ends : Option (Bytes × Bytes)) : Option Bytes × Option Bytes := (ends.map (·.1), ends.map (·.2))

/-- A row of `viewed` is a row of the walk over the strings themselves. -/
theorem viewedRow_ends (ends : Option (Bytes × Bytes)) (text : Bytes) :
    viewEnds (viewedRow ends text) = Extremes.open_ (viewEnds ends) text := by
  have pick (one other taken left : Bytes) : (if leading one < leading other then taken
      else if leading one = leading other ∧ one < other then taken else left) = if one < other then taken else left := by
    by_cases below : one < other
    · have front : leading one ≤ leading other := not_lt.mp fun above => lt_asymm below (lt_of_leading_lt above)
      rcases front.lt_or_eq with less | same <;> simp [*]
    · have front : ¬leading one < leading other := fun less => below (lt_of_leading_lt less)
      simp [below, front]
  cases ends with
  | none => rfl
  | some ends =>
    simp only [viewEnds, viewedRow, viewOrder_iff, pick, eq_comm (b := leading ends.2), Option.map_some, Extremes.open_]
    congr

/-- The strings of the rows that are not null, which `viewed` reads. -/
def viewedRows (head : Head) (rows : List Bytes) : List Bytes :=
  (rows.zipIdx.filter fun held => head.validity.isValid held.2).map (·.1)

theorem viewed_extremes (head : Head) (rows : List Bytes) :
    ∃ ends, Extremes.Of (viewedRows head rows) ends ∧ viewed head rows = (ends.1.map .bytes, ends.2.map .bytes) := by
  have fold (texts : List Bytes) (ends : Option (Bytes × Bytes)) :
      viewEnds (texts.foldl viewedRow ends) = texts.foldl Extremes.open_ (viewEnds ends) := by
    induction texts generalizing ends with
    | nil => rfl
    | cons text texts ih => rw [foldl_cons, foldl_cons, ih, viewedRow_ends]
  refine ⟨viewEnds ((viewedRows head rows).foldl viewedRow none), ?_, ?_⟩
  · rw [fold]
    exact (Extremes.Of.none (α := Bytes)).foldl
  · rw [viewed, ← viewedRows]
    split <;> simp [*, viewEnds]

end views

theorem bounded_some (into : α → Bound) (ends : Option α × Option α) :
    bounded (some ∘ into) ends = (ends.1.map into, ends.2.map into) := by
  simp [bounded, Option.map_eq_bind]

theorem bounded_wide {ends : Option Int × Option Int} (of : Extremes.Of held ends)
    (fits : ∀ number ∈ held, wide number = some number) :
    bounded (fun number => (wide number).map .int) ends = (ends.1.map .int, ends.2.map .int) := by
  cases of with
  | none => rfl
  | some low_mem high_mem => simp [bounded, fits _ low_mem, fits _ high_mem]

theorem bytesAt_of_textParts {rows : List Bytes} (parts : vector.textParts = some rows) (row : Nat) :
    vector.bytesAt row = if vector.head.live row then rows[row]? else none := by
  cases vector with
  | flat head data =>
    cases data with
    | varlen texts =>
      cases parts
      rfl
    | _ => cases parts
  | views head texts =>
    cases parts
    rfl
  | _ => cases parts

/-- A column of strings read one by one. -/
theorem text_spans (reads : vector.Reads) (typed : textual vector.ty) (asked : vector.ty.asked = true) :
    Spans vector.ty (scaledEnds vector.ty (text vector)) vector.values := by
  unfold text
  split
  · rename_i rows parts
    obtain ⟨ends, of, same⟩ := viewed_extremes vector.head rows
    rw [same]
    refine .of_bytes of typed asked fun value member => ?_
    rcases mem_values member with null | ⟨row, live, rfl⟩
    · exact .inl null
    rw [reads row]
    cases found : vector.bytesAt row with
    | none => exact .inl rfl
    | some bytes =>
      have valid : vector.head.validity.isValid row = true := (Head.live_iff.mp live).2
      rw [bytesAt_of_textParts parts, if_pos live] at found
      refine .inr ⟨bytes, mem_map.mpr ⟨(bytes, row), ?_, rfl⟩, rfl⟩
      simpa [mem_zipIdx_iff_getElem?, valid] using found
  · rw [bounded_some]
    refine .of_bytes (endsOf_extremes _) typed asked fun value member => ?_
    rcases mem_values member with null | ⟨row, live, rfl⟩
    · exact .inl null
    rw [reads row]
    cases found : vector.bytesAt row with
    | none => exact .inl rfl
    | some bytes =>
      have inside : row < vector.len := (Head.live_iff.mp live).1
      exact .inr ⟨bytes, mem_filterMap.mpr ⟨row, mem_range.mpr inside, found⟩, rfl⟩

/-- What a row has to be for the ends to know it: a null, or a value with a bound that is not a NaN. -/
def Known (value : Value) : Prop := value = .null ∨ ∃ bound, Bound.ofValue value = some bound ∧ bound ≠ .real none

/-- Vectors whose ends a walk can find: no NaN, no enum as one value, no unsigned number past the
ceiling of an `i128` and no sequence that wraps, in the vector or in the values it is written with. -/
def Clean : Vector → Prop
  | .flat head data => head.ty.asked = true → ∀ row, head.live row → Known (valueFrom head.ty data row)
  | .constant head value =>
    ¬value.isNan ∧ ∀ labels, head.ty = .enum labels → value = .null
  | .sequence head start step => ∀ row < head.len, wrapped (start + step * row) = start + step * row
  | .dictionary _ _ values => Clean values
  | .runs _ _ values => Clean values
  | _ => True

theorem not_known (bound : Bound.ofValue value = some (.real none)) : ¬Known value := by
  rintro (rfl | ⟨other, found, number⟩)
  · cases bound
  · exact number (Option.some.inj (found.symm.trans bound))

section flat
variable {head : Head} {data : Data}

section
variable {held : List α} {into : α → Value} (length : held.length = head.len)
  (same : ∀ row, valueFrom head.ty data row = (held[row]?.map into).getD .null)
include length same

/-- The rows of a flat column that are not null are values the walk reads. -/
theorem flat_rows (member : value ∈ (Vector.flat head data).values) :
    value = .null ∨ ∃ one ∈ liveOf head held, value = into one := by
  rcases mem_values member with null | ⟨row, live, rfl⟩
  · exact .inl null
  rw [show (Vector.flat head data).valueAt row = valueFrom head.ty data row from if_pos live, same]
  cases there : held[row]? with
  | none => exact .inl rfl
  | some one => exact .inr ⟨one, (mem_liveOf length).mpr ⟨row, live, there⟩, rfl⟩

theorem flat_known
    (known : ∀ row, head.live row → Known (valueFrom head.ty data row)) {one : α} (member : one ∈ liveOf head held) :
    Known (into one) := by
  obtain ⟨row, live, there⟩ := (mem_liveOf length).mp member
  simpa [same, there] using known row live

end

theorem flat_reals {held : List α} {number : α → Option Int} (float : head.ty = .float ∨ head.ty = .double)
    (bound : ∀ one, Bound.ofValue (into one) = some (.real (number one))) (length : held.length = head.len)
    (same : ∀ row, valueFrom head.ty data row = (held[row]?.map into).getD .null)
    (known : ∀ row, head.live row → Known (valueFrom head.ty data row)) :
    Spans head.ty (scaledEnds head.ty (bounded (some ∘ .real ∘ some) (endsOf ((liveOf head held).filterMap number))))
      (Vector.flat head data).values := by
  have spans : Spans head.ty _ (Vector.flat head data).values :=
    .of_extremes (endsOf_extremes ((liveOf head held).filterMap number)) (.real ∘ some)
      (fun number _ => ⟨float, rfl⟩)
      (fun one other => by
        simp only [comp_apply, Bound.key, Option.getD_some]
        exact (Sum.Lex.inr_strictMono.cmp_map_eq ..).trans (Sum.Lex.inl_strictMono.cmp_map_eq ..))
      (fun value member => by
        rcases flat_rows length same member with null | ⟨one, there, rfl⟩
        · exact .inl null
        have named := flat_known length same known there
        have held := bound one
        cases is : number one with
        | none => exact absurd named (not_known (is ▸ held))
        | some found => exact .inr ⟨found, mem_filterMap.mpr ⟨one, there, is⟩, by rw [held, is]; rfl⟩)
  rw [bounded_some]
  simpa [scaledEnds, comp_def, Bound.scaledAs] using spans

theorem flat_unsigned (unsigned : head.ty = .whole .uHugeInt) (length : held.length = head.len)
    (same : ∀ row, valueFrom head.ty data row = (held[row]?.map (numberAs head.ty)).getD .null)
    (known : ∀ row, head.live row → Known (valueFrom head.ty data row)) :
    Spans head.ty (scaledEnds head.ty (bounded (fun number => (wide number).map .int) (endsOf (liveOf head held))))
      (Vector.flat head data).values := by
  have fits (number : Int) (member : number ∈ liveOf head held) : wide number = some number := by
    have named := flat_known length same known member
    rw [unsigned] at named
    rcases named with null | ⟨bound, found, -⟩
    · cases null
    · exact (Bound.ofValue_whole found).2 rfl
  rw [bounded_wide (endsOf_extremes _) fits]
  have spans : Spans head.ty _ (Vector.flat head data).values :=
    .of_extremes (endsOf_extremes (liveOf head held)) .int
      (fun number _ => by simp [unsigned, Bound.In, scaleOf])
      (fun one other => Sum.Lex.inl_strictMono.cmp_map_eq one other)
      (fun value member => by
        refine (flat_rows length same member).imp id ?_
        rintro ⟨number, there, named⟩
        refine ⟨number, there, ?_⟩
        simp [named, unsigned, numberAs, Bound.ofValue, fits number there, Bound.scaledAs, scaleOf])
  simpa [scaledEnds, comp_def, Bound.scaledAs, unsigned, scaleOf] using spans

theorem flat_spans (built : (Vector.flat head data).Built) (clean : Clean (.flat head data))
    (asked : head.ty.asked = true) :
    Spans head.ty (scaledEnds head.ty (flat (.flat head data) data)) (Vector.flat head data).values := by
  obtain ⟨holds, size⟩ := built
  have known := clean asked
  cases data with
  | empty =>
    refine .of_null fun value member => ?_
    rcases mem_values member with null | ⟨row, live, rfl⟩
    · exact null
    · exact if_pos live
  | small held | int128 held =>
    have length := size.resolve_left nofun
    simp only [flat, bounded_some]
    refine .of_ints (endsOf_extremes _) holds.1 asked (fun number member => ?_) fun value =>
      flat_rows length fun _ => rfl
    obtain ⟨row, -, there⟩ := (mem_liveOf length).mp member
    exact holds.2 number (mem_of_getElem? there)
  | uInt128 held => exact flat_unsigned holds.1 (size.resolve_left nofun) (fun _ => rfl) known
  | float32 held => exact flat_reals (.inl holds) (fun _ => rfl) (size.resolve_left nofun) (fun _ => rfl) known
  | float64 held => exact flat_reals (.inr holds) (fun _ => rfl) (size.resolve_left nofun) (fun _ => rfl) known
  | interval held =>
    rw [show head.ty = .interval from holds] at asked
    cases asked
  | varlen held => exact text_spans (Vector.reads_varlen head held) holds asked

end flat

end Rudb.Storage.Zones
