import Rudb.Vectors.Vector

/-! What the constructors of a vector check, and what the rows of a vector that passed them hold. -/
namespace Rudb.Vectors
open Rudb.Common List

/-- The types laid out as integers that an `i128` holds, the codes of an enum among them. -/
def packs : LogicalType → Bool
  | .whole type => type ≠ .uHugeInt
  | .decimal .. => true
  | .enum _ => true
  | _ => false

/-- The types with the layout `Varlen`. -/
def textual : LogicalType → Bool
  | .varchar | .blob | .bit | .bigNum | .numeric | .type | .json | .jsonb | .variant => true
  | _ => false

namespace Data

def len : Data → Nat
  | empty => 0
  | small values | int128 values | uInt128 values => values.length
  | float32 values | float64 values => values.length
  | interval values => values.length
  | varlen values => values.length

/-- Whether the data has the layout the type calls for, with numbers its lanes can hold. -/
def Holds (ty : LogicalType) : Data → Prop
  | empty => True
  | small values => packs ty ∧ ∀ number ∈ values, wide number = some number
  | int128 values => packs ty ∧ ∀ number ∈ values, wide number = some number
  | uInt128 values => ty = .whole .uHugeInt ∧ ∀ number ∈ values, 0 ≤ number ∧ number < 2 ^ 128
  | float32 _ => ty = .float
  | float64 _ => ty = .double
  | interval _ => ty = .interval
  | varlen _ => textual ty

end Data

namespace Vector

/-- The checks of `flat`, `constant`, `sequence`, `dictionary`, `packed`, `string_views`,
`external_text`, `coded`, `runs`, `list` and `gathered`. -/
def Built : Vector → Prop
  | flat head data => data.Holds head.ty ∧ (data = .empty ∨ data.len = head.len)
  | constant head value => value.fits head.ty
  | sequence head _ _ => head.ty = .whole .bigInt
  | dictionary head codes values =>
    head.ty = values.ty ∧ codes.length = head.len ∧ (∀ code ∈ codes, code < values.len) ∧ values.Built
  | packed head base codes =>
    packs head.ty ∧ codes.length = head.len ∧ ∀ code ∈ codes, wide (base + code) = some (base + code)
  | views head rows => textual head.ty ∧ rows.length = head.len
  | externalText head rows ranks =>
    textual head.ty ∧ rows.length = head.len ∧
      -- a rank for each string, in the order of the strings
      ∀ order ∈ ranks, order.length = rows.length ∧
        ∀ (one other left right : Nat) (text string : Bytes), rows[one]? = some (some text) →
          rows[other]? = some (some string) → order[one]? = some left → order[other]? = some right →
          left ≤ right → text ≤ string
  | coded head rows => textual head.ty ∧ rows.length = head.len
  | runs head ends values =>
    head.ty = values.ty ∧ ends.length = values.len ∧ ends.Pairwise (· < ·) ∧ (∀ stop ∈ ends, stop ≤ head.len) ∧
      (∀ inner stops held, values ≠ runs inner stops held) ∧ values.Built
  | nested head kind rows => head.ty = .nested kind ∧ rows.length = head.len
  | gathered head source rids =>
    head.ty = source.ty ∧ (∀ rid, some rid ∈ rids → rid < source.len) ∧ source.Built

end Vector

theorem wide_wrapped (number : Int) : wide (wrapped number) = some (wrapped number) := by
  have low : _ ≤ wrapped number := Int.le_bmod (by decide)
  have high : wrapped number < _ := Int.bmod_lt (by decide)
  unfold wide
  rw [if_pos (by omega)]

theorem bytesAs_fits (ty : LogicalType) (bytes : Bytes) : (bytesAs ty bytes).fits ty := by
  cases ty <;> rfl

theorem numberAs_fits (packed : packs ty) (fits : wide number = some number) :
    (numberAs ty number).fits ty := by
  cases ty with
  | whole type =>
    have small : type ≠ .uHugeInt := by simpa [packs] using packed
    simp [numberAs, Value.fits, Whole.holds, small, fits]
  | decimal width scale => simp [numberAs, Value.fits, fits]
  | enum labels =>
    cases found : labels[number.toNat]? with
    | none => simp [numberAs, found, Value.fits]
    | some label => simp [numberAs, found, Value.fits, mem_of_getElem? found]
  | _ => cases packed

theorem valueFrom_fits (holds : data.Holds ty) (index : Nat) :
    (valueFrom ty data index).fits ty := by
  have of {α : Type} {values : List α} {into : α → Value} (each : ∀ held ∈ values, (into held).fits ty) :
      ((values[index]?.map into).getD .null).fits ty := by
    cases found : values[index]? with
    | none => rfl
    | some held => exact each held (mem_of_getElem? found)
  cases data with
  | empty => rfl
  | small values | int128 values => exact of fun number member => numberAs_fits holds.1 (holds.2 number member)
  | uInt128 values =>
    obtain ⟨rfl, holds⟩ := holds
    exact of fun number member => by
      simpa [numberAs, Value.fits, Whole.holds] using holds number member
  | float32 values | float64 values | interval values =>
    cases holds
    exact of fun _ _ => rfl
  | varlen values => exact of fun bytes _ => bytesAs_fits ty bytes

namespace Vector

theorem Built.fits {vector : Vector} (built : vector.Built) (index : Nat) : (vector.valueAt index).fits vector.ty := by
  have of {held : Option Value} {ty : LogicalType} (each : ∀ value, held = some value → value.fits ty) :
      (held.getD .null).fits ty := by
    cases held with
    | none => rfl
    | some value => exact each value rfl
  have live {head : Head} {value : Value} {ty : LogicalType} {index : Nat} (fits : value.fits ty) :
      (if head.live index then value else .null).fits ty := by
    split
    · exact fits
    · rfl
  induction vector generalizing index with
  | flat head data => exact live (valueFrom_fits built.1 index)
  | constant head value => exact live (show value.fits head.ty from built)
  | sequence head start step =>
    refine live ?_
    rw [show (sequence head start step).ty = .whole .bigInt from built]
    have packed : packs (.whole .bigInt) := rfl
    exact numberAs_fits packed (wide_wrapped _)
  | packed head base codes =>
    refine live (of fun value found => ?_)
    obtain ⟨code, held, rfl⟩ := Option.map_eq_some_iff.mp found
    exact numberAs_fits built.1 (built.2.2 code (mem_of_getElem? held))
  | views head rows | coded head rows | externalText head rows ranks =>
    refine live (of fun value found => ?_)
    obtain ⟨bytes, -, rfl⟩ := Option.map_eq_some_iff.mp found
    exact bytesAs_fits head.ty bytes
  | nested head kind rows =>
    refine live (of fun value found => ?_)
    obtain ⟨parts, -, rfl⟩ := Option.map_eq_some_iff.mp found
    rw [show (nested head kind rows).ty = .nested kind from built.1]
    simp [Value.fits]
  | dictionary head codes values ih =>
    refine live (of fun value found => ?_)
    obtain ⟨code, -, rfl⟩ := Option.map_eq_some_iff.mp found
    rw [show (dictionary head codes values).ty = values.ty from built.1]
    exact ih built.2.2.2 code
  | runs head ends values ih =>
    refine live (of fun value found => ?_)
    obtain ⟨run, -, rfl⟩ := Option.map_eq_some_iff.mp found
    rw [show (runs head ends values).ty = values.ty from built.1]
    exact ih built.2.2.2.2.2 run
  | gathered head source rids ih =>
    refine live (of fun value found => ?_)
    obtain ⟨rid, -, rfl⟩ := Option.map_eq_some_iff.mp found
    rw [show (gathered head source rids).ty = source.ty from built.1]
    exact ih built.2.2 rid

/-- A vector whose rows `bytes_at` hands back as they are. -/
def Reads (vector : Vector) : Prop :=
  ∀ index, vector.valueAt index = ((vector.bytesAt index).map (bytesAs vector.ty)).getD .null

theorem reads_varlen (head : Head) (rows : List Bytes) : (flat head (.varlen rows)).Reads := by
  intro index
  simp only [valueAt, bytesAt, valueFrom]
  split <;> rfl

theorem reads_views (head : Head) (rows : List Bytes) : (views head rows).Reads := by
  intro index
  simp only [valueAt, bytesAt]
  split <;> rfl

theorem reads_externalText (head : Head) (rows : List (Option Bytes)) (ranks : Option (List Nat)) :
    (externalText head rows ranks).Reads := by
  intro index
  simp only [valueAt, bytesAt]
  split <;> rfl

section
variable {values : Vector} {head : Head} (reads : values.Reads) (same : head.ty = values.ty)
include reads same

theorem Reads.dictionary (codes : List Nat) : (dictionary head codes values).Reads := by
  intro index
  have inner (code : Nat) := same ▸ reads code
  simp only [valueAt, bytesAt]
  split
  · cases codes[index]? with
    | none => rfl
    | some code => exact inner code
  · rfl

theorem Reads.runs (ends : List Nat) : (runs head ends values).Reads := by
  intro index
  have inner (run : Nat) := same ▸ reads run
  simp only [valueAt, bytesAt]
  split
  · cases runHolding ends index with
    | none => rfl
    | some run => exact inner run
  · rfl

end

end Vector

variable {index : Nat}

theorem Validity.isValid_of_not_hasNulls {validity : Validity} (full : validity.hasNulls len = false)
    (inside : index < len) : validity.isValid index = true := by
  have all : ((range len).filter validity.isValid).length = (range len).length := by
    rw [length_range]
    exact of_not_not (of_decide_eq_false full)
  exact length_filter_eq_length_iff.mp all index (mem_range.mpr inside)

theorem Head.live_iff {head : Head} :
    head.live index = true ↔ index < head.len ∧ head.validity.isValid index = true := by
  simp [live]

theorem Head.live_of_not_hasNulls {head : Head} (full : head.validity.hasNulls head.len = false)
    (inside : index < head.len) : head.live index = true := by
  simp [live, inside, Validity.isValid_of_not_hasNulls full inside]

theorem runHolding_lt (found : runHolding ends row = some run) : run < ends.length :=
  (findIdx?_eq_some_iff_findIdx_eq.mp found).1

namespace Vector

/-- A vector whose rows are the integers `held`, one each. -/
structure Counts (vector : Vector) (held : List Int) : Prop where
  packs : packs vector.ty
  wide : ∀ number ∈ held, wide number = some number
  length : held.length = vector.len
  row : ∀ index < vector.len, vector.valueAt index = ((held[index]?).map (numberAs vector.ty)).getD .null

theorem counts_runs {head inner : Head}
    (built : (runs head ends (flat inner (.small held))).Built) (full : head.validity.hasNulls head.len = false)
    (valid : inner.validity = .allValid) (last : ends.getLast? = some head.len) :
    (runs head ends (flat inner (.small held))).Counts
      ((range head.len).filterMap fun row => (runHolding ends row).bind (held[·]?)) := by
  obtain ⟨same, count, -, -, -, holds, size⟩ := built
  simp only [ty, len, Vector.head] at same count
  have length : held.length = inner.len := size.resolve_left nofun
  have found (row : Nat) (inside : row < head.len) :
      ∃ run number, runHolding ends row = some run ∧ held[run]? = some number ∧ run < inner.len := by
    obtain ⟨run, found⟩ := Option.isSome_iff_exists.mp (show (runHolding ends row).isSome by
      rw [runHolding, findIdx?_isSome, any_eq_true]
      exact ⟨_, mem_of_getLast? last, by simpa using inside⟩)
    have small : run < inner.len := count ▸ runHolding_lt found
    exact ⟨run, held[run], found, by simp, small⟩
  have laid : (range head.len).filterMap (fun row => (runHolding ends row).bind (held[·]?)) =
      (range head.len).map fun row => ((runHolding ends row).bind (held[·]?)).getD 0 := by
    rw [← filterMap_eq_map]
    refine filterMap_congr fun row member => ?_
    obtain ⟨run, number, holding, there, -⟩ := found row (mem_range.mp member)
    simp [holding, there]
  rw [laid]
  refine ⟨?_, fun number member => ?_, ?_, fun row inside => ?_⟩
  · simpa only [ty, Vector.head, same] using holds.1
  · obtain ⟨row, inside, rfl⟩ := mem_map.mp member
    obtain ⟨run, number, holding, there, -⟩ := found row (mem_range.mp inside)
    simpa [holding, there] using holds.2 number (mem_of_getElem? there)
  · simp [len, Vector.head]
  obtain ⟨run, number, holding, there, small⟩ := found row inside
  have live : inner.live run = true := by simp [Head.live, small, valid, Validity.isValid]
  simp only [len, Vector.head] at inside
  simp [valueAt, Head.live_of_not_hasNulls full inside, holding, live, valueFrom, there, ty, same, Vector.head, inside]

theorem Built.counts {vector : Vector} (built : vector.Built)
    (full : vector.validity.hasNulls vector.len = false) (found : vector.data = some (.small held)) :
    vector.Counts held := by
  cases vector with
  | flat head data =>
    cases found
    refine ⟨built.1.1, built.1.2, built.2.resolve_left nofun, fun index inside => ?_⟩
    change head.validity.hasNulls head.len = false at full
    simp only [valueAt, Head.live_of_not_hasNulls full inside, if_true]
    rfl
  | runs head ends values =>
    cases values with
    | flat inner data =>
      simp only [Vector.data] at found
      split at found
      · rename_i valid
        cases data <;> simp only [repeatedByRuns, reduceCtorEq, Option.ite_none_left_eq_some, Option.some.injEq,
          Data.small.injEq, and_false] at found
        obtain ⟨-, rfl⟩ := found
        exact counts_runs built full valid.1 valid.2
      · cases found
    | _ => cases found
  | _ => cases found

end Vector
end Rudb.Vectors
