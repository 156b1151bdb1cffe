import Rudb.Index.Key

/-! Normalized keys sort as the tuples do: each column decides before the next one is looked at, and where
it does not the rest of the key does. -/
namespace Rudb.Index
open Rudb.Common List

theorem cmp_of_iff {α β : Type} [LinearOrder α] [LinearOrder β] {one other : α} {left right : β}
    (less : one < other ↔ left < right) (more : other < one ↔ right < left) : cmp one other = cmp left right := by
  simp only [cmp, cmpUsing, less, more]

@[simp] theorem memcmp_self (bytes : Bytes) : memcmp bytes bytes = .eq := by
  induction bytes with
  | nil => rfl
  | cons byte rest ih => rw [memcmp, cmp_self_eq_eq, ih]; rfl

theorem memcmp_eq_iff : memcmp one other = .eq ↔ one = other := by
  refine ⟨fun same => ?_, fun same => same ▸ memcmp_self one⟩
  induction one generalizing other with
  | nil => cases other with
    | nil => rfl
    | cons => cases same
  | cons byte one ih =>
    cases other with
    | nil => cases same
    | cons held other =>
      rw [memcmp, Ordering.then_eq_eq, cmp_eq_eq_iff] at same
      rw [same.1, ih same.2]

variable {rest more : Bytes}

theorem bigEndian_cmp {width one other : Nat} (small : one < 256 ^ width) (small' : other < 256 ^ width) :
    memcmp (bigEndian width one ++ rest) (bigEndian width other ++ more) = (cmp one other).then (memcmp rest more) := by
  induction width generalizing one other with
  | zero =>
    obtain rfl : one = 0 := by simpa using small
    obtain rfl : other = 0 := by simpa using small'
    rfl
  | succ width ih =>
    have positive : 0 < 256 ^ width := by positivity
    rw [pow_succ'] at small small'
    have byte : cmp (UInt8.ofNat (one / 256 ^ width)) (UInt8.ofNat (other / 256 ^ width)) =
        cmp (one / 256 ^ width) (other / 256 ^ width) := by
      have first := UInt8.toNat_ofNat_of_lt' ((Nat.div_lt_iff_lt_mul positive).mpr small)
      have second := UInt8.toNat_ofNat_of_lt' ((Nat.div_lt_iff_lt_mul positive).mpr small')
      refine cmp_of_iff ?_ ?_ <;> rw [UInt8.lt_iff_toNat_lt, first, second]
    have parts : cmp one other = (cmp (one / 256 ^ width) (other / 256 ^ width)).then
        (cmp (one % 256 ^ width) (other % 256 ^ width)) := by
      rcases lt_trichotomy (one / 256 ^ width) (other / 256 ^ width) with less | same | greater
      · rw [(cmp_eq_lt_iff ..).mpr less]
        exact (cmp_eq_lt_iff ..).mpr (Nat.lt_of_div_lt_div less)
      · have whole := Nat.div_add_mod one (256 ^ width)
        have whole' := Nat.div_add_mod other (256 ^ width)
        rw [same] at whole
        rw [same, cmp_self_eq_eq]
        exact cmp_of_iff (by omega) (by omega)
      · rw [(cmp_eq_gt_iff ..).mpr greater]
        exact (cmp_eq_gt_iff ..).mpr (Nat.lt_of_div_lt_div greater)
    rw [bigEndian, bigEndian, cons_append, cons_append, memcmp, ih (Nat.mod_lt _ positive) (Nat.mod_lt _ positive), byte,
      parts, Ordering.then_assoc]

/-- What may stand behind a text: it is below the rest of a text that goes on with an escaped zero. -/
def Low (rest : Bytes) : Prop := ∀ other more : Bytes,
  memcmp rest (0xFF :: text other ++ more) = .lt ∧ memcmp (0xFF :: text other ++ more) rest = .gt

theorem low_nil : Low [] := fun _ _ => ⟨rfl, rfl⟩

/-- Texts are decided by their bytes, where no key goes on as an escaped zero does. -/
theorem text_cmp (low : Low rest) (low' : Low more) (one other : Bytes) :
    memcmp (text one ++ rest) (text other ++ more) = (memcmp one other).then (memcmp rest more) := by
  have zero {byte : UInt8} (some_ : byte ≠ 0) : cmp 0 byte = .lt ∧ cmp byte 0 = .gt := by
    have less : (0 : UInt8) < byte :=
      UInt8.lt_iff_toNat_lt.mpr (Nat.pos_of_ne_zero fun is => some_ (UInt8.toNat_inj.mp is))
    exact ⟨(cmp_eq_lt_iff ..).mpr less, (cmp_eq_gt_iff ..).mpr less⟩
  induction one generalizing other with
  | nil =>
    cases other with
    | nil => rfl
    | cons byte other =>
      rw [text, text]
      split
      · exact (low other more).1
      · rename_i some_
        simp [memcmp, zero some_]
  | cons byte one ih =>
    cases other with
    | nil =>
      rw [text, text]
      split
      · exact (low' one rest).2
      · rename_i some_
        simp [memcmp, zero some_]
    | cons held other =>
      rw [text, text, memcmp, Ordering.then_assoc, ← ih]
      by_cases first : byte = 0 <;> by_cases second : held = 0
      · simp [first, second, memcmp]
      · simp [first, second, memcmp, zero second]
      · simp [first, second, memcmp, zero first]
      · simp [first, second, memcmp]

/-- A text that starts another as they are written is the other, or the other goes on with a zero. -/
theorem text_starts {one other : Bytes} (starts : text other = text one ++ more) :
    more = [] ∨ ∃ longer, other = one ++ 0 :: longer := by
  induction one generalizing other with
  | nil =>
    cases other with
    | nil => exact .inl (by simpa [text] using starts.symm)
    | cons byte rest => grind [text]
  | cons byte one ih =>
    cases other with
    | nil => grind [text]
    | cons held other =>
      have first : held = byte ∧ text other = text one ++ more := by grind [text]
      obtain ⟨rfl, behind⟩ := first
      exact (ih behind).imp id fun ⟨longer, is⟩ => ⟨longer, by rw [is, cons_append]⟩

theorem xor_two_pow (small : number < 2 ^ bits) : number ^^^ 2 ^ bits = number + 2 ^ bits := by
  have high : (number ^^^ 2 ^ bits) / 2 ^ bits = 1 := by
    rw [Nat.xor_div_two_pow, Nat.div_eq_of_lt small, Nat.div_self (by positivity), Nat.zero_xor]
  have low : (number ^^^ 2 ^ bits) % 2 ^ bits = number := by
    rw [Nat.xor_mod_two_pow, Nat.mod_self, Nat.xor_zero, Nat.mod_eq_of_lt small]
  have whole := Nat.div_add_mod (number ^^^ 2 ^ bits) (2 ^ bits)
  rw [high, low] at whole
  omega

/-- The integers that fit `bits` bits and a sign, in the order of what is written for them. -/
theorem turned (low : -2 ^ bits ≤ number) (high : number < 2 ^ bits) :
    ((number % 2 ^ (bits + 1)).toNat ^^^ 2 ^ bits : Nat) = (number + 2 ^ bits).toNat := by
  have cast : ((2 ^ bits : Nat) : Int) = 2 ^ bits := by push_cast; rfl
  by_cases sign : 0 ≤ number
  · rw [Int.emod_eq_of_lt sign (by omega), xor_two_pow (by omega)]
    omega
  · have wrapped : number % 2 ^ (bits + 1) = number + 2 ^ (bits + 1) := by
      rw [← Int.add_emod_right, Int.emod_eq_of_lt (by omega) (by omega)]
    have back := xor_two_pow (show (number + 2 ^ bits).toNat < 2 ^ bits by omega)
    rw [wrapped, show (number + 2 ^ (bits + 1)).toNat = (number + 2 ^ bits).toNat + 2 ^ bits by omega, ← back,
      Nat.xor_assoc, Nat.xor_self, Nat.xor_zero]

theorem signed_cmp {width : Nat} (some_ : 0 < width) {one other : Int} (low : -2 ^ (8 * width - 1) ≤ one)
    (high : one < 2 ^ (8 * width - 1)) (low' : -2 ^ (8 * width - 1) ≤ other) (high' : other < 2 ^ (8 * width - 1)) :
    memcmp (signed width one ++ rest) (signed width other ++ more) = (cmp one other).then (memcmp rest more) := by
  have power : (256 : Int) ^ width = 2 ^ (8 * width - 1 + 1) := by
    rw [Nat.sub_add_cancel (by omega), pow_mul]
    norm_num
  have power' : 256 ^ width = 2 ^ (8 * width - 1) + 2 ^ (8 * width - 1) := by
    rw [← mul_two, ← pow_succ, Nat.sub_add_cancel (by omega), pow_mul]
    norm_num
  have cast : ((2 ^ (8 * width - 1) : Nat) : Int) = 2 ^ (8 * width - 1) := by push_cast; rfl
  rw [signed, signed, power, turned low high, turned low' high', bigEndian_cmp (by omega) (by omega)]
  congr 1
  exact cmp_of_iff (by omega) (by omega)

theorem float_toNat (v : F64) : (float v).toNat =
    if v.isNan then 0xFFF8000000000000
    else if v.bits.toNat < 2 ^ 63 ∨ v.magnitude = 0 then 2 ^ 63 + v.magnitude else 2 ^ 63 - 1 - v.magnitude := by
  have sign : v.bits >>> 63 = 0 ↔ v.bits.toNat < 2 ^ 63 := by
    rw [← UInt64.toNat_inj, UInt64.toNat_shiftRight, Nat.shiftRight_eq_div_pow]
    exact (Nat.div_eq_zero_iff_lt (by decide))
  have small := v.bits.toNat_lt
  simp only [float]
  by_cases nan : v.isNan
  · rw [if_pos nan, if_pos nan]
    decide
  rw [if_neg nan, if_neg nan]
  by_cases zero : v.magnitude = 0
  · rw [if_pos zero, if_pos (show (0 : UInt64) >>> 63 = 0 by decide), if_pos (.inr zero), zero]
    decide
  rw [if_neg zero]
  by_cases positive : v.bits.toNat < 2 ^ 63
  · have same : v.magnitude = v.bits.toNat := Nat.mod_eq_of_lt positive
    have joined := Nat.two_pow_add_eq_or_of_lt positive 1
    rw [if_pos (sign.mpr positive), if_pos (.inl positive), UInt64.toNat_or, same, Nat.lor_comm]
    exact joined.symm
  · have same : v.magnitude = v.bits.toNat - 2 ^ 63 := by unfold F64.magnitude; omega
    rw [if_neg fun zero => positive (sign.mp zero), if_neg (not_or.mpr ⟨positive, zero⟩), UInt64.toNat_not]
    simp only [UInt64.size]
    omega

/-- `float` sorts as the doubles do, the two zeros as one and a NaN last. -/
theorem float_cmp (one other : F64) :
    cmp (float one).toNat (float other).toNat = floatOrder one.number other.number := by
  have order (left right : Nat) : F64.units left < F64.units right ↔ left < right := F64.units_strictMono.lt_iff_lt
  have above {bits : Nat} : 0 < F64.units bits ↔ 0 < bits := order 0 bits
  have bound (v : F64) : v.magnitude < 2 ^ 63 := Nat.mod_lt _ (by decide)
  have first := bound one
  have second := bound other
  rw [float_toNat, float_toNat, F64.number, F64.number]
  by_cases nan : one.isNan <;> by_cases nan' : other.isNan
  · simp [nan, nan', floatOrder]
  · simp only [nan, nan', if_true, if_false, floatOrder, cmp_eq_gt_iff]
    unfold F64.isNan at nan'
    split <;> omega
  · simp only [nan, nan', if_true, if_false, floatOrder, cmp_eq_lt_iff]
    unfold F64.isNan at nan
    split <;> omega
  · simp only [nan, nan', if_false, floatOrder]
    have less := order one.magnitude other.magnitude
    have more := order other.magnitude one.magnitude
    have some_ := @above one.magnitude
    refine cmp_of_iff ?_ ?_ <;> split_ifs <;> omega

theorem double_cmp (one other : F64) :
    memcmp (bigEndian 8 (float one).toNat ++ rest) (bigEndian 8 (float other).toNat ++ more) =
      (floatOrder one.number other.number).then (memcmp rest more) := by
  rw [bigEndian_cmp (float one).toNat_lt (float other).toNat_lt, float_cmp]

def InRange (type : Whole) (number : Int) : Prop :=
  if (wholeForm type).2 then -2 ^ (8 * (wholeForm type).1 - 1) ≤ number ∧ number < 2 ^ (8 * (wholeForm type).1 - 1)
  else 0 ≤ number ∧ number < 256 ^ (wholeForm type).1

/-- The values of a column whose keys sort as its type does, nulls among them. A `BIT` is not one of them: it
is written as its bytes, and `bit::cmp` orders it by its bits. -/
inductive Fits : Value → LogicalType → Prop
  | null {ty : LogicalType} : Fits .null ty
  | whole {type : Whole} {number : Int} (inside : InRange type number) : Fits (.whole type number) (.whole type)
  | float {value : F32} : Fits (.float value) .float
  | double {value : F64} : Fits (.double value) .double
  | decimal {unscaled : Int} {width scale : Nat} (low : -2 ^ 127 ≤ unscaled) (high : unscaled < 2 ^ 127) :
    Fits (.decimal unscaled width scale) (.decimal width scale)
  | varchar {text : Bytes} : Fits (.varchar text) .varchar
  | blob {bytes : Bytes} : Fits (.blob bytes) .blob
  | bigNum {bytes : Bytes} : Fits (.bigNum bytes) .bigNum
  | numeric {bytes : Bytes} : Fits (.numeric bytes) .numeric

def textOf : Value → Option Bytes
  | .varchar bytes | .blob bytes | .bigNum bytes => some bytes
  | .numeric bytes => some (numericKey bytes)
  | _ => none

def textual (ty : LogicalType) : Prop := ty ∈ [.varchar, .blob, .bigNum, .numeric]

/-- The order of two values of one type, a null before every value. -/
def order : Value → Value → Ordering
  | .null, .null => .eq
  | .null, _ => .lt
  | _, .null => .gt
  | .whole _ one, .whole _ other => cmp one other
  | .float one, .float other => floatOrder one.widen.number other.widen.number
  | .double one, .double other => floatOrder one.number other.number
  | .decimal one _ _, .decimal other _ _ => cmp one other
  | .varchar one, .varchar other | .blob one, .blob other | .bigNum one, .bigNum other => memcmp one other
  | .numeric one, .numeric other => memcmp (numericKey one) (numericKey other)
  | _, _ => .eq

def tupleOrder : List Value → List Value → Ordering
  | one :: rest, other :: more => (order one other).then (tupleOrder rest more)
  | _, _ => .eq

/-- What a column of a key comes to. -/
def written (value : Value) : Bytes := if value = .null then [0] else 1 :: (body value).getD []

theorem Fits.push (fits : Fits value ty) (out : Bytes) :
    push value out = some (out ++ written value) := by
  cases fits <;> simp [Index.push, written, body]

theorem low_written (value : Value) (rest : Bytes) : Low (written value ++ rest) := by
  intro other more
  unfold written
  split <;> exact ⟨rfl, rfl⟩

theorem null_cmp (some_ : value ≠ .null) :
    memcmp (written .null ++ rest) (written value ++ more) = (order .null value).then (memcmp rest more) ∧
      memcmp (written value ++ rest) (written .null ++ more) = (order value .null).then (memcmp rest more) := by
  have ordered : order .null value = .lt ∧ order value .null = .gt := by cases value <;> simp [order] at some_ ⊢
  simp [written, some_, memcmp, cmp, cmpUsing, ordered]

/-- A column decides, and where it does not the rest of the key does. -/
theorem Fits.cmp (fits : Fits one ty) (fits' : Fits other ty)
    (low : textual ty → Low rest ∧ Low more) :
    memcmp (written one ++ rest) (written other ++ more) = (order one other).then (memcmp rest more) := by
  by_cases null : one = .null
  · subst null
    by_cases null' : other = .null
    · subst null'
      rfl
    · exact (null_cmp null').1
  by_cases null' : other = .null
  · subst null'
    exact (null_cmp null).2
  cases fits with
  | null => contradiction
  | @whole type one inside =>
    obtain _ | @⟨_, other, inside'⟩ := fits'
    · contradiction
    unfold InRange at inside inside'
    by_cases sign : (wholeForm type).2 = true
    · rw [if_pos sign] at inside inside'
      have positive : 0 < (wholeForm type).1 := by cases type <;> decide
      have decided := @signed_cmp rest more _ positive _ _ inside.1 inside.2 inside'.1 inside'.2
      simpa [written, body, sign, memcmp, order] using decided
    · rw [if_neg sign] at inside inside'
      have cast : ((256 ^ (wholeForm type).1 : Nat) : Int) = 256 ^ (wholeForm type).1 := by push_cast; rfl
      have decided := @bigEndian_cmp rest more (wholeForm type).1 one.toNat other.toNat (by omega) (by omega)
      rw [@cmp_of_iff _ _ _ _ one.toNat other.toNat one other (by omega) (by omega)] at decided
      simpa [written, body, sign, memcmp, order] using decided
  | float =>
    cases fits' with
    | null => contradiction
    | float =>
      simp only [written, reduceCtorEq, if_false, body, Option.getD_some, cons_append]
      rw [memcmp, cmp_self_eq_eq, double_cmp, order, Ordering.eq_then]
  | double =>
    cases fits' with
    | null => contradiction
    | double => exact double_cmp _ _
  | decimal least most =>
    cases fits' with
    | null => contradiction
    | decimal least' most' => exact @signed_cmp rest more 16 (by decide) _ _ least most least' most'
  | varchar | blob | bigNum | numeric =>
    obtain ⟨low, low'⟩ := low (by simp [textual])
    cases fits' with
    | null => contradiction
    | _ => exact text_cmp low low' _ _

variable {types : List LogicalType} {one other : List Value}

theorem normalize_eq (fits : Forall₂ Fits one types) (out : Bytes) :
    normalize one out = some (out ++ one.flatMap written) := by
  induction fits generalizing out with
  | nil => simp [normalize]
  | cons first _ ih => simp [normalize, first.push, ih]

/-- The keys of two tuples, with anything behind them where the last column is no text. -/
theorem keys_cmp (fits : Forall₂ Fits one types) (fits' : Forall₂ Fits other types)
    (low : (∃ ty ∈ types.getLast?, textual ty) → Low rest ∧ Low more) :
    memcmp (one.flatMap written ++ rest) (other.flatMap written ++ more) =
      (tupleOrder one other).then (memcmp rest more) := by
  induction fits generalizing other with
  | nil =>
    cases fits'
    rfl
  | @cons value ty one types first behind ih =>
    obtain _ | @⟨held, _, other, _, first', behind'⟩ := fits'
    have next : textual ty → Low (one.flatMap written ++ rest) ∧ Low (other.flatMap written ++ more) := by
      intro last
      cases behind with
      | nil =>
        cases behind'
        exact low ⟨ty, rfl, last⟩
      | cons =>
        cases behind'
        simp only [flatMap_cons, append_assoc]
        exact ⟨low_written _ _, low_written _ _⟩
    rw [flatMap_cons, flatMap_cons, append_assoc, append_assoc, first.cmp first' next, tupleOrder, Ordering.then_assoc,
      ih behind']
    rintro ⟨ty, last, text⟩
    refine low ⟨ty, ?_, text⟩
    cases types with
    | nil => cases last
    | cons => simpa using last

theorem tupleOrder_eq_iff (fits : Forall₂ Fits one types) (fits' : Forall₂ Fits other types) :
    tupleOrder one other = .eq ↔ Forall₂ (order · · = .eq) one other := by
  induction fits generalizing other with
  | nil =>
    cases fits'
    exact iff_of_true rfl .nil
  | cons _ _ ih =>
    obtain _ | ⟨_, behind'⟩ := fits'
    rw [tupleOrder, Ordering.then_eq_eq, ih behind', forall₂_cons]

/-- Columns of one type with the same bytes have the same bytes behind them. -/
theorem Fits.behind (fits : Fits value ty) (fits' : Fits held ty) (low : textual ty → Low rest ∧ Low more)
    (same : written held ++ more = written value ++ rest) : more = rest := by
  have equal := fits.cmp fits' low
  rw [← same, memcmp_self] at equal
  exact (memcmp_eq_iff.mp (Ordering.then_eq_eq.mp equal.symm).2).symm

/-- A column that starts another of its type is the other, but for a text that goes on with a zero. -/
theorem Fits.starts (fits : Fits value ty) (fits' : Fits held ty) (starts : written held = written value ++ more) :
    more = [] ∨ ∃ text longer, textOf value = some text ∧ textOf held = some (text ++ 0 :: longer) := by
  by_cases texts : textual ty
  · cases fits with
    | null => cases fits' <;> simp_all [written]
    | varchar | blob | bigNum | numeric =>
      cases fits' with
      | null => simp [written] at starts
      | _ =>
        simp only [written, reduceCtorEq, if_false, body, Option.getD_some, cons_append, cons.injEq, true_and] at starts
        exact (text_starts starts).imp id fun ⟨longer, is⟩ => ⟨_, longer, rfl, by rw [textOf, is]⟩
    | _ => simp [textual] at texts
  · exact .inl (fits.behind fits' (fun text => (texts text).elim) ((append_nil _).trans starts)).symm

/-- A key that starts another of its types is the other, but for a last text that goes on with a zero. -/
theorem keys_start (fits : Forall₂ Fits one types) (fits' : Forall₂ Fits other types)
    (starts : other.flatMap written = one.flatMap written ++ more) :
    more = [] ∨ ∃ text longer, one.getLast?.bind textOf = some text ∧
      other.getLast?.bind textOf = some (text ++ 0 :: longer) := by
  induction fits generalizing other with
  | nil =>
    cases fits'
    exact .inl starts.symm
  | @cons value ty one types first behind ih =>
    obtain _ | @⟨held, _, other, _, first', behind'⟩ := fits'
    rw [flatMap_cons, flatMap_cons, append_assoc] at starts
    cases behind with
    | nil =>
      cases behind'
      exact first.starts first' (by simpa using starts)
    | cons second =>
      obtain _ | ⟨second', behind'⟩ := behind'
      -- what follows the first column starts with one of the bytes a column does
      have rest := first.behind first' (fun _ => ⟨by
        rw [flatMap_cons, append_assoc]
        exact low_written _ _, low_written _ _⟩) starts
      simpa using ih (.cons second' behind') rest

/-- Keys of tuples of the same types sort as the tuples do and are equal when every column is, and one is a
proper first part of another only where the last column is text and goes on with a zero in the other. -/
theorem keys_sort_as_tuples (fits : Forall₂ Fits one types) (fits' : Forall₂ Fits other types) :
    ∃ key key', normalize one [] = some key ∧ normalize other [] = some key' ∧
      memcmp key key' = tupleOrder one other ∧ (key = key' ↔ Forall₂ (order · · = .eq) one other) ∧
      ∀ more, key' = key ++ more → more = [] ∨ ∃ text longer, one.getLast?.bind textOf = some text ∧
        other.getLast?.bind textOf = some (text ++ 0 :: longer) := by
  have ordered := keys_cmp fits fits' fun _ => ⟨low_nil, low_nil⟩
  simp only [append_nil, memcmp_self] at ordered
  have decided : memcmp (one.flatMap written) (other.flatMap written) = tupleOrder one other := by
    rw [ordered]
    cases tupleOrder one other <;> rfl
  refine ⟨_, _, normalize_eq fits [], normalize_eq fits' [], decided, ?_, fun more longer => ?_⟩
  · rw [← tupleOrder_eq_iff fits fits', ← decided, memcmp_eq_iff]
    rfl
  · exact keys_start fits fits' longer

/-- A text and a null against a text that goes on with a zero, and a negative number. -/
theorem keys_sort_as_tuples_text :
    ∃ key key', normalize [.varchar [97], .null] [] = some key ∧
      normalize [.varchar [97, 0], .whole .integer (-5)] [] = some key' ∧
      memcmp key key' = tupleOrder [.varchar [97], .null] [.varchar [97, 0], .whole .integer (-5)] ∧
      (key = key' ↔ Forall₂ (order · · = .eq) [.varchar [97], .null] [.varchar [97, 0], .whole .integer (-5)]) ∧
      ∀ more, key' = key ++ more → more = [] ∨ ∃ text longer,
        [Value.varchar [97], .null].getLast?.bind textOf = some text ∧
          [Value.varchar [97, 0], .whole .integer (-5)].getLast?.bind textOf = some (text ++ 0 :: longer) :=
  keys_sort_as_tuples (.cons .varchar (.cons .null .nil))
    (.cons .varchar (.cons (.whole (by simp [InRange, wholeForm])) .nil))

/-- The key of an empty text is the first part of the key of a zero byte. -/
theorem empty_text_key_starts_another : ∃ key key', normalize [.varchar []] [] = some key ∧
    normalize [.varchar [0]] [] = some key' ∧ key <+: key' ∧ key ≠ key' :=
  ⟨[1, 0], [1, 0, 0xFF, 0], by decide, by decide, ⟨[0xFF, 0], rfl⟩, by decide⟩

end Rudb.Index
