import Rudb.Graph.KeyMapBuild

/-! Every form of a key map that fits its column answers for the column. -/
namespace Rudb.Graph.KeyMap
open Rudb.Lib Rudb.Encoding List Except

def rowOf (column : List (Option Int)) (key : Int) : Option Nat := column.findIdx? (· = some key)

variable {column : List (Option Int)}

variable {key : Int}

theorem mem_keysOf : key ∈ keysOf column ↔ ∃ rid : Nat, column[rid]? = some (some key) := by
  rw [mem_filterMap]
  constructor
  · rintro ⟨_, member, rfl⟩
    exact mem_iff_getElem?.mp member
  · rintro ⟨rid, found⟩
    exact ⟨some key, mem_of_getElem? found, rfl⟩

theorem row_unique (once : (keysOf column).Nodup) {other : Nat} (found : column[rid]? = some (some key))
    (found' : column[other]? = some (some key)) : rid = other := by
  have differ := List.pairwise_iff_getElem.mp (pairwise_filterMap.mp once)
  obtain ⟨lt, here⟩ := List.getElem?_eq_some_iff.mp found
  obtain ⟨lt', here'⟩ := List.getElem?_eq_some_iff.mp found'
  rcases lt_trichotomy rid other with less | same | more
  · exact absurd rfl (differ rid other lt lt' less key here key here')
  · exact same
  · exact absurd rfl (differ other rid lt' lt more key here' key here)

theorem rowOf_eq_some (once : (keysOf column).Nodup) :
    rowOf column key = some rid ↔ column[rid]? = some (some key) := by
  rw [rowOf, findIdx?_eq_some_iff_getElem]
  constructor
  · rintro ⟨lt, here, _⟩
    rw [List.getElem?_eq_getElem lt, of_decide_eq_true here]
  intro found
  obtain ⟨lt, here⟩ := List.getElem?_eq_some_iff.mp found
  refine ⟨lt, decide_eq_true here, fun other less here' => ?_⟩
  have found' : column[other]? = some (some key) := by
    rw [List.getElem?_eq_getElem (less.trans lt), of_decide_eq_true here']
  exact absurd (row_unique once found' found) less.ne

theorem rowOf_eq_none : rowOf column key = none ↔ key ∉ keysOf column := by
  rw [rowOf, findIdx?_eq_none_iff, mem_keysOf]
  constructor
  · rintro none_ ⟨rid, found⟩
    simpa using none_ (some key) (mem_of_getElem? found)
  · intro none_ value member
    obtain ⟨rid, found⟩ := mem_iff_getElem?.mp member
    exact decide_eq_false fun equal => none_ ⟨rid, equal ▸ found⟩

/-- The bitmap of a column's keys over its range, with a rank index that has not wrapped. -/
structure Marked (column : List (Option Int)) (base : Int) (range : Nat) (bits : List Word) (rank : Rank) : Prop where
  narrow : range < 2 ^ 64
  low : IsI128 base
  high : IsI128 (base + range - 1)
  length : bits.length = (range + 63) / 64
  bit_iff : ∀ place, bit bits place = true ↔ base + (place : Int) ∈ keysOf column
  inside : ∀ key ∈ keysOf column, base ≤ key ∧ key < base + range
  built : rank = Rank.build bits
  few : tally (bit bits) (64 * bits.length) < 2 ^ 32

def Ranks (column : List (Option Int)) (base : Int) (bits : List Word) (row : Nat → Except String Nat) : Prop :=
  ∀ rid key, column[rid]? = some (some key) → row (tally (bit bits) (key - base).toNat) = .ok rid

inductive Fits (column : List (Option Int)) : Body → Prop
  | identity {base : Int} {count : Nat} (low : IsI128 base) (high : 0 < count → IsI128 (base + count - 1))
      (narrow : count < 2 ^ 64) (rows : count ≤ column.length)
      (here : ∀ rid key, column[rid]? = some (some key) ↔ rid < count ∧ key = base + rid) :
      Fits column (.identity base count)
  | dense {base : Int} {range : Nat} {bits : List Word} {rank : Rank} (marked : Marked column base range bits rank)
      (full : none ∉ column) (some_ : column ≠ []) (ranks : Ranks column base bits .ok) :
      Fits column (.dense base range bits rank)
  | permuted {base : Int} {range : Nat} {bits : List Word} {rank : Rank} {ridWidth : Nat} {perm : List UInt8}
      (marked : Marked column base range bits rank) (positive : 0 < ridWidth) (le : ridWidth ≤ 64)
      (length : perm.length = tailLen (keysOf column).length ridWidth)
      (ranks : Ranks column base bits (tailAt perm ridWidth)) :
      Fits column (.permuted base range bits rank ridWidth perm)
  | sorted {base : Int} {keyWidth : Nat} {keys : List UInt8} {ridWidth : Nat} {perm : List UInt8}
      (low : IsI128 base) (keys_i128 : ∀ key ∈ keysOf column, IsI128 key) (above : ∀ key ∈ keysOf column, base ≤ key)
      (near : ∀ key ∈ keysOf column, key - base < 2 ^ 64) (apart_ : apart (inOrder base column) = true)
      (packed : Packed column base keyWidth keys ridWidth perm) :
      Fits column (.sorted base keyWidth keys ridWidth perm (keysOf column).length)

/-- An `i64`. -/
def IsI64 (value : Int) : Prop := -2 ^ 63 ≤ value ∧ value < 2 ^ 63

/-- Every answer of a map for its column. -/
structure Resolves (map : KeyMap) (column : List (Option Int)) : Prop where
  row : ∀ key rid, rowOf column key = some rid ↔ column[rid]? = some (some key)
  lookup : ∀ key, map.lookup key = .ok (rowOf column key)
  lookupBlock : ∀ keys out, (∀ key ∈ keys, IsI64 key) → out.length = keys.length →
    map.lookupBlock keys out = .ok (keys.map fun key => (rowOf column key).getD noParent)
  rowsOfSpan : ∀ base range, map.span = some (base, range) → ∀ held : List Word, range ≤ 64 * held.length →
    (∀ place, bit held place = true → base + (place : Int) ∈ keysOf column) →
    ∃ out, map.rowsOfSpan held column.length = .ok (some out) ∧ out.length = (column.length + 63) / 64 ∧
      ∀ rid, bit out rid = true ↔ ∃ place, bit held place = true ∧ column[rid]? = some (some (base + (place : Int)))
  rowsOfSpanNone : ∀ base range, map.span = some (base, range) → ∀ held : List Word,
    (∃ place, bit held place = true ∧ base + (place : Int) ∉ keysOf column) →
      map.rowsOfSpan held column.length = .ok none
  keysAt : map.form = .identity ∨ map.form = .dense → ∀ rids, map.keysAt rids = rids.mapM fun rid => column[rid]?.join

/-- The offset of a block of `i64` keys does not wrap to one that counts. -/
theorem blockOffset_eq {base : Int} (low : IsI128 base) (key_i64 : IsI64 key) :
    blockOffset key base = offset key base := by
  unfold IsI128 at low
  unfold IsI64 at key_i64
  unfold blockOffset offset checkedSub
  by_cases fits : IsI128 (key - base)
  · rw [if_pos fits, Option.bind_some, Int.bmod_eq_of_le]
    · unfold IsI128 at fits
      omega
    · unfold IsI128 at fits
      omega
  rw [if_neg fits, Option.bind_none, toU64, if_neg]
  unfold IsI128 at fits
  rw [Int.bmod_def]
  split <;> omega

/-- A key above the base by less than 2^64 has its offset, and any other has none. -/
theorem offset_cases (key base : Int) :
    (∃ place : Nat, place < 2 ^ 64 ∧ key = base + place ∧ offset key base = some place) ∨
      (offset key base = none ∧ (key < base ∨ 2 ^ 64 ≤ key - base)) := by
  by_cases here : base ≤ key ∧ key - base < 2 ^ 64
  · exact .inl ⟨(key - base).toNat, by omega, by omega, offset_eq here.1 here.2⟩
  refine .inr ⟨?_, by omega⟩
  have outside : toU64 (key - base) = none := if_neg (by omega)
  unfold offset checkedSub
  split
  · exact outside
  · rfl

namespace Marked
variable {base : Int} {range : Nat} {bits : List Word} {rank : Rank} (marked : Marked column base range bits rank)
include marked

theorem counts : rank.Counts bits := Rank.counts_of_small (by rw [marked.built]; rfl) marked.few

theorem place_lt (here : base + (place : Int) ∈ keysOf column) : place < range := by
  have := (marked.inside _ here).2
  omega

variable {row : Nat → Except String Nat}

section
variable (ranks : Ranks column base bits row) (once : (keysOf column).Nodup)
include ranks once

theorem ranked_eq (place : Nat) : ranked bits rank row range place = .ok (rowOf column (base + place)) := by
  by_cases here : base + (place : Int) ∈ keysOf column
  · have lt := marked.place_lt here
    obtain ⟨rid, found⟩ := mem_keysOf.mp here
    have answer := ranks rid _ found
    rw [show (base + (place : Int) - base).toNat = place by omega] at answer
    have length := marked.length
    rw [ranked, if_neg (by omega), if_pos ((marked.bit_iff place).mpr here), marked.counts.rank (by omega), answer,
      (rowOf_eq_some once).mpr found]
    rfl
  rw [rowOf_eq_none.mpr here]
  unfold ranked
  split
  · rfl
  · rw [if_neg fun set => here ((marked.bit_iff place).mp set)]

theorem lookup_eq (key : Int) :
    (match offset key base with
      | none => (.ok none : Except String (Option Nat))
      | some offset => ranked bits rank row range offset) = .ok (rowOf column key) := by
  rcases offset_cases key base with ⟨place, _, rfl, here⟩ | ⟨none_, outside⟩
  · rw [here]
    exact marked.ranked_eq ranks once place
  have absent : key ∉ keysOf column := fun member => by
    have narrow := marked.narrow
    have inside := marked.inside key member
    omega
  rw [none_, rowOf_eq_none.mpr absent]

theorem block_eq (key_i64 : IsI64 key) :
    (match blockOffset key base with
      | none => (.ok noParent : Except String Nat)
      | some offset => (ranked bits rank row range offset).map fun (row : Option Nat) => row.getD noParent) =
      .ok ((rowOf column key).getD noParent) := by
  have here := marked.lookup_eq ranks once key
  rw [blockOffset_eq marked.low key_i64]
  cases place : offset key base with
  | none =>
    rw [place] at here
    exact congrArg (fun row => Except.ok (row.getD noParent)) (Except.ok.inj here)
  | some place' =>
    rw [place] at here
    exact congrArg (Except.map fun row => Option.getD row noParent) here

end

end Marked

/-- The search over keys in order ends at the first that is not below the one wanted. -/
theorem search_eq {sorted : List Nat} {keys : List UInt8} (rising : sorted.Pairwise (· < ·))
    (read : ∀ (index : Nat) key, sorted[index]? = some key → tailAt keys width index = .ok key)
    (inside : high ≤ sorted.length) (le : low ≤ high)
    (below : ∀ (index : Nat) key, sorted[index]? = some key → index < low → key < wanted)
    (above : ∀ (index : Nat) key, sorted[index]? = some key → high ≤ index → wanted ≤ key) :
    ∃ place, search keys width wanted low high = .ok place ∧ place ≤ sorted.length ∧
      ∀ index : Nat, sorted[index]? = some wanted ↔ index = place ∧ sorted[place]? = some wanted := by
  fun_induction search keys width wanted low high with
  | case1 low high less mid error failed =>
    have lt : mid < sorted.length := by omega
    rw [read mid sorted[mid] (List.getElem?_eq_getElem lt)] at failed
    cases failed
  | case2 low high less mid found here smaller ih =>
    have lt : mid < sorted.length := by omega
    have value : sorted[mid] = found := ok.inj ((read mid _ (List.getElem?_eq_getElem lt)).symm.trans here)
    refine ih inside (by omega) (fun index key at_ before => ?_) above
    obtain ⟨lt', rfl⟩ := List.getElem?_eq_some_iff.mp at_
    rcases lt_or_eq_of_le (Nat.le_of_lt_succ before) with less' | same
    · have := List.pairwise_iff_getElem.mp rising index mid lt' lt less'
      omega
    · subst same
      omega
  | case3 low high less mid found here larger ih =>
    have lt : mid < sorted.length := by omega
    have value : sorted[mid] = found := ok.inj ((read mid _ (List.getElem?_eq_getElem lt)).symm.trans here)
    refine ih (by omega) (by omega) below fun index key at_ after => ?_
    obtain ⟨lt', rfl⟩ := List.getElem?_eq_some_iff.mp at_
    rcases lt_or_eq_of_le after with less' | same
    · have := List.pairwise_iff_getElem.mp rising mid index lt lt' less'
      omega
    · subst same
      omega
  | case4 low high done =>
    obtain rfl : low = high := by omega
    refine ⟨low, rfl, inside, fun index => ⟨fun found => ?_, fun same => same.1 ▸ same.2⟩⟩
    have here : index = low := by
      rcases lt_trichotomy index low with less | same | more
      · exact absurd (below index wanted found less) (lt_irrefl _)
      · exact same
      have lt := (List.getElem?_eq_some_iff.mp found).1
      have first := above low sorted[low] (List.getElem?_eq_getElem (by omega)) le_rfl
      obtain ⟨lt', value⟩ := List.getElem?_eq_some_iff.mp found
      have := List.pairwise_iff_getElem.mp rising low index (by omega) lt more
      omega
    exact ⟨here, here ▸ found⟩

variable {base : Int}

theorem Packed.lookup_eq {keys : List UInt8}
    (packed : Packed column base keyWidth keys ridWidth perm) (apart_ : apart (inOrder base column) = true)
    (once : (keysOf column).Nodup) (above : ∀ key ∈ keysOf column, base ≤ key) (wanted : Nat) :
    ((search keys keyWidth wanted 0 (keysOf column).length).bind fun low =>
      if low ≥ (keysOf column).length then .ok none
      else (tailAt keys keyWidth low).bind fun found =>
        if found ≠ wanted then .ok none else (tailAt perm ridWidth low).map some) =
      .ok (rowOf column (base + wanted)) := by
  have length : ((inOrder base column).map Prod.fst).length = (keysOf column).length := by
    rw [length_map, length_inOrder]
  have read : ∀ (index : Nat) key, ((inOrder base column).map Prod.fst)[index]? = some key →
      tailAt keys keyWidth index = .ok key := fun index key found => by
    rw [List.getElem?_map] at found
    obtain ⟨pair, here, rfl⟩ := Option.map_eq_some_iff.mp found
    exact (packed.read index pair here).1
  have past : ∀ (index : Nat) key, ((inOrder base column).map Prod.fst)[index]? = some key →
      (keysOf column).length ≤ index → wanted ≤ key := fun index key found ge => by
    have := (List.getElem?_eq_some_iff.mp found).1
    omega
  obtain ⟨low, run, le, only⟩ := search_eq (rising_inOrder apart_) read (Nat.le_of_eq length.symm) (Nat.zero_le _)
    (fun _ _ _ none_ => absurd none_ (Nat.not_lt_zero _)) past
  rw [run]
  dsimp only [Except.bind]
  by_cases here : ((inOrder base column).map Prod.fst)[low]? = some wanted
  · have lt := (List.getElem?_eq_some_iff.mp here).1
    rw [if_neg (by omega), read low wanted here]
    rw [List.getElem?_map] at here
    obtain ⟨⟨place, rid⟩, at_, rfl⟩ := Option.map_eq_some_iff.mp here
    obtain ⟨key, found, same⟩ := mem_inOrder.mp (mem_of_getElem? at_)
    have ge := above key (mem_keysOf.mpr ⟨rid, found⟩)
    have key_eq : base + (place : Int) = key := by omega
    dsimp only
    rw [if_neg (fun ne => ne rfl), (packed.read low _ at_).2, key_eq, (rowOf_eq_some once).mpr found]
    rfl
  · have absent : base + (wanted : Int) ∉ keysOf column := fun member => by
      obtain ⟨rid, found⟩ := mem_keysOf.mp member
      obtain ⟨index, at_⟩ := mem_iff_getElem?.mp
        (mem_inOrder.mpr ⟨_, found, show (base + (wanted : Int) - base).toNat = wanted by omega⟩)
      have first : ((inOrder base column).map Prod.fst)[index]? = some wanted := by
        rw [List.getElem?_map, at_]
        rfl
      exact here ((only index).mp first).2
    rw [rowOf_eq_none.mpr absent]
    split
    · rfl
    have inside : low < ((inOrder base column).map Prod.fst).length := by omega
    have value := List.getElem?_eq_getElem inside
    rw [read low _ value]
    have differ : ((inOrder base column).map Prod.fst)[low] ≠ wanted :=
      fun equal => here (value.trans (congrArg some equal))
    exact if_pos differ

theorem Fits.lookup {body : Body} {observed : Observed} (fits : Fits column body)
    (once : (keysOf column).Nodup) (key : Int) :
    KeyMap.lookup { body, observed } key = .ok (rowOf column key) := by
  cases fits with
  | @identity base count low high narrow rows here =>
    refine congrArg ok ?_
    rcases offset_cases key base with ⟨place, _, rfl, found⟩ | ⟨none_, outside⟩
    · rw [found]
      by_cases lt : place < count
      · rw [(rowOf_eq_some once).mpr ((here place _).mpr ⟨lt, rfl⟩)]
        simp [lt]
      have absent : base + (place : Int) ∉ keysOf column := fun member => by
        obtain ⟨rid, found⟩ := mem_keysOf.mp member
        have := (here rid _).mp found
        omega
      rw [rowOf_eq_none.mpr absent]
      simpa using lt
    · have absent : key ∉ keysOf column := fun member => by
        obtain ⟨rid, found⟩ := mem_keysOf.mp member
        have := (here rid key).mp found
        omega
      rw [none_, rowOf_eq_none.mpr absent]
      rfl
  | dense marked full some_ ranks | permuted marked positive le length ranks => exact marked.lookup_eq ranks once key
  | @sorted base keyWidth keys ridWidth perm low keys_i128 above near apart_ packed =>
    unfold KeyMap.lookup
    dsimp only
    rcases offset_cases key base with ⟨place, _, rfl, found⟩ | ⟨none_, outside⟩
    · rw [found]
      exact packed.lookup_eq apart_ once above place
    have absent : key ∉ keysOf column := fun member => by
      have ge := above key member
      have lt := near key member
      omega
    rw [none_, rowOf_eq_none.mpr absent]

theorem fillBlock_eq {keys : List Int}
    (answers : ∀ key ∈ keys, answer key = .ok (row key)) (length : out.length = keys.length) :
    fillBlock answer keys out = .ok (keys.map row) := by
  induction keys generalizing out with
  | nil => rw [length_eq_zero_iff.mp length]; rfl
  | cons key keys ih =>
    cases out with
    | nil => simp at length
    | cons slot out =>
      rw [fillBlock, answers key mem_cons_self, Except.bind,
        ih (fun key member => answers key (mem_cons_of_mem _ member)) (by simpa using length)]
      rfl

variable {observed : Observed} {body : Body}

theorem Fits.lookupBlock (fits : Fits column body) (once : (keysOf column).Nodup)
    (keys : List Int) (out : List Nat) (keys_i64 : ∀ key ∈ keys, IsI64 key) (length : out.length = keys.length) :
    KeyMap.lookupBlock { body, observed } keys out = .ok (keys.map fun key => (rowOf column key).getD noParent) := by
  have lookup := @Fits.lookup column body observed fits once
  cases fits with
  | @identity base count low high narrow rows here =>
    refine fillBlock_eq (fun key member => ?_) length
    rw [blockOffset_eq low (keys_i64 key member)]
    exact congrArg (fun row => ok (row.getD noParent)) (ok.inj (lookup key))
  | @dense base range bits rank marked full some_ ranks
  | @permuted base range bits rank ridWidth perm marked positive le length' ranks =>
    exact fillBlock_eq (fun key member => marked.block_eq ranks once (keys_i64 key member)) length
  | sorted low keys_i128 above near apart_ packed =>
    refine fillBlock_eq (fun key member => ?_) length
    rw [lookup key]
    rfl

theorem spreadWord_eq
    (inside : ∀ place, left.getLsbD place = true →
      ∃ rid, row (before + tally present.getLsbD place) = .ok rid ∧ rid < 64 * out.length) :
    ∃ out', spreadWord row present before left out = .ok (some out') ∧ out'.length = out.length ∧
      ∀ rid, bit out' rid = true ↔ bit out rid = true ∨
        ∃ place, left.getLsbD place = true ∧ row (before + tally present.getLsbD place) = .ok rid := by
  fun_induction spreadWord row present before left out with
  | case1 out =>
    simp
  | case2 left out some_ below error failed =>
    obtain ⟨⟨set, _⟩, lt⟩ := trailingZeros_isNth some_
    obtain ⟨rid, here, _⟩ := inside _ set
    rw [countOnes_mask lt, here] at failed
    cases failed
  | case3 left out some_ below rid found room ih =>
    obtain ⟨⟨set, _⟩, lt⟩ := trailingZeros_isNth some_
    rw [countOnes_mask lt] at found
    obtain ⟨rid', here, small⟩ := inside _ set
    obtain rfl : rid = rid' := ok.inj (found.symm.trans here)
    obtain ⟨out', run, length, only⟩ := ih fun place kept => by
      rw [getLsbD_clearLowest some_, Bool.and_eq_true] at kept
      rw [setBit_length]
      exact inside place kept.1
    refine ⟨out', run, by rw [length, setBit_length], fun other => ?_⟩
    rw [only, setBit_bit small, Bool.or_eq_true, decide_eq_true_iff, or_assoc]
    refine or_congr_right ⟨?_, ?_⟩
    · rintro (rfl | ⟨place, kept, here'⟩)
      · exact ⟨_, set, found⟩
      · rw [getLsbD_clearLowest some_, Bool.and_eq_true] at kept
        exact ⟨place, kept.1, here'⟩
    rintro ⟨place, kept, here'⟩
    by_cases first : place = trailingZeros left
    · subst first
      exact .inl (ok.inj (here'.symm.trans found))
    · refine .inr ⟨place, ?_, here'⟩
      rw [getLsbD_clearLowest some_, kept, decide_eq_true first]
      rfl
  | case4 left out some_ below rid found past =>
    obtain ⟨⟨set, _⟩, lt⟩ := trailingZeros_isNth some_
    rw [countOnes_mask lt] at found
    obtain ⟨rid', here, small⟩ := inside _ set
    obtain rfl : rid = rid' := ok.inj (found.symm.trans here)
    omega

/-- A key that is not present, in one of two words side by side. -/
theorem and_not_ne_zero {keys : Word} :
    keys &&& ~~~present ≠ 0 ↔ ∃ place < 64, keys.getLsbD place = true ∧ present.getLsbD place = false := by
  constructor
  · intro some_
    by_contra none_
    push Not at none_
    refine some_ (BitVec.eq_of_getLsbD_eq fun place lt => ?_)
    rw [BitVec.getLsbD_and, BitVec.getLsbD_not, decide_eq_true lt]
    cases set : keys.getLsbD place with
    | false => exact BitVec.getLsbD_zero.symm
    | true =>
      rw [Bool.eq_true_of_not_eq_false (none_ place lt set)]
      exact BitVec.getLsbD_zero.symm
  · rintro ⟨place, lt, set, clear⟩ zero
    have here : (keys &&& ~~~present).getLsbD place = true := by
      rw [BitVec.getLsbD_and, BitVec.getLsbD_not, set, clear, decide_eq_true lt]
      rfl
    rw [zero] at here
    exact absurd here (by simp)

theorem bit_front (rest : List Word) (lt : place < 64) :
    bit (word :: rest) place = word.getLsbD place := by
  have here : bit (word :: rest) (64 * 0 + place) = ((word :: rest).getD 0 0).getLsbD place := bit_add lt
  simpa using here

theorem tally_front (rest : List Word) (le : place ≤ 64) :
    tally (bit (word :: rest)) place = tally word.getLsbD place :=
  tally_congr fun inner lt => bit_front rest (by omega)

/-- The keys held set the bits of their rows, when every one of them is present, and nothing otherwise. -/
theorem spread_eq (le : held.length ≤ bits.length)
    (inside : ∀ place, bit held place = true → bit bits place = true →
      ∃ rid, row (before + tally (bit bits) place) = .ok rid ∧ rid < 64 * out.length) :
    ((∀ place, bit held place = true → bit bits place = true) →
      ∃ out', spread row before held bits out = .ok (some out') ∧ out'.length = out.length ∧
        ∀ rid, bit out' rid = true ↔ bit out rid = true ∨
          ∃ place, bit held place = true ∧ row (before + tally (bit bits) place) = .ok rid) ∧
      ((∃ place, bit held place = true ∧ bit bits place = false) → spread row before held bits out = .ok none) := by
  induction held generalizing before bits out with
  | nil =>
    have clear (place : Nat) : bit [] place = false := by simp [bit]
    refine ⟨fun _ => ⟨out, by cases bits <;> rfl, rfl, fun rid => ?_⟩, ?_⟩
    · simp [clear]
    · rintro ⟨place, set, _⟩
      simp [clear] at set
  | cons keys held ih =>
    cases bits with
    | nil => simp at le
    | cons present bits =>
      by_cases missing : keys &&& ~~~present ≠ 0
      · obtain ⟨place, lt, set, clear⟩ := and_not_ne_zero.mp missing
        refine ⟨fun all => ?_, fun _ => by rw [spread, if_pos missing]⟩
        have := all place (by rw [bit_front held lt, set])
        rw [bit_front bits lt, clear] at this
        cases this
      have all (place : Nat) (lt : place < 64) (set : keys.getLsbD place = true) : present.getLsbD place = true := by
        by_contra clear
        exact missing (and_not_ne_zero.mpr ⟨place, lt, set, by simpa using clear⟩)
      have front : ∀ place, keys.getLsbD place = true →
          ∃ rid, row (before + tally present.getLsbD place) = .ok rid ∧ rid < 64 * out.length := fun place set => by
        have lt := BitVec.lt_of_getLsbD set
        have here := inside place (by rw [bit_front held lt, set]) (by rw [bit_front bits lt, all place lt set])
        rwa [tally_front bits (by omega)] at here
      obtain ⟨out', run, length, only⟩ := spreadWord_eq front
      have behind : ∀ place, bit held place = true → bit bits place = true →
          ∃ rid, row (before + countOnes present + tally (bit bits) place) = .ok rid ∧ rid < 64 * out'.length :=
        fun place set set' => by
          have here := inside (64 + place) (by rw [bit_cons, set]) (by rw [bit_cons, set'])
          rwa [tally_cons, ← add_assoc, ← length] at here
      obtain ⟨whole, none_⟩ := ih (by simpa using le) behind
      have step : spread row before (keys :: held) (present :: bits) out =
          spread row (before + countOnes present) held bits out' := by
        rw [spread, if_neg missing, run]
      rw [step]
      refine ⟨fun every => ?_, ?_⟩
      · obtain ⟨out'', run', length', only'⟩ := whole fun place set => by
          have := every (64 + place) (by rw [bit_cons, set])
          rwa [bit_cons] at this
        refine ⟨out'', run', length'.trans length, fun rid => ?_⟩
        rw [only', only, or_assoc]
        refine or_congr_right ⟨?_, ?_⟩
        · rintro (⟨place, set, here⟩ | ⟨place, set, here⟩)
          · have lt := BitVec.lt_of_getLsbD set
            exact ⟨place, by rw [bit_front held lt, set], by rwa [tally_front bits (by omega)]⟩
          · exact ⟨64 + place, by rw [bit_cons, set], by rwa [tally_cons, ← add_assoc]⟩
        rintro ⟨place, set, here⟩
        by_cases lt : place < 64
        · rw [bit_front held lt] at set
          rw [tally_front bits (by omega)] at here
          exact .inl ⟨place, set, here⟩
        obtain ⟨rest, rfl⟩ : ∃ rest, place = 64 + rest := ⟨place - 64, by omega⟩
        rw [bit_cons] at set
        rw [tally_cons, ← add_assoc] at here
        exact .inr ⟨rest, set, here⟩
      · rintro ⟨place, set, clear⟩
        by_cases lt : place < 64
        · rw [bit_front held lt] at set
          rw [bit_front bits lt, all place lt set] at clear
          cases clear
        · obtain ⟨rest, rfl⟩ : ∃ rest, place = 64 + rest := ⟨place - 64, by omega⟩
          rw [bit_cons] at set clear
          exact none_ ⟨rest, set, clear⟩

theorem bit_take (words : List Word) (count place : Nat) :
    bit (words.take count) place = (bit words place && decide (place < 64 * count)) := by
  unfold bit
  rw [getD_eq_getElem?_getD, getD_eq_getElem?_getD, getElem?_take]
  by_cases lt : place / 64 < count
  · rw [if_pos lt, decide_eq_true (by omega), Bool.and_true]
  · rw [if_neg lt, decide_eq_false (by omega), Bool.and_false]
    exact BitVec.getLsbD_zero

theorem bit_append_replicate (words : List Word) (count place : Nat) :
    bit (words ++ replicate count 0) place = bit words place := by
  unfold bit
  rw [getD_eq_getElem?_getD, getD_eq_getElem?_getD, getElem?_append]
  split
  · rfl
  · rename_i past
    rw [getElem?_replicate, getElem?_eq_none (not_lt.mp past)]
    split <;> rfl

/-- Words behind a count are all zero when none of their bits is set. -/
theorem any_drop (words : List Word) (count : Nat) :
    ((words.drop count).any (· ≠ 0)) = true ↔ ∃ place, 64 * count ≤ place ∧ bit words place = true := by
  rw [any_eq_true]
  constructor
  · rintro ⟨word, member, some_⟩
    obtain ⟨index, found⟩ := mem_iff_getElem?.mp member
    rw [getElem?_drop] at found
    obtain ⟨⟨set, _⟩, lt⟩ := trailingZeros_isNth (of_decide_eq_true some_)
    refine ⟨64 * (count + index) + trailingZeros word, by omega, ?_⟩
    rw [bit_add lt, getD_eq_getElem?_getD, found]
    exact set
  rintro ⟨place, ge, set⟩
  have inside : place / 64 < words.length := by
    by_contra past
    rw [bit_past (by omega)] at set
    cases set
  refine ⟨words[place / 64], ?_, decide_eq_true fun zero => ?_⟩
  · refine mem_iff_getElem?.mpr ⟨place / 64 - count, ?_⟩
    rw [getElem?_drop, show count + (place / 64 - count) = place / 64 by omega, getElem?_eq_getElem inside]
  · rw [bit, getD_eq_getElem _ _ inside, zero] at set
    simp at set

/-- The checks of `rows_of_span` fail for a bitmap that is short of the span or has a bit past it. -/
theorem span_checks (held : List Word) (range : Nat) :
    ((held.length < (range + 63) / 64 ∨ (held.drop ((range + 63) / 64)).any (· ≠ 0)) ∨
      (range % 64 ≠ 0 ∧ held.getD ((range + 63) / 64 - 1) 0 >>> (range % 64) ≠ 0)) ↔
      (held.length < (range + 63) / 64 ∨ ∃ place, range ≤ place ∧ bit held place = true) := by
  by_cases short : held.length < (range + 63) / 64
  · simp [short]
  have length : (held.take ((range + 63) / 64)).length = (range + 63) / 64 := by
    rw [length_take]
    omega
  have tail := BitVector.tailSet_iff length
  have same : BitVector.tailSet (held.take ((range + 63) / 64)) range = true ↔
      range % 64 ≠ 0 ∧ held.getD ((range + 63) / 64 - 1) 0 >>> (range % 64) ≠ 0 := by
    rw [BitVector.tailSet, Bool.and_eq_true, decide_eq_true_iff, decide_eq_true_iff]
    refine and_congr_right fun part => ?_
    rw [show (range + 63) / 64 - 1 = range / 64 by omega, getD_eq_getElem?_getD, getElem?_take,
      if_pos (by omega), ← getD_eq_getElem?_getD]
  rw [← same, any_drop]
  simp only [short, false_or]
  constructor
  · rintro (⟨place, ge, set⟩ | set)
    · exact ⟨place, by omega, set⟩
    by_contra none_
    push Not at none_
    rw [tail.mpr fun place ge => ?_] at set
    · cases set
    · rw [bit_take, Bool.eq_false_iff.mpr (none_ place ge), Bool.false_and]
  rintro ⟨place, ge, set⟩
  by_cases behind : 64 * ((range + 63) / 64) ≤ place
  · exact .inl ⟨place, behind, set⟩
  refine .inr (Bool.eq_true_of_not_eq_false fun clear => ?_)
  have := tail.mp clear place ge
  rw [bit_take, set, decide_eq_true (by omega)] at this
  cases this

/-- A bitmap over the rows passes the last check of `rows_of_span`. -/
theorem last_clear (length : out.length = (rows + 63) / 64)
    (below : ∀ rid, bit out rid = true → rid < rows) :
    (rows % 64 ≠ 0 && out.getLast?.any fun (word : Word) => word >>> (rows % 64) ≠ 0) = false := by
  have tail := (BitVector.tailSet_iff length).mpr fun rid ge => Bool.eq_false_iff.mpr fun set => by
    have := below rid set
    omega
  rw [BitVector.tailSet, Bool.and_eq_false_iff] at tail
  rw [Bool.and_eq_false_iff]
  refine or_iff_not_imp_left.mpr fun part => ?_
  have part' : rows % 64 ≠ 0 := of_decide_eq_true (Bool.eq_true_of_not_eq_false part)
  have last : rows / 64 < out.length := by omega
  rw [getLast?_eq_getElem?, show out.length - 1 = rows / 64 by omega, getElem?_eq_getElem last]
  rcases tail with whole | clear
  · exact absurd whole part
  · rwa [getD_eq_getElem _ _ last] at clear

variable {range : Nat} {bits : List Word} {held : List Word} {rank : Rank}

/-- The rows of keys held in a bitmap over a span, or nothing when one of them is no key. -/
structure HeldRows (column : List (Option Int)) (base : Int) (held : List Word)
    (rows : Except String (Option (List Word))) :
    Prop where
  whole : (∀ place, bit held place = true → base + (place : Int) ∈ keysOf column) →
    ∃ out, rows = .ok (some out) ∧ out.length = (column.length + 63) / 64 ∧
      ∀ rid, bit out rid = true ↔ ∃ place, bit held place = true ∧ column[rid]? = some (some (base + (place : Int)))
  none_ : (∃ place, bit held place = true ∧ base + (place : Int) ∉ keysOf column) → rows = .ok none

/-- The rows of keys held in a bitmap over the span, by rank. -/
theorem Marked.spread_eq (marked : Marked column base range bits rank)
    (ranks : Ranks column base bits row) (length : held.length = (range + 63) / 64) :
    HeldRows column base held (spread row 0 held bits (List.replicate ((column.length + 63) / 64) 0)) := by
  have answer {place : Nat} (member : base + (place : Int) ∈ keysOf column) :
      ∃ rid, row (0 + tally (bit bits) place) = .ok rid ∧ column[rid]? = some (some (base + (place : Int))) := by
    obtain ⟨rid, found⟩ := mem_keysOf.mp member
    have here := ranks rid _ found
    rw [show (base + (place : Int) - base).toNat = place by omega] at here
    exact ⟨rid, by rw [zero_add, here], found⟩
  have room : ∀ place, bit held place = true → bit bits place = true →
    ∃ rid, row (0 + tally (bit bits) place) = .ok rid ∧
      rid < 64 * (List.replicate ((column.length + 63) / 64) (0 : Word)).length := fun place set present => by
    obtain ⟨rid, here, found⟩ := answer ((marked.bit_iff place).mp present)
    have lt := (List.getElem?_eq_some_iff.mp found).1
    exact ⟨rid, here, by rw [List.length_replicate]; omega⟩
  obtain ⟨whole, none_⟩ := KeyMap.spread_eq (by rw [length, marked.length]) room
  refine ⟨fun all => ?_, ?_⟩
  · obtain ⟨out, run, length', only⟩ := whole fun place set => (marked.bit_iff place).mpr (all place set)
    refine ⟨out, run, by rw [length', List.length_replicate], fun rid => ?_⟩
    rw [only, bit_replicate]
    simp only [Bool.false_eq_true, false_or]
    refine exists_congr fun place => and_congr_right fun set => ?_
    obtain ⟨rid', here, found⟩ := answer (all place set)
    rw [here]
    constructor
    · intro same
      rw [← ok.inj same, found]
    intro found'
    have here' := ranks rid _ found'
    rw [show (base + (place : Int) - base).toNat = place by omega] at here'
    rw [zero_add, here'] at here
    exact here.symm
  · rintro ⟨place, set, absent⟩
    exact none_ ⟨place, set, Bool.eq_false_iff.mpr fun present => absent ((marked.bit_iff place).mp present)⟩

section
variable (fits : Fits column body) (span : KeyMap.span { body, observed } = some (base, range))
include fits span

/-- The rows of keys held in a bitmap that is as long as the span. -/
theorem Fits.spanRows (length : held.length = (range + 63) / 64)
    (clipped : ∀ place, bit held place = true → place < range) :
    HeldRows column base held (KeyMap.spanRows { body, observed } held column.length) := by
  cases fits with
  | @identity base' count low high narrow rows here =>
    obtain ⟨rfl, rfl⟩ : base' = base ∧ count = range := by simpa [KeyMap.span] using span
    refine ⟨fun _ => ?_, ?_⟩
    · refine ⟨_, if_neg (by omega), ?_, fun rid => ?_⟩
      · rw [length_append, length_drop, length_replicate]
        omega
      rw [drop_replicate, bit_append_replicate]
      constructor
      · exact fun set => ⟨rid, set, (here rid _).mpr ⟨clipped rid set, rfl⟩⟩
      rintro ⟨place, set, found⟩
      obtain rfl : place = rid := by
        have := ((here rid _).mp found).2
        omega
      exact set
    · rintro ⟨place, set, absent⟩
      exact absurd (mem_keysOf.mpr ⟨place, (here place _).mpr ⟨clipped place set, rfl⟩⟩) absent
  | @dense base' range' bits rank marked full some_ ranks
  | @permuted base' range' bits rank ridWidth perm marked positive le length' ranks =>
    obtain ⟨rfl, rfl⟩ : base' = base ∧ range' = range := by simpa [KeyMap.span] using span
    have room : ¬bits.length < held.length := by rw [marked.length]; omega
    simp only [KeyMap.spanRows, if_neg room]
    exact marked.spread_eq ranks length
  | sorted => simp [KeyMap.span] at span

theorem Fits.span_inside (member : key ∈ keysOf column) : base ≤ key ∧ key < base + range := by
  cases fits with
  | @identity base' count low high narrow rows here =>
    obtain ⟨rfl, rfl⟩ : base' = base ∧ count = range := by simpa [KeyMap.span] using span
    obtain ⟨rid, found⟩ := mem_keysOf.mp member
    have := (here rid key).mp found
    omega
  | @dense base' range' bits rank marked | @permuted base' range' bits rank ridWidth perm marked =>
    obtain ⟨rfl, rfl⟩ : base' = base ∧ range' = range := by simpa [KeyMap.span] using span
    exact marked.inside key member
  | sorted => simp [KeyMap.span] at span

end

/-- What `rows_of_span` comes to once its checks pass. -/
theorem rowsOfSpan_of_checks {map : KeyMap} (span : map.span = some (base, range))
    (rows : Nat) (long : (range + 63) / 64 ≤ held.length) (clipped : ∀ place, bit held place = true → place < range) :
    map.rowsOfSpan held rows = (map.spanRows (held.take ((range + 63) / 64)) rows).map fun out =>
      out.filter fun out => !(rows % 64 ≠ 0 && out.getLast?.any fun (word : Word) => word >>> (rows % 64) ≠ 0) := by
  have passes := mt (span_checks held range).mp (by
    rintro (short | ⟨place, ge, set⟩)
    · omega
    · have := clipped place set
      omega)
  rw [not_or] at passes
  rw [rowsOfSpan, span]
  dsimp only
  rw [if_neg passes.1, if_neg passes.2]

theorem take_clipped (clipped : ∀ place, bit held place = true → place < range) (place : Nat) :
    bit (held.take ((range + 63) / 64)) place = true ↔ bit held place = true := by
  rw [bit_take, Bool.and_eq_true, decide_eq_true_iff]
  refine ⟨And.left, fun set => ⟨set, ?_⟩⟩
  have := clipped place set
  omega

section
variable (fits : Fits column body) (span : KeyMap.span { body, observed } = some (base, range))
include fits span

theorem Fits.rowsOfSpan (held : List Word) (long : range ≤ 64 * held.length)
    (all : ∀ place, bit held place = true → base + (place : Int) ∈ keysOf column) :
    ∃ out, KeyMap.rowsOfSpan { body, observed } held column.length = .ok (some out) ∧
      out.length = (column.length + 63) / 64 ∧
      ∀ rid, bit out rid = true ↔ ∃ place, bit held place = true ∧
        column[rid]? = some (some (base + (place : Int))) := by
  have clipped : ∀ place, bit held place = true → place < range := fun place set => by
    have := (fits.span_inside span (all place set)).2
    omega
  have same := take_clipped clipped
  have length : (held.take ((range + 63) / 64)).length = (range + 63) / 64 := by
    rw [length_take]
    omega
  obtain ⟨out, run, rows, only⟩ := (fits.spanRows span length fun place set => clipped place ((same place).mp set)).1
    fun place set => all place ((same place).mp set)
  simp only [same] at only
  refine ⟨out, ?_, rows, only⟩
  have clear := last_clear rows fun rid set => by
    obtain ⟨place, _, found⟩ := (only rid).mp set
    exact (List.getElem?_eq_some_iff.mp found).1
  rw [rowsOfSpan_of_checks span column.length (by omega) clipped, run, Except.map, Option.filter_some, clear]
  rfl

theorem Fits.rowsOfSpan_none (held : List Word)
    (missing : ∃ place, bit held place = true ∧ base + (place : Int) ∉ keysOf column) :
    KeyMap.rowsOfSpan { body, observed } held column.length = .ok none := by
  by_cases checks : held.length < (range + 63) / 64 ∨ ∃ place, range ≤ place ∧ bit held place = true
  · rw [KeyMap.rowsOfSpan, span]
    dsimp only
    rcases (span_checks held range).mpr checks with first | second
    · rw [if_pos first]
    · split <;> rfl
  rw [not_or] at checks
  have clipped : ∀ place, bit held place = true → place < range := fun place set => by
    by_contra past
    exact checks.2 ⟨place, by omega, set⟩
  have same := take_clipped clipped
  have length : (held.take ((range + 63) / 64)).length = (range + 63) / 64 := by
    rw [length_take]
    omega
  obtain ⟨place, set, absent⟩ := missing
  have run := (fits.spanRows span length fun place set => clipped place ((same place).mp set)).2
    ⟨place, (same place).mpr set, absent⟩
  rw [rowsOfSpan_of_checks span column.length (by omega) clipped, run]
  rfl

end

/-- Where the search of `keys_at` may start, and what it remembers. -/
structure Finding.Right (finding : Finding) (column : List (Option Int)) (bits : List Word) : Prop where
  inside : finding.last.2 < bits.length
  before : ahead bits finding.last.2 ≤ finding.last.1
  held : ∀ rid key, finding.held = some (rid, key) → column[rid]? = some (some key)

theorem Marked.isNth (marked : Marked column base range bits rank)
    (ranks : Ranks column base bits .ok) (found : column[rid]? = some (some key)) :
    IsNth (bit bits) rid (key - base).toNat ∧ (key - base).toNat < 64 * bits.length := by
  have member : key ∈ keysOf column := mem_keysOf.mpr ⟨rid, found⟩
  have inside := marked.inside key member
  have length := marked.length
  refine ⟨⟨(marked.bit_iff _).mpr ?_, ok.inj (ranks rid key found)⟩, by omega⟩
  rwa [show base + ((key - base).toNat : Int) = key by omega]

section
variable (marked : Marked column base range bits rank) (full : none ∉ column)
  (ranks : Ranks column base bits .ok)
include marked full ranks

theorem Marked.total : ahead bits bits.length = column.length := by
  refine le_antisymm (not_lt.mp fun more => ?_) (not_lt.mp fun fewer => ?_)
  · obtain ⟨place, set, count⟩ := exists_isNth more
    obtain ⟨rid, found⟩ := mem_keysOf.mp ((marked.bit_iff place).mp set)
    have here := ranks rid _ found
    rw [show (base + (place : Int) - base).toNat = place by omega] at here
    have lt := (List.getElem?_eq_some_iff.mp found).1
    have same := ok.inj here
    omega
  have lt : column.length - 1 < column.length := by omega
  obtain ⟨key, value⟩ : ∃ key, column[column.length - 1] = some key := by
    cases value : column[column.length - 1] with
    | none => exact absurd (value ▸ getElem_mem lt) full
    | some key => exact ⟨key, rfl⟩
  obtain ⟨here, inside⟩ := marked.isNth ranks (by rw [List.getElem?_eq_getElem lt, value])
  have few : column.length - 1 < ahead bits bits.length := here.lt_tally inside
  omega

/-- The keys of rows in a dense map, and nothing for a row past the last. -/
theorem findKeys_eq (right : finding.Right column bits)
    (rids : List Nat) : findKeys base bits rank finding rids = rids.mapM fun rid => column[rid]?.join := by
  have total := marked.total full ranks
  induction rids generalizing finding with
  | nil => rfl
  | cons rid rids ih =>
    have cons {key : Int} {finding' : Finding} (found : column[rid]? = some (some key))
      (right' : finding'.Right column bits) :
        (findKeys base bits rank finding' rids).map (key :: ·) = (rid :: rids).mapM fun rid => column[rid]?.join := by
      rw [mapM_cons, found, ih right']
      cases rids.mapM fun rid => column[rid]?.join <;> rfl
    rw [findKeys]
    cases remembered : finding.held.filter (·.1 = rid) with
    | some pair =>
      obtain ⟨held, same⟩ := Option.filter_eq_some_iff.mp remembered
      have found := right.held pair.1 pair.2 held
      rw [of_decide_eq_true same] at found
      exact cons found right
    | none =>
      dsimp only
      by_cases lt : rid < column.length
      · obtain ⟨key, value⟩ : ∃ key, column[rid] = some key := by
          cases value : column[rid] with
          | none => exact absurd (value ▸ getElem_mem lt) full
          | some key => exact ⟨key, rfl⟩
        have found : column[rid]? = some (some key) := by rw [getElem?_eq_getElem lt, value]
        -- the search starts at a word with no more ones before it than the row
        have start : (if rid ≥ finding.last.1 then finding.last.2 else 0) < bits.length ∧
            ahead bits (if rid ≥ finding.last.1 then finding.last.2 else 0) ≤ rid := by
          have inside := right.inside
          have before := right.before
          split
          · exact ⟨inside, by omega⟩
          · exact ⟨by omega, Nat.zero_le _⟩
        obtain ⟨word, _, inside, falls, holding⟩ := marked.counts.wordHolding start.1 start.2 (by omega)
        have place : word * 64 + nthSet (bits.getD word 0) (rid - ahead bits word) = (key - base).toNat := by
          rw [Nat.mul_comm]
          exact (nthSet_word falls).unique (marked.isNth ranks found).1
        have ge := (marked.inside key (mem_keysOf.mpr ⟨rid, found⟩)).1
        rw [holding]
        dsimp only
        rw [place, show base + ((key - base).toNat : Int) = key by omega]
        refine cons found ⟨inside, falls.1, ?_⟩
        rintro rid' key' same
        obtain ⟨rfl, rfl⟩ : rid = rid' ∧ key = key' := by simpa using same
        exact found
      · rw [marked.counts.wordHolding_none (.inr (.inr (by omega))), mapM_cons, getElem?_eq_none (by omega)]
        rfl

end

theorem Fits.keysAt (fits : Fits column body)
    (form : KeyMap.form { body, observed } = .identity ∨ KeyMap.form { body, observed } = .dense) (rids : List Nat) :
    KeyMap.keysAt { body, observed } rids = rids.mapM fun rid => column[rid]?.join := by
  cases fits with
  | @identity base count low high narrow rows here =>
    have value (rid : Nat) : column[rid]?.join = if rid < count then some (base + (rid : Int)) else none := by
      by_cases lt : rid < count
      · rw [if_pos lt, (here rid _).mpr ⟨lt, rfl⟩]
        rfl
      rw [if_neg lt]
      cases found : column[rid]? with
      | none => rfl
      | some key =>
        cases key with
        | none => rfl
        | some key => exact absurd ((here rid key).mp found).1 lt
    simp only [value, KeyMap.keysAt]
    induction rids with
    | nil => rfl
    | cons rid rids ih =>
      rw [mapM_cons, ← ih]
      by_cases lt : rid < count
      · by_cases rest : rids.any (· ≥ count) = true
        · simp [lt, rest]
        · simp [lt, rest]
      · simp [lt]
  | @dense base range bits rank marked full some_ ranks =>
    refine findKeys_eq marked full ranks ⟨?_, Nat.zero_le _, by simp⟩ rids
    have total := marked.total full ranks
    have rows := length_pos_iff.mpr some_
    by_contra none_
    have zero : bits.length = 0 := by simpa using none_
    rw [zero] at total
    simp only [ahead, Nat.mul_zero, tally_zero] at total
    omega
  | permuted | sorted => simp [KeyMap.form] at form

theorem Fits.resolves (fits : Fits column body) (once : (keysOf column).Nodup) : Resolves { body, observed } column :=
  ⟨fun _ _ => rowOf_eq_some once, fits.lookup once, fits.lookupBlock once, fun _ _ span => fits.rowsOfSpan span,
    fun _ _ span => fits.rowsOfSpan_none span, fits.keysAt⟩

end Rudb.Graph.KeyMap
