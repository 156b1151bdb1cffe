import Rudb.Catalog.Ints
import Rudb.Graph.RidsProofs

/-! The bitmap and the list behind it are a plain set of the numbers an `i64` holds, however far the bitmap
has stretched. -/
namespace Rudb.Catalog
open Rudb.Graph

/-- A number an `i64` holds. -/
def I64 (number : Int) : Prop := -2 ^ 63 ≤ number ∧ number < 2 ^ 63

theorem wrap_eq (small : I64 number) : wrap number = number := by
  unfold I64 at small
  unfold wrap
  omega

/-- A bitmap with words added before and behind holds what it held, further up. -/
theorem bit_stretched (before behind : Nat) (words : List Word) (place : Nat) :
    bit (List.replicate before 0 ++ words ++ List.replicate behind 0) place = true ↔
      64 * before ≤ place ∧ bit words (place - 64 * before) = true := by
  rw [List.append_assoc, bit_append, List.length_replicate]
  split
  · rw [bit_replicate]
    simp only [Bool.false_eq_true, false_iff, not_and]
    omega
  rw [bit_append]
  split
  · simp only [iff_and_self]
    omega
  · rw [bit_replicate, bit_past (not_lt.mp ‹_›)]
    simp

theorem ones_nodup (words : List Word) : (ones words).Nodup := (ones_sorted words).imp ne_of_lt

theorem length_ones {words : List Word} {places : List Nat} (nodup : places.Nodup)
    (same : ∀ place, bit words place = true ↔ place ∈ places) : (ones words).length = places.length :=
  ((List.perm_ext_iff_of_nodup (ones_nodup _) nodup).mpr fun place => by rw [mem_ones, same]).length_eq

variable {place : Nat}

theorem length_ones_succ {one other : List Word} (free : bit one place = false)
    (more : ∀ inner, bit other inner = (bit one inner || decide (inner = place))) :
    (ones other).length = (ones one).length + 1 := by
  refine @length_ones _ (place :: ones one) (List.nodup_cons.mpr ⟨?_, ones_nodup one⟩) fun inner => ?_
  · simp [mem_ones, free]
  · simp [more, mem_ones, or_comm]

theorem lt_of_bit (set : bit words place = true) : place < 64 * words.length := by
  by_contra beyond
  rw [bit_past (not_lt.mp beyond)] at set
  cases set

theorem clearBit_bit (inside : place < 64 * words.length) (other : Nat) :
    bit (clearBit words place) other = (bit words other && decide (other ≠ place)) := by
  rw [clearBit, bit_set inside]
  have small := Nat.mod_lt other (show 64 > 0 by decide)
  split
  · rename_i same
    have here : other % 64 = place % 64 ↔ other = place := by omega
    rw [BitVec.getLsbD_and, BitVec.getLsbD_not, getLsbD_one_shiftLeft _ small, decide_eq_true small, bit, same,
      decide_eq_decide.mpr here, decide_not, Bool.true_and]
  · rw [decide_eq_true (by omega), Bool.and_true]

namespace Ints

def mapped (ints : Ints) (key : Int) : Bool := (ints.slot key).any (bit ints.bits)

/-- The bitmap starts on a multiple of 64 and stays in the range, its ones are counted, and what is outside
it is in it nowhere. -/
structure Sound (ints : Ints) : Prop where
  aligned : ints.base % 64 = 0
  low : -2 ^ 63 ≤ ints.base
  high : ints.base + 64 * ints.bits.length ≤ 2 ^ 63
  counted : ints.set = (ones ints.bits).length
  nodup : ints.rest.Nodup
  apart : ∀ key ∈ ints.rest, ints.mapped key = false
  small : ∀ key ∈ ints.rest, I64 key

structure Is (ints : Ints) (keys : Int → Bool) : Prop where
  sound : ints.Sound
  holds (key : Int) : ints.contains key = keys key

variable {ints : Ints} {key : Int}

theorem mapped_iff : ints.mapped key = true ↔ ∃ place : Nat, bit ints.bits place = true ∧ key = ints.base + place := by
  rw [mapped, slot]
  constructor
  · split
    · intro set
      exact ⟨_, set, by omega⟩
    · intro none_
      cases none_
  rintro ⟨place, set, rfl⟩
  have inside := lt_of_bit set
  have eq : (ints.base + place - ints.base).toNat = place := by omega
  rw [eq, if_pos ⟨by omega, by omega⟩]
  exact set

theorem contains_eq (ints : Ints) (key : Int) : ints.contains key = (ints.mapped key || ints.rest.contains key) := rfl

theorem Sound.empty : Sound {} :=
  ⟨rfl, by decide, by decide, by decide, .nil, (fun _ member => by cases member), (fun _ member => by cases member)⟩

theorem Sound.mem_keys (sound : Sound ints) (key : Int) : key ∈ ints.keys ↔ ints.contains key = true := by
  rw [keys, List.mem_append, List.mem_map, contains_eq, Bool.or_eq_true, mapped_iff, List.contains_iff_mem]
  refine or_congr_left (exists_congr fun place => ?_)
  rw [mem_ones]
  refine and_congr_right fun set => ?_
  have inside := lt_of_bit set
  have := sound.low
  have := sound.high
  rw [wrap_eq ⟨by omega, by omega⟩]
  exact eq_comm

theorem Sound.i64 (sound : Sound ints) (held : ints.contains key = true) : I64 key := by
  rw [contains_eq, Bool.or_eq_true, mapped_iff, List.contains_iff_mem] at held
  rcases held with ⟨place, set, rfl⟩ | outside
  · have inside := lt_of_bit set
    have := sound.low
    have := sound.high
    exact ⟨by omega, by omega⟩
  · exact sound.small key outside

theorem Sound.len_eq_zero (sound : Sound ints) : ints.len = 0 ↔ ∀ key, ints.contains key = false := by
  have length : ints.keys.length = ints.len := by rw [keys, List.length_append, List.length_map, len, sound.counted]
  rw [← length, List.length_eq_zero_iff, List.eq_nil_iff_forall_not_mem]
  exact forall_congr' fun key => by rw [sound.mem_keys, Bool.not_eq_true]

/-- A bitmap that stretched over more words holds what it held. -/
theorem Sound.stretched {ints : Ints} (sound : Sound ints) {before behind : Nat} {base : Int} {bits : List Word}
    (starts : 0 < ints.bits.length → base = ints.base - 64 * before) (aligned : base % 64 = 0) (low : -2 ^ 63 ≤ base)
    (high : base + 64 * (before + ints.bits.length + behind : Nat) ≤ 2 ^ 63)
    (words : bits = List.replicate before 0 ++ ints.bits ++ List.replicate behind 0) :
    Is { ints with base := base, bits := bits } ints.contains := by
  have bits_iff (place : Nat) := words ▸ bit_stretched before behind ints.bits place
  have mapped_eq (key : Int) : mapped { ints with base := base, bits := bits } key = ints.mapped key := by
    rw [Bool.eq_iff_iff, mapped_iff, mapped_iff]
    constructor
    · rintro ⟨place, set, is⟩
      change key = base + place at is
      obtain ⟨le, set⟩ := (bits_iff place).mp set
      have := starts (Nat.pos_of_mul_pos_left (Nat.zero_lt_of_lt (lt_of_bit set)))
      exact ⟨_, set, by omega⟩
    rintro ⟨place, set, rfl⟩
    have := starts (Nat.pos_of_mul_pos_left (Nat.zero_lt_of_lt (lt_of_bit set)))
    refine ⟨64 * before + place, (bits_iff _).mpr ⟨Nat.le_add_right _ _, ?_⟩, ?_⟩
    · rwa [Nat.add_sub_cancel_left]
    · change _ = base + ((64 * before + place : Nat) : Int)
      omega
  refine ⟨⟨aligned, low, ?_, ?_, sound.nodup, fun key member => ?_, sound.small⟩, fun key => ?_⟩
  · rw [words, List.length_append, List.length_append, List.length_replicate, List.length_replicate]
    exact high
  · refine sound.counted.trans (((List.length_map (64 * before + ·)).symm.trans (length_ones ?_ fun place => ?_).symm))
    · exact (ones_nodup _).map fun _ _ eq => Nat.add_left_cancel eq
    rw [bits_iff, List.mem_map]
    exact ⟨fun ⟨le, set⟩ => ⟨_, mem_ones.mpr set, by omega⟩, by
      rintro ⟨inner, set, rfl⟩
      rw [Nat.add_sub_cancel_left]
      exact ⟨Nat.le_add_right _ _, mem_ones.mp set⟩⟩
  · rw [mapped_eq]
    exact sound.apart key member
  · rw [contains_eq, contains_eq, mapped_eq]

/-- Stretching leaves what is held, at the ends of the range too. -/
theorem Sound.reach (sound : Sound ints) {low high : Int} (small : I64 low) (large : I64 high)
    (le : low ≤ high) (adding : Nat) : (ints.reach low high adding).Is ints.contains := by
  have aligned := sound.aligned
  have lowest := sound.low
  have highest := sound.high
  unfold I64 at small large
  unfold Ints.reach
  generalize ((saturated (saturated (saturated (ints.len + adding) * spread) + slack) / 64 : Nat) : Int) = budget
  by_cases empty : ints.bits = []
  · simp only [empty, if_true]
    split
    · exact ⟨sound, fun _ => rfl⟩
    have floor_low : -2 ^ 63 ≤ Catalog.floor low ∧ Catalog.floor low ≤ low ∧ Catalog.floor low % 64 = 0 := by
      unfold Catalog.floor
      omega
    rw [wrap_eq ⟨floor_low.1, by omega⟩]
    have none_ : ints.bits.length = 0 := by rw [empty]; rfl
    refine @Sound.stretched _ sound 0 ((high - Catalog.floor low) / 64 + 1).toNat _ _
      (fun some_ => by omega) floor_low.2.2 floor_low.1 (by omega) ?_
    rw [empty]
    rfl
  · simp only [empty, if_false]
    split
    · exact ⟨sound, fun _ => rfl⟩
    generalize first_eq : min (Catalog.floor low) ints.base = first
    generalize last_eq : max high (ints.base + 64 * ints.bits.length - 1) = last
    have firsts : first % 64 = 0 ∧ -2 ^ 63 ≤ first ∧ first ≤ ints.base := by
      unfold Catalog.floor at first_eq
      omega
    split
    · generalize spare_eq : max (min (min (ints.bits.length : Int) (budget - ((last - first) / 64 + 1)))
          (-((-2 ^ 63 - first) / 64))) 0 = spare
      have room : 0 ≤ spare ∧ -2 ^ 63 ≤ first - 64 * spare := by omega
      have base_eq : wrap (first - 64 * spare) = first - 64 * spare := wrap_eq ⟨room.2, by omega⟩
      simp only [base_eq]
      refine @Sound.stretched _ sound ((ints.base - first) / 64 + spare).toNat _ _ _
        (fun _ => by omega) (by omega) room.2 ?_ rfl
      simp only [List.length_append, List.length_replicate]
      omega
    · refine @Sound.stretched _ sound 0 _ _ _ (fun _ => by omega) aligned lowest ?_ rfl
      omega

theorem slot_some (at' : ints.slot key = some place) : place < 64 * ints.bits.length ∧ key = ints.base + place := by
  rw [slot] at at'
  split at at'
  · cases at'
    omega
  · cases at'

theorem Sound.changed (sound : Sound ints) (at' : ints.slot key = some place) (away : key ∉ ints.rest) {bits : List Word}
    {set : Nat} {now : Bool} (length : bits.length = ints.bits.length) (counted : set = (ones bits).length)
    (bit_eq : ∀ other, bit bits other = if other = place then now else bit ints.bits other) :
    Is { ints with bits := bits, set := set } fun other => if other = key then now else ints.contains other := by
  have mapped_eq (other : Int) : mapped { ints with bits := bits, set := set } other =
      if other = key then now else ints.mapped other := by
    rw [mapped, mapped, show slot { ints with bits := bits, set := set } other =
      ints.slot other by simp only [slot, length]]
    cases there : ints.slot other with
    | none => grind
    | some inner =>
      have := slot_some there
      have := slot_some at'
      have here : inner = place ↔ other = key := by omega
      simp [bit_eq, here]
  refine ⟨⟨sound.aligned, sound.low, length ▸ sound.high, counted, sound.nodup, fun other member => ?_, sound.small⟩,
    fun other => ?_⟩
  · rw [mapped_eq, if_neg fun is : other = key => away (is ▸ member), sound.apart other member]
  rw [contains_eq, mapped_eq]
  split
  · rename_i is
    simp [is, away]
  · rfl

/-- A plain set with one more number, and whether that is new. -/
theorem Sound.insert (sound : Sound ints) (small : I64 key) :
    (ints.insert key).2 = (!ints.contains key) ∧
      (ints.insert key).1.Is fun other => ints.contains other || decide (other = key) := by
  obtain ⟨reached, eq, sound', same⟩ : ∃ reached, reached =
    (if (ints.slot key).isNone then ints.reach key key 1 else ints) ∧
      reached.Is ints.contains := by
    refine ⟨_, rfl, ?_⟩
    split
    · exact sound.reach small small (Int.le_refl _) 1
    · exact ⟨sound, fun _ => rfl⟩
  simp only [Ints.insert, ← eq, ← same]
  cases at' : reached.slot key with
  | none =>
    have outside : reached.contains key = reached.rest.contains key := by rw [contains_eq, mapped, at']; rfl
    simp only [← outside]
    split
    · exact ⟨by grind, sound', by grind⟩
    rename_i new
    refine ⟨by grind, { sound' with
      nodup := List.nodup_cons.mpr ⟨by simpa [outside] using new, sound'.nodup⟩
      apart := List.forall_mem_cons.mpr ⟨?_, sound'.apart⟩
      small := List.forall_mem_cons.mpr ⟨small, sound'.small⟩ }, fun other => ?_⟩
    · change (reached.slot key).any _ = false
      rw [at']
      rfl
    · rw [contains_eq, List.contains_cons, beq_eq_decide, Bool.or_comm (decide _), ← Bool.or_assoc]
      rfl
  | some place =>
    have inside : reached.contains key = (bit reached.bits place || reached.rest.contains key) := by
      rw [contains_eq, mapped, at']
      rfl
    simp only [← inside]
    split
    · exact ⟨by grind, sound', by grind⟩
    rename_i new
    have free := Bool.or_eq_false_iff.mp (inside.symm.trans (Bool.eq_false_iff.mpr new))
    have bit_eq := setBit_bit (slot_some at').1
    have counted := (length_ones_succ free.1 bit_eq).symm
    rw [← sound'.counted] at counted
    obtain ⟨set, contains⟩ := @Sound.changed _ _ _ sound' at' (by simpa using free.2)
      _ _ true (setBit_length _ _) counted
      (by grind)
    exact ⟨by grind, set, by grind⟩

/-- A plain set with one number less, and whether it was there. -/
theorem Sound.remove (sound : Sound ints) (key : Int) :
    (ints.remove key).2 = ints.contains key ∧
      (ints.remove key).1.Is fun other => ints.contains other && decide (other ≠ key) := by
  have erased (free : ints.mapped key = false) :
      ints.rest.contains key = ints.contains key ∧
        Is { ints with rest := ints.rest.erase key } fun other => ints.contains other && decide (other ≠ key) := by
    refine ⟨by rw [contains_eq, free]; rfl, { sound with
      nodup := sound.nodup.erase key
      apart := fun other member => sound.apart other (List.mem_of_mem_erase member)
      small := fun other member => sound.small other (List.mem_of_mem_erase member) }, fun other => ?_⟩
    change (ints.mapped other || (ints.rest.erase key).contains other) = _
    rw [contains_eq, Bool.eq_iff_iff]
    simp only [Bool.or_eq_true, Bool.and_eq_true, decide_eq_true_eq, List.contains_iff_mem, sound.nodup.mem_erase_iff]
    grind
  unfold Ints.remove
  cases at' : ints.slot key with
  | none => exact erased (by rw [mapped, at']; rfl)
  | some place =>
    simp only
    split
    · rename_i set
      have held : ints.mapped key = true := by rw [mapped, at']; exact set
      have bit_eq := clearBit_bit (slot_some at').1
      have counted := @length_ones_succ place (clearBit ints.bits place) ints.bits (by simp [bit_eq]) (by grind)
      rw [← sound.counted] at counted
      obtain ⟨left, contains⟩ := @Sound.changed _ _ _ sound at' (fun member => by grind [sound.apart key member])
        (clearBit ints.bits place) _ false List.length_set (Nat.sub_eq_of_eq_add counted) (by grind)
      exact ⟨by rw [contains_eq, held]; rfl, left, by grind⟩
    · rename_i free
      exact erased (by rw [mapped, at']; simpa using free)

/-- Adding and taking out are a plain set's. -/
theorem adds : Lib.Adds Sound I64 contains (fun key other => decide (other = key)) Ints.insert where
  still sound small := (sound.insert small).2.sound
  plain {ints key} sound small := by
    obtain ⟨answer, -, held⟩ := sound.insert small
    rw [Lib.plainAdd_eq fun other is => by rw [of_decide_eq_true is], answer, funext held]

theorem removes : Lib.Removes Sound contains Ints.remove where
  still key sound := (sound.remove key).2.sound
  there key sound := (sound.remove key).1
  out key other sound := (sound.remove key).2.holds other

/-- Many keys are added one by one, to a bitmap that reaches them. -/
theorem Sound.insertAll (sound : Sound ints) {keys : List Int} (small : ∀ key ∈ keys, I64 key) :
    ∃ reached, reached.Is ints.contains ∧ ints.insertAll keys = Lib.feed Ints.insert reached keys := by
  unfold Ints.insertAll
  split
  · rename_i low high least most
    obtain ⟨low_in, lowest⟩ := List.min?_eq_some_iff.mp least
    have high_in := (List.max?_eq_some_iff.mp most).1
    exact ⟨_, sound.reach (small low low_in) (small high high_in) (lowest high high_in) keys.length, rfl⟩
  rename_i none_
  cases keys with
  | nil => exact ⟨ints, ⟨sound, fun _ => rfl⟩, rfl⟩
  | cons key keys => exact (none_ _ _ List.min?_cons' List.max?_cons').elim

theorem Sound.firstHeld_eq (sound : Sound ints) (keys : List Int) :
    ints.firstHeld keys = keys.findIdx? ints.contains := by
  unfold firstHeld
  split
  · rename_i empty
    rw [eq_comm, List.findIdx?_eq_none_iff]
    exact fun key _ => sound.len_eq_zero.mp empty key
  · rfl

theorem ends_i64 {keys : List Int} (small : ∀ key ∈ keys, I64 key) {low high : Int} (least : I64 low) (most : I64 high)
    (le : low ≤ high ∨ keys ≠ []) :
    let ends := keys.foldl (fun ends key => (min ends.1 key, max ends.2 key)) (low, high)
    I64 ends.1 ∧ I64 ends.2 ∧ ends.1 ≤ ends.2 := by
  induction keys generalizing low high with
  | nil => exact ⟨least, most, le.resolve_right fun some_ => some_ rfl⟩
  | cons key keys ih =>
    have first := small key List.mem_cons_self
    unfold I64 at *
    exact ih (fun key member => small key (List.mem_cons_of_mem _ member)) (by omega) (by omega) (.inl (by omega))

theorem Sound.add (sound : Sound ints) (good : Sound other) :
    (ints.add other).Is fun key => ints.contains key || other.contains key := by
  have inserted (keys : List Int) (small : ∀ key ∈ keys, I64 key) (ints : Ints) (sound : Sound ints) :
      (keys.foldl (fun ints key => (ints.insert key).1) ints).Is fun key => ints.contains key ||
        decide (key ∈ keys) := by
    induction keys generalizing ints with
    | nil => exact ⟨sound, by simp⟩
    | cons first keys ih =>
      obtain ⟨-, added, held⟩ := sound.insert (small first List.mem_cons_self)
      obtain ⟨all, holds⟩ := ih (fun key member => small key (List.mem_cons_of_mem _ member)) _ added
      refine ⟨all, fun key => ?_⟩
      rw [List.foldl_cons, holds, held, Bool.or_assoc, ← Bool.decide_or]
      simp
  unfold Ints.add
  split
  · rename_i empty
    exact ⟨sound, fun key => by rw [good.len_eq_zero.mp empty, Bool.or_false]⟩
  rename_i some_
  have small : ∀ key ∈ other.keys, I64 key := fun key member => good.i64 ((good.mem_keys key).mp member)
  have any : other.keys ≠ [] := fun none_ => some_ (good.len_eq_zero.mpr fun key => by
    rw [← Bool.not_eq_true, ← good.mem_keys, none_]
    exact List.not_mem_nil)
  obtain ⟨least, most, le⟩ := @ends_i64 _ small (2 ^ 63 - 1) (-2 ^ 63) ⟨by decide, by decide⟩ ⟨by decide, by decide⟩
    (.inr any)
  obtain ⟨reached, same⟩ := sound.reach least most le other.len
  obtain ⟨all, holds⟩ := inserted _ small _ reached
  refine ⟨all, fun key => ?_⟩
  rw [holds, same, Bool.eq_iff_iff, Bool.or_eq_true, Bool.or_eq_true, decide_eq_true_iff, good.mem_keys]

theorem Sound.take (sound : Sound ints) (good : Sound other) :
    (ints.take other).Is fun key => ints.contains key || other.contains key := by
  unfold Ints.take
  split
  · rename_i empty
    exact ⟨good, fun key => by rw [sound.len_eq_zero.mp empty, Bool.false_or]⟩
  · exact sound.add good

end Ints

end Rudb.Catalog
