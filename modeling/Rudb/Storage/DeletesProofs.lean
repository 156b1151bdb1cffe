import Mathlib.Data.List.TakeWhile
import Rudb.Storage.Deletes

/-! The three containers of a delete vector's base hold the same set of slots, and the
mask of a part is `is_deleted` of its slots. -/
namespace Rudb.Deletes
open Rudb List

section
variable {test : α → Bool} {xs : List α} (falling : xs.Pairwise fun a b => test b = true → test a = true)
include falling

private theorem fails_of_mem_dropWhile (member : x ∈ xs.dropWhile test) : test x = false := by
  induction xs with
  | nil => cases member
  | cons head rest ih =>
    obtain ⟨down, fallingRest⟩ := pairwise_cons.mp falling
    rw [dropWhile_cons] at member
    split at member
    · exact ih fallingRest member
    rename_i fails
    rw [Bool.not_eq_true] at fails
    rcases mem_cons.mp member with rfl | later
    · exact fails
    · exact Bool.eq_false_iff.mpr fun passes => Bool.eq_false_iff.mp fails (down x later passes)

/-- A test that fails from some place of the list on: what it drops is what fails it, and what it takes passes. -/
private theorem mem_while_iff : (x ∈ xs.dropWhile test ↔ x ∈ xs ∧ test x = false) ∧
    (x ∈ xs.takeWhile test ↔ x ∈ xs ∧ test x = true) := by
  have fails : x ∈ xs.dropWhile test → test x = false := fails_of_mem_dropWhile falling
  have passes : x ∈ xs.takeWhile test → test x = true := mem_takeWhile_imp
  have either : x ∈ xs ↔ x ∈ xs.takeWhile test ∨ x ∈ xs.dropWhile test := by
    rw [← mem_append, takeWhile_append_dropWhile]
  cases told : test x <;> simp_all

end

/-- A window of a list sorted by two keys, the first of which bounds it below. -/
private theorem mem_window {xs : List α} {low high : α → Nat}
    (lows : xs.Pairwise fun a b => low a ≤ low b) (highs : xs.Pairwise fun a b => high a ≤ high b) :
    x ∈ (xs.dropWhile fun y => decide (low y < start)).takeWhile (fun y => decide (high y < stop)) ↔
      x ∈ xs ∧ start ≤ low x ∧ high x < stop := by
  rw [(mem_while_iff _).2, (mem_while_iff _).1]
  · simp [and_assoc]
  · exact lows.imp fun below => by simpa using fun less => below.trans_lt less
  · refine List.Pairwise.sublist (dropWhile_sublist _) (highs.imp fun below => ?_)
    simpa using fun less => below.trans_lt less

private theorem foldl_set (xs : List α) (bit : α → Nat) (mask : Mask) (i : Nat) :
    (xs.foldl (fun mask x => mask.set (bit x)) mask) i = (mask i || xs.any fun x => i == bit x) := by
  induction xs generalizing mask with
  | nil => simp
  | cons x xs ih =>
    rw [foldl_cons, ih, any_cons, Mask.set, ← Bool.or_assoc, Bool.or_comm (i == bit x)]

theorem mem_slotsOfRun : slot ∈ slotsOfRun run ↔ run.1 ≤ slot ∧ slot ≤ run.2 := by
  simp only [slotsOfRun, mem_range'_1]
  omega

namespace Base

/-- The run a binary search finds is the one that can hold the slot. -/
theorem runs_contains (sound : (Base.runs spans).Sound) :
    (Base.runs spans).contains slot = true ↔ ∃ run ∈ spans, run.1 ≤ slot ∧ slot ≤ run.2 := by
  induction spans with
  | nil => simp [contains]
  | cons run rest ih =>
    obtain ⟨whole, apart⟩ := sound
    obtain ⟨above, apartRest⟩ := pairwise_cons.mp apart
    have tail := ih ⟨fun r member => whole r (mem_cons_of_mem _ member), apartRest⟩
    simp only [contains] at tail
    simp only [contains, find?_cons, exists_mem_cons_iff]
    by_cases past : run.2 < slot
    · simp only [past, decide_true, Bool.not_true]
      rw [tail]
      constructor
      · exact .inr
      · rintro (⟨-, inside⟩ | found)
        · omega
        · exact found
    simp only [past, decide_false, Bool.not_false, decide_eq_true_eq]
    constructor
    · exact fun inside => .inl ⟨inside, by omega⟩
    rintro (inside | ⟨later, member, inside⟩)
    · exact inside.1
    · have := above later member
      omega

theorem bitmap_mem_slots :
    slot ∈ (Base.bitmap words).slots ↔ (words[slot / 64]?.getD 0).testBit (slot % 64) = true := by
  simp only [slots, mem_flatMap, mem_map, mem_filter, mem_range, Prod.exists,
    mem_zipIdx_iff_getElem?]
  constructor
  · rintro ⟨word, at_, found, bit, ⟨small, set⟩, rfl⟩
    have place : (at_ * 64 + bit) / 64 = at_ := by omega
    have within : (at_ * 64 + bit) % 64 = bit := by omega
    rw [place, within, found]
    exact set
  intro set
  cases found : words[slot / 64]? with
  | none => simp [found] at set
  | some word =>
    rw [found] at set
    exact ⟨word, slot / 64, found, slot % 64, ⟨by omega, set⟩, by omega⟩

theorem mem_slots (base : Base) (sound : base.Sound) : slot ∈ base.slots ↔ base.contains slot = true := by
  cases base with
  | empty => simp [slots, contains]
  | array slots => simp [Base.slots, contains]
  | bitmap words => exact bitmap_mem_slots
  | runs spans => simp [slots, mem_slotsOfRun, runs_contains sound]

private theorem runs_ordered (sound : (Base.runs spans).Sound) :
    (spans.Pairwise fun a b => a.2 ≤ b.2) ∧ spans.Pairwise fun a b => a.1 ≤ b.1 := by
  obtain ⟨whole, apart⟩ := sound
  constructor
  · refine apart.imp_of_mem fun _ later below => ?_
    have := whole _ later
    omega
  · refine apart.imp_of_mem fun first _ below => ?_
    have := whole _ first
    omega

private theorem word_of_part (part i : Nat) : (part * partRows + i) / 64 = part * partRows / 64 + i / 64 ∧
      (part * partRows + i) % 64 = i % 64 := by
  unfold partRows
  omega

theorem mark_spec (base : Base) (sound : base.Sound) (part : Nat) (mask : Mask) (inside : i < partRows) :
    (base.mark part mask).1 i = (mask i || base.contains (part * partRows + i)) := by
  cases base with
  | empty => simp [mark, contains]
  | array slots =>
    simp only [mark, contains]
    rw [foldl_set]
    congr 1
    rw [Bool.eq_iff_iff, any_eq_true, contains_iff_mem]
    have sorted : slots.Pairwise fun a b => id a ≤ id b := List.Pairwise.imp (fun h => h.le) sound
    constructor
    · rintro ⟨slot, member, same⟩
      obtain ⟨held, low, high⟩ := (mem_window sorted sorted).mp member
      have place : part * partRows + i = slot := by
        simp only [id, beq_iff_eq] at low same
        omega
      rwa [place]
    · intro held
      refine ⟨_, (mem_window sorted sorted).mpr ⟨held, ?_, ?_⟩, ?_⟩ <;> simp [inside]
  | bitmap words =>
    obtain ⟨word, bit⟩ := word_of_part part i
    have small : i / 64 < partRows / 64 := by
      unfold partRows at *
      omega
    simp [mark, contains, word, bit, getElem?_take_of_lt small]
  | runs spans =>
    obtain ⟨ends, starts⟩ := runs_ordered sound
    have nested : ∀ (runs : List (Nat × Nat)) (mask : Mask),
        (runs.foldl (fun mask run =>
          (slotsOfRun (max run.1 (part * partRows),
              min run.2 (part * partRows + partRows - 1))).foldl
            (fun mask slot => mask.set (slot - part * partRows)) mask) mask) i =
          (mask i || runs.any fun run => decide (run.1 ≤ part * partRows + i) &&
            decide (part * partRows + i ≤ run.2)) := by
      intro runs
      induction runs with
      | nil => simp
      | cons run runs ih =>
        intro mask
        rw [foldl_cons, ih, foldl_set, any_cons, ← Bool.or_assoc]
        congr 2
        rw [Bool.eq_iff_iff, any_eq_true]
        simp only [mem_slotsOfRun, beq_iff_eq, Bool.and_eq_true, decide_eq_true_eq]
        constructor
        · omega
        · intro held
          exact ⟨part * partRows + i, by omega, by omega⟩
    simp only [mark]
    rw [nested]
    congr 1
    rw [Bool.eq_iff_iff, any_eq_true, runs_contains sound]
    simp only [Bool.and_eq_true, decide_eq_true_eq]
    constructor
    · rintro ⟨run, member, held⟩
      exact ⟨run, ((mem_window ends starts).mp member).1, held⟩
    · rintro ⟨run, member, held⟩
      exact ⟨run, (mem_window ends starts).mpr ⟨member, by omega, by omega⟩, held⟩

/-- What `mark` returns: whether a slot of the part is deleted. -/
theorem mark_any (base : Base) (sound : base.Sound) (part : Nat) (mask : Mask) :
    (base.mark part mask).2 = true ↔ ∃ i < partRows, base.contains (part * partRows + i) = true := by
  cases base with
  | empty => simp [mark, contains]
  | array slots =>
    have sorted : slots.Pairwise fun a b => id a ≤ id b := List.Pairwise.imp (fun h => h.le) sound
    simp only [mark, contains, Bool.not_eq_true', isEmpty_eq_false_iff_exists_mem,
      contains_iff_mem]
    constructor
    · rintro ⟨slot, member⟩
      obtain ⟨held, low, high⟩ := (mem_window sorted sorted).mp member
      simp only [id] at low high
      exact ⟨slot - part * partRows, by omega, by rwa [Nat.add_sub_cancel' low]⟩
    · rintro ⟨i, inside, held⟩
      exact ⟨_, (mem_window sorted sorted).mpr ⟨held, by simp, by simpa using inside⟩⟩
  | bitmap words =>
    simp only [mark, contains, any_eq_true, decide_eq_true_eq]
    constructor
    · rintro ⟨word, member, nonzero⟩
      obtain ⟨at_, found⟩ := mem_iff_getElem?.mp member
      have small : at_ < partRows / 64 := by
        by_contra large
        rw [getElem?_take_eq_none (by omega)] at found
        simp at found
      rw [getElem?_take_of_lt small, getElem?_drop] at found
      obtain ⟨bit, set⟩ := Nat.exists_testBit_of_ne_zero nonzero
      have wide := sound.2 word (mem_of_getElem? found)
      have low : bit < 64 := by
        by_contra high
        rw [Nat.testBit_lt_two_pow (wide.trans_le (Nat.pow_le_pow_right (by omega)
          (not_lt.mp high)))] at set
        simp at set
      obtain ⟨place, within⟩ := word_of_part part (at_ * 64 + bit)
      refine ⟨at_ * 64 + bit, by unfold partRows at *; omega, ?_⟩
      have this : (at_ * 64 + bit) / 64 = at_ := by omega
      have that : (at_ * 64 + bit) % 64 = bit := by omega
      rw [place, within, this, that, found]
      exact set
    · rintro ⟨i, inside, held⟩
      obtain ⟨place, within⟩ := word_of_part part i
      rw [place] at held
      cases found : words[part * partRows / 64 + i / 64]? with
      | none => simp [found] at held
      | some word =>
        rw [found] at held
        refine ⟨word, mem_of_getElem? (i := i / 64) ?_, ?_⟩
        · rw [getElem?_take_of_lt (by unfold partRows at *; omega), getElem?_drop, found]
        · rintro rfl
          simp at held
  | runs spans =>
    obtain ⟨ends, starts⟩ := runs_ordered sound
    simp only [mark, Bool.not_eq_true', isEmpty_eq_false_iff_exists_mem,
      runs_contains sound]
    constructor
    · rintro ⟨run, member⟩
      obtain ⟨held, low, high⟩ := (mem_window ends starts).mp member
      have := sound.1 run held
      have : partRows = 8192 := rfl
      exact ⟨max run.1 (part * partRows) - part * partRows, by omega, run, held, by omega⟩
    · rintro ⟨i, inside, run, member, held⟩
      exact ⟨run, (mem_window ends starts).mpr ⟨member, by omega, by omega⟩⟩

/-- The runs of a sorted list are apart, start no earlier than the open run, and hold
it and the slots of the list. -/
theorem runsFrom_spec (rest : List Nat) (whole : first ≤ last)
    (sorted : rest.Pairwise (· < ·)) (after : ∀ slot ∈ rest, last < slot) :
    (Base.runs (runsFrom first last rest)).Sound ∧ (∀ run ∈ runsFrom first last rest, first ≤ run.1) ∧
      ∀ slot, (∃ run ∈ runsFrom first last rest, run.1 ≤ slot ∧ slot ≤ run.2) ↔
        (first ≤ slot ∧ slot ≤ last) ∨ slot ∈ rest := by
  induction rest generalizing first last with
  | nil => simp [runsFrom, Sound, whole]
  | cons slot rest ih =>
    obtain ⟨above, restSorted⟩ := pairwise_cons.mp sorted
    have past := after slot mem_cons_self
    rw [runsFrom]
    split
    · obtain ⟨sound, low, members⟩ := @ih first _ (by omega) restSorted above
      refine ⟨sound, low, fun x => ?_⟩
      rw [members, mem_cons]
      by_cases member : x ∈ rest
      · simp [member]
      · simp only [member, or_false]
        omega
    obtain ⟨⟨wholes, apart⟩, low, members⟩ := ih (le_refl slot) restSorted above
    refine ⟨⟨?_, pairwise_cons.mpr ⟨fun run member => ?_, apart⟩⟩, fun run member => ?_,
      fun x => ?_⟩
    · exact forall_mem_cons.mpr ⟨whole, wholes⟩
    · have := low run member
      omega
    · rcases mem_cons.mp member with rfl | member
      · exact le_rfl
      · have := low run member
        omega
    rw [exists_mem_cons_iff, members, mem_cons]
    by_cases member : x ∈ rest
    · simp [member]
    · simp only [member, or_false]
      omega

private theorem getElem?_setBit (words : List Nat) (slot at_ : Nat) : (setBit words slot)[at_]? =
      words[at_]?.map fun word => if slot / 64 = at_ then word ||| 1 <<< (slot % 64) else word := by
  rw [setBit]
  by_cases here : slot / 64 = at_ <;> simp [here]

private theorem foldl_setBit (slots words : List Nat) (small : ∀ slot ∈ slots, slot / 64 < words.length)
    (wide : ∀ word ∈ words, word < 2 ^ 64) : (slots.foldl setBit words).length = words.length ∧
      (∀ word ∈ slots.foldl setBit words, word < 2 ^ 64) ∧
      ∀ x, ((slots.foldl setBit words)[x / 64]?.getD 0).testBit (x % 64) =
        ((words[x / 64]?.getD 0).testBit (x % 64) || slots.contains x) := by
  induction slots generalizing words with
  | nil => simpa using wide
  | cons slot slots ih =>
    have length : (setBit words slot).length = words.length := by simp [setBit]
    have wideNext : ∀ word ∈ setBit words slot, word < 2 ^ 64 := by
      intro word member
      obtain ⟨at_, found⟩ := mem_iff_getElem?.mp member
      rw [getElem?_setBit, Option.map_eq_some_iff] at found
      obtain ⟨old, before, rfl⟩ := found
      have narrow := wide old (mem_of_getElem? before)
      split
      · refine Nat.or_lt_two_pow narrow ?_
        rw [Nat.one_shiftLeft]
        exact Nat.pow_lt_pow_right (by omega) (by omega)
      · exact narrow
    obtain ⟨size, fit, bits⟩ := ih (setBit words slot)
      (fun x member => by rw [length]; exact small x (mem_cons_of_mem _ member)) wideNext
    refine ⟨size.trans length, fit, fun x => ?_⟩
    rw [foldl_cons, bits, getElem?_setBit, contains_cons, ← Bool.or_assoc]
    congr 1
    by_cases here : slot / 64 = x / 64
    · have present := small slot mem_cons_self
      rw [here] at present
      simp only [here, if_true, getElem?_eq_getElem present, Option.map_some, Option.getD_some,
        Nat.testBit_or, Nat.one_shiftLeft, Nat.testBit_two_pow]
      congr 1
      rw [Bool.eq_iff_iff, decide_eq_true_eq, beq_iff_eq]
      omega
    have other : (x == slot) = false := by
      rw [beq_eq_false_iff_ne]
      rintro rfl
      exact here rfl
    cases found : words[x / 64]? <;> simp [here, other]

/-- Whatever container `of` picks, it is sound and holds the slots. -/
theorem of_spec (slots : List Nat) (sorted : slots.Pairwise (· < ·)) (inside : ∀ slot ∈ slots, slot < stripeRows) :
    (of slots).Sound ∧ ∀ slot, (of slots).contains slot = true ↔ slot ∈ slots := by
  cases slots with
  | nil => simp [of, Sound, contains]
  | cons first rest =>
    obtain ⟨above, restSorted⟩ := pairwise_cons.mp sorted
    obtain ⟨runsSound, -, members⟩ := runsFrom_spec rest (le_refl first) restSorted above
    have size : (replicate bitmapWords 0).length = bitmapWords := length_replicate
    obtain ⟨length, wide, bits⟩ := foldl_setBit (first :: rest) (replicate bitmapWords 0)
      (fun slot member => by
        have := inside slot member
        rw [size, bitmapWords]
        unfold stripeRows at *
        omega)
      (fun word member => by rw [eq_of_mem_replicate member]; decide)
    simp only [of, cons_ne_nil, if_false]
    generalize (if (first :: rest).length ≤ arrayMax then (first :: rest).length * 4
      else 2 ^ 64 - 1) = array
    split
    · refine ⟨runsSound, fun slot => ?_⟩
      rw [runsOf, runs_contains runsSound, members, mem_cons]
      exact or_congr ⟨fun here => by omega, fun here => by omega⟩ Iff.rfl
    split
    · exact ⟨sorted, fun slot => by simp [contains]⟩
    refine ⟨⟨length.trans size, wide⟩, fun slot => ?_⟩
    simp only [contains]
    rw [bits, getElem?_replicate]
    split <;> simp

end Base

namespace DeleteVector

section
variable (vector : DeleteVector)

theorem entryOf_eq_some : vector.entryOf slot = some entry ↔ entry ∈ vector.recent ∧ entry.1 = slot := by
  rw [entryOf]
  constructor
  · intro found
    exact ⟨mem_of_find?_eq_some found, by simpa using find?_some found⟩
  rintro ⟨member, rfl⟩
  obtain ⟨other, found⟩ : ∃ other, vector.recent.find? (·.1 == entry.1) = some other :=
    Option.isSome_iff_exists.mp (find?_isSome.mpr ⟨entry, member, BEq.rfl⟩)
  have keys : (vector.recent.map Prod.fst).Nodup := pairwise_map.mpr (vector.sorted.imp ne_of_lt)
  have same : other.1 = entry.1 := by simpa using find?_some found
  rw [found, inj_on_of_nodup_map keys (mem_of_find?_eq_some found) member same]

theorem isDeletedTo_iff : vector.isDeletedTo slot snapshot me = true ↔ vector.base.contains slot = true ∨
        ∃ ts, (slot, ts) ∈ vector.recent ∧ visibleTo ts snapshot me = true := by
  rw [isDeletedTo, Bool.or_eq_true]
  refine or_congr Iff.rfl ?_
  constructor
  · intro shown
    cases found : vector.entryOf slot with
    | none => simp [found] at shown
    | some entry =>
      obtain ⟨member, rfl⟩ := vector.entryOf_eq_some.mp found
      rw [found] at shown
      exact ⟨entry.2, member, shown⟩
  · rintro ⟨ts, member, shown⟩
    rw [vector.entryOf_eq_some.mpr ⟨member, rfl⟩]
    exact shown

private theorem mem_shown : entry ∈ ((vector.recent.dropWhile fun entry => decide (entry.1 < start)).takeWhile
        fun entry => decide (entry.1 < stop)).filter (fun entry => visibleTo entry.2 snapshot me) ↔
      entry ∈ vector.recent ∧ (start ≤ entry.1 ∧ entry.1 < stop) ∧ visibleTo entry.2 snapshot me = true := by
  have sorted : vector.recent.Pairwise fun a b => a.1 ≤ b.1 :=
    vector.sorted.imp fun below => below.le
  rw [mem_filter, mem_window sorted sorted, and_assoc]

theorem maskTo_spec (sound : vector.base.Sound) (part snapshot me : Nat) (mask : Mask) (inside : i < partRows) :
    (vector.maskTo part snapshot me mask).1 i = (mask i || vector.isDeletedTo (part * partRows + i) snapshot me) := by
  simp only [DeleteVector.maskTo]
  rw [foldl_set, Base.mark_spec _ sound _ _ inside, Bool.or_assoc]
  congr 1
  rw [Bool.eq_iff_iff, Bool.or_eq_true, isDeletedTo_iff, any_eq_true]
  refine or_congr Iff.rfl ?_
  constructor
  · rintro ⟨entry, member, same⟩
    obtain ⟨held, ⟨low, high⟩, shown⟩ := vector.mem_shown.mp member
    have place : part * partRows + i = entry.1 := by
      simp only [beq_iff_eq] at same
      omega
    exact ⟨entry.2, place ▸ held, shown⟩
  · rintro ⟨ts, held, shown⟩
    exact ⟨_, vector.mem_shown.mpr ⟨held, ⟨by simp, by simpa using inside⟩, shown⟩, by simp⟩

/-- What `mask` returns: whether a slot of the part is deleted. -/
theorem maskTo_any (sound : vector.base.Sound) (part snapshot me : Nat) (mask : Mask) :
    (vector.maskTo part snapshot me mask).2 = true ↔
      ∃ i < partRows, vector.isDeletedTo (part * partRows + i) snapshot me = true := by
  simp only [DeleteVector.maskTo, Bool.or_eq_true, Base.mark_any _ sound, isDeletedTo_iff,
    Bool.not_eq_true', isEmpty_eq_false_iff_exists_mem]
  constructor
  · rintro (⟨i, inside, held⟩ | ⟨entry, member⟩)
    · exact ⟨i, inside, .inl held⟩
    · obtain ⟨held, ⟨low, high⟩, shown⟩ := vector.mem_shown.mp member
      refine ⟨entry.1 - part * partRows, by omega, .inr ⟨entry.2, ?_, shown⟩⟩
      rwa [Nat.add_sub_cancel' low]
  · rintro ⟨i, inside, held | ⟨ts, held, shown⟩⟩
    · exact .inl ⟨i, inside, held⟩
    · exact .inr ⟨_, vector.mem_shown.mpr ⟨held, ⟨by simp, by simpa using inside⟩, shown⟩⟩

end

end DeleteVector

end Rudb.Deletes
