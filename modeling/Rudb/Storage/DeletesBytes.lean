import Rudb.Lib.LittleEndian
import Rudb.Storage.DeletesMap

/-! The base of a delete vector as the file stores it. What is written reads back, and whatever
reads back is a set of slots of the stripe that its searches answer for. Embeds deletes.rs. -/
namespace Rudb.Deletes
open LittleEndian List

namespace Base

/-- `len`. -/
def len : Base → Nat
  | empty => 0
  | array slots => slots.length
  | bitmap words => (words.map fun word => (List.range 64).countP word.testBit).sum
  | .runs spans => (spans.map fun run => run.2 - run.1 + 1).sum

/-- The kind, the count and the words that `encode` writes. -/
def parts : Base → UInt8 × Nat × List Nat
  | empty => (0, 0, [])
  | array slots => (1, slots.length, slots)
  | bitmap words => (2, words.length, words.flatMap fun word => [word % 2 ^ 32, word / 2 ^ 32 % 2 ^ 32])
  | .runs spans => (3, spans.length, spans.flatMap fun run => [run.1, run.2])

/-- `encode`. -/
def encode (base : Base) : List UInt8 :=
  [base.parts.1, 0, 0, 0] ++ toBytes 4 base.parts.2.1 ++ base.parts.2.2.flatMap (toBytes 4)

/-- `chunks_exact(2)`. -/
def pairs : List Nat → List (Nat × Nat)
  | first :: second :: rest => (first, second) :: pairs rest
  | _ => []

/-- The error of `decode`. -/
def bad (why : String) : Except String Base := .error ("a delete vector does not read back: " ++ why)

/-- The `match` of `decode`. -/
def ofParts (kind : UInt8) (count : Nat) (words : List Nat) : Except String Base :=
  if kind = 0 ∧ count = 0 ∧ words = [] then .ok empty
  else if kind = 1 ∧ words.length = count ∧ count ≤ arrayMax ∧ words.IsChain (· < ·) ∧
    ∀ slot ∈ words, slot < stripeRows then
    .ok (array words)
  else if kind = 2 ∧ count = bitmapWords ∧ words.length = 2 * count then
    .ok (bitmap ((pairs words).map fun pair => pair.1 ||| pair.2 <<< 32))
  else if kind = 3 ∧ words.length = 2 * count then
    if (∀ run ∈ pairs words, run.1 ≤ run.2 ∧ run.2 < stripeRows) ∧
        (pairs words).IsChain fun one next => one.2 + 1 < next.1 then .ok (.runs (pairs words))
    else bad "the runs overlap or touch"
  else bad "the kind or the count is wrong"

/-- `decode`. -/
def decode (bytes : List UInt8) : Except String Base :=
  if bytes.length < 8 ∨ (bytes.take 4).tail ≠ [0, 0, 0] then bad "the header is damaged"
  else if (bytes.length - 8) % 4 ≠ 0 then bad "the length is not whole words"
  else ofParts (bytes.getD 0 0) (read 4 4 bytes) (numbers 4 ((bytes.length - 8) / 4) (bytes.drop 8))

/-- What the file holds: a sound set of slots of the stripe, and no longer array than `of` makes. -/
structure Stored (base : Base) : Prop where
  sound : base.Sound
  inside : base.Inside
  short : ∀ slots, base = array slots → slots.length ≤ arrayMax

theorem of_stored {slots : List Nat} (sorted : slots.Pairwise (· < ·)) (inside : ∀ slot ∈ slots, slot < stripeRows) :
    (of slots).Stored := by
  obtain ⟨sound, holds⟩ := of_spec slots sorted inside
  refine ⟨sound, fun slot here => inside slot ((holds slot).mp here), fun held is => ?_⟩
  unfold of at is
  dsimp only at is
  generalize weighs : (if slots.length ≤ arrayMax then slots.length * 4 else 2 ^ 64 - 1) = weight at is
  split_ifs at is with nothing runs light
  cases is
  by_contra long
  rw [if_neg long] at weighs
  rw [← weighs] at light
  exact absurd light (by decide)

theorem length_pairs : (words : List Nat) → (pairs words).length = words.length / 2
  | [] => rfl
  | [_] => by simp [pairs]
  | first :: second :: rest => by
    simp only [pairs, length_cons, length_pairs rest]
    omega

theorem mem_pairs (member : pair ∈ pairs words) : pair.1 ∈ words ∧ pair.2 ∈ words := by
  fun_induction pairs words with
  | case1 first second rest ih =>
    rcases mem_cons.mp member with rfl | member
    · simp
    · exact (ih member).imp (mem_cons_of_mem _ <| mem_cons_of_mem _ ·) (mem_cons_of_mem _ <| mem_cons_of_mem _ ·)
  | case2 => cases member

theorem pairs_flatMap (each : α → Nat × Nat) (items : List α) :
    pairs (items.flatMap fun item => [(each item).1, (each item).2]) = items.map each := by
  induction items with
  | nil => rfl
  | cons item items ih => simp [pairs, ih]

/-- Runs in order with a gap between neighbours have a gap between any two. -/
theorem apart_of_chain {spans : List (Nat × Nat)} (whole : ∀ run ∈ spans, run.1 ≤ run.2)
    (chain : spans.IsChain fun one next => one.2 + 1 < next.1) : spans.Pairwise fun a b => a.2 + 1 < b.1 := by
  induction spans with
  | nil => exact .nil
  | cons run rest ih =>
    have apart := ih (fun run member => whole run (mem_cons_of_mem _ member)) chain.of_cons
    refine pairwise_cons.mpr ⟨fun later member => ?_, apart⟩
    cases rest with
    | nil => cases member
    | cons next rest =>
      have gap := (isChain_cons_cons.mp chain).1
      have ordered := whole next (by simp)
      rcases mem_cons.mp member with rfl | member
      · exact gap
      · have further := (pairwise_cons.mp apart).1 later member
        omega

variable {words : List Nat}

theorem ofParts_stored {count : Nat} (small : ∀ number ∈ words, number < 2 ^ 32)
    (accepted : ofParts kind count words = .ok base) :
    base.Stored := by
  unfold ofParts at accepted
  split_ifs at accepted with nothing array bitmap spans runs
  · cases accepted
    exact ⟨trivial, fun _ here => (by cases here), fun _ is => by cases is⟩
  · obtain ⟨-, rfl, short, chain, inside⟩ := array
    cases accepted
    refine ⟨chain.pairwise, fun slot here => inside slot ?_, fun slots is => ?_⟩
    · simpa [contains] using here
    · cases is
      exact short
  · cases accepted
    have size : ((pairs words).map fun pair => pair.1 ||| pair.2 <<< 32).length = bitmapWords := by
      rw [length_map, length_pairs]
      omega
    refine ⟨⟨size, fun word member => ?_⟩, fun slot here => ?_, fun _ is => by cases is⟩
    · obtain ⟨pair, held, rfl⟩ := mem_map.mp member
      have low := small _ (mem_pairs held).1
      have high := small _ (mem_pairs held).2
      refine Nat.or_lt_two_pow (low.trans_le (by decide)) ?_
      omega
    by_contra far
    have past : ((pairs words).map fun pair => pair.1 ||| pair.2 <<< 32)[slot / 64]? = none := by
      refine getElem?_eq_none ?_
      unfold bitmapWords stripeRows at *
      omega
    simp [contains, past] at here
  · cases accepted
    have whole (run : Nat × Nat) (member : run ∈ pairs words) : run.1 ≤ run.2 := (runs.1 run member).1
    have sound : (Base.runs (pairs words)).Sound := ⟨whole, apart_of_chain whole runs.2⟩
    refine ⟨sound, fun slot here => ?_, fun _ is => by cases is⟩
    obtain ⟨run, member, -, le⟩ := (runs_contains sound).mp here
    exact le.trans_lt (runs.1 run member).2
  all_goals cases accepted

/-- What `decode` accepts is a sound set of slots of the stripe. -/
theorem decode_stored (accepted : decode bytes = .ok base) : base.Stored := by
  unfold decode at accepted
  split_ifs at accepted
  · cases accepted
  · cases accepted
  · exact ofParts_stored (fun number member => numbers_lt member) accepted

theorem Stored.slot_lt {slots : List Nat} (stored : (array slots).Stored) (member : slot ∈ slots) : slot < stripeRows :=
  stored.inside slot (by simpa [contains] using member)

theorem Stored.run_lt (stored : (runs spans).Stored) (member : run ∈ spans) :
    run.1 ≤ run.2 ∧ run.2 < stripeRows := by
  have ordered := stored.sound.1 run member
  exact ⟨ordered, stored.inside run.2 ((runs_contains stored.sound).mpr ⟨run, member, ordered, le_rfl⟩)⟩

/-- The words of a container and their count fit the 32 bits they are written in. -/
theorem Stored.parts_small {base : Base} (stored : base.Stored) :
    base.parts.2.1 < 2 ^ 32 ∧ ∀ word ∈ base.parts.2.2, word < 2 ^ 32 := by
  cases base with
  | empty => simp [parts]
  | array slots =>
    refine ⟨(stored.short slots rfl).trans_lt (by decide), fun slot member => ?_⟩
    exact (stored.slot_lt member).trans (by decide)
  | bitmap words =>
    refine ⟨show words.length < _ from stored.sound.1 ▸ (by decide), fun word member => ?_⟩
    obtain ⟨held, -, member⟩ := mem_flatMap.mp member
    rcases mem_pair.mp member with rfl | rfl <;> omega
  | runs spans =>
    refine ⟨?_, fun word member => ?_⟩
    · have rising : (spans.map Prod.fst).Pairwise (· < ·) := by
        refine pairwise_map.mpr (stored.sound.2.imp_of_mem fun {one next} member _ gap => ?_)
        have := stored.run_lt member
        omega
      have inStripe : spans.map Prod.fst ⊆ range stripeRows := by
        intro slot member
        obtain ⟨run, held, rfl⟩ := mem_map.mp member
        have := stored.run_lt held
        exact mem_range.mpr (by omega)
      have few := (subperm_of_subset (rising.imp ne_of_lt) inStripe).length_le
      rw [length_map, length_range] at few
      exact few.trans_lt (by decide)
    · obtain ⟨run, member, here⟩ := mem_flatMap.mp member
      have := stored.run_lt member
      unfold stripeRows at this
      rcases mem_pair.mp here with rfl | rfl <;> omega

theorem halves_or (small : word < 2 ^ 64) : word % 2 ^ 32 ||| (word / 2 ^ 32 % 2 ^ 32) <<< 32 = word := by
  have joined := Nat.two_pow_add_eq_or_of_lt (Nat.mod_lt word (show 0 < 2 ^ 32 by decide)) (word / 2 ^ 32 % 2 ^ 32)
  rw [Nat.or_comm, Nat.shiftLeft_eq, mul_comm, ← joined]
  omega

theorem ofParts_parts (stored : base.Stored) :
    ofParts base.parts.1 base.parts.2.1 base.parts.2.2 = .ok base := by
  have double {α : Type} (each : α → Nat × Nat) (items : List α) :
      (items.flatMap fun item => [(each item).1, (each item).2]).length = 2 * items.length := by
    simp [length_flatMap, mul_comm]
  cases base with
  | empty => rfl
  | array slots =>
    rw [ofParts, if_neg (by simp [parts]),
      if_pos ⟨rfl, rfl, stored.short slots rfl, List.Pairwise.isChain stored.sound, fun slot => stored.slot_lt⟩]
    rfl
  | bitmap words =>
    have read := pairs_flatMap (fun word => (word % 2 ^ 32, word / 2 ^ 32 % 2 ^ 32)) words
    have same : (words.map fun word => word % 2 ^ 32 ||| (word / 2 ^ 32 % 2 ^ 32) <<< 32) = words :=
      (map_congr_left fun word member => halves_or (stored.sound.2 word member)).trans (map_id' _)
    rw [ofParts, if_neg (by simp [parts]), if_neg (by simp [parts]),
      if_pos ⟨rfl, stored.sound.1, double (fun word => (word % 2 ^ 32, word / 2 ^ 32 % 2 ^ 32)) words⟩,
      parts, read, map_map]
    exact congrArg (Except.ok ∘ bitmap) same
  | runs spans =>
    have read : pairs (spans.flatMap fun run => [run.1, run.2]) = spans := (pairs_flatMap id spans).trans (map_id _)
    rw [ofParts, if_neg (by simp [parts]), if_neg (by simp [parts]), if_neg (by simp [parts]),
      if_pos ⟨rfl, double id spans⟩,
      parts, read, if_pos ⟨fun run => stored.run_lt, stored.sound.2.isChain⟩]

theorem decode_encode (stored : base.Stored) : decode base.encode = .ok base := by
  obtain ⟨small, fit⟩ := stored.parts_small
  have length : base.encode.length = 8 + base.parts.2.2.length * 4 := by
    simp [encode]
    omega
  have count : read 4 4 base.encode = base.parts.2.1 := by
    have starts : [base.parts.1, 0, 0, 0].length = 4 := rfl
    exact read_append starts small _
  have words : numbers 4 ((base.encode.length - 8) / 4) (base.encode.drop 8) = base.parts.2.2 := by
    have behind : base.encode.drop 8 = base.parts.2.2.flatMap (toBytes 4) ++ [] := by
      rw [append_nil]
      exact drop_left' (by simp)
    rw [length, show (8 + base.parts.2.2.length * 4 - 8) / 4 = base.parts.2.2.length by omega, behind, numbers_flatMap]
    exact (map_congr_left fun word member => Nat.mod_eq_of_lt (fit word member)).trans (map_id' _)
  rw [decode, if_neg, if_neg (by omega), words, count]
  · exact ofParts_parts stored
  · rw [not_or]
    exact ⟨by omega, by simp [encode]⟩

theorem length_slots (base : Base) (sound : base.Sound) : base.slots.length = base.len := by
  cases base with
  | empty => rfl
  | array slots => rfl
  | bitmap words =>
    rw [slots, length_flatMap, len]
    simp only [length_map, ← countP_eq_length_filter]
    conv_rhs => rw [← zipIdx_map_fst 0 words, map_map]
    rfl
  | runs spans =>
    rw [slots, length_flatMap]
    refine congrArg sum (map_congr_left fun run member => ?_)
    have := sound.1 run member
    rw [slotsOfRun, length_range']
    omega

/-- A base of sorted slots reads back from the bytes it is written as and answers for just those slots, and
whatever bytes are accepted give slots of the stripe in order that `len` counts and `contains` knows. -/
theorem base_reads_back :
    (∀ slots : List Nat, slots.Pairwise (· < ·) → (∀ slot ∈ slots, slot < stripeRows) →
      decode (of slots).encode = .ok (of slots) ∧ (of slots).slots = slots ∧ (of slots).len = slots.length ∧
      (∀ slot, (of slots).contains slot = true ↔ slot ∈ slots) ∧ ∀ part mask,
        (((of slots).mark part mask).2 = true ↔ ∃ i < partRows, part * partRows + i ∈ slots) ∧
        ∀ i < partRows, ((of slots).mark part mask).1 i = (mask i || decide (part * partRows + i ∈ slots))) ∧
    ∀ bytes base, decode bytes = .ok base → base.slots.Pairwise (· < ·) ∧ (∀ slot ∈ base.slots, slot < stripeRows) ∧
      base.slots.length = base.len ∧ ∀ slot, base.contains slot = true ↔ slot ∈ base.slots := by
  refine ⟨fun slots sorted inside => ?_, fun bytes base accepted => ?_⟩
  · obtain ⟨sound, holds⟩ := of_spec slots sorted inside
    have same : (of slots).slots = slots :=
      (slots_sorted _ sound).eq_of_mem_iff sorted fun slot => (mem_slots _ sound).trans (holds slot)
    refine ⟨decode_encode (of_stored sorted inside), same, ?_, holds, fun part mask => ⟨?_, fun i lt => ?_⟩⟩
    · rw [← length_slots _ sound, same]
    · simp only [mark_any _ sound, holds]
    · rw [mark_spec _ sound _ _ lt, Bool.eq_iff_iff]
      simp [holds]
  · obtain ⟨sound, inside, -⟩ := decode_stored accepted
    refine ⟨slots_sorted _ sound, fun slot member => ?_, length_slots _ sound, fun slot => (mem_slots _ sound).symm⟩
    exact inside slot ((mem_slots _ sound).mp member)

theorem base_reads_back_three : decode (of [1, 2, 9]).encode = .ok (of [1, 2, 9]) ∧
    (of [1, 2, 9]).slots = [1, 2, 9] := by
  obtain ⟨back, slots, -⟩ := base_reads_back.1 [1, 2, 9] (by decide) (by decide)
  exact ⟨back, slots⟩

end Base

end Rudb.Deletes
