import Rudb.Graph.AdjacencyProofs

/-! The children of some lists dealt into buckets and set as bits, by one thread or by many. -/
namespace Rudb.Graph.Adjacency
open Rudb.Lib Rudb.Encoding List

/-- The buckets over a child table that hold these children, each as its place in its bucket. -/
structure Dealt (children : Nat) (buckets : List (List Nat)) (held : Nat → Prop) : Prop where
  length : buckets.length = ((children + 63) / 64 + bucketRows / 64 - 1) / (bucketRows / 64)
  rows : ∀ bucket row, row ∈ buckets.getD bucket [] ↔ row < bucketRows ∧ held (bucket * bucketRows + row)

variable {buckets : List (List Nat)} {children : Nat}

theorem Dealt.congr (dealt : Dealt children buckets held)
    (same : ∀ child, held child ↔ held' child) : Dealt children buckets held' :=
  ⟨dealt.length, fun bucket row => (dealt.rows bucket row).trans (and_congr_right fun _ => same _)⟩

theorem dealt_none (adjacency : Adjacency) : Dealt adjacency.children adjacency.noBuckets fun _ => False := by
  refine ⟨by rw [noBuckets, length_replicate, words], fun bucket row => ?_⟩
  rw [noBuckets, getD_eq_getElem?_getD, getElem?_replicate]
  split <;> simp

variable {held : Nat → Prop} {child : Nat}

theorem Dealt.dealChild (dealt : Dealt children buckets held) (lt : child < children) :
    ∃ buckets', dealChild buckets child = .ok buckets' ∧ Dealt children buckets' fun other => held other ∨
      other = child := by
  obtain ⟨length, rows⟩ := dealt
  have inside : child / bucketRows < buckets.length := by
    rw [length]
    unfold bucketRows
    omega
  refine ⟨_, if_pos inside, by rw [length_modify, length], fun bucket row => ?_⟩
  rw [getD_eq_getElem?_getD, getElem?_modify]
  have place : row < bucketRows ∧ bucket * bucketRows + row = child ↔
      bucket = child / bucketRows ∧ row = child % bucketRows := by
    unfold bucketRows
    omega
  by_cases here : child / bucketRows = bucket
  · subst here
    rw [getElem?_eq_getElem inside]
    have old := rows (child / bucketRows) row
    rw [getD_eq_getElem _ _ inside] at old
    simp [old, and_or_left, place]
  · simp only [if_neg here, Option.map_eq_map, Option.map_id_fun', id]
    rw [← getD_eq_getElem?_getD, rows, and_or_left, place]
    simp [Ne.symm here]

theorem Dealt.dealAll {cs : List Nat} (dealt : Dealt children buckets held) (inside : ∀ child ∈ cs, child < children) :
    ∃ buckets', cs.foldlM Adjacency.dealChild buckets = .ok buckets' ∧
      Dealt children buckets' fun child => held child ∨ child ∈ cs := by
  induction cs generalizing buckets held with
  | nil => exact ⟨buckets, rfl, dealt.congr fun child => by simp⟩
  | cons child cs ih =>
    simp only [mem_cons, forall_eq_or_imp] at inside
    obtain ⟨buckets₁, step, dealt₁⟩ := dealt.dealChild inside.1
    obtain ⟨buckets₂, run, dealt₂⟩ := ih dealt₁ inside.2
    refine ⟨buckets₂, ?_, dealt₂.congr fun other => by rw [mem_cons, or_assoc]⟩
    rw [foldlM_cons, step]
    exact run

variable {words : List Word}

theorem setRows_eq {rows : List Nat} (inside : ∀ row ∈ rows, row < 64 * words.length) :
    setRows words rows = .ok (rows.foldl setBit words) := by
  induction rows generalizing words with
  | nil => rfl
  | cons row rows ih =>
    simp only [mem_cons, forall_eq_or_imp] at inside
    rw [setRows, setRow, if_pos (by omega)]
    exact ih (by rw [setBit_length]; exact inside.2)

variable {dealt : List (List (List Nat))}

theorem setBucket_eq
    (inside : ∀ buckets ∈ dealt, ∀ row ∈ buckets.getD bucket [], row < 64 * words.length) :
    ∃ words', setBucket bucket words dealt = .ok words' ∧ words'.length = words.length ∧
      ∀ place, bit words' place = true ↔
        bit words place = true ∨ place < 64 * words.length ∧ ∃ buckets ∈ dealt, place ∈ buckets.getD bucket [] := by
  induction dealt generalizing words with
  | nil => exact ⟨words, rfl, rfl, fun place => by simp⟩
  | cons buckets dealt ih =>
    simp only [mem_cons, forall_eq_or_imp] at inside
    have length := foldl_setBit_length (buckets.getD bucket []) words
    obtain ⟨words', run, length', bits⟩ := @ih ((buckets.getD bucket []).foldl setBit words)
      (by rw [length]; exact inside.2)
    refine ⟨words', ?_, length'.trans length, fun place => ?_⟩
    · rw [setBucket, setRows_eq inside.1]
      exact run
    rw [bits, length, foldl_setBit_bit inside.1]
    simp only [mem_cons, exists_eq_or_imp, and_or_left, or_assoc]
    refine or_congr_right (or_congr_left ?_)
    exact ⟨fun member => ⟨inside.1 place member, member⟩, And.right⟩

/-- The rows of the dealings, from a bucket on, that are among the words. -/
def Fits (dealt : List (List (List Nat))) (first : Nat) (words : List Word) : Prop :=
  ∀ buckets ∈ dealt, ∀ index row, row ∈ buckets.getD (first + index) [] → index * bucketRows < 64 * words.length →
    row < bucketRows ∧ index * bucketRows + row < 64 * words.length

def Wanted (dealt : List (List (List Nat))) (first place : Nat) : Prop :=
  ∃ buckets ∈ dealt, place % bucketRows ∈ buckets.getD (first + place / bucketRows) []

/-- Words set in two pieces, the first of a whole number of buckets, each with the bits it had and those wanted of it. -/
theorem set_pieces {count : Nat} (whole : 64 * size = count * bucketRows)
    (length : done.length = (words.take size).length) (length' : rest.length = (words.drop size).length)
    (front : ∀ place, bit done place = true ↔
      bit (words.take size) place = true ∨ place < 64 * (words.take size).length ∧ Wanted dealt first place)
    (back : ∀ place, bit rest place = true ↔
      bit (words.drop size) place = true ∨ place < 64 * (words.drop size).length ∧ Wanted dealt (first + count) place) :
    (done ++ rest).length = words.length ∧ ∀ place, bit (done ++ rest) place = true ↔
      bit words place = true ∨ place < 64 * words.length ∧ Wanted dealt first place := by
  have sizes := length_take (i := size) (l := words)
  have sizes' := length_drop (i := size) (l := words)
  refine ⟨by rw [length_append]; omega, fun place => ?_⟩
  have pieces : bit words place = if place < 64 * (words.take size).length then bit (words.take size) place
      else bit (words.drop size) (place - 64 * (words.take size).length) := by
    rw [← bit_append, take_append_drop]
  rw [bit_append, length, pieces]
  split
  · rename_i lt
    rw [front]
    exact or_congr_right (and_congr_left fun _ => iff_of_true lt (by omega))
  rw [back]
  refine or_congr_right ?_
  by_cases inside : place < 64 * words.length
  · have start : 64 * (words.take size).length = count * bucketRows := by omega
    have step : count + (place - count * bucketRows) / bucketRows = place / bucketRows ∧
        (place - count * bucketRows) % bucketRows = place % bucketRows := by
      unfold bucketRows at *
      omega
    rw [start, Wanted, add_assoc, step.1, step.2]
    exact and_congr_left fun _ => iff_of_true (by omega) inside
  · exact iff_of_false (fun here => absurd here.1 (by omega)) fun here => inside here.1

theorem setBits_eq {dealt : List (List (List Nat))} {words : List Word} {first : Nat} (fits : Fits dealt first words) :
    ∃ words', setBits dealt words first = .ok words' ∧ words'.length = words.length ∧
      ∀ place, bit words' place = true ↔ bit words place = true ∨ place < 64 * words.length ∧
        Wanted dealt first place := by
  fun_induction setBits dealt words first with
  | case1 first => exact ⟨[], rfl, rfl, fun place => by simp⟩
  | case2 words first some_ ih =>
    have positive := length_pos_iff.mpr some_
    have size := length_take (i := bucketRows / 64) (l := words)
    have size' := length_drop (i := bucketRows / 64) (l := words)
    have here : ∀ buckets ∈ dealt, ∀ row ∈ buckets.getD first [], row < 64 * (words.take (bucketRows / 64)).length := by
      intro buckets member row among
      have := fits buckets member 0 row among (by omega)
      unfold bucketRows at *
      omega
    obtain ⟨done, run, length, front⟩ := setBucket_eq here
    obtain ⟨rest, run', length', back⟩ := ih (by
      intro buckets member index row among lt
      have := fits buckets member (index + 1) row (by rwa [show first + (index + 1) = first + 1 + index by omega])
      unfold bucketRows at *
      omega)
    refine ⟨done ++ rest, by rw [run, run']; rfl, set_pieces (by decide) length length' (fun place => ?_) back⟩
    rw [front]
    refine or_congr_right (and_congr_right fun lt => ?_)
    have small : place / bucketRows = 0 ∧ place % bucketRows = place := by
      unfold bucketRows at *
      omega
    rw [Wanted, small.1, small.2, add_zero]

/-- The stretches, each a whole number of buckets, set what `set_bits` over all the words would. -/
theorem setStretches_eq {dealt : List (List (List Nat))} {many : Nat} {words : List Word} {index : Nat}
    (positive : words ≠ [] → 0 < many) (fits : Fits dealt (index * many) words) :
    ∃ words', setStretches dealt (many * (bucketRows / 64)) words index = .ok words' ∧ words'.length = words.length ∧
      ∀ place, bit words' place = true ↔
        bit words place = true ∨ place < 64 * words.length ∧ Wanted dealt (index * many) place := by
  fun_induction setStretches dealt (many * (bucketRows / 64)) words index with
  | case1 index => exact ⟨[], rfl, rfl, fun place => by simp⟩
  | case2 words index some_ ih =>
    have positive := positive some_
    have stretch : max (many * (bucketRows / 64)) 1 = many * (bucketRows / 64) := by
      unfold bucketRows
      omega
    have first : index * (many * (bucketRows / 64)) / (bucketRows / 64) = index * many := by
      rw [← mul_assoc]
      exact Nat.mul_div_cancel _ (by decide)
    have next : (index + 1) * many = index * many + many := Nat.succ_mul _ _
    have bits : many * (bucketRows / 64) * 64 = many * bucketRows := by
      unfold bucketRows
      omega
    have size := length_take (i := many * (bucketRows / 64)) (l := words)
    have size' := length_drop (i := many * (bucketRows / 64)) (l := words)
    rw [stretch] at ih ⊢
    rw [first]
    obtain ⟨done, run, length, front⟩ := @setBits_eq dealt (words.take (many * (bucketRows / 64))) (index * many) (by
      intro buckets member bucket row among lt
      have := fits buckets member bucket row among (by omega)
      unfold bucketRows at *
      omega)
    obtain ⟨rest, run', length', back⟩ := ih (fun _ => positive) (by
      intro buckets member bucket row among lt
      have := fits buckets member (many + bucket) row (by rwa [← add_assoc, ← next])
      rw [add_mul] at this
      omega)
    rw [next] at back
    exact ⟨done ++ rest, by rw [run, run']; rfl, set_pieces (by omega) length length' front back⟩

section settle
variable {children : Nat} {held : Nat → Prop}

/-- Dealings that hold between them the children that are held. -/
structure Dealings (children : Nat) (dealt : List (List (List Nat))) (held : Nat → Prop) : Prop where
  rows : ∀ bucket row, (∃ buckets ∈ dealt, row ∈ buckets.getD bucket []) ↔ row < bucketRows ∧
    held (bucket * bucketRows + row)
  inside : ∀ child, held child → child < children

theorem Dealings.fits (dealings : Dealings children dealt held) :
    Fits dealt 0 (replicate ((children + 63) / 64) 0) := by
  intro buckets member index row among _
  rw [zero_add] at among
  obtain ⟨small, holds⟩ := (dealings.rows index row).mp ⟨buckets, member, among⟩
  have := dealings.inside _ holds
  rw [length_replicate]
  omega

/-- The words with the bits of the dealings are the set of the children they hold. -/
theorem Dealings.fromWords (dealings : Dealings children dealt held)
    (length : words.length = (replicate ((children + 63) / 64) (0 : Word)).length)
    (bits : ∀ place, bit words place = true ↔ bit (replicate ((children + 63) / 64) 0) place = true ∨
      place < 64 * (replicate ((children + 63) / 64) (0 : Word)).length ∧ Wanted dealt 0 place) :
    ∃ rids, Rids.fromWords children words = .ok rids ∧ rids.Is children held := by
  rw [length_replicate] at length
  have marks (place : Nat) : bit words place = true ↔ held place := by
    have whole : place / bucketRows * bucketRows + place % bucketRows = place := Nat.div_add_mod' _ _
    have small : place % bucketRows < bucketRows := Nat.mod_lt _ (by decide)
    rw [bits, bit_replicate, Wanted, zero_add, dealings.rows, whole, length_replicate]
    constructor
    · rintro (set | here)
      · cases set
      · exact here.2.2
    · intro holds
      have := dealings.inside place holds
      exact .inr ⟨by omega, small, holds⟩
  obtain ⟨rids, made, is⟩ := Rids.fromWords_is length fun place past => by
    rw [Bool.eq_false_iff]
    intro set
    have := dealings.inside place ((marks place).mp set)
    omega
  exact ⟨rids, made, is.congr marks⟩

end settle

variable {parentsOf : List Nat} {parents : Nat}

/-- The lists that wait and the buckets hold between them the rows of the lists so far. -/
structure PutOff (parentsOf : List Nat) (parents : Nat) (state : Waiting) (held : Nat → Prop) : Prop where
  length : state.waiting.length = askAhead
  next : state.next < askAhead
  within : ∀ span ∈ state.waiting, Within parentsOf parents span
  dealt : ∃ done, Dealt parentsOf.length state.buckets done ∧
    ∀ child, held child ↔ done child ∨ ∃ span ∈ state.waiting, child ∈ spanRows parentsOf parents span

variable {span : Span}

namespace Holds
variable {adjacency : Adjacency} (holds : adjacency.Holds parentsOf parents)
include holds

theorem dealRows {count : Nat} (inside : place + count ≤ (grouped parentsOf parents).length)
    (buckets : List (List Nat)) :
    adjacency.dealRows count place buckets = (((grouped parentsOf parents).drop place).take count).foldlM
      dealChild buckets := by
  induction count generalizing place buckets with
  | zero => rfl
  | succ count ih =>
    have lt : place < (grouped parentsOf parents).length := by omega
    rw [Adjacency.dealRows, holds.rows place _ (getElem?_eq_getElem lt), drop_eq_getElem_cons lt, take_succ_cons,
      foldlM_cons]
    refine congrArg (Adjacency.dealChild buckets (grouped parentsOf parents)[place]).bind (funext fun buckets => ?_)
    exact ih (by omega) buckets

/-- A list dealt adds its rows. -/
theorem deal (within : Within parentsOf parents span) (dealt : Dealt parentsOf.length buckets held) :
    ∃ buckets', adjacency.deal buckets span = .ok buckets' ∧
      Dealt parentsOf.length buckets' fun child => held child ∨ child ∈ spanRows parentsOf parents span := by
  rw [Adjacency.deal, holds.dealRows within]
  exact dealt.dealAll fun child member => grouped_lt (mem_of_mem_drop (mem_of_mem_take member))

theorem readLists {spans : List Span} (within : ∀ span ∈ spans, Within parentsOf parents span)
    (dealt : Dealt parentsOf.length buckets held) :
    ∃ buckets', adjacency.readLists buckets spans = .ok buckets' ∧
      Dealt parentsOf.length buckets' fun child => held child ∨
        ∃ span ∈ spans, child ∈ spanRows parentsOf parents span := by
  induction spans generalizing buckets held with
  | nil => exact ⟨buckets, rfl, dealt.congr fun child => by simp⟩
  | cons span spans ih =>
    simp only [mem_cons, forall_eq_or_imp] at within
    obtain ⟨buckets₁, step, dealt₁⟩ := holds.deal within.1 dealt
    obtain ⟨buckets₂, run, dealt₂⟩ := ih within.2 dealt₁
    refine ⟨buckets₂, ?_, dealt₂.congr fun child => by simp [or_assoc]⟩
    rw [Adjacency.readLists, step]
    exact run

/-- Buckets settle into the set of the children they hold. -/
theorem settle (dealt : Dealt parentsOf.length buckets held) (inside : ∀ child, held child → child < parentsOf.length) :
    ∃ rids, adjacency.settle buckets = .ok rids ∧ rids.Is parentsOf.length held := by
  have dealings : Dealings parentsOf.length [buckets] held := ⟨fun bucket row => by
    simp only [mem_singleton, exists_eq_left, dealt.rows], inside⟩
  obtain ⟨done, run, length, bits⟩ := setBits_eq dealings.fits
  rw [Adjacency.settle, words, holds.children, run]
  exact dealings.fromWords length bits

theorem putOff (put : PutOff parentsOf parents state held) (within : Within parentsOf parents span) :
    ∃ state', adjacency.putOff state span = .ok state' ∧
      PutOff parentsOf parents state' fun child => held child ∨ child ∈ spanRows parentsOf parents span := by
  obtain ⟨length, next, inside, done, dealt, covers⟩ := put
  have lt : state.next < state.waiting.length := by rw [length]; exact next
  have due : state.waiting.getD state.next (0, 0) = state.waiting[state.next] := by
    rw [getD_eq_getElem _ _ lt]
  obtain ⟨buckets, run, dealt'⟩ := holds.deal (inside _ (getElem_mem lt)) dealt
  refine ⟨{ waiting := state.waiting.set state.next span, next := (state.next + 1) % askAhead, buckets }, ?_, ?_⟩
  · rw [Adjacency.putOff, due, run]
    rfl
  refine ⟨by rw [length_set, length], Nat.mod_lt _ (by decide), fun other member => ?_, _, dealt', fun child => ?_⟩
  · rcases mem_or_eq_of_mem_set member with member | rfl
    · exact inside other member
    · exact within
  rw [covers]
  constructor
  · rintro ((was | ⟨other, member, among⟩) | here)
    · exact .inl (.inl was)
    · obtain ⟨place, small, rfl⟩ := getElem_of_mem member
      by_cases same : place = state.next
      · subst same
        exact .inl (.inr among)
      · refine .inr ⟨_, ?_, among⟩
        rw [mem_iff_getElem?]
        exact ⟨place, by rw [getElem?_set_ne (Ne.symm same), getElem?_eq_getElem small]⟩
    · exact .inr ⟨span, mem_set lt span, here⟩
  · rintro ((was | among) | ⟨other, member, among⟩)
    · exact .inl (.inl was)
    · exact .inl (.inr ⟨_, getElem_mem lt, among⟩)
    · rcases mem_or_eq_of_mem_set member with member | rfl
      · exact .inl (.inr ⟨other, member, among⟩)
      · exact .inr among

theorem foldlM_putOff {spans : List Span} (within : ∀ span ∈ spans, Within parentsOf parents span)
    (put : PutOff parentsOf parents state held) :
    ∃ state', spans.foldlM adjacency.putOff state = .ok state' ∧
      PutOff parentsOf parents state' fun child => held child ∨
        ∃ span ∈ spans, child ∈ spanRows parentsOf parents span := by
  induction spans generalizing state held with
  | nil =>
    obtain ⟨length, next, inside, done, dealt, covers⟩ := put
    exact ⟨state, rfl, length, next, inside, done, dealt, fun child => by simpa using covers child⟩
  | cons span spans ih =>
    simp only [mem_cons, forall_eq_or_imp] at within
    obtain ⟨state₁, step, put₁⟩ := holds.putOff put within.1
    obtain ⟨state₂, run, length, next, inside, done, dealt, covers⟩ := ih within.2 put₁
    refine ⟨state₂, ?_, length, next, inside, done, dealt, fun child => ?_⟩
    · rw [foldlM_cons, step]
      exact run
    · rw [← covers]
      simp [or_assoc]

theorem dealGroups (within : ∀ group ∈ groups, ∀ span ∈ group, Within parentsOf parents span) :
    ∃ dealt, adjacency.dealGroups groups = .ok dealt ∧ ∀ bucket row, (∃ buckets ∈ dealt, row ∈ buckets.getD bucket []) ↔
      row < bucketRows ∧ ∃ span ∈ groups.flatten, bucket * bucketRows + row ∈ spanRows parentsOf parents span := by
  induction groups with
  | nil => exact ⟨[], rfl, fun bucket row => by simp⟩
  | cons group groups ih =>
    simp only [mem_cons, forall_eq_or_imp] at within
    have none_ := dealt_none adjacency
    rw [holds.children] at none_
    obtain ⟨buckets, step, dealt⟩ := holds.readLists within.1 none_
    obtain ⟨rest, run, rows⟩ := ih within.2
    refine ⟨buckets :: rest, ?_, fun bucket row => ?_⟩
    · rw [Adjacency.dealGroups, step]
      rw [run]
      rfl
    · simp only [mem_cons, or_and_right, exists_or, exists_eq_left, rows, dealt.rows, false_or, flatten_cons,
        mem_append, and_or_left]

end Holds

theorem flatten_cut (per shares made : Nat) (group : List Span) (held : Nat) (spans : List Span) :
    (cut per shares made group held spans).flatten = group ++ spans := by
  induction spans generalizing made group held with
  | nil => simp [cut]
  | cons span spans ih =>
    rw [cut]
    split
    · rw [flatten_cons, ih, append_assoc, nil_append, singleton_append]
    · rw [ih, append_assoc, singleton_append]

/-- The rows of the members' lists are the children that reach the set. -/
theorem mem_spans (below : Below parentsOf parents) (small : parents < 2 ^ 64)
    (valid : rids.Valid) (rows : rids.rows = parents) :
    (∃ span ∈ rids.members.map (spanOf parentsOf parents), child ∈ spanRows parentsOf parents span) ↔
      Rids.Reaches parentsOf rids child := by
  simp only [mem_map, exists_exists_and_eq_and]
  refine exists_congr fun parent => ?_
  rw [valid.mem_members, and_comm]
  refine and_congr_left fun holds => ?_
  have lt : parent < parents := rows ▸ Rids.lt_rows holds
  have there : parent ≠ noParent := by
    unfold noParent
    omega
  rw [spanRows_spanOf below lt there, mem_childrenOfParent]

namespace Holds
variable {adjacency : Adjacency} (holds : adjacency.Holds parentsOf parents) (small : parents < 2 ^ 64) {rids : Rids}
  (valid : rids.Valid) (rows : rids.rows = parents)
include holds small valid rows

/-- `push` gives the children that point into the set. -/
theorem push : ∃ pushed, adjacency.push rids = .ok pushed ∧
    pushed.Is parentsOf.length (Rids.Reaches parentsOf rids) := by
  have none_ := dealt_none adjacency
  rw [holds.children] at none_
  have empty : ∀ span ∈ replicate askAhead ((0, 0) : Span), span = (0, 0) :=
    fun span member => eq_of_mem_replicate member
  have start : PutOff parentsOf parents {
      waiting := replicate askAhead (0, 0), next := 0, buckets := adjacency.noBuckets } fun _ => False := by
    refine ⟨length_replicate, show 0 < askAhead by decide, fun span member => ?_, _, none_, fun child => ?_⟩
    · rw [empty span member]
      exact Nat.zero_le _
    refine ⟨False.elim, ?_⟩
    rintro (absurd_ | ⟨span, member, among⟩)
    · exact absurd_
    · rw [empty span member] at among
      simp [spanRows, spanLen] at among
  have within : ∀ span ∈ rids.members.map (spanOf parentsOf parents), Within parentsOf parents span := by
    intro span member
    obtain ⟨parent, -, rfl⟩ := mem_map.mp member
    exact within_spanOf parent
  obtain ⟨state, run, length, next, inside, done, dealt, covers⟩ := holds.foldlM_putOff within start
  obtain ⟨buckets, read, dealt'⟩ := holds.readLists inside dealt
  have reaches (child : Nat) : (done child ∨ ∃ span ∈ state.waiting, child ∈ spanRows parentsOf parents span) ↔
      Rids.Reaches parentsOf rids child := by
    rw [← covers, false_or]
    exact mem_spans holds.below small valid rows
  rw [Adjacency.push, holds.lists valid rows, run]
  simp only [Except.bind]
  rw [read]
  exact holds.settle (dealt'.congr reaches) fun child => Rids.Reaches.lt

omit small in
/-- `spans` finds the lists that hold a child, or gives up past the most rows. -/
theorem spans (most : Nat) :
    adjacency.spans rids most = .ok (if spansLen (rids.members.map (spanOf parentsOf parents)) > most then none
      else some { lists := (rids.members.map (spanOf parentsOf parents)).filter (spanLen · ≠ 0)
                  rows := spansLen (rids.members.map (spanOf parentsOf parents)), children := parentsOf.length }) := by
  rw [Adjacency.spans, holds.lists valid rows, foldlM_takeSpan most _ _ (Nat.zero_le _), holds.children]
  rw [Nat.zero_add, nil_append]
  by_cases beyond : spansLen (rids.members.map (spanOf parentsOf parents)) > most
  · rw [if_pos beyond, if_pos beyond]
  · rw [if_neg beyond, if_neg beyond]

/-- `push_spans` of the lists of a set gives the children that point into it, on any number of threads. -/
theorem pushSpans (threads : Nat) : ∃ pushed, adjacency.pushSpans
        { lists := (rids.members.map (spanOf parentsOf parents)).filter (spanLen · ≠ 0)
          rows := spansLen (rids.members.map (spanOf parentsOf parents))
          children := parentsOf.length } threads = .ok pushed ∧
      pushed.Is parentsOf.length (Rids.Reaches parentsOf rids) := by
  have within : ∀ span ∈ (rids.members.map (spanOf parentsOf parents)).filter (spanLen · ≠ 0),
      Within parentsOf parents span := by
    intro span member
    obtain ⟨parent, -, rfl⟩ := mem_map.mp (mem_of_mem_filter member)
    exact within_spanOf parent
  have reaches (child : Nat) : (∃ span ∈ (rids.members.map (spanOf parentsOf parents)).filter (spanLen · ≠ 0),
      child ∈ spanRows parentsOf parents span) ↔ Rids.Reaches parentsOf rids child := by
    rw [← mem_spans holds.below small valid rows]
    refine exists_congr fun span => ⟨fun here => ⟨mem_of_mem_filter here.1, here.2⟩, fun here => ⟨?_, here.2⟩⟩
    refine mem_filter.mpr ⟨here.1, decide_eq_true fun zero => ?_⟩
    rw [spanRows, zero] at here
    simp at here
  generalize (rids.members.map (spanOf parentsOf parents)).filter (spanLen · ≠ 0) = lists at within reaches
  generalize spansLen (rids.members.map (spanOf parentsOf parents)) = total
  rw [Adjacency.pushSpans, holds.children, if_neg fun ne => ne rfl]
  dsimp only
  have positive : 0 < min (max (total / sharedRows) 1) (max threads 1) := by omega
  generalize min (max (total / sharedRows) 1) (max threads 1) = shares at positive ⊢
  split
  · have none_ := dealt_none adjacency
    rw [holds.children] at none_
    obtain ⟨buckets, read, dealt⟩ := holds.readLists within none_
    rw [read]
    exact holds.settle (dealt.congr fun child => by rw [false_or, reaches]) fun child => Rids.Reaches.lt
  have flat := flatten_cut ((total + shares - 1) / shares) shares 0 [] 0 lists
  rw [nil_append] at flat
  have grouped (group : List Span) (member : group ∈ cut ((total + shares - 1) / shares) shares 0 [] 0 lists)
    (span : Span)
      (among : span ∈ group) : Within parentsOf parents span :=
    within span (by rw [← flat]; exact mem_flatten.mpr ⟨group, member, among⟩)
  obtain ⟨dealt, run, buckets⟩ := holds.dealGroups grouped
  have dealings : Dealings parentsOf.length dealt (Rids.Reaches parentsOf rids) :=
    ⟨fun bucket row => by rw [buckets, flat, reaches], fun child => Rids.Reaches.lt⟩
  rw [run]
  simp only [Except.bind, words, holds.children]
  obtain ⟨done, set, length, bits⟩ := @setStretches_eq dealt
    ((((parentsOf.length + 63) / 64 + bucketRows / 64 - 1) / (bucketRows / 64) + shares - 1) / shares)
    (replicate ((parentsOf.length + 63) / 64) 0) 0 (fun some_ => by
      have := length_pos_iff.mpr some_
      rw [length_replicate] at this
      refine Nat.div_pos ?_ positive
      unfold bucketRows
      omega) (by rw [zero_mul]; exact dealings.fits)
  rw [zero_mul] at bits
  rw [set]
  exact dealings.fromWords length bits

end Holds
end Rudb.Graph.Adjacency

namespace Rudb.Graph
open Rudb.Lib

theorem Rids.Is.len_eq {rids : Rids} {rows : Nat} (is : rids.Is rows holds) {listed : List Nat}
    (once : listed.Nodup) (same : ∀ rid, rid ∈ listed ↔ holds rid) : rids.len = listed.length := by
  rw [is.valid.len_eq]
  refine ((List.perm_ext_iff_of_nodup (is.valid.sorted.imp ne_of_lt) once).mpr fun rid => ?_).length_eq
  rw [is.valid.mem_members, is.contains, same]

/-- Every push of every set through a link and an adjacency of these children is exact. -/
structure PushesExactly (link : Link) (adjacency : Adjacency) (parentsOf : List Nat) (parents : Nat) : Prop where
  forward : ∀ rids : Rids, rids.Valid → rids.rows = parents → ∃ pushed, rids.forward link = .ok pushed ∧
    pushed.stopped = false ∧ pushed.rids.Is parentsOf.length (Rids.Reaches parentsOf rids) ∧
    adjacency.push rids = .ok pushed.rids ∧ adjacency.reached rids = .ok pushed.rids.len ∧
    (∃ early, rids.forwardOrStop link = .ok early ∧ (early.stopped = false ∧ early.rids = pushed.rids ∨
      early.stopped = true ∧ early.rids.Is parentsOf.length (· < parentsOf.length))) ∧
    ∀ most, (most < pushed.rids.len → adjacency.spans rids most = .ok none) ∧ (pushed.rids.len ≤ most →
      ∃ spans, adjacency.spans rids most = .ok (some spans) ∧
        ∀ threads, adjacency.pushSpans spans threads = .ok pushed.rids)
  backward : ∀ rids : Rids, rids.Valid → rids.rows = parentsOf.length →
    ∃ back, rids.backward link = .ok back ∧ back.Is parents (Rids.ParentOf parentsOf rids)
  childrenOf : ∀ parent < parents, adjacency.childrenOf parent = .ok (Adjacency.childrenOfParent parentsOf parent)

/-- A set is pushed exactly through a relationship, either way and by either structure, while 32 bits
count the children that have a parent. -/
theorem row_sets_push_exactly {parentsOf : List Nat} {parents : Nat} (counted : Adjacency.Counted parentsOf parents) :
    ∃ link adjacency, Link.build parentsOf parents = .ok link ∧ Adjacency.build parentsOf parents = .ok adjacency ∧
      PushesExactly link adjacency parentsOf parents := by
  have small : parents < 2 ^ 64 := by
    have := counted.short
    omega
  have linked (present : noParent ∉ parentsOf) : parentsOf.length < 2 ^ 32 ∧ parentsOf.length + parents ≤ 2 ^ 38 := by
    have all : (Adjacency.entries parentsOf).length = parentsOf.length := by
      rw [Adjacency.entries, List.filter_eq_self.mpr, List.length_zipIdx]
      rintro ⟨parent, child⟩ member
      exact decide_eq_true fun absent => present (absent ▸ List.mem_of_getElem? (List.mem_zipIdx_iff_getElem?.mp member))
    have few := counted.few
    have short := counted.short
    omega
  obtain ⟨link, built, ofLink, -⟩ := Link.exists_built small counted.children counted.below fun present _ =>
    linked present
  obtain ⟨adjacency, made, holds⟩ := Adjacency.build_holds counted
  refine ⟨link, adjacency, built, made, fun rids valid rows => ?_, fun rids valid rows =>
    Rids.backward_exact ofLink valid rows,
    fun parent lt => holds.childrenOf lt (by unfold noParent; omega)⟩
  obtain ⟨pushed, forward, exact_⟩ := Rids.push_exact ofLink small valid rows false
  obtain ⟨early, stop, exact'⟩ := Rids.push_exact ofLink small valid rows true
  obtain ⟨back, push, is'⟩ := holds.push small valid rows
  have whole := exact_.finishes rfl
  have is := exact_.kept whole
  have size : pushed.rids.len = Adjacency.spansLen (rids.members.map (Adjacency.spanOf parentsOf parents)) := by
    rw [is.len_eq (Adjacency.listed_nodup valid.sorted) fun child => Adjacency.mem_listed valid]
    exact Adjacency.length_listed counted.below small fun member among =>
      rows ▸ Rids.lt_rows (valid.mem_members.mp among)
  refine ⟨pushed, forward, whole, is, by rw [push, is'.unique is], ?_, ⟨early, stop, ?_⟩,
    fun most => ⟨fun beyond => ?_, fun few => ?_⟩⟩
  · rw [Adjacency.reached, holds.lists valid rows, Adjacency.foldlM_reached, Nat.zero_add, size]
  · cases stopped : early.stopped with
    | false => exact .inl ⟨rfl, (exact'.kept stopped).unique is⟩
    | true => exact .inr ⟨rfl, exact'.all stopped⟩
  · rw [holds.spans valid rows, if_pos (by omega)]
  rw [holds.spans valid rows, if_neg (by omega)]
  refine ⟨_, rfl, fun threads => ?_⟩
  obtain ⟨shared, run, is''⟩ := holds.pushSpans small valid rows threads
  rw [run, is''.unique is]

/-- A link in each form: children in the order of their parents, and children of which one has none. -/
theorem row_sets_push_exactly_few :
    (∃ link adjacency, Link.build [0, 0, 2] 3 = .ok link ∧ Adjacency.build [0, 0, 2] 3 = .ok adjacency ∧
      PushesExactly link adjacency [0, 0, 2] 3) ∧
    ∃ link adjacency, Link.build [2, noParent, 0] 3 = .ok link ∧ Adjacency.build [2, noParent, 0] 3 = .ok adjacency ∧
      PushesExactly link adjacency [2, noParent, 0] 3 :=
  ⟨row_sets_push_exactly ⟨by decide, by decide, by decide, by decide⟩,
    row_sets_push_exactly ⟨by decide, by decide, by decide, by decide⟩⟩

theorem Link.build_sizes {parents : Nat} (built : Link.build parentsOf parents = .ok link) :
    link.children = parentsOf.length ∧ link.parents = parents := by
  unfold Link.build at built
  cases scan : scanChildren parents { linked := 0, monotone := true, previous := 0 } parentsOf with
  | error error =>
    rw [scan] at built
    cases built
  | ok scan' =>
    simp only [scan, Except.bind] at built
    generalize (if scan'.monotone ∧ 0 < parents then (runs parentsOf parents).map Body.monotone
      else packedBody parentsOf parents) = body at built
    cases body with
    | error error => cases built
    | ok body =>
      cases built
      exact ⟨rfl, rfl⟩

/-- The set of the first of 2^32 children of one parent is pushed back to no parent at all. -/
theorem many_children_pushed_to_none :
    ∃ link, Link.build (List.replicate (2 ^ 32) 0) 1 = .ok link ∧ ∃ rids : Rids, rids.Valid ∧ rids.rows = 2 ^ 32 ∧
      Rids.ParentOf (List.replicate (2 ^ 32) 0) rids 0 ∧ ∃ back, rids.backward link = .ok back ∧
        back.contains 0 = false := by
  obtain ⟨link, built, lost⟩ := forwardEach_wraps (show 0 < 2 ^ 32 by decide) (by decide)
  obtain ⟨children, parents⟩ := Link.build_sizes built
  rw [List.length_replicate] at children
  have valid : Rids.Valid { rows := 2 ^ 32, body := .sparse [0] } :=
    .sparse (List.pairwise_singleton _ _) (by simp) (by decide)
  refine ⟨link, built, _, valid, rfl, ⟨by decide, 0, by decide, List.getElem?_replicate_of_lt (by decide)⟩, ?_⟩
  rw [Rids.backward, if_neg (by rw [children]; exact fun ne => ne rfl), parents]
  dsimp only
  rw [lost, List.filter_cons_of_neg (by decide), List.filter_nil, List.foldl_nil]
  have is := @Rids.settleDense_is 1 (List.replicate ((1 + 63) / 64) 0) List.length_replicate fun place _ =>
    bit_replicate _ place
  refine ⟨_, rfl, Bool.eq_false_iff.mpr fun holds => ?_⟩
  rw [is.contains] at holds
  cases holds

end Rudb.Graph
