import Rudb.Graph.LinkStored
import Rudb.Graph.RidsPush

/-! The pushes a part at a time: what the zone test of a part leaves out, nothing of the set is in. -/
namespace Rudb.Graph
open Rudb.Lib List

namespace Rids

theorem foldl_keepChild {held : Nat → Bool} (entries : List (Nat × Nat)) (walk : Walk) :
    (entries.foldl (keepChild held first) walk).words = ((entries.filter fun entry =>
        decide (entry.1 ≠ noParent ∧ held entry.1 = true)).map (first + ·.2)).foldl setBit walk.words ∧
      (entries.foldl (keepChild held first) walk).asked = walk.asked := by
  induction entries generalizing walk with
  | nil => exact ⟨rfl, rfl⟩
  | cons entry entries ih =>
    by_cases keeps : entry.1 ≠ noParent ∧ held entry.1 = true
    · simp [keepChild, keeps, ih]
    · simp [keepChild, if_neg keeps, ih, filter_cons]

variable {parentsOf : List Nat} {parents : Nat} {link : Link} {rids : Rids}

/-- The rows of a part, as `forward_run` gives them, each with its place. -/
theorem mem_part : (parent, index) ∈
    ((parentsOf.drop (part * partRows)).take (min (parentsOf.length - part * partRows) partRows)).zipIdx ↔
      index < partRows ∧ parentsOf[part * partRows + index]? = some parent := by
  rw [mem_zipIdx_iff_getElem?, getElem?_take, getElem?_drop]
  split
  · exact ⟨fun found => ⟨by omega, found⟩, And.right⟩
  refine iff_of_false (by simp) fun found => ?_
  have := (List.getElem?_eq_some_iff.mp found.2).1
  omega

theorem mem_parts (part total : Nat) : part ∈ range ((total + partRows - 1) / partRows) ↔ part * partRows < total := by
  rw [mem_range]
  unfold partRows
  omega

theorem div_part (lt : index < partRows) : (part * partRows + index) / partRows = part := by
  unfold partRows at *
  omega

/-- A part the zone test leaves out has no child whose parent is in the set. -/
theorem not_reaches (answers : link.Answers parentsOf parents) (valid : rids.Valid)
    (absent : rids.contains noParent = false)
    (inside : part * partRows < parentsOf.length) (out : rids.reaches link part = false)
    (here : child / partRows = part) : ¬Reaches parentsOf rids child := by
  rintro ⟨parent, found, holds⟩
  have there : parent ≠ noParent := by
    rintro rfl
    rw [absent] at holds
    cases holds
  have whole := Nat.div_add_mod' child partRows
  have small : child % partRows < partRows := Nat.mod_lt _ (by decide)
  rw [here] at whole
  have among : parent ∈ partOf parentsOf part := mem_partOf.mpr ⟨child, by omega, by omega, found⟩
  obtain ⟨bounds, read, exact_⟩ := answers.partBounds part inside
  rw [reaches, read] at out
  cases bounds with
  | none => exact there (exact_ parent among)
  | some bounds =>
    obtain ⟨low, high⟩ := bounds
    obtain ⟨-, -, -, -, all⟩ := exact_
    dsimp only at out
    have := (valid.anyBetween low high).mpr ⟨parent, (all parent among there).1, (all parent among there).2, holds⟩
    rw [out] at this
    cases this

section
variable (answers : link.Answers parentsOf parents) (children : link.children = parentsOf.length) (valid : rids.Valid)
  (absent : rids.contains noParent = false)
include answers children valid absent

/-- A part that the loop goes through keeps its children whose parent is in the set. -/
theorem pushParts_cons (inside : part * partRows < parentsOf.length)
    (room : parentsOf.length ≤ 64 * walk.words.length)
    (goes : ¬(walk.asked = false ∧ mark ≤ part * partRows ∧ walk.kept = part * partRows)) :
    ∃ walk', rids.pushParts link rids.held mark walk (part :: rest) = rids.pushParts link rids.held mark walk' rest ∧
      walk'.words.length = walk.words.length ∧ (walk.asked = true → walk'.asked = true) ∧
      ∀ place, bit walk'.words place = true ↔
        bit walk.words place = true ∨ place / partRows = part ∧ Reaches parentsOf rids place := by
  rw [pushParts]
  rw [if_neg goes]
  by_cases reach : rids.reaches link part = true
  · rw [if_pos reach, children, answers.forwardRun _ _ (by omega)]
    obtain ⟨kept, asked⟩ := @foldl_keepChild (part * partRows) rids.held
      ((parentsOf.drop (part * partRows)).take (min (parentsOf.length - part * partRows) partRows)).zipIdx
      { walk with asked := walk.asked || decide (mark ≤ part * partRows) }
    refine ⟨_, rfl, by rw [kept, foldl_setBit_length], fun was => by rw [asked, was]; rfl, fun place => ?_⟩
    rw [kept, foldl_setBit_bit]
    · refine or_congr_right (mem_map.trans ⟨?_, ?_⟩)
      · rintro ⟨⟨parent, index⟩, among, rfl⟩
        obtain ⟨among, keeps⟩ := mem_filter.mp among
        obtain ⟨lt, found⟩ := mem_part.mp among
        rw [decide_eq_true_eq, valid.held] at keeps
        exact ⟨div_part lt, parent, found, keeps.2⟩
      rintro ⟨rfl, parent, found, holds⟩
      have whole := Nat.div_add_mod' place partRows
      refine ⟨(parent, place % partRows), mem_filter.mpr
        ⟨mem_part.mpr ⟨Nat.mod_lt _ (by decide), by rwa [whole]⟩, ?_⟩, whole⟩
      rw [decide_eq_true_eq, valid.held]
      refine ⟨?_, holds⟩
      rintro rfl
      rw [absent] at holds
      cases holds
    · intro place member
      obtain ⟨⟨parent, index⟩, among, rfl⟩ := mem_map.mp member
      have := (List.getElem?_eq_some_iff.mp (mem_part.mp (mem_filter.mp among).1).2).1
      dsimp only
      omega
  · rw [if_neg reach]
    refine ⟨_, rfl, rfl, fun was => by rw [was]; rfl, fun place => ⟨.inl, fun set => set.resolve_right ?_⟩⟩
    rintro ⟨here, reaches⟩
    exact not_reaches answers valid absent inside (by simpa using reach) here reaches

/-- The loop over the parts keeps the children of them whose parent is in the set, unless it stops. -/
theorem pushParts_eq {mark : Nat} {walk : Walk} (inside : ∀ part ∈ parts, part * partRows < parentsOf.length)
    (room : parentsOf.length ≤ 64 * walk.words.length) :
    ∃ walk' stopped, rids.pushParts link rids.held mark walk parts = .ok (walk', stopped) ∧
      (walk.asked = true → stopped = false) ∧ (stopped = false → walk'.words.length = walk.words.length ∧
        ∀ place, bit walk'.words place = true ↔
          bit walk.words place = true ∨ place / partRows ∈ parts ∧ Reaches parentsOf rids place) := by
  induction parts generalizing walk with
  | nil => exact ⟨walk, false, rfl, fun _ => rfl, fun _ => ⟨rfl, fun place => by simp⟩⟩
  | cons part rest ih =>
    simp only [mem_cons, forall_eq_or_imp] at inside
    by_cases stop : walk.asked = false ∧ mark ≤ part * partRows ∧ walk.kept = part * partRows
    · refine ⟨walk, true, if_pos stop, fun asked => ?_, fun whole => by cases whole⟩
      rw [stop.1] at asked
      cases asked
    obtain ⟨walk₁, goes, length, asked, bits⟩ := pushParts_cons answers children valid absent inside.1 room stop
    obtain ⟨walk', stopped, run, asked', kept⟩ := ih inside.2 (show _ ≤ 64 * walk₁.words.length by rwa [length])
    refine ⟨walk', stopped, goes.trans run, fun was => asked' (asked was), fun whole => ?_⟩
    obtain ⟨length', bits'⟩ := kept whole
    refine ⟨length'.trans length, fun place => ?_⟩
    rw [bits', bits, mem_cons, or_and_right, or_assoc]

end

theorem absent (rows : rids.rows = parents) (small : parents < 2 ^ 64) :
    rids.contains noParent = false := by
  rw [Bool.eq_false_iff]
  intro holds
  have := lt_rows holds
  unfold noParent at this
  omega

theorem length_le_words (rows : Nat) : rows ≤ 64 * (replicate ((rows + 63) / 64) (0 : Word)).length := by
  rw [length_replicate]
  omega

/-- A push gives the children whose parent is in the set, or every child when it stops. -/
theorem push_exact (built : link.Built parentsOf parents) (small : parents < 2 ^ 64) (valid : rids.Valid)
    (rows : rids.rows = parents) (stopping : Bool) : ∃ pushed, rids.push link stopping = .ok pushed ∧
      pushed.Exact parentsOf.length (Reaches parentsOf rids) stopping := by
  have absent := absent rows small
  rw [push, if_neg (by rw [built.parents, rows]; exact fun ne => ne rfl)]
  dsimp only
  rw [built.children, built.linked]
  split
  · rename_i whole
    refine ⟨_, rfl, fun _ => (is_full _).congr fun child => ?_, (fun stopped => by cases stopped), fun _ => rfl⟩
    refine ⟨fun lt => ⟨_, getElem?_eq_getElem lt, ?_⟩, Reaches.lt⟩
    have member := getElem_mem lt
    have there := countP_eq_length.mp whole.2 _ member
    have inside := (built.below _ member).resolve_left (by simpa using there)
    cases valid with
    | @full total positive =>
      dsimp only at rows
      simpa [contains, rows] using inside
    | _ => cases whole.1
  · cases body : link.body with
    | monotone vector => exact ⟨_, rfl, pushRuns_exact (built.runs vector body) valid rows _ _⟩
    | packed =>
      obtain ⟨walk, stopped, run, asked, kept⟩ :=
        @pushParts_eq parentsOf parents link rids built.answers built.children valid absent _
        ((parentsOf.length + stopAfter - 1) / stopAfter)
        { words := replicate ((parentsOf.length + 63) / 64) 0, skipped := 0, kept := 0, asked := !stopping }
        (fun part => (mem_parts part _).mp) (length_le_words _)
      rw [run]
      cases stopped with
      | true =>
        refine ⟨_, rfl, (fun whole => by cases whole), fun _ => is_full _, fun whole => ?_⟩
        cases asked (by rw [whole]; rfl)
      | false =>
        obtain ⟨length, bits⟩ := kept rfl
        have marks (place : Nat) : bit walk.words place = true ↔ Reaches parentsOf rids place := by
          rw [bits, bit_replicate]
          refine ⟨fun set => (set.resolve_left Bool.false_ne_true).2, fun reaches => .inr ⟨?_, reaches⟩⟩
          exact (mem_parts _ _).mpr ((Nat.div_mul_le_self _ _).trans_lt reaches.lt)
        refine ⟨_, rfl, fun _ => (settleDense_is (by rw [length, length_replicate]) fun place past => ?_).congr marks,
          (fun stopped => by cases stopped), fun _ => rfl⟩
        rw [Bool.eq_false_iff]
        intro set
        have := ((marks place).mp set).lt
        omega

def ParentOf (parentsOf : List Nat) (rids : Rids) (parent : Nat) : Prop :=
  parent ≠ noParent ∧ ∃ child, rids.contains child = true ∧ parentsOf[child]? = some parent

theorem foldl_keepParent (entries : List (Nat × Nat)) (words : List Word) :
    entries.foldl (rids.keepParent first) words = ((entries.filter fun entry =>
      decide (entry.1 ≠ noParent ∧ rids.contains (first + entry.2) = true)).map Prod.fst).foldl setBit words := by
  induction entries generalizing words with
  | nil => rfl
  | cons entry entries ih =>
    by_cases keeps : entry.1 ≠ noParent ∧ rids.contains (first + entry.2) = true
    · simp [keepParent, keeps, ih]
    · simp [keepParent, if_neg keeps, ih, filter_cons]

/-- A part's children that are in the set set their parents. -/
theorem backwardParts_cons (built : link.Built parentsOf parents) (valid : rids.Valid) {words : List Word}
    (inside : part * partRows < parentsOf.length) (room : parents ≤ 64 * words.length) :
    ∃ words', rids.backwardParts link words (part :: rest) = rids.backwardParts link words' rest ∧
      words'.length = words.length ∧ ∀ place, bit words' place = true ↔ bit words place = true ∨ place ≠ noParent ∧
        ∃ child, child / partRows = part ∧ rids.contains child = true ∧ parentsOf[child]? = some place := by
  rw [backwardParts]
  have last : min (part * partRows + partRows) link.children - 1 - part * partRows + 1 =
      min (parentsOf.length - part * partRows) partRows := by
    rw [built.children]
    unfold partRows at inside ⊢
    omega
  by_cases reach : rids.anyBetween (part * partRows) (min (part * partRows + partRows) link.children - 1) = true
  · rw [if_pos reach, last, built.answers.forwardRun _ _ (by omega)]
    refine ⟨_, rfl, by rw [foldl_keepParent, foldl_setBit_length], fun place => ?_⟩
    rw [foldl_keepParent, foldl_setBit_bit]
    · refine or_congr_right (mem_map.trans ⟨?_, ?_⟩)
      · rintro ⟨⟨parent, index⟩, among, rfl⟩
        obtain ⟨among, keeps⟩ := mem_filter.mp among
        obtain ⟨lt, found⟩ := mem_part.mp among
        rw [decide_eq_true_eq] at keeps
        exact ⟨keeps.1, _, div_part lt, keeps.2, found⟩
      rintro ⟨there, child, rfl, holds, found⟩
      have whole := Nat.div_add_mod' child partRows
      refine ⟨(place, child % partRows), mem_filter.mpr ⟨mem_part.mpr ⟨Nat.mod_lt _ (by decide), by rwa [whole]⟩, ?_⟩,
        rfl⟩
      rw [decide_eq_true_eq, whole]
      exact ⟨there, holds⟩
    · intro place member
      obtain ⟨⟨parent, index⟩, among, rfl⟩ := mem_map.mp member
      obtain ⟨among, keeps⟩ := mem_filter.mp among
      rw [decide_eq_true_eq] at keeps
      have := (built.below parent (mem_of_getElem? (mem_part.mp among).2)).resolve_left keeps.1
      omega
  · rw [if_neg reach]
    refine ⟨_, rfl, rfl, fun place => ⟨.inl, fun set => set.resolve_right ?_⟩⟩
    rintro ⟨-, child, rfl, holds, found⟩
    have among := (List.getElem?_eq_some_iff.mp found).1
    refine reach ((valid.anyBetween _ _).mpr ⟨child, Nat.div_mul_le_self _ _, ?_, holds⟩)
    rw [built.children]
    unfold partRows at *
    omega

/-- The loop over the parts sets the parents of the children of them that are in the set. -/
theorem backwardParts_eq (built : link.Built parentsOf parents) (valid : rids.Valid) {words : List Word}
    (inside : ∀ part ∈ parts, part * partRows < parentsOf.length) (room : parents ≤ 64 * words.length) :
    ∃ words', rids.backwardParts link words parts = .ok words' ∧ words'.length = words.length ∧
      ∀ place, bit words' place = true ↔ bit words place = true ∨ place ≠ noParent ∧
        ∃ child, child / partRows ∈ parts ∧ rids.contains child = true ∧ parentsOf[child]? = some place := by
  induction parts generalizing words with
  | nil => exact ⟨words, rfl, rfl, fun place => by simp⟩
  | cons part rest ih =>
    simp only [mem_cons, forall_eq_or_imp] at inside
    obtain ⟨words₁, goes, length, bits⟩ := backwardParts_cons built valid inside.1 room
    obtain ⟨words', run, length', bits'⟩ := ih inside.2 (show _ ≤ 64 * words₁.length by rwa [length])
    refine ⟨words', goes.trans run, length'.trans length, fun place => ?_⟩
    simp [bits', bits, or_and_right, exists_or, and_or_left, or_assoc]

/-- A push back gives the parents of the children in the set. -/
theorem backward_exact (built : link.Built parentsOf parents) (valid : rids.Valid)
    (rows : rids.rows = parentsOf.length) :
    ∃ back, rids.backward link = .ok back ∧ back.Is parents (ParentOf parentsOf rids) := by
  have inside {parent : Nat} (of : ParentOf parentsOf rids parent) : parent < parents := by
    obtain ⟨there, child, -, found⟩ := of
    exact (built.below parent (mem_of_getElem? found)).resolve_left there
  have settle {words : List Word} (length : words.length = (parents + 63) / 64)
      (bits : ∀ place, bit words place = true ↔ ParentOf parentsOf rids place) :
      (settleDense parents words).Is parents (ParentOf parentsOf rids) := by
    refine (settleDense_is length fun place past => ?_).congr bits
    rw [Bool.eq_false_iff]
    intro set
    have := inside ((bits place).mp set)
    omega
  have parts : ∃ back, (rids.backwardParts link (List.replicate ((parents + 63) / 64) 0)
      (List.range ((link.children + partRows - 1) / partRows))).map (settleDense parents) = .ok back ∧
      back.Is parents (ParentOf parentsOf rids) := by
    obtain ⟨words, run, length, bits⟩ := backwardParts_eq built valid
      (fun part => (mem_parts part _).mp) (length_le_words parents)
    rw [built.children, run]
    refine ⟨_, rfl, settle (by rw [length, length_replicate]) fun place => ?_⟩
    rw [bits, bit_replicate]
    constructor
    · intro set
      obtain ⟨there, child, -, holds⟩ := set.resolve_left Bool.false_ne_true
      exact ⟨there, child, holds⟩
    rintro ⟨there, child, holds, found⟩
    refine .inr ⟨there, child, (mem_parts _ _).mpr ?_, holds, found⟩
    exact (Nat.div_mul_le_self _ _).trans_lt (List.getElem?_eq_some_iff.mp found).1
  rw [backward, if_neg (by rw [built.children, rows]; exact fun ne => ne rfl), built.parents]
  cases valid with
  | full | dense => exact parts
  | @sparse total members sorted below form =>
    dsimp only at rows ⊢
    have valid : Valid { rows := total, body := .sparse members } := .sparse sorted below form
    rw [built.answers.forwardEach]
    have listed (place : Nat) : place ∈ (members.map (parentsOf.getD · noParent)).filter (· ≠ noParent) ↔
        ParentOf parentsOf { rows := total, body := .sparse members } place := by
      rw [mem_filter, mem_map, decide_eq_true_eq, and_comm]
      refine and_congr_right fun there => exists_congr fun child => ?_
      rw [← valid.mem_members, getD_eq_getElem?_getD]
      refine and_congr_right fun among => ?_
      rw [getElem?_eq_getElem (rows ▸ below child among), Option.getD_some, Option.some.injEq]
    refine ⟨_, rfl, settle (by rw [foldl_setBit_length, length_replicate]) fun place => ?_⟩
    rw [foldl_setBit_bit, bit_replicate, listed]
    · exact ⟨fun set => set.resolve_left Bool.false_ne_true, .inr⟩
    intro parent among
    have := inside ((listed parent).mp among)
    have := length_le_words parents
    omega

end Rids
end Rudb.Graph
