import Rudb.Graph.AdjacencyBuild

/-! The lists of an adjacency, read off the starts, and the set of the children in some of them. -/
namespace Rudb.Graph.Adjacency
open Rudb.Lib Rudb.Encoding List

def spanOf (parentsOf : List Nat) (parents parent : Nat) : Span :=
  (upBefore (owners parentsOf parents) parent, upTo (owners parentsOf parents) parent)

def spanRows (parentsOf : List Nat) (parents : Nat) (span : Span) : List Nat :=
  ((grouped parentsOf parents).drop span.1).take (spanLen span)

def Within (parentsOf : List Nat) (parents : Nat) (span : Span) : Prop :=
  span.1 + spanLen span ≤ (grouped parentsOf parents).length

variable {parentsOf : List Nat} {parents : Nat}

theorem within_spanOf (parent : Nat) : Within parentsOf parents (spanOf parentsOf parents parent) := by
  have le := @upBefore_le (owners parentsOf parents) parent
  have stop := @upTo_le (owners parentsOf parents) parent
  rw [owners, length_map, ← owners] at stop
  simp only [Within, spanOf, spanLen, grouped, length_map]
  omega

/-- The list of a parent is its children, in the order of the child table. -/
theorem spanRows_spanOf (below : Below parentsOf parents)
    (lt : parent < parents) (there : parent ≠ noParent) :
    spanRows parentsOf parents (spanOf parentsOf parents parent) = childrenOfParent parentsOf parent := by
  have split := @dealt_drop (Nat × Nat) Prod.fst (entries parentsOf) parents parent lt
  have size : spanLen (spanOf parentsOf parents parent) = ((entries parentsOf).filter (·.1 = parent)).length := by
    simp only [spanLen, spanOf]
    rw [upTo_owners below, upBefore_owners below, before_succ, Nat.add_sub_cancel_left]
  rw [spanRows, size]
  simp only [spanOf]
  rw [upBefore_owners below, grouped, ordered, ← map_drop, split, map_append, ← length_map (f := Prod.snd),
    take_left, entries_of there]

namespace Holds
variable {adjacency : Adjacency} (holds : adjacency.Holds parentsOf parents)
include holds

theorem list (lt : parent < parents) : adjacency.list parent = some (spanOf parentsOf parents parent) := by
  rw [Adjacency.list, holds.parents, if_neg (Nat.not_le_of_lt lt), holds.runs.cum lt]
  simp only [spanOf, upBefore]
  split
  · rfl
  · rw [holds.runs.cum (by omega)]
    rfl

theorem readRows {count : Nat} (inside : place + count ≤ (grouped parentsOf parents).length) :
    adjacency.readRows count place = .ok (((grouped parentsOf parents).drop place).take count) := by
  induction count generalizing place with
  | zero => rfl
  | succ count ih =>
    have lt : place < (grouped parentsOf parents).length := by omega
    rw [Adjacency.readRows, holds.rows place _ (getElem?_eq_getElem lt)]
    rw [ih (by omega), drop_eq_getElem_cons lt]
    rfl

/-- `children_of` gives exactly the children of a parent, in order. -/
theorem childrenOf (lt : parent < parents) (there : parent ≠ noParent) :
    adjacency.childrenOf parent = .ok (childrenOfParent parentsOf parent) := by
  rw [Adjacency.childrenOf, holds.list lt]
  dsimp only
  rw [holds.readRows (within_spanOf parent), ← spanRows_spanOf holds.below lt there, spanRows]

theorem walkLists {ε σ : Type} {fail : String → ε} {each : σ → Span → Except ε σ}
    {members : List Nat} {parent : Nat} {state : σ}
    (sorted : members.Pairwise (· < ·)) (inside : ∀ member ∈ members, parent ≤ member ∧ member < parents) :
    adjacency.walkLists fail each parent (parent + upBefore (owners parentsOf parents) parent) state members =
      (members.map (spanOf parentsOf parents)).foldlM each state := by
  induction members generalizing parent state with
  | nil => rfl
  | cons member members ih =>
    obtain ⟨least, sorted⟩ := pairwise_cons.mp sorted
    obtain ⟨ge, lt⟩ := inside member mem_cons_self
    have le := @upBefore_le (owners parentsOf parents) member
    have here : (if member > parent then member else parent) = member := by
      split <;> omega
    have next : member + upBefore (owners parentsOf parents) member +
        (upTo (owners parentsOf parents) member - upBefore (owners parentsOf parents) member) + 1 =
          member + 1 + upBefore (owners parentsOf parents) (member + 1) := by
      rw [upBefore.eq_def _ (member + 1), if_neg (by omega), Nat.add_sub_cancel]
      omega
    simp only [Adjacency.walkLists, holds.runs.runStart ge lt, here]
    rw [holds.runs.onesFrom lt, Nat.add_sub_cancel_left, Nat.add_sub_cancel' le, next]
    refine congrArg _ (funext fun state => ?_)
    exact ih sorted fun other among => ⟨least other among, (inside other (mem_cons_of_mem _ among)).2⟩

theorem lists {fail : String → ε} {each : σ → Span → Except ε σ} (valid : held.Valid)
    (rows : held.rows = parents) (state : σ) :
    adjacency.lists fail held each state = (held.members.map (spanOf parentsOf parents)).foldlM each state := by
  rw [Adjacency.lists, holds.parents, if_neg (by rw [rows]; exact fun ne => ne rfl)]
  exact @walkLists parentsOf parents adjacency holds ε σ fail each held.members 0 state valid.sorted fun member among =>
    ⟨Nat.zero_le _, rows ▸ Rids.lt_rows (valid.mem_members.mp among)⟩

end Holds

def spansLen (spans : List Span) : Nat := (spans.map spanLen).sum

theorem foldlM_reached (spans : List Span) (start : Nat) :
    spans.foldlM (fun reached span => (.ok (reached + spanLen span) : Except String Nat)) start =
      .ok (start + spansLen spans) := by
  induction spans generalizing start with
  | nil => rfl
  | cons span spans ih =>
    exact (ih (start + spanLen span)).trans (by rw [spansLen, spansLen, map_cons, sum_cons, add_assoc])

theorem foldlM_takeSpan (most : Nat) (spans : List Span) (start : Spans) (few : start.rows ≤ most) :
    spans.foldlM (takeSpan most) start = if start.rows + spansLen spans > most then .error none
      else .ok { start with
        rows := start.rows + spansLen spans
        lists := start.lists ++ spans.filter (spanLen · ≠ 0) } := by
  induction spans generalizing start with
  | nil =>
    rw [if_neg (by simpa [spansLen] using few)]
    simp [spansLen, pure, Except.pure]
  | cons span spans ih =>
    have sum : spansLen (span :: spans) = spanLen span + spansLen spans := by
      rw [spansLen, map_cons, sum_cons, spansLen]
    rw [foldlM_cons, takeSpan]
    by_cases beyond : start.rows + spanLen span > most
    · rw [if_pos beyond, if_pos (by omega)]
      rfl
    rw [if_neg beyond]
    refine (ih _ (not_lt.mp beyond)).trans ?_
    rw [sum, add_assoc]
    by_cases empty : spanLen span = 0
    · rw [if_pos empty, filter_cons_of_neg (by simpa using empty)]
    · rw [if_neg empty, filter_cons_of_pos (by simpa using empty), append_assoc, singleton_append]

def listed (parentsOf members : List Nat) : List Nat := members.flatMap (childrenOfParent parentsOf)

theorem mem_childrenOfParent :
    child ∈ childrenOfParent parentsOf parent ↔ parentsOf[child]? = some parent := by
  rw [childrenOfParent, mem_filter, mem_range, decide_eq_true_eq]
  exact ⟨And.right, fun found => ⟨(List.getElem?_eq_some_iff.mp found).1, found⟩⟩

theorem listed_nodup (sorted : members.Pairwise (· < ·)) : (listed parentsOf members).Nodup := by
  rw [listed, nodup_flatMap]
  refine ⟨fun parent _ => nodup_range.filter _, sorted.imp fun {one other} less child among among' => ?_⟩
  rw [mem_childrenOfParent] at among among'
  rw [among] at among'
  cases among'
  omega

theorem mem_listed (valid : rids.Valid) :
    child ∈ listed parentsOf rids.members ↔ Rids.Reaches parentsOf rids child := by
  rw [listed, mem_flatMap]
  refine exists_congr fun parent => ?_
  rw [valid.mem_members, mem_childrenOfParent, and_comm]

theorem length_listed (below : Below parentsOf parents) (small : parents < 2 ^ 64)
    (inside : ∀ member ∈ members, member < parents) :
    (listed parentsOf members).length = spansLen (members.map (spanOf parentsOf parents)) := by
  rw [listed, length_flatMap, spansLen, map_map]
  refine congrArg sum (map_congr_left fun member among => ?_)
  have lt := inside member among
  have there : member ≠ noParent := by
    unfold noParent
    omega
  have room := @within_spanOf parentsOf parents member
  rw [← spanRows_spanOf below lt there, spanRows, length_take, length_drop, Function.comp_apply]
  unfold Within at room
  omega

end Rudb.Graph.Adjacency
