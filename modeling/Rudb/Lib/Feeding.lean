import Mathlib.Data.List.Basic

/-! What stands for a set of keys, fed with elements in order up to the first one that is not new. A plain set is
the function that says which keys it holds; `same` says which element is which key, none for an element that is
never held. -/
namespace Rudb.Lib
open List
variable {σ τ α β : Type}

/-- Adds elements in order up to the first one that is not new, and answers where that was. -/
def feed (add : σ → α → σ × Bool) (set : σ) : List α → σ × Option Nat
  | [] => (set, none)
  | key :: keys =>
    let added := add set key
    if added.2 then
      let rest := feed add added.1 keys
      (rest.1, rest.2.map (· + 1))
    else (added.1, some 0)

/-- A plain set with one more key, and whether it is new. -/
def plainAdd (same : α → α → Bool) (held : α → Bool) (key : α) : (α → Bool) × Bool :=
  if held key then (held, false) else (fun other => held other || same key other, true)

theorem plainAdd_eq
    (alike : ∀ other, same key other = true → held other = held key) :
    plainAdd same held key = (fun other => held other || same key other, !held key) := by
  unfold plainAdd
  split
  · rename_i there
    refine Prod.ext (funext fun other => ?_) (by rw [there]; rfl)
    change held other = (held other || same key other)
    cases is : same key other with
    | false => rw [Bool.or_false]
    | true => rw [Bool.or_true, alike other is, there]
  rename_i new
  rw [Bool.not_eq_true] at new
  rw [new]
  rfl

/-- A way to add a key that is the plain set's. -/
structure Adds (good : σ → Prop) (fits : α → Prop) (holds : σ → α → Bool) (same : α → α → Bool)
    (add : σ → α → σ × Bool) : Prop where
  still {set : σ} {key : α} : good set → fits key → good (add set key).1
  plain {set : σ} {key : α} : good set → fits key →
    (holds (add set key).1, (add set key).2) = plainAdd same (holds set) key

theorem Adds.feed {good : σ → Prop} {fits : α → Prop} {holds : σ → α → Bool} {same : α → α → Bool}
    {add : σ → α → σ × Bool} (adds : Adds good fits holds same add) {set : σ} (here : good set) {keys : List α}
    (fit : ∀ key ∈ keys, fits key) : good (feed add set keys).1 ∧
      (holds (feed add set keys).1, (feed add set keys).2) = feed (plainAdd same) (holds set) keys := by
  induction keys generalizing set with
  | nil => exact ⟨here, rfl⟩
  | cons key keys ih =>
    have first := fit key mem_cons_self
    obtain ⟨still, rest⟩ := ih (adds.still here first) fun key member => fit key (mem_cons_of_mem _ member)
    have plain := adds.plain here first
    simp only [Lib.feed, ← plain, ← rest]
    split
    · exact ⟨still, rfl⟩
    · exact ⟨adds.still here first, rfl⟩

/-- Feeding a part of a set is feeding the set. -/
theorem feed_through {into : τ → σ}
    (through : ∀ set key, add (into set) (name key) = (into (part set key).1, (part set key).2)) (set : τ)
    (keys : List β) : feed add (into set) (keys.map name) = (into (feed part set keys).1, (feed part set keys).2) := by
  induction keys generalizing set with
  | nil => rfl
  | cons key keys ih =>
    simp only [feed, map_cons, through, ih]
    split <;> rfl

/-- Elements that are refused beforehand stop the feeding at the first of them. -/
theorem feed_unless (add : σ → α → σ × Bool) (refused : α → Bool) (set : σ) (keys : List α) :
    feed (fun set key => if refused key then (set, false) else add set key) set keys =
      let fed := feed add set (keys.take ((keys.findIdx? refused).getD keys.length))
      (fed.1, fed.2.or (keys.findIdx? refused)) := by
  induction keys generalizing set with
  | nil => rfl
  | cons key keys ih =>
    rw [findIdx?_cons]
    by_cases there : refused key = true
    · simp [feed, there]
    have upto : ((keys.findIdx? refused).map (· + 1)).getD (key :: keys).length =
        (keys.findIdx? refused).getD keys.length + 1 := by cases keys.findIdx? refused <;> rfl
    rw [if_neg there, upto, take_succ_cons]
    simp only [feed, if_neg there, ih]
    split
    · simp [Option.map_or]
    · rfl

variable {same : α → α → Bool}

/-- Nothing stops the feeding exactly when no key is held or repeated. -/
theorem feed_eq_none {held : α → Bool} {keys : List α} : (feed (plainAdd same) held keys).2 = none ↔
      (∀ key ∈ keys, held key = false) ∧ keys.Pairwise fun key other => same key other = false := by
  induction keys generalizing held with
  | nil => simp [feed]
  | cons key keys ih =>
    by_cases old : held key = true
    · simp [feed, plainAdd, old]
    simp only [feed, plainAdd, old, Bool.false_eq_true, if_false, if_true, Option.map_eq_none_iff, ih,
      Bool.or_eq_false_iff, forall_and, forall_mem_cons, pairwise_cons, true_and]
    tauto

theorem feed_all {held : α → Bool} {keys : List α} (free : (feed (plainAdd same) held keys).2 = none) (other : α) :
    (feed (plainAdd same) held keys).1 other = (held other || keys.any (same · other)) := by
  induction keys generalizing held with
  | nil => simp [feed]
  | cons key keys ih =>
    by_cases old : held key = true
    · simp [feed, plainAdd, old] at free
    · simp only [feed, plainAdd, old, Bool.false_eq_true, if_false, if_true, Option.map_eq_none_iff] at free ⊢
      rw [ih free, any_cons, Bool.or_assoc]

/-- Where the first key any of some sets holds is. -/
theorem min?_findIdx? (holds : γ → α → Bool) (sets : List γ) (keys : List α) :
    (sets.filterMap fun set => keys.findIdx? (holds set)).min? = keys.findIdx? fun key => sets.any (holds · key) := by
  induction keys with
  | nil => simp
  | cons key keys ih =>
    rw [findIdx?_cons]
    by_cases there : sets.any (holds · key) = true
    · obtain ⟨set, member, holds_key⟩ := any_eq_true.mp there
      rw [if_pos there, min?_eq_some_iff]
      refine ⟨mem_filterMap.mpr ⟨set, member, ?_⟩, fun _ _ => Nat.zero_le _⟩
      rw [findIdx?_cons, if_pos holds_key]
    have none_ : ∀ set ∈ sets, (key :: keys).findIdx? (holds set) = (keys.findIdx? (holds set)).map (· + 1) := by
      intro set member
      rw [findIdx?_cons, if_neg fun holds_key => there (any_eq_true.mpr ⟨set, member, holds_key⟩)]
    rw [if_neg there, filterMap_congr none_, ← ih, ← map_filterMap]
    cases least : (sets.filterMap fun set => keys.findIdx? (holds set)).min? with
    | none => simp [min?_eq_none_iff.mp least]
    | some place =>
      obtain ⟨member, lowest⟩ := min?_eq_some_iff.mp least
      refine min?_eq_some_iff.mpr ⟨mem_map_of_mem member, fun _ other => ?_⟩
      obtain ⟨behind, there, rfl⟩ := mem_map.mp other
      exact Nat.succ_le_succ (lowest behind there)

variable [DecidableEq α]

/-- A way to take a key out that is the plain set's. -/
structure Removes (good : σ → Prop) (holds : σ → α → Bool) (remove : σ → α → σ × Bool) : Prop where
  still {set : σ} (key : α) : good set → good (remove set key).1
  there {set : σ} (key : α) : good set → (remove set key).2 = holds set key
  out {set : σ} (key other : α) : good set → holds (remove set key).1 other = (holds set other && decide (other ≠ key))

/-- Takes keys out, and answers those that were there. -/
def pick (remove : σ → α → σ × Bool) (set : σ) : List α → σ × List α
  | [] => (set, [])
  | key :: keys =>
    let out := remove set key
    let rest := pick remove out.1 keys
    (rest.1, if out.2 then key :: rest.2 else rest.2)

theorem Removes.pick (removes : Removes good holds remove) {set : σ} (here : good set) (keys : List α) :
    good (Lib.pick remove set keys).1 ∧
      (∀ other, holds (Lib.pick remove set keys).1 other = (holds set other && decide (other ∉ keys))) ∧
      ∀ other, other ∈ (Lib.pick remove set keys).2 ↔ other ∈ keys ∧ holds set other = true := by
  induction keys generalizing set with
  | nil => simp [Lib.pick, here]
  | cons key keys ih =>
    obtain ⟨still, out, picked⟩ := ih (removes.still key here)
    refine ⟨still, fun other => ?_, fun other => ?_⟩
    · rw [Lib.pick, out, removes.out key other here, Bool.and_assoc]
      simp [mem_cons, not_or]
    rw [Lib.pick, removes.there key here]
    by_cases is : other = key
    · subst is
      cases there : holds set other <;> simp [picked, removes.out _ _ here, there]
    · split <;> simp [picked, removes.out _ _ here, is]

end Rudb.Lib
