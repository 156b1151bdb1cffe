import Rudb.Graph.LinkProofs

/-! A link answers every question as the array it was built from, and so does the link read back. -/
namespace Rudb.Graph
open Rudb.Lib Rudb.Encoding List Option

def IsBounds (rows : List Nat) : Bounds → Prop
  | none => ∀ parent ∈ rows, parent = noParent
  | some (low, high) => low ∈ rows ∧ high ∈ rows ∧ low ≠ noParent ∧ high ≠ noParent ∧
      ∀ parent ∈ rows, parent ≠ noParent → low ≤ parent ∧ parent ≤ high

/-- What a link of these children says to every question. -/
structure Link.Answers (link : Link) (parentsOf : List Nat) (parents : Nat) : Prop where
  forward : ∀ child, link.forward child = parentsOf[child]?.filter (· ≠ noParent)
  forwardRun : ∀ first count, first + count ≤ parentsOf.length →
    link.forwardRun first count = .ok ((parentsOf.drop first).take count)
  forwardEach : ∀ children, link.forwardEach children = children.map (parentsOf.getD · noParent)
  partBounds : ∀ part, part * partRows < parentsOf.length →
    ∃ bounds, link.partBounds part = some bounds ∧ IsBounds (partOf parentsOf part) bounds
  backward : link.form = .monotone → ∀ parent < parents, ∃ first stop, link.backward parent = some (first, stop) ∧
    ∀ child, (first ≤ child ∧ child < stop) ↔ parentsOf[child]? = some parent
  backwardPast : ∀ parent ≥ parents, link.backward parent = none
  backwardFrom : link.form = .monotone → ∀ asked, link.backwardEach none asked = asked.map link.backward

theorem widen_bounds (exact_ : IsBounds rows bounds) :
    IsBounds (rows ++ [parent]) (widen bounds parent) := by
  unfold widen
  split
  · rename_i absent
    cases bounds with
    | none =>
      intro other member
      rcases mem_append.mp member with member | member
      · exact exact_ other member
      · rw [mem_singleton.mp member, absent]
    | some pair =>
      obtain ⟨low, high, low_ne, high_ne, between⟩ := exact_
      refine ⟨mem_append_left _ low, mem_append_left _ high, low_ne, high_ne, fun other member present => ?_⟩
      rcases mem_append.mp member with member | member
      · exact between other member present
      · exact absurd ((mem_singleton.mp member).trans absent) present
  · rename_i present
    have last : parent ∈ rows ++ [parent] := mem_append_right _ mem_cons_self
    cases bounds with
    | none =>
      refine ⟨last, last, present, present, fun other member there => ?_⟩
      rcases mem_append.mp member with member | member
      · exact absurd (exact_ other member) there
      · rw [mem_singleton.mp member]
        exact ⟨le_rfl, le_rfl⟩
    | some pair =>
      obtain ⟨low, high⟩ := pair
      obtain ⟨low_mem, high_mem, low_ne, high_ne, between⟩ := exact_
      refine ⟨?_, ?_, ?_, ?_, fun other member there => ?_⟩
      · rcases le_total low parent with le | ge
        · rw [min_eq_left le]
          exact mem_append_left _ low_mem
        · rwa [min_eq_right ge]
      · rcases le_total high parent with le | ge
        · rwa [max_eq_right le]
        · rw [max_eq_left ge]
          exact mem_append_left _ high_mem
      · omega
      · omega
      · rcases mem_append.mp member with member | member
        · have := between other member there
          omega
        · rw [mem_singleton.mp member]
          omega

theorem foldl_widen (rows : List Nat) : IsBounds rows (rows.foldl widen none) := by
  induction rows using reverseRecOn with
  | nil => exact fun _ member => absurd member not_mem_nil
  | append_singleton rows parent ih =>
    rw [foldl_concat]
    exact widen_bounds ih

variable {parentsOf : List Nat}

theorem mem_partOf :
    parent ∈ partOf parentsOf part ↔ ∃ child, part * partRows ≤ child ∧ child < part * partRows + partRows ∧
      parentsOf[child]? = some parent := by
  rw [mem_iff_getElem?]
  constructor
  · rintro ⟨index, found⟩
    obtain ⟨lt, -⟩ := List.getElem?_eq_some_iff.mp found
    have few : index < partRows := by
      have := (List.length_take_le partRows (parentsOf.drop (part * partRows)))
      exact lt.trans_le this
    rw [partOf, getElem?_take_of_lt few, getElem?_drop] at found
    exact ⟨part * partRows + index, by omega, by omega, found⟩
  · rintro ⟨child, ge, lt, found⟩
    refine ⟨child - part * partRows, ?_⟩
    rw [partOf, getElem?_take_of_lt (by omega), getElem?_drop, Nat.add_sub_cancel' ge, found]

/-- The bounds of children in the order of their parents are the first and the last. -/
theorem isBounds_sorted (sorted : parentsOf.Pairwise (· ≤ ·))
    (present : noParent ∉ parentsOf) (end_ : last = min (part * partRows + partRows - 1) (parentsOf.length - 1))
    (found : parentsOf[part * partRows]? = some low) (found' : parentsOf[last]? = some high) :
    IsBounds (partOf parentsOf part) (some (low, high)) := by
  have ordered {one other parent parent' : Nat} (le : one ≤ other) (here : parentsOf[one]? = some parent)
      (there : parentsOf[other]? = some parent') : parent ≤ parent' := by
    obtain ⟨lt, rfl⟩ := List.getElem?_eq_some_iff.mp here
    obtain ⟨lt', rfl⟩ := List.getElem?_eq_some_iff.mp there
    rcases lt_or_eq_of_le le with before | rfl
    · exact pairwise_iff_getElem.mp sorted _ _ lt lt' before
    · exact le_rfl
  have there {child parent : Nat} (here : parentsOf[child]? = some parent) : parent ≠ noParent := fun absent =>
    present (absent ▸ mem_of_getElem? here)
  have inside := (List.getElem?_eq_some_iff.mp found).1
  have rows : 0 < partRows := by decide
  refine ⟨mem_partOf.mpr ⟨_, le_rfl, by omega, found⟩, mem_partOf.mpr ⟨last, by omega, by omega, found'⟩, there found,
    there found', fun parent member _ => ?_⟩
  obtain ⟨child, ge, lt, here⟩ := mem_partOf.mp member
  have := (List.getElem?_eq_some_iff.mp here).1
  exact ⟨ordered ge found here, ordered (by omega) here found'⟩

/-- A link in the monotone form over the runs of its children. -/
structure Link.OfRuns (link : Link) (parentsOf : List Nat) (parents : Nat) (vector : BitVector) : Prop where
  runs : Runs parentsOf parents vector
  children : link.children = parentsOf.length
  parents : link.parents = parents
  body : link.body = .monotone vector
  short : parentsOf.length < 2 ^ 64
  present : noParent ∉ parentsOf

namespace Link.OfRuns
variable {link : Link} {parentsOf : List Nat} {parents : Nat} {vector : BitVector}
  (ofRuns : link.OfRuns parentsOf parents vector)
include ofRuns

theorem forward_child (found : parentsOf[child]? = some parent) : link.forward child = some parent := by
  have inside := (List.getElem?_eq_some_iff.mp found).1
  obtain ⟨selected, rank⟩ := ofRuns.runs.select1 found
  simp only [Link.forward, ofRuns.children, ofRuns.body]
  rw [if_neg (by omega), selected, map_some, rank]

theorem forward (child : Nat) : link.forward child = parentsOf[child]?.filter (· ≠ noParent) := by
  cases found : parentsOf[child]? with
  | none =>
    rw [Link.forward, ofRuns.children, if_pos (getElem?_eq_none_iff.mp found)]
    rfl
  | some parent =>
    have there : parent ≠ noParent := fun absent => ofRuns.present (absent ▸ mem_of_getElem? found)
    rw [ofRuns.forward_child found, filter_some, decide_eq_true there, if_pos rfl]

theorem forwardRun {count : Nat} (inside : first + count ≤ parentsOf.length) :
    link.forwardRun first count = .ok ((parentsOf.drop first).take count) := by
  have short := ofRuns.short
  rw [Link.forwardRun, ofRuns.children, if_neg (by omega)]
  by_cases empty : count = 0
  · simp [empty]
  have found := getElem?_eq_getElem (show first < parentsOf.length by omega)
  obtain ⟨selected, rank⟩ := ofRuns.runs.select1 found
  simp only [if_neg empty, ofRuns.body, selected, rank]
  exact ofRuns.runs.readRun inside (ofRuns.runs.child found).1.2 rfl fun next same => by
    rw [found] at same
    cases same
    exact le_rfl

theorem forwardEach (children : List Nat) : link.forwardEach children = children.map (parentsOf.getD · noParent) := by
  simp only [Link.forwardEach, ofRuns.body, ofRuns.children]
  refine ofRuns.runs.readChildren ofRuns.short ⟨?_, .inl rfl, .inl rfl⟩ children
  simp [ahead]

theorem partBounds (inside : part * partRows < parentsOf.length) :
    ∃ bounds, link.partBounds part = some bounds ∧ IsBounds (partOf parentsOf part) bounds := by
  have short := ofRuns.short
  have held : part * partRows % 2 ^ 64 = part * partRows := Nat.mod_eq_of_lt (by omega)
  have found := getElem?_eq_getElem inside
  have found' := getElem?_eq_getElem
    (show min (part * partRows + partRows - 1) (parentsOf.length - 1) < parentsOf.length by omega)
  refine ⟨_, ?_, isBounds_sorted ofRuns.runs.sorted ofRuns.present rfl found found'⟩
  simp only [Link.partBounds, held, ofRuns.children, ofRuns.body]
  rw [if_neg (by omega), ofRuns.forward_child found, ofRuns.forward_child found']

theorem backward (lt : parent < parents) :
    link.backward parent = some (upBefore parentsOf parent, upTo parentsOf parent) := by
  have first : (if parent = 0 then some 0 else Link.cum vector (parent - 1)) = some (upBefore parentsOf parent) := by
    unfold upBefore
    split
    · rfl
    · exact ofRuns.runs.cum (by omega)
  simp only [Link.backward, ofRuns.body, ofRuns.parents]
  rw [if_neg (by omega), first, bind_some, ofRuns.runs.cum lt, map_some]

section
variable {cursor : Option Link.At} (fits : ∀ stopped ∈ cursor, stopped.Fits parentsOf parents)
include fits

/-- A cursor left at a parent answers as without one, and is left at a parent again. -/
theorem backwardFrom (parent : Nat) : (link.backwardFrom parent cursor).1 = link.backward parent ∧
      ∀ stopped ∈ (link.backwardFrom parent cursor).2, stopped.Fits parentsOf parents := by
  simp only [Link.backwardFrom, ofRuns.body, ofRuns.parents]
  split
  · rename_i past
    refine ⟨?_, fits⟩
    simp only [Link.backward, ofRuns.body, ofRuns.parents]
    rw [if_pos past]
  rename_i inside
  have lt : parent < parents := not_le.mp inside
  rw [ofRuns.backward lt]
  split
  · rename_i stopped same
    obtain ⟨held, equal⟩ := filter_eq_some_iff.mp same
    obtain ⟨-, -, first, stop⟩ := fits stopped held
    rw [of_decide_eq_true equal] at first stop
    exact ⟨by rw [first, stop], fits⟩
  -- the run is found by reading on from the cursor, or by two selects
  have ends {stopped : Link.At} (here : stopped.parent = parent) (fits' : stopped.Fits parentsOf parents) :
      some (stopped.first, stopped.stop) = some (upBefore parentsOf parent, upTo parentsOf parent) ∧
        ∀ other ∈ some stopped, other.Fits parentsOf parents := by
    subst here
    refine ⟨by rw [fits'.first, fits'.stop], fun other same => ?_⟩
    cases same
    exact fits'
  cases near : cursor.filter fun stopped => stopped.parent < parent && parent - stopped.parent ≤ Link.near with
  | some stopped =>
    obtain ⟨held, close⟩ := filter_eq_some_iff.mp near
    simp only [Bool.and_eq_true, decide_eq_true_eq] at close
    obtain ⟨next, found, here, fits'⟩ := ofRuns.runs.readOn (fits stopped held) close.1 lt
    simp only [found]
    exact ends here fits'
  | none =>
    obtain ⟨next, found, here, fits'⟩ := ofRuns.runs.selectAt lt
    simp only [found]
    exact ends here fits'

theorem backwardEach (asked : List Nat) : link.backwardEach cursor asked = asked.map link.backward := by
  induction asked generalizing cursor with
  | nil => rfl
  | cons parent rest ih =>
    obtain ⟨answer, fits'⟩ := ofRuns.backwardFrom fits parent
    simp [Link.backwardEach, answer, ih fits']

end

theorem answers : link.Answers parentsOf parents where
  forward := ofRuns.forward
  forwardRun _ _ inside := ofRuns.forwardRun inside
  forwardEach := ofRuns.forwardEach
  partBounds _ inside := ofRuns.partBounds inside
  backward _ parent lt := ⟨_, _, ofRuns.backward lt, fun child => mem_range_iff ofRuns.runs.sorted child parent⟩
  backwardPast parent ge := by
    simp only [Link.backward, ofRuns.body, ofRuns.parents]
    rw [if_pos ge]
  backwardFrom _ asked := ofRuns.backwardEach (by simp) asked

end Link.OfRuns

/-- A value of a packed link: the parent, or the value that means none. -/
def packedValue (parents parent : Nat) : Nat := if parent = noParent then reserved (widthFor parents) else parent

/-- A link in the packed form over its children. -/
structure Link.OfPacked (link : Link) (parentsOf : List Nat) (parents : Nat) (bytes : List UInt8) (heads : List Bounds) :
    Prop where
  children : link.children = parentsOf.length
  body : link.body = .packed bytes (widthFor parents) heads
  values : ∀ child parent, parentsOf[child]? = some parent →
    tailAt bytes (widthFor parents) child = .ok (packedValue parents parent)
  heads : ∀ part, part * partRows < parentsOf.length → heads[part]? = some ((partOf parentsOf part).foldl widen none)
  below : ∀ parent ∈ parentsOf, parent = noParent ∨ parent < parents
  short : parentsOf.length < 2 ^ 64

abbrev Below (parentsOf : List Nat) (parents : Nat) : Prop := ∀ parent ∈ parentsOf, parent = noParent ∨ parent < parents

theorem lt_widthFor (parents : Nat) : parents < 2 ^ widthFor parents :=
  (Nat.lt_size_self parents).trans_le (Nat.pow_le_pow_right (by decide) (le_max_left _ _))

theorem widthFor_pos (parents : Nat) : 0 < widthFor parents := Nat.one_pos.trans_le (le_max_right _ _)

variable {parents : Nat}

theorem widthFor_le (small : parents < 2 ^ 64) : widthFor parents ≤ 64 :=
  Nat.max_le.mpr ⟨Nat.size_le.mpr small, by decide⟩

theorem reserved_eq (le : width ≤ 64) : reserved width = 2 ^ width - 1 := lowMask_eq le

section
variable {parents parent : Nat} (small : parents < 2 ^ 64) (below : parent = noParent ∨ parent < parents)
include small below

/-- No parent is packed as the value that means none. -/
theorem packedValue_eq_reserved : packedValue parents parent = reserved (widthFor parents) ↔ parent = noParent := by
  have lt := lt_widthFor parents
  have value := reserved_eq (widthFor_le small)
  unfold packedValue
  split
  · simp [*]
  omega

theorem packedValue_lt : packedValue parents parent < 2 ^ widthFor parents := by
  have lt := lt_widthFor parents
  have value := reserved_eq (widthFor_le small)
  unfold packedValue
  split
  · omega
  · omega

end

namespace Link.OfPacked
variable {link : Link} {parentsOf : List Nat} {parents : Nat} {bytes : List UInt8} {heads : List Bounds}
  (ofPacked : link.OfPacked parentsOf parents bytes heads) (small : parents < 2 ^ 64)
include ofPacked small

theorem present (found : parentsOf[child]? = some parent) :
    Link.present (widthFor parents) (tailAt bytes (widthFor parents) child) = (some parent).filter (· ≠ noParent) := by
  have none_iff := packedValue_eq_reserved small (ofPacked.below parent (mem_of_getElem? found))
  rw [ofPacked.values child parent found, Link.present, Except.toOption]
  by_cases absent : parent = noParent
  · subst absent
    simp only [filter_some, none_iff.mpr rfl, ne_eq, not_true_eq_false, decide_false]
    rfl
  · have value : packedValue parents parent = parent := if_neg absent
    rw [value] at none_iff ⊢
    simp [filter_some, mt none_iff.mp absent, absent]

theorem forward (child : Nat) : link.forward child = parentsOf[child]?.filter (· ≠ noParent) := by
  simp only [Link.forward, ofPacked.children, ofPacked.body]
  cases found : parentsOf[child]? with
  | none =>
    rw [if_pos (getElem?_eq_none_iff.mp found)]
    rfl
  | some parent =>
    have inside := (List.getElem?_eq_some_iff.mp found).1
    rw [if_neg (by omega), ofPacked.present small found]

theorem readPacked {count : Nat} (inside : first + count ≤ parentsOf.length) :
    Link.readPacked bytes (widthFor parents) count first = .ok ((parentsOf.drop first).take count) := by
  induction count generalizing first with
  | zero => simp [Link.readPacked]
  | succ count ih =>
    have lt : first < parentsOf.length := by omega
    have found := getElem?_eq_getElem lt
    have none_iff := packedValue_eq_reserved small (ofPacked.below _ (getElem_mem lt))
    have value : (if packedValue parents parentsOf[first] = reserved (widthFor parents) then noParent
        else packedValue parents parentsOf[first]) = parentsOf[first] := by
      by_cases absent : parentsOf[first] = noParent
      · rw [if_pos (none_iff.mpr absent), absent]
      · rw [if_neg (mt none_iff.mp absent), packedValue, if_neg absent]
    rw [Link.readPacked, ofPacked.values _ _ found, ih (by omega)]
    simp only [Except.bind, Except.map, value]
    rw [drop_eq_getElem_cons lt, take_succ_cons]

theorem answers : link.Answers parentsOf parents where
  forward := ofPacked.forward small
  forwardRun first count inside := by
    have short := ofPacked.short
    rw [Link.forwardRun, ofPacked.children, if_neg (by omega)]
    by_cases empty : count = 0
    · simp [empty]
    · simp only [if_neg empty, ofPacked.body]
      exact ofPacked.readPacked small inside
  forwardEach children := by
    simp only [Link.forwardEach, ofPacked.children, ofPacked.body]
    refine map_congr_left fun child _ => ?_
    rw [getD_eq_getElem?_getD]
    cases found : parentsOf[child]? with
    | none =>
      rw [if_pos (getElem?_eq_none_iff.mp found)]
      rfl
    | some parent =>
      have inside := (List.getElem?_eq_some_iff.mp found).1
      rw [if_neg (by omega), ofPacked.present small found, filter_some]
      split
      · rfl
      rename_i absent
      simp only [ne_eq, decide_not, Bool.not_eq_true', decide_eq_false_iff_not, not_not] at absent
      rw [absent]
      rfl
  partBounds part inside := by
    have short := ofPacked.short
    have held : part * partRows % 2 ^ 64 = part * partRows := Nat.mod_eq_of_lt (by omega)
    refine ⟨_, ?_, foldl_widen _⟩
    simp only [Link.partBounds, held, ofPacked.children, ofPacked.body]
    rw [if_neg (by omega), ofPacked.heads part inside]
  backward form := by simp [Link.form, ofPacked.body] at form
  backwardPast parent _ := by simp only [Link.backward, ofPacked.body]
  backwardFrom form := by simp [Link.form, ofPacked.body] at form

end Link.OfPacked

/-- The pass over children whose parents are all there: it finds no error, and the link is monotone when
every child has a parent and the parents never fall. -/
theorem scanChildren_eq (below : Below parentsOf parents) (scan : Scan) :
    ∃ scan', scanChildren parents scan parentsOf = .ok scan' ∧ scan'.linked ≤ scan.linked + parentsOf.length ∧
      (scan'.monotone = true → scan.monotone = true ∧ noParent ∉ parentsOf ∧
        (scan.previous :: parentsOf).Pairwise (· ≤ ·) ∧
        scan'.linked = scan.linked + parentsOf.length) := by
  induction parentsOf generalizing scan with
  | nil => exact ⟨scan, rfl, le_rfl, fun monotone => ⟨monotone, not_mem_nil, pairwise_singleton _ _, rfl⟩⟩
  | cons parent rest ih =>
    simp only [Below, mem_cons, forall_eq_or_imp] at below
    by_cases absent : parent = noParent
    · have here : scanChild parents scan parent = .ok { scan with monotone := false } := if_pos absent
      obtain ⟨scan', run, le, monotone⟩ := ih below.2 { scan with monotone := false }
      dsimp only at le
      refine ⟨scan', by rw [scanChildren, here]; exact run, by rw [length_cons]; omega, fun stays => ?_⟩
      cases (monotone stays).1
    have here : scanChild parents scan parent =
        .ok { linked := scan.linked + 1, monotone := scan.monotone && scan.previous ≤ parent, previous := parent } := by
      rw [scanChild, if_neg absent, if_neg (by omega)]
    obtain ⟨scan', run, le, monotone⟩ := ih below.2
      { linked := scan.linked + 1, monotone := scan.monotone && scan.previous ≤ parent, previous := parent }
    dsimp only at le
    refine ⟨scan', by rw [scanChildren, here]; exact run, by rw [length_cons]; omega, fun stays => ?_⟩
    obtain ⟨before, present, sorted, linked⟩ := monotone stays
    simp only [Bool.and_eq_true, decide_eq_true_eq] at before
    dsimp only at sorted linked
    refine ⟨before.1, ?_, ?_, by rw [length_cons]; omega⟩
    · rintro (_ | ⟨_, member⟩)
      · exact absent rfl
      · exact present member
    refine pairwise_cons.mpr ⟨fun other member => ?_, sorted⟩
    rcases mem_cons.mp member with rfl | member
    · exact before.2
    · exact before.2.trans ((pairwise_cons.mp sorted).1 other member)

theorem packedBody_eq (small : parents < 2 ^ 64) (short : parentsOf.length < 2 ^ 58) (below : Below parentsOf parents) :
    ∃ bytes heads, packedBody parentsOf parents = .ok (.packed bytes (widthFor parents) heads) ∧
      bytes.length = tailLen parentsOf.length (widthFor parents) ∧
      heads = (List.range ((parentsOf.length + partRows - 1) / partRows)).map
        (fun part => (partOf parentsOf part).foldl widen none) ∧
      ∀ link : Link, link.children = parentsOf.length → link.body = .packed bytes (widthFor parents) heads →
        link.OfPacked parentsOf parents bytes heads := by
  have width := widthFor_le small
  have fits : ∀ value ∈ parentsOf.map (packedValue parents), value < 2 ^ widthFor parents := by
    intro value member
    obtain ⟨parent, among, rfl⟩ := mem_map.mp member
    exact packedValue_lt small (below parent among)
  have room : (parentsOf.map (packedValue parents)).length * widthFor parents < 2 ^ 64 := by
    rw [length_map]
    have := Nat.mul_le_mul_left parentsOf.length width
    omega
  obtain ⟨bytes, packed, length, read⟩ := tailAt_packLinear (widthFor_pos parents) width fits room
  have run : packLinear (parentsOf.map fun parent => if parent = noParent then reserved (widthFor parents) else parent)
      (widthFor parents) = .ok bytes := packed
  refine ⟨bytes, _, by rw [packedBody, run]; rfl, by rwa [length_map] at length, rfl, fun link children body => ?_⟩
  refine ⟨children, body, fun child parent found => read child _ (by rw [getElem?_map, found, map_some]),
    fun part inside => ?_, below, by omega⟩
  rw [getElem?_map, getElem?_range, map_some]
  simp only [partRows] at inside ⊢
  omega

end Rudb.Graph
