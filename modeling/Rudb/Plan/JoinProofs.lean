import Rudb.Plan.Join

/-! Which rows of its inputs a join can lose when a filter is read above it. -/
namespace Rudb.Plan
open Rudb.Common Rudb.Lib List Bool

def Reads (tables : List Nat) (expr : Expr) : Prop := ∀ read ∈ expr.columns, read.1.table ∈ tables

def Below.OfLeft (below : Below) (left row : Tuple) : Prop :=
  ∀ binding, binding.table ∈ below.left → row binding = left binding

def Below.OfRight (below : Below) (right row : Tuple) : Prop :=
  ∀ binding, binding.table ∈ below.right → row binding = right binding

section rows
variable {kernel : Kernel} {below : Below} {left right : Tuple}

theorem Below.pair_left : below.OfLeft left (below.pair left right) := by
  intro binding inside
  simp [Below.pair, inside]

theorem Below.pair_right : below.OfRight right (below.pair left right) := by
  intro binding inside
  have outside : binding.table ∉ below.left := fun other => below.apart _ other inside
  simp [Below.pair, outside]

theorem Below.OfLeft.eval (same : below.OfLeft left row) (reads : Reads below.left expr) :
    eval kernel row expr = Plan.eval kernel left expr :=
  eval_congr kernel fun read member => same read.1 (reads read member)

theorem Below.OfRight.eval (same : below.OfRight right row) (reads : Reads below.right expr) :
    eval kernel row expr = Plan.eval kernel right expr :=
  eval_congr kernel fun read member => same read.1 (reads read member)

end rows

theorem passes_iff :
    passes kernel parts row = true ↔ ∀ part ∈ parts, isTrue (eval kernel row part) = true := by
  simp [passes]

namespace Join
variable {kernel : Kernel} {join : Join} {lefts rights : List Tuple}

/-- What the predicates above a join keep turns on whether two rows meet: they keep the pair, or the row that stands
for one of them when it meets none. For a mark join, a pair that is not false counts for the marker, and what is kept
is the row under its marker, under the marker of no rows, or under the null that another row leaves. -/
def Matters (kernel : Kernel) (join : Join) (rights : Set Tuple) (filter : Tuple → Bool) (left right : Tuple) : Prop :=
  match join.kind with
  | .inner => join.meets kernel left right = true ∧ filter (join.below.pair left right) = true
  | .left | .single => join.meets kernel left right = true ∧
      (filter (join.below.pair left right) = true ∨ filter (join.below.padRight left) = true)
  | .right => join.meets kernel left right = true ∧
      (filter (join.below.pair left right) = true ∨ filter (join.below.padLeft right) = true)
  | .semi | .anti => join.meets kernel left right = true ∧ filter left = true
  | .mark => join.markerOf kernel [right] left ≠ ofBool false ∧ ∃ mark, filter (join.marked left mark) = true ∧
      (mark = join.markerOf kernel [right] left ∨ mark = ofBool false ∨
        mark = .null ∧ ∃ other ∈ rights, join.markerOf kernel [other] left = .null)
  | .full | .positional => False

/-- Which rows may be kept out of the inputs of a join: only those of a side that is not all kept, and none that pads
to the pairs it is in. -/
structure Spares (kernel : Kernel) (join : Join) (keepLeft keepRight : Tuple → Bool) : Prop where
  left : join.kind ≠ .inner → join.kind ≠ .right → ∀ left, keepLeft left = true
  right : join.kind = .right ∨ join.kind = .full ∨ join.kind = .positional → ∀ right, keepRight right = true
  padRight : ∀ left right, join.meets kernel left right = true → keepRight right = false →
    join.below.pair left right ≠ join.below.padRight left
  padLeft : ∀ left right, join.meets kernel left right = true → keepLeft left = false →
    join.below.pair left right ≠ join.below.padLeft right

/-- A kind that gives the rows of one left row at a time, and nothing after them. -/
theorem joined_gather (kind : join.kind ≠ .right) (kind' : join.kind ≠ .full) (mark : join.kind ≠ .mark)
    (positional : join.kind ≠ .positional) : join.joined kernel lefts rights =
      gather (fun left => join.emit left (join.matching kernel rights left)) lefts := by
  unfold joined
  split
  · contradiction
  · contradiction
  · have none : join.leftOver kernel lefts rights = [] := by
      unfold leftOver
      split <;> first | contradiction | rfl
    simp [none]

variable {left : Tuple}

theorem matching_filter
    (kept : ∀ right ∈ rights, join.meets kernel left right = true → keep right = true) :
    join.matching kernel (rights.filter keep) left = join.matching kernel rights left := by
  unfold matching
  rw [filter_filter]
  refine filter_congr fun right member => ?_
  by_cases meets : join.meets kernel left right = true
  · simp [meets, kept right member meets]
  · simp [eq_false_iff.mpr meets]

theorem emit_fewer (less : fewer.length ≤ hits.length)
    (given : join.emit left hits = some out) : ∃ out', join.emit left fewer = some out' := by
  unfold emit at given ⊢
  cases kind : join.kind <;> simp only [kind] at given ⊢ <;> rcases fewer with _ | ⟨one, _ | ⟨two, more⟩⟩ <;>
    try exact ⟨_, rfl⟩
  rcases hits with _ | ⟨_, _ | ⟨_, _⟩⟩ <;> simp at less given

variable {filter : Tuple → Bool}

/-- Rows that meet a left row and are dropped give no pair that is kept. -/
theorem pairs_filter (kept : ∀ right ∈ rights, join.meets kernel left right = true →
    filter (join.below.pair left right) = true → keep right = true) :
    ((join.matching kernel (rights.filter keep) left).map (join.below.pair left)).filter filter =
      ((join.matching kernel rights left).map (join.below.pair left)).filter filter := by
  simp only [matching, filter_map, filter_filter]
  congr 1
  refine filter_congr fun right among => ?_
  by_cases meets : join.meets kernel left right = true
  · by_cases passing : filter (join.below.pair left right) = true
    · simp [meets, passing, kept right among meets passing]
    · simp [eq_false_iff.mpr passing]
  · simp [eq_false_iff.mpr meets]

/-- The row that stands for a left row with no match. -/
def unmatched (join : Join) (left : Tuple) : Tuple :=
  match join.kind with
  | .left | .single => join.below.padRight left
  | _ => left

/-- Where the row that stands for a left row is dropped, so is all that it gives but its pairs. -/
theorem emit_filter (kind : join.kind = .left ∨ join.kind = .single ∨ join.kind = .semi ∨ join.kind = .anti)
    (given : join.emit left hits = some out) (dropped : filter (join.unmatched left) = false) :
    out.filter filter =
      if join.kind = .left ∨ join.kind = .single then (hits.map (join.below.pair left)).filter filter else [] := by
  rcases kind with kind | kind | kind | kind <;> simp only [unmatched, emit, kind] at dropped given
  · rcases hits with _ | ⟨hit, hits⟩ <;> cases given <;> simp [kind, dropped]
  · rcases hits with _ | ⟨hit, _ | ⟨other, hits⟩⟩ <;> cases given <;> simp [kind, dropped]
  · rcases hits with _ | ⟨hit, hits⟩ <;> cases given <;> simp [kind, dropped]
  · rcases hits with _ | ⟨hit, hits⟩ <;> cases given <;> simp [kind, dropped]

/-- The kinds that keep every left row in some form. -/
theorem joined_pruned_left (kind : join.kind = .left ∨ join.kind = .single ∨ join.kind = .semi ∨ join.kind = .anti)
    (prunable : ∀ left ∈ lefts, ∀ right ∈ rights, join.meets kernel left right = true →
      (filter (join.unmatched left) = true → keepRight right = true) ∧
      (join.kind = .left ∨ join.kind = .single → filter (join.below.pair left right) = true → keepRight right = true))
    (run : join.joined kernel lefts rights = some rows) :
    ∃ rows', join.joined kernel lefts (rights.filter keepRight) = some rows' ∧
      rows'.filter filter = rows.filter filter := by
  obtain ⟨right, full, mark, positional⟩ :
      join.kind ≠ .right ∧ join.kind ≠ .full ∧ join.kind ≠ .mark ∧ join.kind ≠ .positional := by
    rcases kind with same | same | same | same <;> simp [same]
  rw [joined_gather right full mark positional] at run ⊢
  have all : lefts.filter (fun _ => true) = lefts := by simp
  rw [← all]
  refine gather_filter (fun left member out given => ?_) run
  rw [if_pos rfl]
  by_cases stands : filter (join.unmatched left) = true
  · rw [matching_filter fun right among meets => (prunable left member right among meets).1 stands]
    exact ⟨out, given, rfl⟩
  have dropped := eq_false_iff.mpr stands
  obtain ⟨out', given'⟩ := emit_fewer (List.Sublist.length_le
    ((filter_sublist (p := keepRight)).filter (join.meets kernel left))) given
  refine ⟨out', given', ?_⟩
  rw [emit_filter kind given dropped, emit_filter kind given' dropped]
  split
  · rename_i pads
    exact pairs_filter fun right among meets => (prunable left member right among meets).2 pads
  · rfl

/-- The pairs of a join, without the rows it pads. -/
theorem pairs_pruned (kind : join.kind = .inner ∨ join.kind = .right)
    (prunable : ∀ left ∈ lefts, ∀ right ∈ rights, join.meets kernel left right = true →
      filter (join.below.pair left right) = true → keepLeft left = true ∧ keepRight right = true)
    (run : gather (fun left => join.emit left (join.matching kernel rights left)) lefts = some rows) :
    ∃ rows', gather (fun left => join.emit left (join.matching kernel (rights.filter keepRight) left))
      (lefts.filter keepLeft) = some rows' ∧ rows'.filter filter = rows.filter filter := by
  have emits (left : Tuple) (hits : List Tuple) : join.emit left hits = some (hits.map (join.below.pair left)) := by
    rcases kind with same | same <;> simp [emit, same]
  simp only [emits] at run ⊢
  refine gather_filter (fun left member out given => ?_) run
  cases given
  by_cases kept : keepLeft left = true
  · rw [if_pos kept]
    exact ⟨_, rfl, pairs_filter fun right among meets passing => (prunable left member right among meets passing).2⟩
  · rw [if_neg kept, filter_eq_nil_iff]
    intro row among passing
    obtain ⟨right, hit, rfl⟩ := mem_map.mp among
    obtain ⟨among, meets⟩ := mem_filter.mp hit
    exact kept (prunable left member right among meets passing).1

theorem joined_pruned_right (kind : join.kind = .right)
    (prunable : ∀ left ∈ lefts, ∀ right ∈ rights, join.meets kernel left right = true →
      filter (join.below.pair left right) = true ∨ filter (join.below.padLeft right) = true → keepLeft left = true)
    (run : join.joined kernel lefts rights = some rows) :
    ∃ rows', join.joined kernel (lefts.filter keepLeft) rights = some rows' ∧
      rows'.filter filter = rows.filter filter := by
  have all : rights.filter (fun _ => true) = rights := by simp
  simp only [joined, kind] at run ⊢
  obtain ⟨pairs, given, rfl⟩ := Option.map_eq_some_iff.mp run
  have spared : ∀ left ∈ lefts, ∀ right ∈ rights, join.meets kernel left right = true →
      filter (join.below.pair left right) = true → keepLeft left = true ∧ (fun _ : Tuple => true) right = true :=
    fun left member right among meets passing => ⟨prunable left member right among meets (.inl passing), rfl⟩
  obtain ⟨pairs', given', same⟩ := pairs_pruned (.inr kind) spared given
  rw [all] at given'
  refine ⟨_, by rw [given']; rfl, ?_⟩
  rw [filter_append, filter_append]
  congr 1
  simp only [leftOver, kind, filter_map, filter_filter]
  congr 1
  refine filter_congr fun right among => ?_
  by_cases passing : filter (join.below.padLeft right) = true
  · have any : ((lefts.filter keepLeft).any fun left => join.meets kernel left right) =
        lefts.any fun left => join.meets kernel left right := by
      rw [Bool.eq_iff_iff, any_eq_true, any_eq_true]
      constructor
      · rintro ⟨left, member, meets⟩
        exact ⟨left, (mem_filter.mp member).1, meets⟩
      · rintro ⟨left, member, meets⟩
        exact ⟨left, mem_filter.mpr ⟨member, prunable left member right among meets (.inr passing)⟩, meets⟩
    simp [any]
  · simp [eq_false_iff.mpr passing]

theorem markerOf_true : join.markerOf kernel [right] left = ofBool true ↔
    isTrue (join.merged kernel left right) = true := by
  simp only [markerOf, map_cons, map_nil, any_cons, any_nil, Bool.or_false]
  split
  · simp [*]
  split <;> simp [*, ofBool]

theorem markerOf_null : join.markerOf kernel [right] left = .null ↔ (join.merged kernel left right).isNull = true := by
  simp only [markerOf, map_cons, map_nil, any_cons, any_nil, Bool.or_false]
  split
  · rename_i hit
    cases same : join.merged kernel left right <;> simp_all [ofBool, Value.isNull]
  split <;> simp [*, ofBool]

theorem markerOf_cases (kernel : Kernel) (join : Join) (left : Tuple) (rights : List Tuple) :
    (∃ right ∈ rights, join.markerOf kernel [right] left = ofBool true) ∧
      join.markerOf kernel rights left = ofBool true ∨
    (∀ right ∈ rights, join.markerOf kernel [right] left ≠ ofBool true) ∧
      ((∃ right ∈ rights, join.markerOf kernel [right] left = .null) ∧ join.markerOf kernel rights left = .null ∨
      (∀ right ∈ rights, join.markerOf kernel [right] left ≠ .null) ∧
        join.markerOf kernel rights left = ofBool false) := by
  simp only [ne_eq, markerOf_true, markerOf_null]
  unfold markerOf
  dsimp only
  split
  · rename_i hit
    exact .inl ⟨by simpa using hit, rfl⟩
  rename_i none
  refine .inr ⟨by simpa using none, ?_⟩
  split
  · rename_i null
    exact .inl ⟨by simpa using null, rfl⟩
  · rename_i known
    exact .inr ⟨by simpa using known, rfl⟩

/-- A marker changes by the rows left out only where what is kept does not turn on it. -/
theorem marker_kept (kind : join.kind = .mark) (prunable : ∀ right ∈ rights,
      join.Matters kernel {right | right ∈ rights} filter left right → keepRight right = true) :
    join.markerOf kernel (rights.filter keepRight) left = join.markerOf kernel rights left ∨
      filter (join.marked left (join.markerOf kernel rights left)) = false ∧
        filter (join.marked left (join.markerOf kernel (rights.filter keepRight) left)) = false := by
  -- a row left out that counts leaves no marker under which the left row is kept
  have dropped {right : Tuple} (among : right ∈ rights) (out : right ∉ rights.filter keepRight)
      (counts : join.markerOf kernel [right] left ≠ ofBool false) {mark : Value}
      (may : mark = join.markerOf kernel [right] left ∨ mark = ofBool false ∨
        mark = .null ∧ ∃ other ∈ rights, join.markerOf kernel [other] left = .null) :
      filter (join.marked left mark) = false := by
    by_contra kept
    have matters : join.Matters kernel {right | right ∈ rights} filter left right := by
      unfold Matters
      rw [kind]
      exact ⟨counts, mark, by simpa using kept, may⟩
    exact out (mem_filter.mpr ⟨among, prunable right among matters⟩)
  rcases markerOf_cases kernel join left rights with ⟨⟨right, among, hit⟩, whole⟩ |
    ⟨none, ⟨⟨right, among, null⟩, whole⟩ | ⟨known, whole⟩⟩ <;>
  rcases markerOf_cases kernel join left (rights.filter keepRight) with
    ⟨⟨one, kept, hit'⟩, part⟩ | ⟨none', ⟨⟨one, kept, null'⟩, part⟩ | ⟨known', part⟩⟩ <;> rw [whole, part]
  · exact .inl rfl
  · have out : right ∉ rights.filter keepRight := fun kept => none' right kept hit
    have counts : join.markerOf kernel [right] left ≠ ofBool false := by simp [hit, ofBool]
    exact .inr ⟨dropped among out counts (.inl hit.symm),
      dropped among out counts (.inr (.inr ⟨rfl, one, (mem_filter.mp kept).1, null'⟩))⟩
  · have out : right ∉ rights.filter keepRight := fun kept => none' right kept hit
    have counts : join.markerOf kernel [right] left ≠ ofBool false := by simp [hit, ofBool]
    exact .inr ⟨dropped among out counts (.inl hit.symm), dropped among out counts (.inr (.inl rfl))⟩
  · exact absurd hit' (none one (mem_filter.mp kept).1)
  · exact .inl rfl
  · have out : right ∉ rights.filter keepRight := fun kept => known' right kept null
    have counts : join.markerOf kernel [right] left ≠ ofBool false := by simp [null, ofBool]
    exact .inr ⟨dropped among out counts (.inl null.symm), dropped among out counts (.inr (.inl rfl))⟩
  · exact absurd hit' (none one (mem_filter.mp kept).1)
  · exact absurd null' (known one (mem_filter.mp kept).1)
  · exact .inl rfl

theorem joined_pruned_mark (kind : join.kind = .mark)
    (prunable : ∀ left ∈ lefts, ∀ right ∈ rights, join.Matters kernel {right | right ∈ rights} filter left right →
      keepRight right = true)
    (run : join.joined kernel lefts rights = some rows) :
    ∃ rows', join.joined kernel lefts (rights.filter keepRight) = some rows' ∧
      rows'.filter filter = rows.filter filter := by
  simp only [joined, kind] at run ⊢
  cases run
  refine ⟨_, rfl, ?_⟩
  induction lefts with
  | nil => rfl
  | cons left rest ih =>
    have later := ih fun left member => prunable left (mem_cons_of_mem _ member)
    simp only [map_cons, filter_cons]
    rcases marker_kept kind (prunable left mem_cons_self) with same | ⟨whole, part⟩
    · rw [same, later]
    · simp [whole, part, later]

/-- Whatever rows of two sets its inputs hold, a join that answers still does with some of them left out, and what is
kept of the answer is the same list of rows. -/
def Answers (kernel : Kernel) (join : Join) (lefts rights : Set Tuple)
    (keepLeft keepRight filter : Tuple → Bool) : Prop :=
  ∀ ls rs rows, (∀ left ∈ ls, left ∈ lefts) → (∀ right ∈ rs, right ∈ rights) → join.joined kernel ls rs = some rows →
    ∃ rows', join.joined kernel (ls.filter keepLeft) (rs.filter keepRight) = some rows' ∧
      rows'.filter filter = rows.filter filter

theorem Matters.mono {some_ more : Set Tuple} (fewer : some_ ⊆ more)
    (matters : join.Matters kernel some_ filter left right) :
    join.Matters kernel more filter left right := by
  unfold Matters at matters ⊢
  split at matters
  case h_7 =>
    obtain ⟨counts, mark, kept, same | same | ⟨null, other, among, other_null⟩⟩ := matters
    · exact ⟨counts, mark, kept, .inl same⟩
    · exact ⟨counts, mark, kept, .inr (.inl same)⟩
    · exact ⟨counts, mark, kept, .inr (.inr ⟨null, other, fewer among, other_null⟩)⟩
  all_goals exact matters

section pruned
variable {lefts rights : Set Tuple}

/-- Rows that do not matter can be left out. -/
theorem answers_of_spared (spares : Spares kernel join keepLeft keepRight)
    (spared : ∀ left ∈ lefts, ∀ right ∈ rights, join.Matters kernel rights filter left right →
      keepLeft left = true ∧ keepRight right = true) :
    join.Answers kernel lefts rights keepLeft keepRight filter := by
  intro ls rs rows inLefts inRights run
  have all_left (kind : join.kind ≠ .inner) (kind' : join.kind ≠ .right) : ls.filter keepLeft = ls :=
    filter_eq_self.mpr fun left _ => spares.left kind kind' left
  have all_right (kind : join.kind = .right ∨ join.kind = .full ∨ join.kind = .positional) :
      rs.filter keepRight = rs :=
    filter_eq_self.mpr fun right _ => spares.right kind right
  have here {left right : Tuple} (member : left ∈ ls) (among : right ∈ rs) :=
    spared left (inLefts left member) right (inRights right among)
  unfold Matters at here
  cases kind : join.kind <;> simp only [kind] at here
  case inner =>
    have plain : ∀ lefts rights, join.joined kernel lefts rights =
        gather (fun left => join.emit left (join.matching kernel rights left)) lefts := fun lefts rights =>
      joined_gather (by simp [kind]) (by simp [kind]) (by simp [kind]) (by simp [kind])
    rw [plain] at run ⊢
    exact pairs_pruned (.inl kind) (fun left member right among meets passing => here member among ⟨meets, passing⟩) run
  case left | single =>
    rw [all_left (by simp [kind]) (by simp [kind])]
    refine joined_pruned_left (by simp [kind]) (fun left member right among meets => ?_) run
    simp only [unmatched, kind]
    exact ⟨fun stands => (here member among ⟨meets, .inr stands⟩).2,
      fun _ passing => (here member among ⟨meets, .inl passing⟩).2⟩
  case semi | anti =>
    rw [all_left (by simp [kind]) (by simp [kind])]
    refine joined_pruned_left (by simp [kind]) (fun left member right among meets => ?_) run
    simp only [unmatched, kind]
    exact ⟨fun stands => (here member among ⟨meets, stands⟩).2, by simp⟩
  case right =>
    rw [all_right (.inl kind)]
    exact joined_pruned_right kind (fun left member right among meets passing =>
      (here member among ⟨meets, passing⟩).1) run
  case mark =>
    rw [all_left (by simp [kind]) (by simp [kind])]
    exact joined_pruned_mark kind (fun left member right among matters =>
      (spared left (inLefts left member) right (inRights right among) (matters.mono inRights)).2) run
  case full =>
    rw [all_left (by simp [kind]) (by simp [kind]), all_right (.inr (.inl kind))]
    exact ⟨rows, run, rfl⟩
  case positional =>
    rw [all_left (by simp [kind]) (by simp [kind]), all_right (.inr (.inr kind))]
    exact ⟨rows, run, rfl⟩

theorem filter_singletons {kept : Tuple → Bool} (differ : one ≠ other) (same : [one].filter kept = [other].filter kept) :
    kept one = false ∧ kept other = false := by
  cases first : kept one <;> cases second : kept other <;> simp_all

/-- One row beside some others shows whether those that matter are kept. -/
theorem Answers.one (answers : join.Answers kernel lefts rights keepLeft keepRight filter) (member : left ∈ lefts)
    (among : ∀ right ∈ rs, right ∈ rights) (run : join.joined kernel [left] rs = some rows) :
    ∃ rows', join.joined kernel ([left].filter keepLeft) (rs.filter keepRight) = some rows' ∧
      rows'.filter filter = rows.filter filter :=
  answers [left] rs rows (by simpa using member) among run

/-- Where a marker changes by the rows left out, the row is kept under neither. -/
theorem Answers.marks (answers : join.Answers kernel lefts rights keepLeft keepRight filter) (kind : join.kind = .mark)
    (kept : keepLeft left = true) (member : left ∈ lefts) (among : ∀ right ∈ rs, right ∈ rights)
    (whole : join.markerOf kernel rs left = mark) (part : join.markerOf kernel (rs.filter keepRight) left = mark')
    (differ : mark' ≠ mark) : filter (join.marked left mark') = false ∧ filter (join.marked left mark) = false := by
  subst whole part
  have whole : join.joined kernel [left] rs = some [join.marked left (join.markerOf kernel rs left)] := by
    simp only [joined, kind, map_cons, map_nil]
  obtain ⟨rows', run, same⟩ := answers.one member among whole
  simp only [joined, kind, filter_cons, kept, if_true, filter_nil, map_cons, map_nil, Option.some.injEq] at run
  subst run
  refine filter_singletons (fun alike => differ ?_) same
  have here := congrFun alike join.marker
  simpa [marked, Below.pair, join.apart] using here

/-- Rows that matter cannot be left out. -/
theorem Answers.spared (spares : Spares kernel join keepLeft keepRight)
    (answers : join.Answers kernel lefts rights keepLeft keepRight filter) (member : left ∈ lefts)
    (among : right ∈ rights) (matters : join.Matters kernel rights filter left right) :
    keepLeft left = true ∧ keepRight right = true := by
  have only : ∀ row ∈ [right], row ∈ rights := by simpa using among
  unfold Matters at matters
  cases kind : join.kind <;> simp only [kind] at matters
  case inner =>
    obtain ⟨meets, passing⟩ := matters
    have whole : join.joined kernel [left] [right] = some [join.below.pair left right] := by
      simp [joined, kind, gather, matching, meets, emit, leftOver]
    obtain ⟨rows', run, same⟩ := answers.one member only whole
    cases keptLeft : keepLeft left <;> cases keptRight : keepRight right <;>
      simp [joined, kind, gather, matching, emit, leftOver, keptLeft, keptRight] at run <;>
      simp [← run, passing] at same
    exact ⟨rfl, rfl⟩
  case left | single =>
    obtain ⟨meets, passing⟩ := matters
    have keptLeft := spares.left (by simp [kind]) (by simp [kind]) left
    have whole : join.joined kernel [left] [right] = some [join.below.pair left right] := by
      simp [joined, kind, gather, matching, meets, emit, leftOver]
    obtain ⟨rows', run, same⟩ := answers.one member only whole
    cases keptRight : keepRight right with
    | true => exact ⟨keptLeft, rfl⟩
    | false =>
      simp [joined, kind, gather, matching, emit, leftOver, keptLeft, keptRight] at run
      subst run
      have dropped := filter_singletons (spares.padRight left right meets keptRight).symm same
      simp [dropped] at passing
  case semi =>
    obtain ⟨meets, passing⟩ := matters
    have keptLeft := spares.left (by simp [kind]) (by simp [kind]) left
    have whole : join.joined kernel [left] [right] = some [left] := by
      simp [joined, kind, gather, matching, meets, emit, leftOver]
    obtain ⟨rows', run, same⟩ := answers.one member only whole
    cases keptRight : keepRight right with
    | true => exact ⟨keptLeft, rfl⟩
    | false =>
      simp [joined, kind, gather, matching, emit, leftOver, keptLeft, keptRight] at run
      simp [← run, passing] at same
  case anti =>
    obtain ⟨meets, passing⟩ := matters
    have keptLeft := spares.left (by simp [kind]) (by simp [kind]) left
    have whole : join.joined kernel [left] [right] = some [] := by
      simp [joined, kind, gather, matching, meets, emit, leftOver]
    obtain ⟨rows', run, same⟩ := answers.one member only whole
    cases keptRight : keepRight right with
    | true => exact ⟨keptLeft, rfl⟩
    | false =>
      simp [joined, kind, gather, matching, emit, leftOver, keptLeft, keptRight] at run
      simp [← run, passing] at same
  case right =>
    obtain ⟨meets, passing⟩ := matters
    have keptRight := spares.right (.inl kind) right
    have whole : join.joined kernel [left] [right] = some [join.below.pair left right] := by
      simp [joined, kind, gather, matching, meets, emit, leftOver]
    obtain ⟨rows', run, same⟩ := answers.one member only whole
    cases keptLeft : keepLeft left with
    | true => exact ⟨rfl, keptRight⟩
    | false =>
      simp [joined, kind, gather, leftOver, keptLeft, keptRight] at run
      subst run
      have dropped := filter_singletons (spares.padLeft left right meets keptLeft).symm same
      simp [dropped] at passing
  case mark =>
    obtain ⟨counts, mark, passing, may⟩ := matters
    have keptLeft := spares.left (by simp [kind]) (by simp [kind]) left
    refine ⟨keptLeft, ?_⟩
    by_contra out
    have none : join.markerOf kernel ([right].filter keepRight) left = ofBool false := by
      simp [eq_false_iff.mpr out, markerOf]
    have dropped := answers.marks kind keptLeft member only rfl none counts.symm
    rcases may with rfl | rfl | ⟨rfl, other, among', null⟩
    · simp [dropped] at passing
    · simp [dropped] at passing
    -- the null of the other row is what is left, with or without it
    have other_only : ∀ row ∈ [other], row ∈ rights := by simpa using among'
    by_cases kept : keepRight other = true
    · have both : ∀ row ∈ [right, other], row ∈ rights := by simp [among, among']
      have part : join.markerOf kernel ([right, other].filter keepRight) left = .null := by
        simp [eq_false_iff.mpr out, kept, null]
      rcases markerOf_cases kernel join left [right] with ⟨⟨_, only, hit⟩, -⟩ | ⟨-, ⟨-, one⟩ | ⟨-, one⟩⟩
      · have whole : join.markerOf kernel [right, other] left = ofBool true := by
          rcases markerOf_cases kernel join left [right, other] with ⟨-, whole⟩ | ⟨never, -⟩
          · exact whole
          · exact absurd (mem_singleton.mp only ▸ hit) (never right mem_cons_self)
        have dropped := answers.marks kind keptLeft member both whole part (by simp [ofBool])
        simp [dropped] at passing
      · rw [one] at dropped
        simp [dropped] at passing
      · exact counts one
    · have none : join.markerOf kernel ([other].filter keepRight) left = ofBool false := by
        simp [eq_false_iff.mpr kept, markerOf]
      have dropped := answers.marks kind keptLeft member other_only null none (by simp [ofBool])
      simp [dropped] at passing

end pruned

end Join
end Rudb.Plan
