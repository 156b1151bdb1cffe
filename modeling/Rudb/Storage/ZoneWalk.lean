import Rudb.Storage.ZoneEnds

/-! What the walk over each form of a column finds: ends of its rows, and of every row when it says
that it saw them all. -/
namespace Rudb.Storage.Zones
open Rudb.Common Rudb.Vectors List

variable {ty : LogicalType} {rows : List Value} {found : Option Bound × Option Bound}

/-- What a walk found is right: its ends cover the rows, and when it is exact and the rows are
`marked` it saw them all. -/
structure Right (ty : LogicalType) (marked : Prop) (walked : Walked) (rows : List Value) : Prop where
  ends : EndsCover ty (scaledEnds ty (walked.low, walked.high)) rows
  whole : marked → walked.exact = true → Spans ty (scaledEnds ty (walked.low, walked.high)) rows

theorem Right.of_spans
    (spans : Spans ty (scaledEnds ty (walked.low, walked.high)) rows) : Right ty marked walked rows :=
  ⟨spans.toEndsCover, fun _ _ => spans⟩

theorem scaledAs_of_in {bound : Bound} (inside : bound.In ty) : bound.scaledAs ty = bound := by
  cases bound with
  | int number => simp [Bound.scaledAs, inside.1]
  | _ => rfl

theorem Spans.single (inside : bound.In ty) (found : Bound.ofValue value = some bound)
    (named : ∀ row ∈ rows, row = .null ∨ row = value) : Spans ty (scaledEnds ty (some bound, some bound)) rows := by
  have one : Extremes.Of [()] (some (), some ()) := .some (by simp) (by simp) (by simp)
  have spans : Spans ty _ rows := .of_extremes one (fun _ => bound) (fun _ _ => inside) (fun _ _ => by simp)
    (fun row member => (named row member).imp id fun same => ⟨(), by simp, by rw [same, found]⟩)
  simpa [scaledEnds, scaledAs_of_in inside] using spans

variable {head : Head}

theorem constant_right (built : (Vector.constant head value).Built)
    (clean : Clean (.constant head value)) (asked : head.ty.asked = true) (marked : Prop) :
    Right head.ty marked (constant head value) (Vector.constant head value).values := by
  have named (row : Value) (member : row ∈ (Vector.constant head value).values) : row = .null ∨ row = value := by
    rcases mem_values member with null | ⟨row, live, rfl⟩
    · exact .inl null
    · exact .inr (if_pos live)
  unfold constant
  split
  · exact .of_spans (.of_null fun row member => (named row member).elim id id)
  have inside (bound : Bound) (found : Bound.ofValue value = some bound) : bound.In head.ty := by
    refine (Bound.ofValue_in built asked found).resolve_right ?_
    rintro rfl
    exact clean.1 (Bound.ofValue_nan found)
  split
  · rename_i only found
    exact .of_spans (.single (inside _ found) found named)
  · rename_i number found
    exact .of_spans (.single (inside _ found) found named)
  · rename_i other _ _ found
    exact .of_spans (.single (inside _ found) found named)
  · exact ⟨.none, nofun⟩

theorem ends_extremes (start step : Int) (some_ : len ≠ 0) :
    ∃ found, Extremes.Of ((range len).map fun row : Nat => start + step * row) found ∧
      ends start step len = (found.1.map .int, found.2.map .int) := by
  have first : start ∈ (range len).map fun row : Nat => start + step * row :=
    mem_map.mpr ⟨0, mem_range.mpr (Nat.pos_of_ne_zero some_), by simp⟩
  have last : start + step * (len - 1) ∈ (range len).map fun row : Nat => start + step * row :=
    mem_map.mpr ⟨len - 1, mem_range.mpr (by omega), by congr; omega⟩
  have between (number : Int) (member : number ∈ (range len).map fun row : Nat => start + step * row) :
      (start ≤ number ∧ number ≤ start + step * (len - 1)) ∨ (start + step * (len - 1) ≤ number ∧ number ≤ start) := by
    obtain ⟨row, inside, rfl⟩ := mem_map.mp member
    have inside : (row : Int) ≤ len - 1 := by have := mem_range.mp inside; omega
    rcases le_total 0 step with up | down
    · have most := mul_le_mul_of_nonneg_left inside up
      have least := mul_nonneg up (Int.natCast_nonneg row)
      exact .inl ⟨by linarith, by linarith⟩
    · have most := mul_le_mul_of_nonpos_left inside down
      have least := mul_nonpos_of_nonpos_of_nonneg down (Int.natCast_nonneg row)
      exact .inr ⟨by linarith, by linarith⟩
  simp only [ends, some_, if_false]
  split
  · refine ⟨(some start, some (start + step * (len - 1))), .some first last fun number member => ?_, rfl⟩
    rcases between number member with inside | inside <;> omega
  · refine ⟨(some (start + step * (len - 1)), some start), .some last first fun number member => ?_, rfl⟩
    rcases between number member with inside | inside <;> omega

theorem sequence_right (built : (Vector.sequence head start step).Built)
    (clean : Clean (.sequence head start step)) (marked : Prop) :
    Right head.ty marked (walk (.sequence head start step)) (Vector.sequence head start step).values := by
  refine .of_spans ?_
  have typed : head.ty = .whole .bigInt := built
  by_cases some_ : head.len = 0
  · have nothing : scaledEnds head.ty (ends start step head.len) = (none, none) := by simp [ends, some_, scaledEnds]
    refine nothing ▸ .of_null fun value member => (mem_values member).resolve_right ?_
    rintro ⟨row, live, -⟩
    have inside : row < head.len := (Head.live_iff.mp live).1
    omega
  obtain ⟨found, of, same⟩ := ends_extremes start step some_
  refine (show scaledEnds head.ty (ends start step head.len) = _ by rw [same]) ▸ .of_ints of (by rw [typed]; rfl)
    (by rw [typed]; rfl) (fun number member => ?_) fun value member => ?_
  · obtain ⟨row, inside, rfl⟩ := mem_map.mp member
    have kept := clean row (mem_range.mp inside)
    rw [← kept]
    exact wide_wrapped _
  rcases mem_values member with null | ⟨row, live, rfl⟩
  · exact .inl null
  have inside : row < head.len := (Head.live_iff.mp live).1
  refine .inr ⟨start + step * row, mem_map.mpr ⟨row, mem_range.mpr inside, rfl⟩, ?_⟩
  rw [typed, ← clean row inside]
  exact if_pos live

theorem packed_right (built : (Vector.packed head base codes).Built)
    (asked : head.ty.asked = true) (marked : Prop) :
    Right head.ty marked (unpacked head base codes) (Vector.packed head base codes).values := by
  obtain ⟨packed, length, fits⟩ := built
  refine .of_spans (.of_ints (endsOf_extremes _) packed asked (fun number member => ?_) fun value member => ?_)
  · obtain ⟨row, inside, rfl⟩ := mem_map.mp member
    have inside : row < codes.length := length ▸ mem_range.mp (mem_filter.mp inside).1
    exact fits _ (by simp [inside])
  rcases mem_values member with null | ⟨row, live, rfl⟩
  · exact .inl null
  obtain ⟨inside, valid⟩ : row < head.len ∧ head.validity.isValid row = true := Head.live_iff.mp live
  have there : codes[row]? = some codes[row] := getElem?_eq_getElem (length ▸ inside)
  refine .inr ⟨base + codes[row], mem_map.mpr ⟨row, ?_, by simp [there]⟩, ?_⟩
  · simp [inside, valid]
  · simp [Vector.valueAt, show head.live row = true from live, there]

theorem scaledAs_scaledAs (bound : Bound) (ty : LogicalType) : (bound.scaledAs ty).scaledAs ty = bound.scaledAs ty := by
  cases bound with
  | int number => cases scale : scaleOf ty <;> simp [Bound.scaledAs, scale]
  | _ => rfl

/-- The ends of the values a column is written with cover a column whose rows are among them. -/
theorem wider_right
    (ends : EndsCover values.ty (scaledEnds values.ty (walked.low, walked.high)) values.values)
    (among : ∀ value ∈ rows, value ∈ values.values ∨ value = .null) :
    Right values.ty marked (wider (rangeOf values walked)) rows := by
  refine ⟨⟨fun end_ found => (ends.low end_ ?_).mono among, fun end_ found => (ends.high end_ ?_).mono among⟩, nofun⟩
  all_goals simpa [scaledEnds, wider, rangeOf, Function.comp_def, scaledAs_scaledAs] using found

theorem strings_reads (built : values.Built) (told : strings values = true) :
    values.Reads ∧ textual values.ty := by
  cases values with
  | flat head data =>
    cases data with
    | varlen texts => exact ⟨Vector.reads_varlen head texts, built.1⟩
    | _ => simp [strings, Vector.textParts, Vector.data] at told
  | views head texts => exact ⟨Vector.reads_views head texts, built.1⟩
  | externalText head texts ranks => exact ⟨Vector.reads_externalText head texts ranks, built.1⟩
  | runs head stops values =>
    cases values with
    | flat inner data =>
      simp only [strings, Vector.textParts, Vector.data] at told
      cases data <;> grind [Vector.repeatedByRuns]
    | _ => simp [strings, Vector.textParts, Vector.data] at told
  | _ => simp [strings, Vector.textParts, Vector.data] at told

section dictionary
variable {head : Head} {codes : List Nat} {values : Vector}

theorem mem_liveCodes (length : codes.length = head.len) :
    code ∈ liveCodes head codes ↔ ∃ row, head.live row ∧ codes[row]? = some code := by
  rw [liveCodes, take_of_length_le length.le]
  simp only [mem_map, mem_filter, mem_zipIdx_iff_getElem?, Prod.exists]
  constructor
  · rintro ⟨_, row, ⟨there, valid⟩, rfl⟩
    have inside : row < head.len := length ▸ (List.getElem?_eq_some_iff.mp there).1
    refine ⟨row, ?_, there⟩
    cases full : head.validity.hasNulls head.len with
    | false => exact Head.live_of_not_hasNulls full inside
    | true => exact Head.live_iff.mpr ⟨inside, by simpa [full] using valid⟩
  · rintro ⟨row, live, there⟩
    exact ⟨code, row, ⟨there, by simp [(Head.live_iff.mp live).2]⟩, rfl⟩

/-- A row of a dictionary that is not null is the entry of its code. -/
theorem dictionary_rows (built : (Vector.dictionary head codes values).Built)
    (member : value ∈ (Vector.dictionary head codes values).values) :
    value = .null ∨ ∃ code ∈ liveCodes head codes, code < values.len ∧ value = values.valueAt code := by
  obtain ⟨-, length, below, -⟩ := built
  rcases mem_values member with null | ⟨row, live, rfl⟩
  · exact .inl null
  have live : head.live row = true := live
  have inside : row < codes.length := length ▸ (Head.live_iff.mp live).1
  refine .inr ⟨codes[row], (mem_liveCodes length).mpr ⟨row, live, by simp⟩, below _ (by simp), ?_⟩
  simp [Vector.valueAt, live, inside]

/-- Rows that the mask of the column has valid and that are there. -/
def Marked (vector : Vector) : Prop := ∀ row, vector.head.live row → vector.valueAt row ≠ .null

section ranked
variable {held : List Nat} {string : Nat → Option Bytes} {rank : Nat → Nat}

/-- The string of the code with the smallest rank, and of the one with the largest. -/
def rankedEnds (held : List Nat) (string : Nat → Option Bytes) (rank : Nat → Nat) : Option Bytes × Option Bytes :=
  ((held.argmin rank).bind string, (held.reverse.argmax rank).bind string)

/-- Ends through the ranks of strings, which are in the order of the strings. -/
theorem ranked_extremes
    (ordered : ∀ one ∈ held, ∀ other ∈ held, ∀ left right, string one = some left → string other = some right →
      rank one ≤ rank other → left ≤ right) :
    (∀ low, (rankedEnds held string rank).1 = some low → ∀ text ∈ held.filterMap string, low ≤ text) ∧
      ∀ high, (rankedEnds held string rank).2 = some high → ∀ text ∈ held.filterMap string, text ≤ high := by
  refine ⟨fun low found text member => ?_, fun high found text member => ?_⟩
  · obtain ⟨code, least, here⟩ := Option.bind_eq_some_iff.mp found
    obtain ⟨other, among, there⟩ := mem_filterMap.mp member
    exact ordered code (argmin_mem least) other among low text here there (le_of_mem_argmin among least)
  obtain ⟨code, most, here⟩ := Option.bind_eq_some_iff.mp found
  obtain ⟨other, among, there⟩ := mem_filterMap.mp member
  exact ordered other among code (mem_reverse.mp (argmax_mem most)) text high there here
    (le_of_mem_argmax (mem_reverse.mpr among) most)

/-- With a string for each code they are the ends of the strings. -/
theorem ranked_of (there : ∀ code ∈ held, (string code).isSome)
    (ordered : ∀ one ∈ held, ∀ other ∈ held, ∀ left right, string one = some left → string other = some right →
      rank one ≤ rank other → left ≤ right) : Extremes.Of (held.filterMap string) (rankedEnds held string rank) := by
  obtain ⟨least, most⟩ := ranked_extremes ordered
  cases low : held.argmin rank with
  | none =>
    rw [argmin_eq_none] at low
    subst low
    exact .none
  | some code =>
    have first : code ∈ held := argmin_mem low
    obtain ⟨text, here⟩ := Option.isSome_iff_exists.mp (there code first)
    obtain ⟨last, high⟩ : ∃ last, held.reverse.argmax rank = some last := by
      refine Option.ne_none_iff_exists'.mp fun nothing => ?_
      rw [argmax_eq_none, reverse_eq_nil_iff] at nothing
      rw [nothing] at first
      cases first
    have second : last ∈ held := mem_reverse.mp (argmax_mem high)
    obtain ⟨other, here'⟩ := Option.isSome_iff_exists.mp (there last second)
    have ends : rankedEnds held string rank = (some text, some other) := by simp [rankedEnds, low, high, here, here']
    rw [ends] at least most ⊢
    exact .some (mem_filterMap.mpr ⟨code, first, here⟩) (mem_filterMap.mpr ⟨last, second, here'⟩)
      fun value member => ⟨least text rfl value member, most other rfl value member⟩

end ranked

theorem ranked_right {inner : Head}
    (built : (Vector.dictionary head codes (.externalText inner texts (some ranks))).Built)
    (asked : head.ty.asked = true) :
    Right head.ty (Marked (.dictionary head codes (.externalText inner texts (some ranks))))
      (.ends (bounded (some ∘ .bytes) (rankedEnds (liveCodes head codes)
        (Vector.externalText inner texts (some ranks)).bytesAt fun code => (ranks[code]?).getD (2 ^ 32 - 1))))
      (Vector.dictionary head codes (.externalText inner texts (some ranks))).values := by
  have same : head.ty = inner.ty := built.1
  have reads := Vector.reads_externalText inner texts (some ranks)
  obtain ⟨typed, -, kept⟩ := built.2.2.2
  obtain ⟨size, kept⟩ := kept ranks rfl
  have text {code : Nat} {bytes : Bytes}
      (found : (Vector.externalText inner texts (some ranks)).bytesAt code = some bytes) :
      texts[code]? = some (some bytes) ∧ ∃ rank, ranks[code]? = some rank := by
    simp only [Vector.bytesAt, Option.ite_none_right_eq_some, Option.join_eq_some_iff] at found
    have inside : code < ranks.length := size ▸ (List.getElem?_eq_some_iff.mp found.2).1
    exact ⟨found.2, ranks[code], by simp⟩
  have ordered : ∀ one ∈ liveCodes head codes, ∀ other ∈ liveCodes head codes, ∀ left right,
      (Vector.externalText inner texts (some ranks)).bytesAt one = some left →
      (Vector.externalText inner texts (some ranks)).bytesAt other = some right →
      (ranks[one]?).getD (2 ^ 32 - 1) ≤ (ranks[other]?).getD (2 ^ 32 - 1) → left ≤ right := by
    intro one _ other _ left right first second below
    obtain ⟨here, rank, found⟩ := text first
    obtain ⟨there, place, found'⟩ := text second
    exact kept one other rank place left right here there found found' (by simpa [found, found'] using below)
  have named : ∀ value ∈ (Vector.dictionary head codes (.externalText inner texts (some ranks))).values,
      value = .null ∨ ∃ bytes ∈ (liveCodes head codes).filterMap (Vector.externalText inner texts (some ranks)).bytesAt,
        value = bytesAs head.ty bytes := by
    intro value member
    rcases dictionary_rows built member with null | ⟨code, there, -, rfl⟩
    · exact .inl null
    rw [reads code]
    cases held : (Vector.externalText inner texts (some ranks)).bytesAt code with
    | none => exact .inl rfl
    | some bytes => exact .inr ⟨bytes, mem_filterMap.mpr ⟨code, there, held⟩, by rw [same]; rfl⟩
  rw [bounded_some]
  obtain ⟨least, most⟩ := ranked_extremes ordered
  refine ⟨.of_bytes least most (same ▸ typed) asked named, fun marked _ => ?_⟩
  refine .of_bytes (ranked_of (fun code member => ?_) ordered) (same ▸ typed) asked named
  obtain ⟨row, live, there⟩ := (mem_liveCodes built.2.1).mp member
  have entry : (Vector.externalText inner texts (some ranks)).valueAt code ≠ .null := by
    simpa [Vector.valueAt, live, there] using marked row live
  rw [reads code] at entry
  cases held : (Vector.externalText inner texts (some ranks)).bytesAt code with
  | none => simp [held] at entry
  | some bytes => rfl

section
variable (built : (Vector.dictionary head codes values).Built) (asked : head.ty.asked = true)
include built asked

theorem used_right (told : strings values = true) (answered : used head codes values = some found) :
    Right head.ty (Marked (.dictionary head codes values)) (.ends found)
      (Vector.dictionary head codes values).values := by
  obtain ⟨reads, typed⟩ := strings_reads built.2.2.2 told
  have same : head.ty = values.ty := built.1
  simp only [used] at answered
  split at answered
  · cases answered
  split at answered
  · cases answered
  split at answered
  · rename_i ranks known
    split at known
    · cases known
    cases values with
    | externalText inner texts order =>
      cases known
      cases answered
      simpa [bounded, rankedEnds, Option.bind_assoc, Option.map_eq_bind] using ranked_right built asked
    | _ => cases known
  · cases answered
    rw [bounded_some, same]
    refine .of_spans (.of_bytes (endsOf_extremes _) typed (same ▸ asked) fun value member => ?_)
    rcases dictionary_rows built member with null | ⟨code, there, -, rfl⟩
    · exact .inl null
    rw [reads code]
    cases held : values.bytesAt code with
    | none => exact .inl rfl
    | some bytes => exact .inr ⟨bytes, by simpa using ⟨code, there, held⟩, rfl⟩

/-- The ends of integers behind codes, counted per entry or gathered per row. -/
theorem gather_right {wide : Walked} (counts : values.Counts held) (marked : Prop) :
    Right head.ty marked (gather head codes held wide) (Vector.dictionary head codes values).values := by
  obtain ⟨same, length, below, -⟩ := id built
  have entry {code : Nat} (member : code ∈ liveCodes head codes) : ∃ number, held[code]? = some number := by
    obtain ⟨row, -, there⟩ := (mem_liveCodes length).mp member
    have inside : code < held.length := counts.length ▸ below code (mem_of_getElem? there)
    exact ⟨held[code], by simp⟩
  have named (list : List Int) (all : ∀ code ∈ liveCodes head codes, ∀ number, held[code]? = some number → number ∈ list)
      (value : Value) (member : value ∈ (Vector.dictionary head codes values).values) :
      value = .null ∨ ∃ number ∈ list, value = numberAs head.ty number := by
    rcases dictionary_rows built member with null | ⟨code, there, inside, rfl⟩
    · exact .inl null
    obtain ⟨number, found⟩ := entry there
    refine .inr ⟨number, all code there number found, ?_⟩
    rw [counts.row code inside, found, same]
    rfl
  have packed : packs head.ty := same ▸ counts.packs
  have inside : (liveCodes head codes).any (held.length ≤ ·) = false := by
    simp only [any_eq_false, decide_eq_true_eq, not_le]
    intro code member
    obtain ⟨number, found⟩ := entry member
    exact (List.getElem?_eq_some_iff.mp found).1
  simp only [gather, inside, Bool.false_eq_true, if_false]
  split
  · refine .of_spans (.of_ints (endsOf_extremes _) packed asked (fun number member => ?_) (named _ ?_))
    · obtain ⟨⟨_, place⟩, among, rfl⟩ := mem_map.mp member
      have there := mem_zipIdx_iff_getElem?.mp (mem_filter.mp among).1
      exact counts.wide _ (mem_of_getElem? there)
    · intro code member number found
      refine mem_map.mpr ⟨(number, code), mem_filter.mpr ⟨mem_zipIdx_iff_getElem?.mpr found, ?_⟩, rfl⟩
      simpa using count_pos_iff.mpr member
  refine .of_spans (.of_ints (endsOf_extremes _) packed asked (fun number member => ?_) (named _ ?_))
  · obtain ⟨code, -, there⟩ := mem_filterMap.mp member
    exact counts.wide _ (mem_of_getElem? there)
  · intro code member number found
    exact mem_filterMap.mpr ⟨code, member, found⟩

theorem dictionary_right
    (ends : EndsCover values.ty (scaledEnds values.ty ((walk values).low, (walk values).high)) values.values) :
    Right head.ty (Marked (.dictionary head codes values)) (walk (.dictionary head codes values))
      (Vector.dictionary head codes values).values := by
  have same : head.ty = values.ty := built.1
  have wide : Right head.ty (Marked (.dictionary head codes values)) (wider (rangeOf values (walk values)))
      (Vector.dictionary head codes values).values := by
    refine same ▸ wider_right ends fun value member => ?_
    rcases dictionary_rows built member with null | ⟨code, -, inside, rfl⟩
    · exact .inr null
    · exact .inl (mem_map.mpr ⟨code, mem_range.mpr inside, rfl⟩)
  simp only [walk, coded]
  split
  · rename_i told
    obtain ⟨reads, typed⟩ := strings_reads built.2.2.2 told
    simp only [stringy]
    split
    · exact wide
    change Right _ _ (.ends ((used head codes values).getD _)) _
    cases answered : used head codes values with
    | none =>
      rw [← same] at typed
      exact .of_spans (text_spans (reads.dictionary same codes) typed asked)
    | some found => exact used_right built asked told answered
  · split
    · rename_i held laid
      split
      · exact wide
      · rename_i full
        refine gather_right built asked (built.2.2.2.counts ?_ laid) _
        simpa using fun nulls => full (.inl nulls)
    · exact wide

end

end dictionary

theorem runHolding_cons (stop : Nat) (stops : List Nat) (row : Nat) :
    runHolding (stop :: stops) row = if row < stop then some 0 else (runHolding stops row).map (· + 1) := by
  simp [runHolding, findIdx?_cons]

/-- The runs that `weigh` has weighed are those with a row, and their values have its ends. -/
theorem weigh_extremes {seen : List Int} {found : Option Int × Option Int}
    (of : Extremes.Of seen found)
    (answered : weigh held stops previous found total = some (found', total')) :
    ∃ picked, Extremes.Of (seen ++ picked) found' ∧ (∀ number ∈ picked, number ∈ held) ∧
      ∀ row, previous ≤ row → ∀ run, runHolding stops row = some run → ∃ number, held[run]? = some number ∧
        number ∈ picked := by
  induction stops generalizing held previous found total seen with
  | nil =>
    simp only [weigh] at answered
    cases answered
    exact ⟨[], by simpa using of, nofun, nofun⟩
  | cons stop stops ih =>
    cases held with
    | nil => cases answered
    | cons value held =>
      simp only [weigh] at answered
      split at answered
      · -- a run with a row, which the walk opens its ends to
        obtain ⟨picked, of', among, all⟩ := ih (of.snoc value) answered
        refine ⟨value :: picked, by simpa using of', ?_, fun row past run holding => ?_⟩
        · simpa using fun number member => .inr (among number member)
        rw [runHolding_cons] at holding
        split at holding
        · cases holding
          exact ⟨value, rfl, mem_cons_self⟩
        · obtain ⟨run, later, rfl⟩ := Option.map_eq_some_iff.mp holding
          obtain ⟨number, there, member⟩ := all row (by omega) run later
          exact ⟨number, there, mem_cons_of_mem value member⟩
      · obtain ⟨picked, of', among, all⟩ := ih of answered
        refine ⟨picked, of', fun number member => mem_cons_of_mem value (among number member), ?_⟩
        intro row past run holding
        rw [runHolding_cons, if_neg (by omega)] at holding
        obtain ⟨run, later, rfl⟩ := Option.map_eq_some_iff.mp holding
        obtain ⟨number, there, member⟩ := all row past run later
        exact ⟨number, there, member⟩

section runs
theorem runs_rows (built : (Vector.runs head stops values).Built)
    (member : value ∈ (Vector.runs head stops values).values) :
    value = .null ∨ ∃ row run, runHolding stops row = some run ∧ run < values.len ∧ value = values.valueAt run := by
  rcases mem_values member with null | ⟨row, live, rfl⟩
  · exact .inl null
  have live : head.live row = true := live
  simp only [Vector.valueAt, live, if_true]
  cases holding : runHolding stops row with
  | none => exact .inl rfl
  | some run => exact .inr ⟨row, run, holding, built.2.1 ▸ runHolding_lt holding, rfl⟩

theorem runs_right (built : (Vector.runs head stops values).Built) (asked : head.ty.asked = true)
    (ends : EndsCover values.ty (scaledEnds values.ty ((walk values).low, (walk values).high)) values.values)
    (marked : Prop) : Right head.ty marked (walk (.runs head stops values)) (Vector.runs head stops values).values := by
  have same : head.ty = values.ty := built.1
  have wide : Right head.ty marked (wider (rangeOf values (walk values))) (Vector.runs head stops values).values := by
    refine same ▸ wider_right ends fun value member => ?_
    rcases runs_rows built member with null | ⟨-, run, -, inside, rfl⟩
    · exact .inr null
    · exact .inl (mem_map.mpr ⟨run, mem_range.mpr inside, rfl⟩)
  simp only [walk, runs]
  split
  · rename_i told
    obtain ⟨reads, typed⟩ := strings_reads built.2.2.2.2.2 told
    simp only [stringy]
    split
    · exact wide
    · rw [← same] at typed
      exact .of_spans (text_spans (reads.runs same stops) typed asked)
  split
  · rename_i held laid
    split
    · exact wide
    rename_i full
    split
    · exact wide
    split
    · rename_i found total answered
      have counts := built.2.2.2.2.2.counts (by simpa using fun nulls => full (.inl nulls)) laid
      obtain ⟨picked, of, among, all⟩ := weigh_extremes .none answered
      refine .of_spans (.of_ints of (same ▸ counts.packs) asked ?_ fun value member => ?_)
      · exact fun number member => counts.wide number (among number member)
      rcases runs_rows built member with null | ⟨row, run, holding, inside, rfl⟩
      · exact .inl null
      obtain ⟨number, there, member⟩ := all row (Nat.zero_le row) run holding
      refine .inr ⟨number, member, ?_⟩
      rw [counts.row run inside, there, same]
      rfl
    · exact wide
  · exact wide

end runs

/-- Vectors whose mask is right about their rows, and whose rows `bytes_at` hands back if they are text. -/
def Shown : Vector → Prop
  | .nested .. => True
  | .gathered .. => True
  | .coded head _ => ∀ row, head.live row = false
  | vector => Marked vector

variable {vector : Vector}

theorem walk_right (built : vector.Built) (clean : Clean vector) (asked : vector.ty.asked = true) :
    Right vector.ty (Shown vector) (walk vector) vector.values := by
  induction vector with
  | flat head data => exact .of_spans (flat_spans built clean asked)
  | constant head value => exact constant_right built clean asked _
  | sequence head start step => exact sequence_right built clean _
  | dictionary head codes values ih =>
    exact dictionary_right built asked (ih built.2.2.2 clean (built.1 ▸ asked)).ends
  | packed head base codes => exact packed_right built asked _
  | views head rows => exact .of_spans (text_spans (Vector.reads_views head rows) built.1 asked)
  | externalText head rows ranks =>
    exact .of_spans (text_spans (Vector.reads_externalText head rows ranks) built.1 asked)
  | coded head rows =>
    have nothing : text (.coded head rows) = (none, none) := by
      simp [text, Vector.textParts, Vector.bytesAt, endsOf, bounded]
    simp only [walk, nothing]
    refine ⟨.none, fun shown _ => .of_null fun value member => (mem_values member).resolve_right ?_⟩
    rintro ⟨row, live, -⟩
    have live : head.live row = true := live
    simp [shown row] at live
  | runs head stops values ih =>
    exact runs_right built asked (ih built.2.2.2.2.2 clean (built.1 ▸ asked)).ends _
  | nested head kind rows | gathered head source rids => exact ⟨.none, fun _ none_ => by cases none_⟩

def Textless (found : Option Bound × Option Bound) : Prop :=
  ∀ bytes, found.1 ≠ some (.bytes bytes) ∧ found.2 ≠ some (.bytes bytes)

theorem Textless.ints (found : Option Int × Option Int) : Textless (found.1.map .int, found.2.map .int) := by
  simp [Textless]

theorem Textless.scaled (textless : Textless found) (ty : LogicalType) : Textless (scaledEnds ty found) := by
  have plain {bound : Bound} {bytes : Bytes} (same : bound.scaledAs ty = .bytes bytes) : bound = .bytes bytes := by
    cases bound with
    | int number => cases scale : scaleOf ty <;> simp [Bound.scaledAs, scale] at same
    | _ => exact same
  intro bytes
  refine ⟨fun low => (textless bytes).1 ?_, fun high => (textless bytes).2 ?_⟩
  · obtain ⟨bound, here, same⟩ := Option.map_eq_some_iff.mp low
    rw [here, plain same]
  · obtain ⟨bound, here, same⟩ := Option.map_eq_some_iff.mp high
    rw [here, plain same]

theorem walk_enum (built : vector.Built) (clean : Clean vector)
    (typed : vector.ty = .enum labels) : Textless ((walk vector).low, (walk vector).high) := by
  have never {ty : LogicalType} (same : ty = .enum labels) (text : textual ty) : False := by
    rw [same] at text
    cases text
  induction vector with
  | flat head data =>
    have typed : head.ty = .enum labels := typed
    have holds := built.1
    rw [typed] at holds
    simp only [walk]
    cases data with
    | small held | int128 held =>
      simp only [flat, bounded_some]
      exact .ints _
    | empty => exact .ints (none, none)
    | uInt128 held => cases holds.1
    | varlen held => cases holds
    | _ => cases holds
  | constant head value =>
    cases clean.2 labels typed
    exact .ints (none, none)
  | sequence head start step => cases typed.symm.trans built
  | packed head base codes => exact .ints _
  | views head rows | externalText head rows ranks | coded head rows => exact (never typed built.1).elim
  | nested head kind rows | gathered head source rids => exact .ints (none, none)
  | dictionary head codes values ih =>
    have typed : values.ty = .enum labels := built.1 ▸ typed
    have wide := (ih built.2.2.2 clean typed).scaled values.ty
    simp only [walk, coded]
    split
    · rename_i told
      exact (never typed (strings_reads built.2.2.2 told).2).elim
    split
    · split
      · exact wide
      simp only [gather]
      split
      · exact wide
      · split <;> exact .ints _
    · exact wide
  | runs head stops values ih =>
    have typed : values.ty = .enum labels := built.1 ▸ typed
    have wide := (ih built.2.2.2.2.2 clean typed).scaled values.ty
    simp only [walk, runs]
    split
    · rename_i told
      exact (never typed (strings_reads built.2.2.2.2.2 told).2).elim
    split
    · split
      · exact wide
      split
      · exact wide
      · split
        · exact .ints _
        · exact wide
    · exact wide

/-- No constant of a type that is not asked about compares with an end of it that is not text. -/
theorem quiet_of (asked : ty.asked = false)
    (textless : ∀ labels, ty = .enum labels → ∀ bytes, end_ ≠ .bytes bytes) : Quiet ty end_ := by
  intro constant fits bound found
  cases ty with
  | enum labels =>
    cases constant <;> simp only [Value.fits, Bool.false_eq_true] at fits <;> try cases found
    cases end_ with
    | bytes held => exact absurd rfl (textless labels rfl held)
    | _ => rfl
  | _ =>
    first
    | cases asked
      done
    | cases constant <;> simp only [Value.fits, Bool.false_eq_true] at fits <;> cases found

theorem Marked.nulls (marked : Marked vector) :
    vector.values.countP Value.isNull ≤ vector.len - vector.validity.countValid vector.len := by
  have rows : vector.values.countP Value.isNull ≤
      (range vector.len).countP fun row => decide (¬vector.validity.isValid row = true) := by
    rw [Vector.values, countP_map]
    refine countP_mono_left fun row member null => ?_
    by_contra valid
    refine marked row (Head.live_iff.mpr ⟨mem_range.mp member, by simpa using valid⟩) ?_
    simpa using null
  have all : (range vector.len).length = _ + _ := length_eq_countP_add_countP vector.validity.isValid
  rw [length_range] at all
  have valid : vector.validity.countValid vector.len = (range vector.len).countP vector.validity.isValid :=
    countP_eq_length_filter.symm
  omega

/-- A vector the walk reads right. -/
structure Plain (vector : Vector) : Prop where
  clean : Clean vector
  shown : Shown vector

/-- The range of a vector says what is true of its rows. -/
theorem range_covers (built : vector.Built) (plain : Plain vector) :
    Covers vector.ty (Range.of vector) vector.values where
  quiet asked end_ found := by
    refine quiet_of asked fun labels typed bytes same => ?_
    have textless := (walk_enum built plain.clean typed).scaled vector.ty bytes
    subst same
    exact found.elim textless.1 textless.2
  low asked := (walk_right built plain.clean asked).ends.low
  high asked := (walk_right built plain.clean asked).ends.high
  paired asked exact := ((walk_right built plain.clean asked).whole plain.shown exact).paired
  empty asked blank := by
    obtain ⟨exact, low, -⟩ := empty_iff.mp blank
    exact ((walk_right built plain.clean asked).whole plain.shown exact).empty low
  nulls := by
    have shown := plain.shown
    cases vector with
    | nested head kind rows | gathered head source rids => exact .inl ⟨rfl, rfl, rfl⟩
    | coded head rows =>
      refine .inr (Marked.nulls fun row live => ?_)
      have live : head.live row = true := live
      simp [shown row] at live
    | _ => exact .inr (Marked.nulls shown)

end Rudb.Storage.Zones
