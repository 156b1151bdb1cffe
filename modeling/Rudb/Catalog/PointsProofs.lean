import Rudb.Catalog.Points
import Rudb.Index.KeyProofs

/-! Range reads are exact: the entries picked over the runs are the first on the asked side of the bound, each key once
and from the newest run, and the edges of a front hold the keys they are made for. -/
namespace Rudb.Points
open Rudb.Common Rudb.Index List

section Newest
variable {T K : Type} {key : T → K} {runs : List (List T)} {entry other : T}

/-- An entry of the newest run that holds its key, the newest run first. -/
def Newest (key : T → K) (entry : T) : (runs : List (List T)) → Prop
  | [] => False
  | run :: older => entry ∈ run ∨ (∀ other ∈ run, key other ≠ key entry) ∧ Newest key entry older

theorem Newest.held (newest : Newest key entry runs) : ∃ run ∈ runs, entry ∈ run := by
  induction runs with
  | nil => cases newest
  | cons run older ih =>
    obtain inside | ⟨_, newest⟩ := newest
    · exact ⟨run, mem_cons_self, inside⟩
    · obtain ⟨run, member, inside⟩ := ih newest
      exact ⟨run, mem_cons_of_mem _ member, inside⟩

/-- The runs with some keys left out. -/
theorem newest_map (kept : K → Prop)
    (keeps : ∀ run ∈ runs, ∀ other, other ∈ change run ↔ other ∈ run ∧ kept (key other)) :
    Newest key entry (runs.map change) ↔ Newest key entry runs ∧ kept (key entry) := by
  induction runs with
  | nil => simp [Newest]
  | cons run older ih =>
    rw [map_cons, Newest, Newest]
    grind

variable [LinearOrder K] {descending : Bool} {run : List T}

def Before (descending : Bool) (one other : K) : Prop := if descending then other < one else one < other

instance before_order : IsStrictTotalOrder K (Before descending) := by
  cases descending
  · exact inferInstanceAs (IsStrictTotalOrder K (· < ·))
  · exact inferInstanceAs (IsStrictTotalOrder K (· > ·))

theorem sooner_iff {other : K} : sooner descending one other = true ↔ ¬Before descending other one := by
  cases descending <;> simp [sooner, Before]

def InTurn (descending : Bool) (key : T → K) (run : List T) : Prop :=
  run.Pairwise fun one other => Before descending (key one) (key other)

theorem Newest.same (sorted : ∀ run ∈ runs, InTurn descending key run) (newest : Newest key entry runs)
    (newest' : Newest key other runs) (same : key entry = key other) : entry = other := by
  induction runs with
  | nil => cases newest
  | cons run older ih =>
    rw [forall_mem_cons] at sorted
    obtain inside | ⟨missing, newest⟩ := newest <;> obtain inside' | ⟨missing', newest'⟩ := newest'
    · have once := pairwise_map.mpr (sorted.1.imp fun before => ne_of_irrefl (r := Before descending) before)
      exact inj_on_of_nodup_map (f := key) once inside inside' same
    · exact absurd same (missing' _ inside)
    · exact absurd same.symm (missing _ inside')
    · exact ih sorted.2 newest newest'

end Newest

section Merge
variable {T K P : Type} [LinearOrder K] {descending : Bool} {key : T → K} {run : List T} {runs : List (List T)}
  {entry other : T}

/-- The entry to pick next has the first key of all, and no newer run has the key. -/
def Leads (descending : Bool) (key : T → K) (runs : List (List T)) : Option T → Prop
  | none => ∀ run ∈ runs, run = []
  | some entry => Newest key entry runs.reverse ∧ ∀ run ∈ runs, ∀ other ∈ run, ¬Before descending (key other) (key entry)

theorem leads_best (sorted : ∀ run ∈ runs, InTurn descending key run) :
    Leads descending key runs (best descending key runs) := by
  induction runs using List.reverseRecOn with
  | nil => simp [best, Leads]
  | append_singleton runs run ih =>
    rw [forall_mem_append, forall_mem_singleton] at sorted
    have leads := ih sorted.1
    rw [best, foldl_append, foldl_cons, ← best]
    generalize best descending key runs = picked at leads ⊢
    cases run with
    | nil => cases picked <;> simpa [Leads, Newest, or_imp, forall_and] using leads
    | cons first rest =>
      have front (other : T) (member : other ∈ first :: rest) : ¬Before descending (key other) (key first) := by
        rcases mem_cons.mp member with rfl | behind
        · exact irrefl _
        · exact asymm ((pairwise_cons.mp sorted.2).1 other behind)
      have takes (least : ∀ run ∈ runs, ∀ other ∈ run, ¬Before descending (key other) (key first)) :
          Leads descending key (runs ++ [first :: rest]) (some first) :=
        ⟨by simp [Newest], forall_mem_append.mpr ⟨least, forall_mem_singleton.mpr front⟩⟩
      cases picked with
      | none => exact takes fun run member other inside => by simp [leads run member] at inside
      | some entry =>
        by_cases behind : Before descending (key entry) (key first)
        · have after (other : T) (member : other ∈ first :: rest) : Before descending (key entry) (key other) :=
            trans_trichotomous_right behind (front other member)
          simp only [head?_cons, Option.all_some, sooner_iff, behind, not_true, if_false]
          refine ⟨?_, forall_mem_append.mpr ⟨leads.2, forall_mem_singleton.mpr fun other member => ?_⟩⟩
          · rw [reverse_append]
            exact .inr ⟨fun other member => (ne_of_irrefl (after other member)).symm, leads.1⟩
          · exact asymm (after other member)
        · simp only [head?_cons, Option.all_some, sooner_iff, behind, not_false_iff, if_true]
          exact takes fun run member other inside ahead =>
            leads.2 run member other inside (trans_trichotomous_right ahead behind)

theorem mem_pass (turn : InTurn descending key run) (least : ∀ other ∈ run, ¬Before descending (key other) (key entry)) :
    other ∈ pass key entry run ↔ other ∈ run ∧ key other ≠ key entry := by
  cases run with
  | nil => simp [pass]
  | cons first rest =>
    have behind (other : T) (member : other ∈ rest) := (pairwise_cons.mp turn).1 other member
    by_cases same : key first = key entry
    · rw [pass, if_pos (by simpa using same), mem_cons]
      constructor
      · exact fun member => ⟨.inr member, fun is => irrefl _ (is ▸ same ▸ behind other member)⟩
      · rintro ⟨rfl | member, differ⟩
        · exact absurd same differ
        · exact member
    · rw [pass, if_neg (by simpa using same), mem_cons]
      refine (and_iff_left_of_imp fun member is => ?_).symm
      rcases member with rfl | member
      · exact same is
      · exact least first mem_cons_self (is ▸ behind other member)

/-- The entries that are picked where nothing is passed over and there is no limit. -/
def merged (descending : Bool) (key : T → K) : (rounds : Nat) → (runs : List (List T)) → List T
  | 0, _ => []
  | rounds + 1, runs =>
    match best descending key runs with
    | none => []
    | some entry => entry :: merged descending key rounds (runs.map (pass key entry))

theorem pickFrom_eq (limit : Nat) (f : T → Option P) (rounds : Nat) (picked : List P) :
    pickFrom descending key limit f rounds runs picked =
      picked ++ ((merged descending key rounds runs).filterMap f).take (limit - picked.length) := by
  induction rounds generalizing runs picked with
  | zero => simp [pickFrom, merged]
  | succ rounds ih =>
    rw [pickFrom, merged]
    split
    · cases best descending key runs with
      | none => simp
      | some entry =>
        simp only [ih, filterMap_cons]
        cases f entry with
        | none => simp
        | some value => simp [show limit - picked.length = (limit - (picked.length + 1)) + 1 by omega]
    · rw [Nat.sub_eq_zero_of_le (by omega), take_zero, append_nil]

/-- All that the runs hold comes out in turn, and of a key the newest entry. -/
theorem merged_spec (sorted : ∀ run ∈ runs, InTurn descending key run)
    (enough : (runs.map length).sum < rounds) :
    InTurn descending key (merged descending key rounds runs) ∧
      ∀ entry, entry ∈ merged descending key rounds runs ↔ Newest key entry runs.reverse := by
  induction rounds generalizing runs with
  | zero => cases enough
  | succ rounds ih =>
    have lead := leads_best sorted
    rw [merged]
    cases picked : best descending key runs with
    | none =>
      rw [picked] at lead
      refine ⟨.nil, fun entry => iff_of_false not_mem_nil fun newest => ?_⟩
      obtain ⟨run, member, inside⟩ := newest.held
      simp [lead run (mem_reverse.mp member)] at inside
    | some entry =>
      rw [picked] at lead
      obtain ⟨top, least⟩ := lead
      have passes (run : List T) (member : run ∈ runs) (other : T) :
          other ∈ pass key entry run ↔ other ∈ run ∧ key other ≠ key entry :=
            mem_pass (sorted run member) (least run member)
      have shorter : ((runs.map (pass key entry)).map length).sum < (runs.map length).sum := by
        rw [map_map]
        refine sum_lt_sum _ _ (fun run _ => ?_) ?_
        · simp only [Function.comp_apply, pass]
          split <;> simp
        obtain ⟨run, member, inside⟩ := top.held
        rw [mem_reverse] at member
        have gone : entry ∉ pass key entry run := fun kept => ((passes run member entry).mp kept).2 rfl
        refine ⟨run, member, ?_⟩
        simp only [Function.comp_apply, pass] at gone ⊢
        split_ifs at gone ⊢
        · simp [length_pos_of_mem inside]
        · exact absurd inside gone
      have turns (run : List T) (member : run ∈ runs) : InTurn descending key (pass key entry run) := by
        unfold pass
        split
        · exact (sorted run member).tail
        · exact sorted run member
      obtain ⟨turn, members⟩ := ih (forall_mem_map.mpr turns) (by omega)
      have kept (other : T) : Newest key other (runs.map (pass key entry)).reverse ↔
          Newest key other runs.reverse ∧ key other ≠ key entry := by
        rw [← map_reverse]
        exact newest_map (· ≠ key entry) fun run member => passes run (mem_reverse.mp member)
      simp only [kept] at members
      constructor
      · refine pairwise_cons.mpr ⟨fun other member => ?_, turn⟩
        obtain ⟨newest, differ⟩ := (members other).mp member
        obtain ⟨run, member, inside⟩ := newest.held
        rcases trichotomous_of (Before descending) (key entry) (key other) with before | same | after
        · exact before
        · exact absurd same.symm differ
        · exact absurd after (least run (mem_reverse.mp member) other inside)
      · intro other
        rw [mem_cons, members]
        constructor
        · rintro (rfl | ⟨newest, _⟩)
          · exact top
          · exact newest
        · refine fun newest => or_iff_not_imp_right.mpr fun not => ?_
          exact newest.same (fun run member => sorted run (mem_reverse.mp member)) top
            (by_contra fun differ => not ⟨newest, differ⟩)

end Merge

section Window
variable {T K P : Type}

/-- Whether a read takes an entry that compares so with the bound. -/
def Reach.takes : Reach → Ordering → Bool
  | .atLeast, order => order ≠ .lt
  | .above, order => order = .gt
  | .atMost, order => order ≠ .gt
  | .below, order => order = .lt

theorem partition {test : T → Bool} {run : List T} (split : run.Pairwise fun one other => test other → test one) :
    run.take (partitionPoint run test) = run.filter test ∧
      run.drop (partitionPoint run test) = run.filter (!test ·) := by
  induction run with
  | nil => simp
  | cons first rest ih =>
    obtain ⟨ends, split⟩ := pairwise_cons.mp split
    obtain ⟨front, back⟩ := ih split
    unfold partitionPoint at front back ⊢
    cases is : test first with
    | true => simp [findIdx_cons, is, front, back]
    | false =>
      have all (other : T) (member : other ∈ rest) : test other = false := by simpa [is] using ends other member
      have whole : rest.filter (!test ·) = rest := filter_eq_self.mpr (by simpa using all)
      exact ⟨by simpa [findIdx_cons, is] using all, by simp [findIdx_cons, is, whole]⟩

theorem window_eq [LinearOrder K] (turn : InTurn false key run) (reach : Reach) (bound : K) :
    window run reach (fun entry => compare (key entry) bound) =
      run.filter fun entry => reach.takes (compare (key entry) bound) := by
  have less := @partition _ (fun entry => compare (key entry) bound = .lt) run (turn.imp fun {one other} before => by
    simpa [compare_lt_iff_lt] using lt_trans before)
  have most := @partition _ (fun entry => !(compare (key entry) bound = .gt)) run (turn.imp fun {one other} before => by
    simpa [compare_gt_iff_gt] using le_trans before.le)
  cases reach <;> simp [window, Reach.takes, less, most]

/-- The first entries on the asked side that are kept, each key once and from the newest run. -/
theorem pick_spec [LinearOrder K] {runs : List (List T)} (sorted : ∀ run ∈ runs, InTurn false key run)
    (descending : Bool) (reach : Reach) (bound : K) (limit : Nat) (f : T → Option P) :
    ∃ found, InTurn descending key found ∧
      (∀ entry, entry ∈ found ↔ Newest key entry runs.reverse ∧ reach.takes (compare (key entry) bound)) ∧
      pick descending key (runs.map (window · reach fun entry => compare (key entry) bound)) limit f =
        (found.filterMap f).take limit := by
  let read (run : List T) := if descending then (run.filter fun entry => reach.takes (compare (key entry) bound)).reverse
    else run.filter fun entry => reach.takes (compare (key entry) bound)
  have turn (run : List T) (member : run ∈ runs) : InTurn descending key (read run) := by
    have kept := (sorted run member).filter fun entry => reach.takes (compare (key entry) bound)
    cases descending
    · exact kept
    · exact pairwise_reverse.mpr kept
  have reads : (if descending then (runs.map (window · reach fun entry => compare (key entry) bound)).map reverse
      else runs.map (window · reach fun entry => compare (key entry) bound)) = runs.map read := by
    rw [map_congr_left fun run member => window_eq (sorted run member) reach bound]
    cases descending <;> simp [read]
  obtain ⟨inTurn, members⟩ := merged_spec (forall_mem_map.mpr turn) (Nat.lt_succ_self _)
  refine ⟨_, inTurn, fun entry => ?_, ?_⟩
  · rw [members, ← map_reverse]
    refine newest_map (fun at_ => reach.takes (compare at_ bound)) fun run _ other => ?_
    cases descending <;> simp [read]
  · rw [pick, reads, pickFrom_eq]
    rfl

end Window

section Edges
variable {front first behind : List Value} {types more : List LogicalType} {bound : Option (Reach × Value)}

/-- A value as the columns of a front are compared: a `BIT` is equal to another when its bytes are. -/
def plain : Value → Value
  | .bit bytes => .blob bytes
  | value => value

theorem normalize_plain (values : List Value) (out : Bytes) :
    normalize (values.map plain) out = normalize values out := by
  induction values generalizing out with
  | nil => rfl
  | cons value rest ih =>
    have same : push (plain value) out = push value out := by cases value <;> rfl
    simp [Index.normalize, same, ih]

def Between (ends : Bytes × Bytes) (key : Bytes) : Prop := memcmp key ends.1 ≠ .lt ∧ memcmp key ends.2 = .lt

/-- What a bound asks of the columns behind the front. At least a null asks nothing. -/
def Asked : Option (Reach × Value) → List Value → Prop
  | none, _ => True
  | some (.atLeast, .null), _ => True
  | some (reach, value), behind => ∃ next ∈ behind.head?, next ≠ .null ∧ reach.takes (order next value)

/-- A bound is a value of the next column, of a type whose keys sort as it does. -/
def OfNext (bound : Option (Reach × Value)) (behind : List Value) : Prop :=
  ∀ reach value, bound = some (reach, value) → ∃ next ∈ behind.head?, ∃ ty, Fits value ty ∧ Fits next ty

/-- The ends of a read without the front. -/
def ends : Option (Reach × Value) → Bytes × Bytes
  | none => ([], [0xFF])
  | some (.atLeast, value) => (written value, [0xFF])
  | some (.above, value) => (written value ++ [0xFF], [0xFF])
  | some (.atMost, value) => ([1], written value ++ [0xFF])
  | some (.below, value) => ([1], written value)

theorem edges_eq (fits : Forall₂ Fits front types) (held : OfNext bound behind) :
    edges front bound = some (front.flatMap written ++ (ends bound).1, front.flatMap written ++ (ends bound).2) := by
  have started := normalize_eq fits []
  obtain _ | ⟨reach, value⟩ := bound
  · simp [edges, started, ends]
  · obtain ⟨-, -, ty, fit, -⟩ := held _ _ rfl
    have bounded := normalize_eq (.cons fit .nil) (front.flatMap written)
    cases reach <;> simp [edges, started, bounded, ends]

theorem low_past : Low [0xFF] := by
  intro other more
  cases other with
  | nil => exact ⟨rfl, rfl⟩
  | cons byte rest =>
    rw [text]
    split <;> exact ⟨rfl, rfl⟩

theorem low_ends (bound : Option (Reach × Value)) : Low (ends bound).1 ∧ Low (ends bound).2 := by
  have low_one : Low [1] := fun _ _ => ⟨rfl, rfl⟩
  obtain _ | ⟨reach, value⟩ := bound
  · exact ⟨low_nil, low_past⟩
  · have low_value := low_written value []
    rw [append_nil] at low_value
    cases reach
    · exact ⟨low_value, low_past⟩
    · exact ⟨low_written value _, low_past⟩
    · exact ⟨low_one, low_written value _⟩
    · exact ⟨low_one, low_value⟩

theorem low_behind (values : List Value) : Low (values.flatMap written) := by
  cases values with
  | nil => exact low_nil
  | cons => exact low_written _ _

theorem memcmp_nil (bytes : Bytes) : memcmp bytes [] ≠ .lt := by cases bytes <;> simp [memcmp]

theorem behind_past (values : List Value) : memcmp (values.flatMap written) [0xFF] = .lt := by
  cases values with
  | nil => rfl
  | cons value =>
    rw [flatMap_cons, written]
    split <;> rfl

theorem between_ends (held : OfNext bound behind) :
    Between (ends bound) (behind.flatMap written) ↔ Asked bound behind := by
  have ended := behind_past behind
  obtain _ | ⟨reach, value⟩ := bound
  · exact iff_of_true ⟨memcmp_nil _, ended⟩ trivial
  obtain ⟨next, is, ty, fit, fit'⟩ := held _ _ rfl
  obtain _ | ⟨_, rest⟩ := behind
  · cases is
  cases is
  have column {edge : Bytes} (lows : Low edge) := fit'.cmp fit fun _ => ⟨low_behind rest, lows⟩
  have equal : memcmp ((next :: rest).flatMap written) (written value) = .lt ↔ order next value = .lt := by
    have decided := column low_nil
    rw [append_nil] at decided
    rw [flatMap_cons, decided]
    cases order next value <;> simp [memcmp_nil]
  have past : memcmp ((next :: rest).flatMap written) (written value ++ [0xFF]) = .lt ↔ order next value ≠ .gt := by
    rw [flatMap_cons, column low_past, behind_past]
    cases order next value <;> simp
  have valued : memcmp ((next :: rest).flatMap written) [1] ≠ .lt ↔ next ≠ .null := by
    rw [flatMap_cons, written]
    split
    · rename_i null
      exact iff_of_false (fun no => no rfl) (fun no => no null)
    · rename_i some_
      exact iff_of_true (memcmp_nil _) some_
  have nulls : next = .null → order next value ≠ .gt ∧ (value ≠ .null → order next value = .lt) := by
    rintro rfl
    cases value <;> simp [order]
  by_cases start : reach = .atLeast ∧ value = .null
  · obtain ⟨rfl, rfl⟩ := start
    have first : order next .null ≠ .lt := by cases next <;> simp [order]
    exact iff_of_true ⟨fun less => first (equal.mp less), ended⟩ trivial
  have asked : Asked (some (reach, value)) (next :: rest) ↔ next ≠ .null ∧ reach.takes (order next value) := by
    cases reach <;> cases value <;> simp_all [Asked]
  rw [asked]
  cases reach <;> simp only [Between, ends, Reach.takes, decide_eq_true_eq, ne_eq, equal, past, ended, and_true]
  · exact (and_iff_right_of_imp fun above null => above ((nulls null).2 fun is => start ⟨rfl, is⟩)).symm
  · simpa using fun above null => (nulls null).1 above
  · exact and_congr_left' valued
  · exact and_congr_left' valued

theorem written_plain (values : List Value) : (values.map plain).flatMap written = values.flatMap written := by
  induction values with
  | nil => rfl
  | cons value rest ih =>
    have same : written (plain value) = written value := by cases value <;> rfl
    simp [same, ih]

/-- A read gives the first entries on its side of a bound, each key once and from the newest run, and the edges of
a read over a front hold the keys of the front whose next column is a value on the asked side. Without a bound, and
at least a null, they hold all the keys of the front. -/
theorem range_reads_exact {T K P : Type} [LinearOrder K] {key : T → K} {runs : List (List T)}
    (sorted : ∀ run ∈ runs, InTurn false key run) (fits : Forall₂ Fits (front.map plain) types)
    (fits' : Forall₂ Fits (first.map plain) types) (fitsBehind : Forall₂ Fits (behind.map plain) more)
    (held : OfNext bound behind) :
    (∀ descending reach (at_ : K) limit (f : T → Option P), ∃ found, InTurn descending key found ∧
      (∀ entry, entry ∈ found ↔ Newest key entry runs.reverse ∧ reach.takes (compare (key entry) at_)) ∧
      pick descending key (runs.map (window · reach fun entry => compare (key entry) at_)) limit f =
        (found.filterMap f).take limit) ∧
    ∃ found normal, edges front bound = some found ∧ normalize (first ++ behind) [] = some normal ∧
      (Between found normal ↔ Forall₂ (order · · = .eq) (first.map plain) (front.map plain) ∧ Asked bound behind) := by
  refine ⟨pick_spec sorted, ?_⟩
  have same : edges front bound = edges (front.map plain) bound := by
    obtain _ | ⟨reach, value⟩ := bound <;> simp [edges, normalize_plain]
  have normal := normalize_plain (first ++ behind) []
  rw [map_append, normalize_eq (rel_append fits' fitsBehind)] at normal
  refine ⟨_, _, same.trans (edges_eq fits held), normal.symm, ?_⟩
  obtain ⟨low, low'⟩ := low_ends bound
  rw [Between, nil_append, flatMap_append, written_plain behind, keys_cmp fits' fits fun _ => ⟨low_behind _, low⟩,
    keys_cmp fits' fits fun _ => ⟨low_behind _, low'⟩, ← tupleOrder_eq_iff fits' fits, ← between_ends held, Between]
  cases tupleOrder (first.map plain) (front.map plain) <;> simp

/-- A read above a text over a front of a bit string. -/
theorem range_reads_exact_text : ∃ found normal, edges [.bit [7, 255]] (some (.above, .varchar [97])) = some found ∧
    normalize [.bit [7, 255], .varchar [98]] [] = some normal ∧ (Between found normal ↔
      Forall₂ (order · · = .eq) [.blob [7, 255]] [.blob [7, 255]] ∧
        Asked (some (.above, .varchar [97])) [.varchar [98]]) :=
  (@range_reads_exact [.bit [7, 255]] [.bit [7, 255]] [.varchar [98]] [.blob] [.varchar] (some (.above, .varchar [97]))
    (Nat × Nat) Nat Nat _ Prod.fst [[(1, 10), (2, 20)], [(2, 30)]] (by simp [InTurn, Before]) (.cons .blob .nil)
    (.cons .blob .nil) (.cons .varchar .nil) (fun _ _ is => by cases is; exact ⟨_, rfl, _, .varchar, .varchar⟩)).2

/-- A null in the next column is between the edges where there is no bound, and from a null on. -/
theorem null_between_edges : (∃ found, edges [.varchar [97]] none = some found ∧
      ∃ normal, normalize [.varchar [97], .null] [] = some normal ∧ Between found normal) ∧
    ∃ found, edges [] (some (.atLeast, .null)) = some found ∧
      ∃ normal, normalize [.null] [] = some normal ∧ Between found normal :=
  ⟨⟨_, rfl, _, rfl, by unfold Between; decide⟩, _, rfl, _, rfl, by unfold Between; decide⟩

end Edges

end Rudb.Points
