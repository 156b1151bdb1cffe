import Rudb.Storage.ZoneWalk

/-! The zones a table keeps, through every change to its rows: what they skip no row passes, and
what they are certain of every row does. -/
namespace Rudb.Storage.Zones
open Rudb.Common Rudb.Vectors List Option

def cell (column : Nat) (row : Row) : Value := (row[column]?).getD .null

/-- A row with a value of its type in every column. -/
def Fits (types : List LogicalType) (row : Row) : Prop := List.Forall₂ (fun value ty => value.fits ty) row types

def rowsOf (chunk : List Vector) (len : Nat) : List Row := (List.range len).map fun row => chunk.map (·.valueAt row)

/-- The columns of a chunk: vectors of one length, of the types of the table. -/
def Chunk (types : List LogicalType) (len : Nat) (chunk : List Vector) : Prop :=
  List.Forall₂ (fun vector ty => vector.Built ∧ vector.ty = ty ∧ vector.len = len) chunk types

/-- The loop over the columns with which a table takes rows out of the zone of their chunk. -/
def Zone.takeRows (zone : Zone) (width : Nat) (taken : List Row) : Zone :=
  (List.range width).foldl (fun zone column => zone.take column (taken.countP fun row => (cell column row).isNull)) zone

/-- A zone with the rows it covers: made of a chunk of `allowed` vectors or of a row, and changed
with its rows in any way a table changes them. -/
inductive Kept (types : List LogicalType) (allowed : Vector → Prop) : Zone → List Row → Prop
  | of {chunk : List Vector} {len : Nat} (columns : Chunk types len chunk) (plain : ∀ vector ∈ chunk, allowed vector) :
      Kept types allowed (Zone.of chunk) (rowsOf chunk len)
  | ofRow {zone : Zone} {row : Row} (fits : Fits types row) (answered : Zone.ofRow row types = some zone) :
      Kept types allowed zone [row]
  | widen {zone other : Zone} {rows more : List Row} (kept : Kept types allowed zone rows)
      (too : Kept types allowed other more) : Kept types allowed (zone.widen other) (rows ++ more)
  | widenRow {zone : Zone} {rows : List Row} {row : Row} (kept : Kept types allowed zone rows) (fits : Fits types row) :
      Kept types allowed (zone.widenRow row types) (rows ++ [row])
  | rewrite {zone : Zone} {rows : List Row} {place column : Nat} {row : Row} {value : Value} {ty : LogicalType}
      (kept : Kept types allowed zone rows) (there : rows[place]? = some row) (typed : types[column]? = some ty)
      (fits : value.fits ty) :
      Kept types allowed (zone.rewrite column (cell column row).isNull value ty)
        (rows.set place (row.set column value))
  | take {zone : Zone} {rows rest taken : List Row} (kept : Kept types allowed zone rows)
      (split : rows.Perm (rest ++ taken)) : Kept types allowed (zone.takeRows types.length taken) rest

/-- What a filter asks of a column, with the bound of its constant. -/
structure Ask where
  column : Nat
  op : Op
  constant : Value
  bound : Bound

namespace Ask

/-- A question about a column of the table, with a constant of the column's type. -/
def Of (types : List LogicalType) (ask : Ask) : Prop :=
  ∃ ty, types[ask.column]? = some ty ∧ Asks ty ask.constant ask.bound

def probe (ask : Ask) : Probe := ⟨ask.column, ask.op, ask.bound⟩

def passes (rest : Value → Value → Option Ordering) (types : List LogicalType) (ask : Ask) (row : Row) : Bool :=
  Kernels.passes rest ((types[ask.column]?).getD .null) ask.op (cell ask.column row) ask.constant

end Ask

def ZoneCovers (types : List LogicalType) (zone : Zone) (rows : List Row) : Prop :=
  ∀ column range ty, zone[column]? = some range → types[column]? = some ty → Covers ty range (rows.map (cell column))

theorem forall₂_at {related : α → β → Prop} {left : List α} {right : List β}
    (all : List.Forall₂ related left right) {index : Nat} {there : β} (found : right[index]? = some there) :
    ∃ here, left[index]? = some here ∧ related here there := by
  induction all generalizing index with
  | nil => cases found
  | @cons one other _ _ first _ ih =>
    cases index with
    | zero =>
      cases found
      exact ⟨one, rfl, first⟩
    | succ index => exact ih found

section changes
variable {types : List LogicalType} {zone : Zone} {rows : List Row}

theorem Fits.cell (fits : Fits types row)
    (typed : types[column]? = some ty) : (cell column row).fits ty := by
  obtain ⟨value, here, fits⟩ := forall₂_at fits typed
  simpa [Zones.cell, here] using fits

theorem ZoneCovers.of (columns : Chunk types len chunk)
    (plain : ∀ vector ∈ chunk, Plain vector) : ZoneCovers types (Zone.of chunk) (rowsOf chunk len) := by
  intro column range ty found typed
  obtain ⟨vector, here, built, rfl, rfl⟩ := forall₂_at columns typed
  obtain rfl : Range.of vector = range := by simpa [Zone.of, here] using found
  have rows : (rowsOf chunk vector.len).map (cell column) = vector.values := by
    simp [rowsOf, Vector.values, cell, here]
  rw [rows]
  exact range_covers built (plain vector (mem_of_getElem? here))

theorem forall₂_of_mapM
    (all : left.mapM answer = some right) : List.Forall₂ (fun here there => answer here = some there) left right := by
  induction left generalizing right with
  | nil =>
    cases all
    exact .nil
  | cons one left ih =>
    rw [mapM_cons] at all
    obtain ⟨first, here, all⟩ := bind_eq_some_iff.mp all
    obtain ⟨later, tail, all⟩ := bind_eq_some_iff.mp all
    cases all
    exact .cons here (ih tail)

theorem ZoneCovers.ofRow (fits : Fits types row) (answered : Zone.ofRow row types = some zone) :
    ZoneCovers types zone [row] := by
  intro column range ty found typed
  simp only [Zone.ofRow, ite_none_left_eq_some] at answered
  obtain ⟨held, here, one⟩ := forall₂_at (forall₂_of_mapM answered.2) found
  obtain ⟨one, known, rfl⟩ := Option.map_eq_some_iff.mp one
  obtain ⟨first, second⟩ := getElem?_zip_eq_some.mp here
  cases second.symm.trans typed
  have value : cell column row = held.1 := by simp [cell, first]
  rw [map_singleton, value]
  exact One.covers (value ▸ fits.cell typed) known

section
variable (covers : ZoneCovers types zone rows)
include covers

theorem ZoneCovers.widen (too : ZoneCovers types other more) : ZoneCovers types (zone.widen other) (rows ++ more) := by
  intro column range ty found typed
  obtain ⟨mine, theirs, here, there, rfl⟩ := getElem?_zipWith_eq_some.mp found
  rw [map_append]
  exact (covers column mine ty here typed).widen (too column theirs ty there typed)

theorem ZoneCovers.widenRow (fits : Fits types row) :
    ZoneCovers types (zone.widenRow row types) (rows ++ [row]) := by
  intro column range ty found typed
  obtain ⟨value, here, -⟩ := forall₂_at fits typed
  simp only [Zone.widenRow, getElem?_map, getElem?_zipIdx, Option.map_map] at found
  obtain ⟨mine, there, rfl⟩ := Option.map_eq_some_iff.mp found
  have there : zone[column]? = some mine := by
    rw [getElem?_take] at there
    exact (Option.ite_none_right_eq_some.mp there).2
  have cell_ : cell column row = value := by simp [cell, here]
  have covered := (covers column mine ty there typed).widenValue (fits.cell typed)
  simpa [here, typed, cell_] using covered

theorem ZoneCovers.rewrite
    (there : rows[place]? = some row) (width : row.length = types.length)
    (typed : types[column]? = some ty) (fits : value.fits ty) :
    ZoneCovers types (zone.rewrite column (cell column row).isNull value ty)
      (rows.set place (row.set column value)) := by
  intro index range ty' found typed'
  rw [map_set]
  simp only [Zone.rewrite, getElem?_modify] at found
  obtain ⟨mine, here, rfl⟩ := Option.map_eq_some_iff.mp found
  have covered := covers index mine ty' here typed'
  have held : (rows.map (cell index))[place]? = some (cell index row) := by simp [there]
  by_cases same : column = index
  · subst same
    cases typed'.symm.trans typed
    have inside : column < row.length := width ▸ (List.getElem?_eq_some_iff.mp typed).1
    have written : cell column (row.set column value) = value := by simp [cell, inside]
    rw [written]
    simpa using covered.rewrite held fits
  have kept : cell index (row.set column value) = cell index row := by simp [cell, getElem?_set_ne same]
  have unchanged : (rows.map (cell index)).set place (cell index row) = rows.map (cell index) := by
    obtain ⟨inside, here⟩ := List.getElem?_eq_some_iff.mp held
    rw [← here, List.set_getElem_self]
  rw [kept, unchanged]
  simpa [same] using covered

end

theorem takeRows_at (zone : Zone) (width : Nat) (taken : List Row) (column : Nat) :
    (zone.takeRows width taken)[column]? = (zone[column]?).map fun range =>
      if column < width then range.take (taken.countP fun row => (cell column row).isNull) else range := by
  induction width with
  | zero => simp [Zone.takeRows]
  | succ width ih =>
    rw [Zone.takeRows, range_succ, foldl_append, foldl_cons, foldl_nil, ← Zone.takeRows, Zone.take,
      getElem?_modify, ih]
    cases zone[column]? with
    | none => rfl
    | some range =>
      by_cases same : width = column
      · subst same
        simp
      · have step : column < width + 1 ↔ column < width := by omega
        simp [same, step]

theorem ZoneCovers.takeRows (covers : ZoneCovers types zone rows)
    (split : rows.Perm (rest ++ taken)) : ZoneCovers types (zone.takeRows types.length taken) rest := by
  intro column range ty found typed
  have inside : column < types.length := (List.getElem?_eq_some_iff.mp typed).1
  simp only [takeRows_at, inside, if_true] at found
  obtain ⟨mine, here, rfl⟩ := Option.map_eq_some_iff.mp found
  have cells : (rows.map (cell column)).Perm (rest.map (cell column) ++ taken.map (cell column)) := by
    rw [← map_append]
    exact split.map _
  have covered := (covers column mine ty here typed).take cells
  rwa [countP_map] at covered

end changes

theorem Fits.set (fits : Fits types row)
    (typed : types[column]? = some ty) (new : value.fits ty) : Fits types (row.set column value) := by
  induction fits generalizing column with
  | nil => exact .nil
  | cons first later ih =>
    cases column with
    | zero =>
      cases typed
      exact .cons new later
    | succ column => exact .cons first (ih typed)

/-- Through any changes the ranges of a zone cover the rows. -/
theorem Kept.covers (kept : Kept types Plain zone rows) :
    ZoneCovers types zone rows ∧ ∀ row ∈ rows, Fits types row := by
  induction kept with
  | of columns plain =>
    refine ⟨.of columns plain, fun row member => ?_⟩
    obtain ⟨index, -, rfl⟩ := mem_map.mp member
    exact forall₂_map_left_iff.mpr (columns.imp fun vector ty ⟨built, typed, _⟩ => typed ▸ built.fits index)
  | ofRow fits answered => exact ⟨.ofRow fits answered, by simpa using fits⟩
  | widen _ _ first second =>
    exact ⟨first.1.widen second.1, fun row member => (mem_append.mp member).elim (first.2 row) (second.2 row)⟩
  | widenRow _ fits ih =>
    refine ⟨ih.1.widenRow fits, fun row member => ?_⟩
    rcases mem_append.mp member with member | member
    · exact ih.2 row member
    · exact mem_singleton.mp member ▸ fits
  | rewrite _ there typed new ih =>
    have fits := ih.2 _ (mem_of_getElem? there)
    refine ⟨ih.1.rewrite there fits.length_eq typed new, fun row member => ?_⟩
    rcases mem_or_eq_of_mem_set member with member | rfl
    · exact ih.2 row member
    · exact fits.set typed new
  | take _ split ih =>
    exact ⟨ih.1.takeRows split, fun row member => ih.2 row (split.mem_iff.mpr (mem_append_left _ member))⟩

/-- A zone kept over columns the walk reads right never loses a row and never invents one. -/
theorem zone_answers (rest : Value → Value → Option Ordering) {types : List LogicalType} {zone : Zone} {rows : List Row}
    (kept : Kept types Plain zone rows) {asks : List Ask} (asked : ∀ ask ∈ asks, ask.Of types) :
    (zone.skips (asks.map Ask.probe) = true → ∀ row ∈ rows, ∃ ask ∈ asks, ask.passes rest types row = false) ∧
      (zone.certain (asks.map Ask.probe) = true → ∀ row ∈ rows, ∀ ask ∈ asks, ask.passes rest types row = true) := by
  obtain ⟨covers, fits⟩ := kept.covers
  have cells {column : Nat} {ty : LogicalType} (typed : types[column]? = some ty) :
      ∀ value ∈ rows.map (cell column), value.fits ty := by
    intro value member
    obtain ⟨row, there, rfl⟩ := mem_map.mp member
    exact (fits row there).cell typed
  refine ⟨fun skips row member => ?_, fun certain row member ask there => ?_⟩
  · obtain ⟨_, probed, told⟩ := any_eq_true.mp skips
    obtain ⟨ask, there, rfl⟩ := mem_map.mp probed
    obtain ⟨ty, typed, asks⟩ := asked ask there
    cases found : zone[ask.column]? with
    | none => simp [Ask.probe, found] at told
    | some range =>
      have told : range.excludes ask.op ask.bound = true := by simpa [Ask.probe, found] using told
      have fails := (covers ask.column range ty found typed).excludes asks (cells typed) rest told
      exact ⟨ask, there, by simpa [Ask.passes, typed] using fails _ (mem_map_of_mem member)⟩
  · have told := all_eq_true.mp certain ask.probe (mem_map_of_mem there)
    obtain ⟨ty, typed, asks⟩ := asked ask there
    cases found : zone[ask.column]? with
    | none => simp [Ask.probe, found] at told
    | some range =>
      have told : range.certain ask.op ask.bound = true := by simpa [Ask.probe, found] using told
      have passes := (covers ask.column range ty found typed).certain asks (cells typed) rest told
      simpa [Ask.passes, typed] using passes _ (mem_map_of_mem member)

/-- Two rows of sevens, asked about nine. -/
theorem zone_answers_sevens :
    let sevens := Vector.constant { ty := .whole .bigInt, len := 2 } (.whole .bigInt 7)
    let ask (op : Op) : Ask := ⟨0, op, .whole .bigInt 9, .int 9⟩
    (∀ row ∈ rowsOf [sevens] 2, ∃ asked ∈ [ask .greater], asked.passes (fun _ _ => none) [.whole .bigInt] row = false) ∧
      ∀ row ∈ rowsOf [sevens] 2, ∀ asked ∈ [ask .less], asked.passes (fun _ _ => none) [.whole .bigInt] row = true := by
  intro sevens ask
  have kept : Kept [.whole .bigInt] Plain (Zone.of [sevens]) (rowsOf [sevens] 2) := by
    refine .of (.cons ⟨show Value.fits _ _ = true by decide, rfl, rfl⟩ .nil) ?_
    simp only [mem_singleton, forall_eq]
    refine ⟨⟨id, by simp⟩, fun row live => ?_⟩
    rw [show sevens.valueAt row = .whole .bigInt 7 from if_pos live]
    simp
  have asked (op : Op) : ∀ asked ∈ [ask op], asked.Of [.whole .bigInt] := by
    simp only [mem_singleton, forall_eq]
    exact ⟨.whole .bigInt, rfl, show Value.fits (.whole .bigInt 9) _ = true by decide, rfl⟩
  exact ⟨(zone_answers _ kept (asked .greater)).1 (by decide), (zone_answers _ kept (asked .less)).2 (by decide)⟩

/-- A NaN is above every number and not between the ends: a chunk with one is skipped by a
comparison that its row passes. -/
theorem nan_row_lost :
    let column := Vector.flat { ty := .double, len := 2 } (.float64 [⟨0x3FF0000000000000⟩, ⟨0x7FF8000000000000⟩])
    let five : F64 := ⟨0x4014000000000000⟩
    let ask : Ask := ⟨0, .greater, .double five, .real five.number⟩
    Kept [.double] (fun _ => True) (Zone.of [column]) (rowsOf [column] 2) ∧ ask.Of [.double] ∧
      (Zone.of [column]).skips [ask.probe] = true ∧
      ∃ row ∈ rowsOf [column] 2, ask.passes (fun _ _ => none) [.double] row = true := by
  refine ⟨.of (.cons ⟨⟨rfl, .inr rfl⟩, rfl, rfl⟩ .nil) (by simp), ⟨.double, rfl, rfl, rfl⟩,
    ?_, [.double ⟨0x7FF8000000000000⟩], ?_,
    by decide +kernel⟩
  · decide +kernel
  · decide

end Rudb.Storage.Zones
