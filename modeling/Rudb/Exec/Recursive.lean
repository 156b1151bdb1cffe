import Rudb.Exec.Key

/-! `WITH RECURSIVE`, run to a fixpoint. One round is a function of the rows it works on and the
rows so far. The loops take as many rounds as they are allowed, and answer nothing when that is
too few. How values group and hash is `Keys`', a parameter. Embeds recursive.rs of rudb-exec. -/
namespace Rudb.Exec

/-- An aggregate in `USING KEY`: the column its answer lands in, how many of the columns behind the kept
ones it reads, and what it computes. -/
structure Fold (Value State : Type) where
  into : Nat
  args : Nat
  new : State
  update : State → List Value → State
  finish : State → Value

structure Fixpoint (Value State : Type) where
  keys : Keys Value
  all : Bool
  key : List Nat
  folds : List (Fold Value State)
  /-- How many columns the rows that are kept have. -/
  width : Nat
  wanted : Option Nat
  /-- Whether the round reads nothing of what it is given. -/
  once : Bool
  round : (working soFar : List (List Value)) → List (List Value)

/-- The rows of a recursion without a key, and those the next round works on. -/
structure Listed (Value : Type) where
  seen : List (List Value)
  out : List (List Value)
  working : List (List Value)

/-- `Keyed`: the rows of a keyed recursion, where each key's row is, and the states of its aggregates. -/
structure Keyed (Value State : Type) where
  rows : List (List Value) := []
  slots : List (List Value × Nat) := []
  states : List (List State) := []

/-- `replace`: replaces a key's row with a later one, keeping the key columns as they were first stored. -/
def replace {Value : Type} (kept row : List Value) (columns : List Nat) : List Value :=
  row.zipIdx.foldl
    (fun kept cell => if columns.contains cell.2 then kept else kept.set cell.2 cell.1) kept

/-- A table that rows are put into, with what each key that was touched held before, in the order the
keys came, and which of the rows there were before were touched. -/
structure Touching (Value State : Type) where
  table : Keyed Value State
  first : List Bool
  touched : List (Nat × Option (List Value))

/-- Notes what a row held, the first time it is touched. -/
def Touching.touch {Value State : Type} (state : Touching Value State) (slot : Nat) : Touching Value State :=
  if state.first[slot]? = some false then
    { state with
      first := state.first.set slot true
      touched := state.touched ++ [(slot, state.table.rows[slot]?)] }
  else state

/-- Every aggregate takes its own arguments off the columns that are left. -/
def updateAll {Value State : Type} : List (Fold Value State) → List State → (args : List Value) → List State
  | fold :: folds, state :: states, args =>
    fold.update state (args.take fold.args) :: updateAll folds states (args.drop fold.args)
  | _, _, _ => []

/-- Every aggregate's answer goes into its column. -/
def answers {Value State : Type} : List (Fold Value State) → List State → List Value → List Value
  | fold :: folds, state :: states, row => answers folds states (row.set fold.into (fold.finish state))
  | _, _, row => row

namespace Fixpoint
variable {Value State : Type} (fixpoint : Fixpoint Value State)

/-- The rows of a round that are produced, which without `ALL` are those that were not before. -/
def produced (seen made : List (List Value)) : List (List Value) × List (List Value) :=
  if fixpoint.all then (made, seen) else fixpoint.keys.retain seen made

def start (anchor : List (List Value)) : Listed Value :=
  let kept := fixpoint.produced [] anchor
  ⟨kept.2, kept.1, kept.1⟩

def next (listed : Listed Value) : Listed Value :=
  let kept := fixpoint.produced listed.seen (fixpoint.round listed.working listed.out)
  ⟨kept.2, listed.out ++ kept.1, kept.1⟩

/-- Whether as many rows as are read are there. -/
def enough (out : List (List Value)) : Bool := fixpoint.wanted.any (· ≤ out.length)

def listedFrom : (rounds : Nat) → Listed Value → Option (List (List Value))
  | rounds, listed =>
    if listed.working.isEmpty ∨ fixpoint.enough listed.out then some listed.out
    else match rounds with
      | 0 => none
      | rounds + 1 => listedFrom rounds (fixpoint.next listed)

/-- `listed`: every row every round produced, in the order they came, without a key. -/
def listed (rounds : Nat) (anchor : List (List Value)) : Option (List (List Value)) :=
  (fixpoint.listedFrom rounds (fixpoint.start anchor)).map fun out =>
    match fixpoint.wanted with
    | some wanted => out.take wanted
    | none => out

/-- `key_of`: the values of a row's key columns, as one key. -/
def keyOf (row : List Value) : List Value := fixpoint.key.filterMap (row[·]?)

def slotOf (table : Keyed Value State) (key : List Value) : Option Nat :=
  (table.slots.find? fun entry => fixpoint.keys.finds entry.1 key).map Prod.snd

/-- `put`: gives a key the row, replacing the one it had or adding it after every other. -/
def put (table : Keyed Value State) (key row : List Value) : Keyed Value State :=
  match fixpoint.slotOf table key with
  | some slot => { table with rows := table.rows.modify slot fun kept => replace kept row fixpoint.key }
  | none => { table with rows := table.rows ++ [row], slots := table.slots ++ [(key, table.rows.length)] }

/-- One row of a round put into the table. -/
def applyRow (state : Touching Value State) (row : List Value) : Touching Value State :=
  match fixpoint.slotOf state.table (fixpoint.keyOf row) with
  | some slot =>
    let state := state.touch slot
    { state with
      table := { state.table with
        rows := state.table.rows.modify slot fun kept => replace kept row fixpoint.key } }
  | none =>
    { state with
      touched := state.touched ++ [(state.table.rows.length, none)]
      table := fixpoint.put state.table (fixpoint.keyOf row) row }

/-- The columns of a row that are neither an aggregate's nor the key's. -/
def takeOthers (kept row : List Value) : List Value :=
  replace kept (row.take fixpoint.width) (fixpoint.folds.map Fold.into ++ fixpoint.key)

/-- One row of a round goes into its key's states. -/
def foldRow (state : Touching Value State) (row : List Value) : Touching Value State :=
  let slot := fixpoint.slotOf state.table (fixpoint.keyOf row)
  let state : Touching Value State := match slot with
    | some slot => state.touch slot
    | none =>
      let table := fixpoint.put state.table (fixpoint.keyOf row) (row.take fixpoint.width)
      { state with
        touched := state.touched ++ [(state.table.rows.length, none)]
        table := { table with states := table.states ++ [fixpoint.folds.map Fold.new] } }
  let slot := slot.getD (state.table.rows.length - 1)
  { state with
    table := { state.table with
      states := state.table.states.modify slot fun states =>
        updateAll fixpoint.folds states (row.drop fixpoint.width)
      rows := state.table.rows.modify slot fun kept => fixpoint.takeOthers kept row } }

/-- The rows that were touched take what their states answer. -/
def finishRows (state : Touching Value State) : Keyed Value State :=
  { state.table with
    rows := state.touched.foldl
      (fun rows entry => rows.modify entry.1 fun row =>
        answers fixpoint.folds (state.table.states.getD entry.1 []) row) state.table.rows }

/-- The rows that were touched and are not what they were, one for each key. -/
def changed (touched : List (Nat × Option (List Value))) (rows : List (List Value)) : List (List Value) :=
  (touched.filter fun entry => entry.2.all fun before =>
      !(before.zip (rows.getD entry.1 [])).all fun pair => fixpoint.keys.same pair.1 pair.2).filterMap
    fun entry => rows[entry.1]?

def untouched (table : Keyed Value State) : Touching Value State :=
  ⟨table, List.replicate table.rows.length false, []⟩

/-- `apply` with aggregates. -/
def fold (table : Keyed Value State) (made : List (List Value)) : Keyed Value State × List (List Value) :=
  let state := made.foldl fixpoint.foldRow (untouched table)
  let table := fixpoint.finishRows state
  (table, if fixpoint.all then made.map (List.take fixpoint.width) else fixpoint.changed state.touched table.rows)

/-- `apply`: puts what a round made into the table and answers what the next round reads. -/
def apply (table : Keyed Value State) (made : List (List Value)) : Keyed Value State × List (List Value) :=
  if !fixpoint.folds.isEmpty then fixpoint.fold table made
  else if fixpoint.all then
    (made.foldl (fun table row => fixpoint.put table (fixpoint.keyOf row) row) table, made)
  else
    let state := made.foldl fixpoint.applyRow (untouched table)
    (state.table, fixpoint.changed state.touched state.table.rows)

def keyedFrom : (rounds : Nat) → (table : Keyed Value State) → (working : List (List Value)) →
    Option (List (List Value))
  | rounds, table, working =>
    if working.isEmpty then some table.rows
    else match rounds with
      | 0 => none
      | rounds + 1 =>
        let applied := fixpoint.apply table (fixpoint.round working table.rows)
        keyedFrom rounds applied.1 applied.2

/-- `keyed`: the last row each key was given, keys in the order they first came, with a key. -/
def keyed (rounds : Nat) (anchor : List (List Value)) : Option (List (List Value)) :=
  let applied := fixpoint.apply {} anchor
  if fixpoint.once then
    some (fixpoint.apply applied.1 (fixpoint.round applied.2 applied.1.rows)).1.rows
  else fixpoint.keyedFrom rounds applied.1 applied.2

end Fixpoint

end Rudb.Exec
