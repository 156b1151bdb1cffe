import Rudb.Index.Key

/-! Range reads over a key: the part of each sorted run on one side of a bound, the entries picked
over the runs, and the two normalized keys that a read of a front of the key goes between. Embeds
points.rs of rudb-catalog. -/
namespace Rudb.Points
open Rudb.Common Rudb.Index

/-- `Reach`: which side of a value a read takes. -/
inductive Reach where
  | atLeast
  | above
  | atMost
  | below
  deriving DecidableEq

variable {T K P : Type}

/-- `partition_point` of entries that a test holds of up to some place. -/
def partitionPoint (sorted : List T) (test : T → Bool) : Nat := sorted.findIdx (!test ·)

/-- `window`. -/
def window (sorted : List T) (reach : Reach) (order : T → Ordering) : List T :=
  let low := match reach with
    | .atLeast => partitionPoint sorted (order · = .lt)
    | .above => partitionPoint sorted (order · ≠ .gt)
    | .atMost | .below => 0
  let high := match reach with
    | .atMost => partitionPoint sorted (order · ≠ .gt)
    | .below => partitionPoint sorted (order · = .lt)
    | .atLeast | .above => sorted.length
  (sorted.take high).drop low

section Pick
variable [LinearOrder K] (descending : Bool) (key : T → K)

/-- Whether a key is read no later than another. -/
def sooner (one other : K) : Bool := if descending then one ≥ other else one ≤ other

/-- The entry to pick next: of the first key, and of the newest window that has it. -/
def best (windows : List (List T)) : Option T :=
  windows.foldl (fun best window =>
    match window.head? with
    | none => best
    | some entry => if best.all fun best => sooner descending (key entry) (key best) then some entry else best) none

/-- What is left of a window once an entry is picked. -/
def pass (entry : T) (window : List T) : List T := if window.head?.any (key · = key entry) then window.tail else window

/-- The loop of `pick`, over what is left of the windows, in the order they are read in. -/
def pickFrom (limit : Nat) (f : T → Option P) : (rounds : Nat) → (windows : List (List T)) → (picked : List P) → List P
  | 0, _, picked => picked
  | rounds + 1, windows, picked =>
    if picked.length < limit then
      match best descending key windows with
      | none => picked
      | some entry => pickFrom limit f rounds (windows.map (pass key entry)) (picked ++ (f entry).toList)
    else picked

/-- `pick`, in which each round but the last takes an entry of a window. -/
def pick (windows : List (List T)) (limit : Nat) (f : T → Option P) : List P :=
  let windows := if descending then windows.map List.reverse else windows
  pickFrom descending key limit f ((windows.map List.length).sum + 1) windows []

end Pick

/-- `edges`. -/
def edges (front : List Value) (bound : Option (Reach × Value)) : Option (Bytes × Bytes) :=
  (normalize front []).bind fun start =>
    match bound with
    | none => some (start, start ++ [0xFF])
    | some (reach, value) =>
      (normalize [value] start).map fun equal =>
        match reach with
        | .atLeast => (equal, start ++ [0xFF])
        | .above => (equal ++ [0xFF], start ++ [0xFF])
        | .atMost => (start ++ [0x01], equal ++ [0xFF])
        | .below => (start ++ [0x01], equal)

end Rudb.Points
