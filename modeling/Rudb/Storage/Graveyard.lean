import Rudb.Storage.Hot

/-! The graveyard of a frozen stripe: the rows that the snapshots held when it was swapped in see
differently from its checkpoint. Embeds graveyard.rs. -/
namespace Rudb.Hot
open Rudb Rudb.Deletes Rudb.Undo

/-- `Cell`: a value of a row in the graveyard. -/
inductive Cell where
  | fixed (value : Nat)
  | text (bytes : List UInt8)
  deriving DecidableEq

/-- `Seen`: what a snapshot sees of a slot of the graveyard. -/
inductive Seen where
  | absent
  | frozen
  | values (cells : List (Option Cell))
  deriving DecidableEq

/-- A slot some held snapshot sees differently from the checkpoint. `dead` says that
the base of the frozen stripe's delete vector has it. -/
structure Ghost where
  slot : Nat
  dead : Bool
  seen : List Seen
  deriving DecidableEq

structure Graveyard where
  at_ : Nat
  snapshots : List Nat
  ghosts : List Ghost

namespace Graveyard

/-- `index`: the place of the newest snapshot at or before `snapshot`. -/
def index (graveyard : Graveyard) (snapshot : Nat) : Option Nat :=
  if snapshot < graveyard.at_ then
    some ((graveyard.snapshots.takeWhile fun held => held ≤ snapshot).length - 1)
  else none

/-- The body of the loop of `patch`. -/
def patchGhost (start at_ : Nat) (mask : Mask) (ghost : Ghost) : Mask := fun i =>
  if i = ghost.slot - start then
    if ghost.seen[at_]? = some .absent then false else ghost.dead || mask i
  else mask i

/-- `patch`. -/
def patch (graveyard : Graveyard) (part snapshot : Nat) (mask : Mask) : Mask :=
  match graveyard.index snapshot with
  | none => mask
  | some at_ =>
    let start := part * partRows
    let inside := (graveyard.ghosts.dropWhile fun ghost => ghost.slot < start).takeWhile
      fun ghost => ghost.slot < start + partRows
    inside.foldl (patchGhost start at_) mask

end Graveyard

end Rudb.Hot
