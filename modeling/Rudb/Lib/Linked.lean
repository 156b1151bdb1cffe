/-! Singly linked lists in a partial memory, as a loop over the links visits them. -/
namespace LinkedMemory

/-- The references a loop over the links visits, `fuel` of them at most. -/
def walk {ρ α : Type} (mem : ρ → Option α) (link : α → ρ) : Nat → ρ → List ρ
  | 0, _ => []
  | fuel + 1, ref =>
    match mem ref with
    | none => []
    | some node => ref :: walk mem link fuel (link node)

end LinkedMemory
