import Mathlib.Data.List.Lex
import Mathlib.Order.Compare
import Mathlib.Tactic.Order

/-! Words over a linearly ordered alphabet with a least letter, compared through their first letters
at a fixed width: the order of the padded words is the order of the words up to padding, and the
lengths break the ties. -/
namespace Padded
open List
variable {α : Type} [LinearOrder α] [OrderBot α]

/-- The first `width` letters, padded with the least one. -/
def pad : Nat → List α → List α
  | 0, _ => []
  | width + 1, [] => ⊥ :: pad width []
  | width + 1, letter :: word => letter :: pad width word

@[simp] theorem length_pad (width : Nat) (word : List α) : (pad width word).length = width := by
  induction width generalizing word with
  | zero => rfl
  | succ width ih => cases word <;> simp [pad, ih]

theorem pad_eq (width : Nat) (word : List α) : pad width word = (word ++ replicate width ⊥).take width := by
  induction width generalizing word with
  | zero => simp [pad]
  | succ width ih =>
    cases word with
    | nil => simpa [pad, replicate_succ] using ih []
    | cons letter word =>
      have more : (word ++ replicate (width + 1) ⊥).take width = (word ++ replicate width ⊥).take width := by
        rw [replicate_succ', ← append_assoc, take_append_of_le_length (by simp)]
      simp [pad, ih, more]

/-- Padded words in order are words in order. -/
theorem lt_of_pad_lt {other : List α} (below : pad width one < pad width other) : one < other := by
  induction width generalizing one other with
  | zero => simp [pad] at below
  | succ width ih =>
    match one, other with
    | [], [] => exact absurd below (lt_irrefl _)
    | [], _ :: _ => exact nil_lt_cons ..
    | letter :: one, [] =>
      simp only [pad, cons_lt_cons_iff, not_lt_bot, false_or] at below
      exact absurd (ih below.2) (not_lt_nil _)
    | letter :: one, held :: other =>
      simp only [pad, cons_lt_cons_iff] at below ⊢
      exact below.imp id fun ⟨same, below⟩ => ⟨same, ih below⟩

/-- Short words that pad to one word are in the order of their lengths. -/
theorem lt_iff_length_lt {other : List α} (same : pad width one = pad width other)
    (short : one.length ≤ width) (short' : other.length ≤ width) : one < other ↔ one.length < other.length := by
  induction width generalizing one other with
  | zero =>
    cases length_eq_zero_iff.mp (Nat.le_zero.mp short')
    simp
  | succ width ih =>
    match one, other with
    | [], [] => simp
    | [], _ :: _ => simp
    | _ :: _, [] => simp
    | letter :: one, held :: other =>
      simp only [pad, cons.injEq] at same
      obtain ⟨rfl, same⟩ := same
      have tail := ih same (Nat.le_of_succ_le_succ short) (Nat.le_of_succ_le_succ short')
      simpa [cons_lt_cons_iff] using tail

section number
variable {β : Type} [LinearOrder β] {base : Nat} {digit : β → Nat}

/-- The number that a word is the digits of, the first one on top. -/
def number (base : Nat) (digit : β → Nat) (word : List β) : Nat :=
  word.foldl (fun number letter => number * base + digit letter) 0

section
variable {low below : Nat} (small : low < base) (small' : below < base)
include small small'

theorem digits_lt_iff : high * base + low < above * base + below ↔ high < above ∨ high = above ∧ low < below := by
  rcases lt_trichotomy high above with less | rfl | more
  · have step := Nat.mul_le_mul_right base (Nat.succ_le_of_lt less)
    rw [Nat.succ_mul] at step
    omega
  · omega
  · have step := Nat.mul_le_mul_right base (Nat.succ_le_of_lt more)
    rw [Nat.succ_mul] at step
    omega

theorem digits_eq_iff : high * base + low = above * base + below ↔ high = above ∧ low = below := by
  have less : _ ↔ high < above ∨ _ := digits_lt_iff small small'
  have more : _ ↔ above < high ∨ _ := digits_lt_iff small' small
  omega

end

/-- Numbers of as many digits are in the order of the digits. -/
theorem number_lt_iff (strict : StrictMono digit) (small : ∀ letter, digit letter < base)
    (same : one.length = other.length) : number base digit one < number base digit other ↔ one < other := by
  suffices general : ∀ (left right : Nat),
      one.foldl (fun number letter => number * base + digit letter) left <
        other.foldl (fun number letter => number * base + digit letter) right ↔
      left < right ∨ left = right ∧ one < other by
    simpa [number] using general 0 0
  induction one generalizing other with
  | nil =>
    cases length_eq_zero_iff.mp same.symm
    simp
  | cons letter one ih =>
    obtain _ | ⟨held, other⟩ := other
    · cases same
    simp only [foldl_cons, ih (Nat.succ.inj same), digits_lt_iff (small letter) (small held),
      digits_eq_iff (small letter) (small held), strict.lt_iff_lt, strict.injective.eq_iff, cons_lt_cons_iff]
    tauto

end number
end Padded
