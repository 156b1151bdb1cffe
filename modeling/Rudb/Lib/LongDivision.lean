import Rudb.Lib.Places

/-! Long division of numbers written in a base: a trial digit from the first places, put right by the second place of the
divisor and at last by adding the divisor back. -/
namespace Rudb.Lib
open List
variable {base : ℤ}

/-- A trial digit put right: while it is no digit or the second place of the divisor shows it too large, one less, until
the rest is too large for the second place to tell. Each round adds the first place to the rest, so that `base`
rounds are more than there are. -/
def trial (base first second next : ℤ) : (rounds : Nat) → (digit rest : ℤ) → ℤ
  | 0, digit, _ => digit
  | rounds + 1, digit, rest =>
    if digit ≥ base ∨ digit * second > rest * base + next then
      if rest + first ≥ base then digit - 1 else trial base first second next rounds (digit - 1) (rest + first)
    else digit

/-- A digit times the divisor taken away place by place from the last one on: the carry of the product, the borrow of the
difference, and the places left. -/
def takeAway (base digit : ℤ) : (window divisor : List ℤ) → ℤ × ℤ × List ℤ
  | place :: window, second :: divisor =>
    let (carry, borrow, left) := takeAway base digit window divisor
    let product := digit * second + carry
    let rest := place - product % base - borrow
    if rest < 0 then (product / base, 1, (rest + base) :: left) else (product / base, 0, rest :: left)
  | _, _ => (0, 0, [])

/-- One digit of the quotient: the window is the place above the divisor's and as many places as the divisor has. -/
def divideRound (base above : ℤ) (window divisor : List ℤ) : ℤ × List ℤ :=
  let top := above * base + window.getD 0 0
  let first := divisor.getD 0 0
  let digit := trial base first (divisor.getD 1 0) (window.getD 1 0) base.toNat (top / first) (top % first)
  let (carry, borrow, left) := takeAway base digit window divisor
  if above - carry - borrow < 0 then (digit - 1, (carried base (List.zipWith (· + ·) left divisor)).2) else (digit, left)

/-- A digit for each round, with the window one place further each time. -/
def divideRounds (base : ℤ) (divisor : List ℤ) : (rounds : Nat) → (dividend : List ℤ) → List ℤ
  | 0, _ => []
  | rounds + 1, dividend =>
    let (digit, left) := divideRound base (dividend.getD 0 0) (dividend.tail.take divisor.length) divisor
    digit :: divideRounds base divisor rounds (left ++ dividend.tail.drop divisor.length)

/-- Division by one place, from the first place on. -/
def shortDivide (base divisor : ℤ) : (rest : ℤ) → (dividend : List ℤ) → List ℤ
  | _, [] => []
  | rest, place :: dividend =>
    (rest * base + place) / divisor :: shortDivide base divisor ((rest * base + place) % divisor) dividend

/-- The places times a number, with the carry as a place of its own in front. -/
def times (base scale : ℤ) (places : List ℤ) : List ℤ :=
  let (carry, written) := carried base (places.map (· * scale))
  carry :: written

/-- The quotient of two numbers, where the first place of the divisor is not zero. -/
def longDivide (base : ℤ) (dividend divisor : List ℤ) : List ℤ :=
  if dividend.length < divisor.length then []
  else if divisor.length = 1 then shortDivide base (divisor.getD 0 0) 0 dividend
  else
    let scale := base / (divisor.getD 0 0 + 1)
    divideRounds base (times base scale divisor).tail (dividend.length - divisor.length + 1) (times base scale dividend)

section Short
@[simp] theorem length_shortDivide : (shortDivide base divisor rest dividend).length = dividend.length := by
  induction dividend generalizing rest with
  | nil => rfl
  | cons place dividend ih => simp [shortDivide, ih]

theorem digits_shortDivide (positive : 0 < divisor) (low : 0 ≤ rest) (high : rest < divisor)
    (digits : Digits base dividend) :
    Digits base (shortDivide base divisor rest dividend) := by
  induction dividend generalizing rest with
  | nil => exact digits_nil
  | cons place dividend ih =>
    obtain ⟨⟨zero, few⟩, digits⟩ := digits_cons.mp digits
    rw [shortDivide, digits_cons]
    refine ⟨⟨Int.ediv_nonneg (by nlinarith) (by omega), Int.ediv_lt_of_lt_mul positive (by nlinarith)⟩, ?_⟩
    exact ih (Int.emod_nonneg _ (by omega)) (Int.emod_lt_of_pos _ positive) digits

theorem ofPlaces_shortDivide (positive : 0 < divisor) (low : 0 ≤ rest) (high : rest < divisor) :
    ofPlaces base (shortDivide base divisor rest dividend) =
      (rest * base ^ dividend.length + ofPlaces base dividend) / divisor := by
  induction dividend generalizing rest with
  | nil => simp [shortDivide, Int.ediv_eq_zero_of_lt low high]
  | cons place dividend ih =>
    have split := Int.mul_ediv_add_emod (rest * base + place) divisor
    rw [shortDivide, ofPlaces_cons, ih (Int.emod_nonneg _ (by omega)) (Int.emod_lt_of_pos _ positive),
      length_shortDivide,
      ofPlaces_cons, length_cons]
    have regroup : rest * base ^ (dividend.length + 1) + (place * base ^ dividend.length + ofPlaces base dividend) =
        ((rest * base + place) % divisor * base ^ dividend.length + ofPlaces base dividend) +
          divisor * ((rest * base + place) / divisor * base ^ dividend.length) := by
      linear_combination (-(base ^ dividend.length)) * split
    rw [regroup, Int.add_mul_ediv_left _ _ (by omega)]
    ring

end Short

/-- A divisor by its first two places and a number by the places above them, with the places behind as parts of one
unit. -/
structure Window (base first second divisor top next number unit : ℤ) : Prop where
  unit_pos : 0 < unit
  first_pos : 0 < first
  first_high : first < base
  second_low : 0 ≤ second
  second_high : second < base
  divisor_low : (first * base + second) * unit ≤ divisor
  divisor_high : divisor ≤ (first * base + second + 1) * unit
  next_low : 0 ≤ next
  next_high : next < base
  number_low : (top * base + next) * unit ≤ number
  number_high : number < (top * base + next + 1) * unit

namespace Window
variable {first second divisor top next number unit : ℤ}

section
variable (window : Window base first second divisor top next number unit)
include window

theorem divisor_pos : 0 < divisor := by
  have := window.second_low
  have whole : 0 < first * base := mul_pos window.first_pos (by linarith [window.second_high])
  exact lt_of_lt_of_le (mul_pos (by omega) window.unit_pos) window.divisor_low

/-- What the first places show too large is. -/
theorem lt_mul (positive : 0 ≤ digit) (large : top * base + next < digit * (first * base + second)) :
    number < digit * divisor :=
  calc number < (top * base + next + 1) * unit := window.number_high
    _ ≤ digit * (first * base + second) * unit := mul_le_mul_of_nonneg_right large window.unit_pos.le
    _ = digit * ((first * base + second) * unit) := mul_assoc _ _ _
    _ ≤ digit * divisor := mul_le_mul_of_nonneg_left window.divisor_low positive

/-- What they show not too large, whatever is behind them, is not. -/
theorem mul_le (positive : 0 ≤ digit) (few : digit * (first * base + second + 1) ≤ top * base + next) :
    digit * divisor ≤ number :=
  calc digit * divisor ≤ digit * ((first * base + second + 1) * unit) :=
    mul_le_mul_of_nonneg_left window.divisor_high positive
    _ = digit * (first * base + second + 1) * unit := (mul_assoc _ _ _).symm
    _ ≤ (top * base + next) * unit := mul_le_mul_of_nonneg_right few window.unit_pos.le
    _ ≤ number := window.number_low

/-- A digit the second place shows too large is. -/
theorem lt_of_second (positive : 0 ≤ digit) (same : digit * first + rest = top)
    (large : digit * second > rest * base + next) :
    number < digit * divisor := by
  refine window.lt_mul positive ?_
  subst same
  linarith

/-- A digit the second place does not show too large is at most one too large. -/
theorem le_of_second (positive : 0 < digit) (few : digit < base) (same : digit * first + rest = top)
    (right : digit * second ≤ rest * base + next) : (digit - 1) * divisor ≤ number := by
  refine window.mul_le (by omega) ?_
  have whole : base ≤ first * base := le_mul_of_one_le_left (by omega) window.first_pos
  have := window.second_low
  subst same
  linarith

/-- With a rest past the base the digit is no larger than the quotient. -/
theorem le_of_rest (positive : 0 ≤ digit) (few : digit ≤ base) (same : digit * first + rest = top)
    (large : base ≤ rest) :
    digit * divisor ≤ number := by
  refine window.mul_le positive ?_
  have behind : digit * (second + 1) ≤ base * base :=
    mul_le_mul few window.second_high (by linarith [window.second_low]) (by omega)
  have beyond : base * base ≤ rest * base := mul_le_mul_of_nonneg_right large (by omega)
  have := window.next_low
  subst same
  linarith

/-- The trial digit put right is the quotient's or one more. -/
theorem trial_bounds {rounds : Nat} (whole : 0 ≤ number) (fits : number < base * divisor)
    (enough : base - rest ≤ rounds) (positive : 0 ≤ digit) (few : digit ≤ base + 1) (rest_high : rest < base)
    (same : digit * first + rest = top) (beyond : number < (digit + 1) * divisor) :
    let found := trial base first second next rounds digit rest
    0 ≤ found ∧ found < base ∧ number < (found + 1) * divisor ∧ (found - 1) * divisor ≤ number := by
  have divisor_pos := window.divisor_pos
  induction rounds generalizing digit rest with
  | zero =>
    omega
  | succ rounds ih =>
    rw [trial]
    split
    · rename_i large
      have less : number < digit * divisor := by
        rcases large with large | large
        · exact fits.trans_le (mul_le_mul_of_nonneg_right large divisor_pos.le)
        · exact window.lt_of_second positive same large
      have some_ : 0 < digit := pos_of_mul_pos_left (whole.trans_lt less) divisor_pos.le
      have again : (digit - 1) * first + (rest + first) = top := by linarith
      split
      · rename_i past
        have le := window.le_of_rest (by omega) (by omega) again past
        refine ⟨by omega, ?_, by rwa [sub_add_cancel], by linarith⟩
        exact lt_of_mul_lt_mul_right (le.trans_lt fits) divisor_pos.le
      · have := window.first_pos
        exact ih (by push_cast at enough; omega) (by omega) (by omega) (by omega) again (by rwa [sub_add_cancel])
    · rename_i right
      push Not at right
      refine ⟨positive, right.1, beyond, ?_⟩
      rcases positive.eq_or_lt with rfl | some_
      · linarith
      · exact window.le_of_second some_ right.1 same right.2

/-- The first trial digit is at most one past the base. -/
theorem trial_few (half : base ≤ 2 * first) (fits : number < base * divisor) : top / first ≤ base + 1 := by
  have base_pos : 0 < base := window.second_low.trans_lt window.second_high
  have few : top * base + next < base * (first * base + second + 1) := by
    by_contra many
    exact absurd (window.mul_le base_pos.le (by linarith)) (not_le.mpr fits)
  have top_few : top < first * base + base := by
    refine lt_of_mul_lt_mul_right ?_ base_pos.le
    have := mul_le_mul_of_nonneg_left (show second + 1 ≤ base from window.second_high) base_pos.le
    linarith [window.next_low]
  exact Int.lt_add_one_iff.mp (Int.ediv_lt_of_lt_mul window.first_pos (by linarith))

/-- The first trial digit is not too small. -/
theorem trial_over (top_low : 0 ≤ top) : number < (top / first + 1) * divisor := by
  have base_pos : 0 < base := window.second_low.trans_lt window.second_high
  have digit_low : 0 ≤ top / first + 1 := add_nonneg (Int.ediv_nonneg top_low window.first_pos.le) zero_le_one
  refine window.lt_mul digit_low ?_
  have top_lt : top + 1 ≤ (top / first + 1) * first := Int.lt_ediv_add_one_mul_self top window.first_pos
  have scaled := mul_le_mul_of_nonneg_right top_lt base_pos.le
  have behind := mul_nonneg digit_low window.second_low
  linarith [window.next_high]

/-- The trial digit from the first places is the quotient's or one more. -/
theorem first_trial (half : base ≤ 2 * first) (top_low : 0 ≤ top) (whole : 0 ≤ number) (fits : number < base * divisor) :
    let found := trial base first second next base.toNat (top / first) (top % first)
    0 ≤ found ∧ found < base ∧ number < (found + 1) * divisor ∧ (found - 1) * divisor ≤ number := by
  have first_pos := window.first_pos
  have first_high := window.first_high
  have rest_low := Int.emod_nonneg top (show first ≠ 0 by omega)
  have rest_high := Int.emod_lt_of_pos top first_pos
  exact window.trial_bounds whole fits (by omega) (Int.ediv_nonneg top_low first_pos.le) (window.trial_few half fits)
    (by omega) (Int.ediv_mul_add_emod _ _) (window.trial_over top_low)

end

end Window

section Rounds
variable {digit : ℤ} {window divisor : List ℤ}

theorem takeAway_cons : takeAway base digit (place :: window) (second :: divisor) =
    let (carry, borrow, left) := takeAway base digit window divisor
    let product := digit * second + carry
    let rest := place - product % base - borrow
    if rest < 0 then (product / base, 1, (rest + base) :: left) else (product / base, 0, rest :: left) := rfl

/-- What taking away leaves: places of the base, and the number less the product but for what is owed above it. -/
structure TakenAway (base digit : ℤ) (window divisor : List ℤ) (carry borrow : ℤ) (left : List ℤ) : Prop where
  length : left.length = window.length
  digits : Digits base left
  borrow_low : 0 ≤ borrow
  borrow_high : borrow ≤ 1
  number : ofPlaces base window - digit * ofPlaces base divisor =
    ofPlaces base left - (carry + borrow) * base ^ window.length

theorem takeAway_spec (positive : 0 < base) (same : window.length = divisor.length) (digits : Digits base window) :
    TakenAway base digit window divisor (takeAway base digit window divisor).1 (takeAway base digit window divisor).2.1
      (takeAway base digit window divisor).2.2 := by
  induction window generalizing divisor with
  | nil =>
    cases divisor with
    | nil => exact ⟨rfl, digits_nil, le_rfl, zero_le_one, by simp [takeAway]⟩
    | cons => cases same
  | cons place window ih =>
    cases divisor with
    | nil => cases same
    | cons second divisor =>
      have lengths : window.length = divisor.length := Nat.succ.inj same
      obtain ⟨⟨low, high⟩, digits⟩ := digits_cons.mp digits
      have behind := ih lengths digits
      obtain ⟨⟨carry, borrow, left⟩, named⟩ : ∃ parts, takeAway base digit window divisor = parts := ⟨_, rfl⟩
      rw [named] at behind
      rw [takeAway_cons, named]
      have product := Int.mul_ediv_add_emod (digit * second + carry) base
      have product_low := Int.emod_nonneg (digit * second + carry) (show base ≠ 0 by omega)
      have product_high := Int.emod_lt_of_pos (digit * second + carry) positive
      have borrow_low : 0 ≤ borrow := behind.borrow_low
      have borrow_high : borrow ≤ 1 := behind.borrow_high
      have number := behind.number
      dsimp only at number ⊢
      split <;>
      · refine ⟨by simp [behind.length], digits_cons.mpr ⟨⟨by omega, by omega⟩, behind.digits⟩, by simp, by simp, ?_⟩
        rw [ofPlaces_cons, ofPlaces_cons, ofPlaces_cons, behind.length, length_cons, ← lengths]
        linear_combination number + base ^ window.length * product

/-- A divisor scaled so that its first place is at least half the base. -/
structure Scaled (base : ℤ) (divisor : List ℤ) : Prop where
  digits : Digits base divisor
  long : 2 ≤ divisor.length
  half : base ≤ 2 * divisor.getD 0 0

theorem Scaled.base_pos (scaled : Scaled base divisor) : 0 < base := by
  obtain ⟨digits, long, half⟩ := scaled
  cases divisor with
  | nil => simp at long
  | cons first divisor =>
    have := (digits_cons.mp digits).1
    omega

/-- The window over a scaled divisor by the first places of both. -/
theorem Scaled.exists_window (scaled : Scaled base divisor) (same : window.length = divisor.length)
    (digits : Digits base window)
    (above : ℤ) : ∃ unit, Window base (divisor.getD 0 0) (divisor.getD 1 0) (ofPlaces base divisor)
      (above * base + window.getD 0 0) (window.getD 1 0) (above * base ^ window.length + ofPlaces base window) unit := by
  have base_pos := scaled.base_pos
  obtain ⟨digits_divisor, long, half⟩ := scaled
  match divisor, window, same with
  | first :: second :: divisor, place :: next :: window, same =>
    obtain ⟨first_digit, digits_divisor⟩ := digits_cons.mp digits_divisor
    obtain ⟨second_digit, digits_divisor⟩ := digits_cons.mp digits_divisor
    obtain ⟨place_digit, digits⟩ := digits_cons.mp digits
    obtain ⟨next_digit, digits⟩ := digits_cons.mp digits
    have lengths : window.length = divisor.length := by simpa using same
    have half : base ≤ 2 * first := half
    have low := digits_divisor.nonneg
    have high := digits_divisor.lt base_pos
    have tail_low := digits.nonneg
    have tail_high := digits.lt base_pos
    simp only [getD_cons_zero, getD_cons_succ, ofPlaces_cons, length_cons, pow_succ, lengths] at tail_high ⊢
    exact ⟨base ^ divisor.length, pow_pos base_pos _, by omega, first_digit.2, second_digit.1, second_digit.2,
      by linarith, by linarith, next_digit.1, next_digit.2, by linarith, by linarith⟩
  | [_], _, _ => simp at long
  | [], _, _ => simp at long

theorem ofPlaces_zipWith_add (same : one.length = other.length) :
    ofPlaces base (zipWith (· + ·) one other) = ofPlaces base one + ofPlaces base other := by
  induction one generalizing other with
  | nil =>
    cases other with
    | nil => rfl
    | cons => cases same
  | cons first one ih =>
    cases other with
    | nil => cases same
    | cons second other =>
      have lengths : one.length = other.length := Nat.succ.inj same
      rw [zipWith_cons_cons, ofPlaces_cons, ofPlaces_cons, ofPlaces_cons, ih lengths, length_zipWith, lengths,
        Nat.min_self]
      ring

/-- What a digit of a quotient and what it leaves are: the quotient and the rest of a number by the divisor. -/
structure Divided (base number : ℤ) (divisor : List ℤ) (digit : ℤ) (left : List ℤ) : Prop where
  length : left.length = divisor.length
  digits : Digits base left
  number : digit * ofPlaces base divisor + ofPlaces base left = number
  few : ofPlaces base left < ofPlaces base divisor
  digit_low : 0 ≤ digit
  digit_high : digit < base

theorem Digits.getD_nonneg (digits : Digits base places) (index : Nat) : 0 ≤ places.getD index 0 := by
  rw [getD_eq_getElem?_getD]
  cases here : places[index]? with
  | none => exact le_rfl
  | some place => exact (digits place (mem_of_getElem? here)).1

/-- One round finds a digit of the quotient and leaves the rest. -/
theorem divideRound_spec (scaled : Scaled base divisor) (same : window.length = divisor.length)
    (digits : Digits base window) (above_low : 0 ≤ above)
    (fits : above * base ^ window.length + ofPlaces base window < base * ofPlaces base divisor) :
    Divided base (above * base ^ window.length + ofPlaces base window) divisor (divideRound base above window divisor).1
      (divideRound base above window divisor).2 := by
  have base_pos := scaled.base_pos
  have top_low : 0 ≤ above * base + window.getD 0 0 :=
    add_nonneg (mul_nonneg above_low base_pos.le) (digits.getD_nonneg 0)
  have whole : 0 ≤ above * base ^ window.length + ofPlaces base window :=
    add_nonneg (mul_nonneg above_low (pow_nonneg base_pos.le _)) digits.nonneg
  obtain ⟨unit, view⟩ := scaled.exists_window same digits above
  have bounds := view.first_trial scaled.half top_low whole fits
  unfold divideRound
  dsimp only at bounds ⊢
  generalize trial base (divisor.getD 0 0) (divisor.getD 1 0) (window.getD 1 0) base.toNat
    ((above * base + window.getD 0 0) / divisor.getD 0 0) ((above * base + window.getD 0 0) % divisor.getD 0 0) =
      digit at bounds ⊢
  obtain ⟨found_low, found_high, beyond, under⟩ := bounds
  have taken := @takeAway_spec base digit window divisor base_pos same digits
  generalize takeAway base digit window divisor = parts at taken ⊢
  obtain ⟨carry, borrow, left⟩ := parts
  have number := taken.number
  have left_low := taken.digits.nonneg
  have left_high := taken.digits.lt base_pos
  have divisor_high := scaled.digits.lt base_pos
  have left_length := taken.length.trans same
  dsimp only at number left_low left_high left_length ⊢
  rw [same] at number whole fits beyond under ⊢
  rw [left_length] at left_high
  have power_pos : 0 < base ^ divisor.length := pow_pos base_pos _
  split
  · -- the digit is one too large: the divisor is added back
    have lengths : (zipWith (· + ·) left divisor).length = divisor.length := by
      rw [length_zipWith, left_length, Nat.min_self]
    have owed_much := mul_le_mul_of_nonneg_right (show above - carry - borrow ≤ -1 by omega) power_pos.le
    have negative : above * base ^ divisor.length + ofPlaces base window < digit * ofPlaces base divisor := by linarith
    have added : ofPlaces base (zipWith (· + ·) left divisor) = above * base ^ divisor.length + ofPlaces base window -
        (digit - 1) * ofPlaces base divisor + -(above - carry - borrow) * base ^ divisor.length := by
      rw [ofPlaces_zipWith_add left_length]
      linear_combination -number
    have rest := (@carried_spec base (zipWith (· + ·) left divisor) base_pos).2
    rw [lengths, added, Int.add_mul_emod_self_right, Int.emod_eq_of_lt (by linarith) (by linarith)] at rest
    have digit_pos : 0 < digit := pos_of_mul_pos_left (whole.trans_lt negative) scaled.digits.nonneg
    exact ⟨length_carried.trans lengths, digits_carried base_pos, by linarith, by linarith, by omega, by omega⟩
  · have low_enough := mul_nonneg (show 0 ≤ above - carry - borrow by omega) power_pos.le
    have rest : ofPlaces base left % base ^ divisor.length = above * base ^ divisor.length + ofPlaces base window -
        digit * ofPlaces base divisor := by
      rw [show ofPlaces base left = above * base ^ divisor.length +
        ofPlaces base window - digit * ofPlaces base divisor +
        -(above - carry - borrow) * base ^ divisor.length by linear_combination -number, Int.add_mul_emod_self_right,
        Int.emod_eq_of_lt (by linarith) (by linarith)]
    rw [Int.emod_eq_of_lt left_low left_high] at rest
    exact ⟨left_length, taken.digits, by linarith, by linarith, found_low, found_high⟩

theorem Scaled.pos (scaled : Scaled base divisor) : 0 < ofPlaces base divisor := by
  obtain ⟨digits, long, half⟩ := scaled
  cases divisor with
  | nil => simp at long
  | cons first divisor =>
    have first_digit := (digits_cons.mp digits).1
    have half : base ≤ 2 * first := half
    exact lt_of_lt_of_le (pow_pos (by omega) _) (digits.le_of_first (by omega))

/-- The digits found in all the rounds are those of the quotient. -/
theorem divideRounds_spec (scaled : Scaled base divisor) {rounds : Nat} {dividend : List ℤ}
    (length_eq : dividend.length = divisor.length + rounds) (digits : Digits base dividend)
    (fits : ofPlaces base (dividend.take divisor.length) < ofPlaces base divisor) :
    Digits base (divideRounds base divisor rounds dividend) ∧
      (divideRounds base divisor rounds dividend).length = rounds ∧
      ofPlaces base (divideRounds base divisor rounds dividend) = ofPlaces base dividend / ofPlaces base divisor := by
  have divisor_pos := scaled.pos
  induction rounds generalizing dividend with
  | zero =>
    rw [take_of_length_le (by omega)] at fits
    exact ⟨digits_nil, rfl, (Int.ediv_eq_zero_of_lt digits.nonneg fits).symm⟩
  | succ rounds ih =>
    cases dividend with
    | nil => simp at length_eq
    | cons above tail =>
      obtain ⟨⟨above_low, above_high⟩, digits_tail⟩ := digits_cons.mp digits
      have length_tail : tail.length = divisor.length + rounds := by
        rw [length_cons] at length_eq
        omega
      have length_window : (tail.take divisor.length).length = divisor.length := length_take_of_le (by omega)
      have window_fits : above * base ^ (tail.take divisor.length).length + ofPlaces base (tail.take divisor.length) <
          base * ofPlaces base divisor := by
        have inside : divisor.length < (above :: tail).length := by omega
        have longer := @ofPlaces_take_succ base (above :: tail) _ inside
        rw [take_succ_cons, ofPlaces_cons] at longer
        have next := digits _ (getElem_mem inside)
        nlinarith
      have round := divideRound_spec scaled length_window (digits_tail.sublist (take_sublist _ _)) above_low window_fits
      rw [divideRounds, getD_cons_zero, tail_cons]
      generalize divideRound base above (tail.take divisor.length) divisor = found at round ⊢
      obtain ⟨digit, left⟩ := found
      obtain ⟨digits_rest, length_rest, number_rest⟩ := @ih (left ++ tail.drop divisor.length)
        (by rw [length_append, round.length, length_drop]; omega)
        (digits_append.mpr ⟨round.digits, digits_tail.sublist (drop_sublist _ _)⟩)
        (by rw [← round.length, take_left]; exact round.few)
      refine ⟨digits_cons.mpr ⟨⟨round.digit_low, round.digit_high⟩, digits_rest⟩, by rw [length_cons, length_rest], ?_⟩
      have whole : ofPlaces base (above :: tail) = ofPlaces base (left ++ tail.drop divisor.length) +
          ofPlaces base divisor * (digit * base ^ rounds) := by
        have split := @ofPlaces_append base (tail.take divisor.length) (tail.drop divisor.length)
        have number := round.number
        rw [take_append_drop] at split
        rw [length_window] at number
        rw [ofPlaces_cons, split, ofPlaces_append, length_drop, length_tail, Nat.add_sub_cancel_left]
        linear_combination (-(base ^ rounds)) * number
      rw [ofPlaces_cons, number_rest, length_rest, whole, Int.add_mul_ediv_left _ _ (by omega)]
      ring

end Rounds

section Scale
variable {scale : ℤ} {places divisor : List ℤ}

theorem ofPlaces_map_mul : ofPlaces base (places.map (· * scale)) = ofPlaces base places * scale := by
  induction places with
  | nil => simp
  | cons place places ih =>
    rw [map_cons, ofPlaces_cons, ofPlaces_cons, ih, length_map]
    ring

theorem times_eq : times base scale places =
    (carried base (places.map (· * scale))).1 :: (carried base (places.map (· * scale))).2 := rfl

@[simp] theorem length_times : (times base scale places).length = places.length + 1 := by
  rw [times_eq, length_cons, length_carried, length_map]

theorem ofPlaces_times : ofPlaces base (times base scale places) = ofPlaces base places * scale := by
  have number := @ofPlaces_carried base (places.map (· * scale))
  rw [times_eq, ofPlaces_cons, length_carried, ← ofPlaces_map_mul]
  exact number.symm

/-- The scale takes the first place to at least half the base. -/
theorem half_le_scaled (even : base % 2 = 0) (first_low : 0 < first) (first_high : first < base) :
    base ≤ 2 * (base / (first + 1) * first) := by
  have split := Int.mul_ediv_add_emod base (first + 1)
  have rest := Int.emod_lt_of_pos base (show 0 < first + 1 by omega)
  have one : 1 ≤ base / (first + 1) := Int.le_ediv_of_mul_le (by omega) (by omega)
  generalize base / (first + 1) = scale at *
  have almost : base - 1 ≤ 2 * (scale * first) := by nlinarith
  omega

theorem scaled_times (even : base % 2 = 0) (digits : Digits base divisor) (long : 2 ≤ divisor.length)
    (some_ : divisor.getD 0 0 ≠ 0) :
    Scaled base (times base (base / (divisor.getD 0 0 + 1)) divisor).tail ∧
      ofPlaces base (times base (base / (divisor.getD 0 0 + 1)) divisor).tail =
        ofPlaces base divisor * (base / (divisor.getD 0 0 + 1)) := by
  cases divisor with
  | nil => simp at long
  | cons first divisor =>
    obtain ⟨⟨low, high⟩, digits_rest⟩ := digits_cons.mp digits
    rw [getD_cons_zero] at some_ ⊢
    have base_pos : 0 < base := by omega
    have half := half_le_scaled even (show 0 < first by omega) high
    have scale_few : base / (first + 1) * (first + 1) ≤ base := Int.ediv_mul_le _ (by omega)
    have scale_pos : 0 < base / (first + 1) := Int.le_ediv_of_mul_le (by omega) (by omega)
    generalize base / (first + 1) = scale at *
    have power_pos : 0 < base ^ divisor.length := pow_pos base_pos _
    have rest_low := mul_nonneg digits_rest.nonneg scale_pos.le
    have rest_high := mul_lt_mul_of_pos_right (digits_rest.lt base_pos) scale_pos
    have whole : ofPlaces base (first :: divisor) * scale < base ^ (first :: divisor).length := by
      have scaled := mul_le_mul_of_nonneg_right scale_few power_pos.le
      rw [ofPlaces_cons, length_cons, pow_succ]
      linarith
    have written := @digits_carried base ((first :: divisor).map (· * scale)) base_pos
    have length_written := @length_carried base ((first :: divisor).map (· * scale))
    have tail_eq := (@carried_spec base ((first :: divisor).map (· * scale)) base_pos).2
    rw [ofPlaces_map_mul, length_map, Int.emod_eq_of_lt (mul_nonneg digits.nonneg scale_pos.le) whole] at tail_eq
    refine ⟨⟨written, by rw [length_tail]; simpa using long, ?_⟩, tail_eq.symm⟩
    rw [times_eq]
    generalize (carried base ((first :: divisor).map (· * scale))).2 = tail at tail_eq written length_written ⊢
    cases tail with
    | nil => simp at length_written
    | cons second tail =>
      have lengths : tail.length = divisor.length := by simpa using length_written
      have tail_high := (digits_cons.mp written).2.lt base_pos
      rw [ofPlaces_cons, ofPlaces_cons, lengths] at tail_eq
      rw [lengths] at tail_high
      have enough : scale * first < second + 1 := lt_of_mul_lt_mul_right (by linarith) power_pos.le
      show base ≤ 2 * second
      omega

theorem digits_times (base_pos : 0 < base) (digits : Digits base places) (scale_low : 0 < scale)
    (scale_high : scale ≤ base) :
    Digits base (times base scale places) := by
  have few : ofPlaces base places * scale < base * base ^ places.length := by
    have := mul_lt_mul_of_pos_right (digits.lt base_pos) scale_low
    have := mul_le_mul_of_nonneg_right scale_high (pow_nonneg base_pos.le places.length)
    linarith
  rw [times_eq, digits_cons, ← (carried_spec base_pos).1, ofPlaces_map_mul, length_map]
  have power_pos : 0 < base ^ places.length := pow_pos base_pos _
  exact ⟨⟨Int.ediv_nonneg (mul_nonneg digits.nonneg scale_low.le) power_pos.le,
    Int.ediv_lt_of_lt_mul power_pos few⟩, digits_carried base_pos⟩

/-- As many first places of the scaled dividend as the divisor has are below the scaled divisor. -/
theorem times_take_lt {count : Nat} (base_pos : 0 < base) (digits : Digits base places)
    (large : base ^ count ≤ number) (scale_low : 0 < scale) (long : count + 1 ≤ places.length) :
    ofPlaces base ((times base scale places).take (count + 1)) < number * scale := by
  have split := @ofPlaces_append base ((times base scale places).take (count + 1))
    ((times base scale places).drop (count + 1))
  have rest_low : 0 ≤ ofPlaces base ((times base scale places).drop (count + 1)) := by
    exact ((digits_carried base_pos).sublist (drop_sublist _ _)).nonneg
  rw [take_append_drop, ofPlaces_times, length_drop, length_times] at split
  have few := mul_lt_mul_of_pos_right (digits.lt base_pos) scale_low
  have power : base ^ places.length = base ^ count * base ^ (places.length + 1 - (count + 1)) := by
    rw [← pow_add]
    congr 1
    omega
  have unit_low : 0 ≤ base ^ (places.length + 1 - (count + 1)) := pow_nonneg base_pos.le _
  refine lt_of_mul_lt_mul_right ?_ unit_low
  have := mul_le_mul_of_nonneg_right large (mul_nonneg unit_low scale_low.le)
  rw [power] at few
  linarith

/-- The places long division writes are those of the quotient. -/
theorem longDivide_spec {dividend : List ℤ} (even : base % 2 = 0) (digits : Digits base dividend)
    (digits_divisor : Digits base divisor)
    (some_ : divisor.getD 0 0 ≠ 0) : Digits base (longDivide base dividend divisor) ∧
      ofPlaces base (longDivide base dividend divisor) = ofPlaces base dividend / ofPlaces base divisor := by
  cases divisor with
  | nil => exact absurd rfl some_
  | cons first divisor =>
    rw [getD_cons_zero] at some_
    have first_digit := (digits_cons.mp digits_divisor).1
    have base_pos : 0 < base := by omega
    have large := digits_divisor.le_of_first some_
    unfold longDivide
    split
    · rename_i short
      refine ⟨digits_nil, (Int.ediv_eq_zero_of_lt digits.nonneg ?_).symm⟩
      have power : base ^ dividend.length ≤ base ^ divisor.length :=
        pow_le_pow_right₀ (by omega) (Nat.le_of_lt_succ short)
      have := digits.lt base_pos
      linarith
    rename_i long
    split
    · rename_i one
      have empty : divisor = [] := by simpa using one
      subst empty
      rw [getD_cons_zero, ofPlaces_singleton]
      refine ⟨digits_shortDivide (by omega) le_rfl (by omega) digits, ?_⟩
      rw [ofPlaces_shortDivide (by omega) le_rfl (by omega), zero_mul, zero_add]
    rename_i more
    have two : 2 ≤ (first :: divisor).length := by
      simp only [length_cons] at more ⊢
      omega
    obtain ⟨scaled, divisor_eq⟩ := scaled_times even digits_divisor two (by rwa [getD_cons_zero])
    rw [getD_cons_zero] at scaled divisor_eq ⊢
    have scale_low : 0 < base / (first + 1) := Int.le_ediv_of_mul_le (by omega) (by omega)
    have scale_high : base / (first + 1) ≤ base := Int.ediv_le_self _ base_pos.le
    generalize base / (first + 1) = scale at *
    have length_tail : (times base scale (first :: divisor)).tail.length = divisor.length + 1 := by
      rw [length_tail, length_times]
      rfl
    have rounds := @divideRounds_spec base _ scaled (dividend.length - (first :: divisor).length + 1)
      (times base scale dividend)
      (by rw [length_times]; simp only [length_cons] at long ⊢; omega)
      (digits_times base_pos digits scale_low scale_high) ?_
    · rw [divisor_eq, ofPlaces_times, Int.mul_ediv_mul_of_pos_left _ _ scale_low] at rounds
      exact ⟨rounds.1, rounds.2.2⟩
    · rw [divisor_eq, length_tail]
      exact times_take_lt base_pos digits large scale_low (by simpa using long)

end Scale

end Rudb.Lib
