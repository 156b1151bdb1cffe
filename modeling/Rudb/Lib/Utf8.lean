import Mathlib.Data.List.Infix

/-! The bytes of a text, and that pieces of a text found among its bytes are pieces of its characters. -/
namespace Rudb.Lib
open List

def utf8 (text : List Char) : List UInt8 := text.flatMap String.utf8EncodeChar

@[simp] theorem utf8_nil : utf8 [] = [] := rfl

@[simp] theorem utf8_cons (char : Char) (text : List Char) :
    utf8 (char :: text) = String.utf8EncodeChar char ++ utf8 text := rfl

@[simp] theorem utf8_append (one other : List Char) : utf8 (one ++ other) = utf8 one ++ utf8 other := flatMap_append

theorem length_utf8EncodeChar_pos (char : Char) : 0 < (String.utf8EncodeChar char).length := by
  rw [String.length_utf8EncodeChar]
  exact char.utf8Size_pos

@[simp] theorem utf8_eq_nil : utf8 text = [] ↔ text = [] := by
  cases text with
  | nil => simp
  | cons char text =>
    have := length_utf8EncodeChar_pos char
    rw [utf8_cons]
    simp only [append_eq_nil_iff, reduceCtorEq, iff_false, not_and]
    intro empty
    simp [empty] at this

/-- The bytes of a character tell it, whatever follows them. -/
theorem utf8EncodeChar_append_inj
    (same : String.utf8EncodeChar one ++ rest = String.utf8EncodeChar other ++ rest') : one = other ∧ rest = rest' := by
  have bytes := congrArg toByteArray same
  rw [toByteArray_append, toByteArray_append] at bytes
  have decoded := @ByteArray.utf8DecodeChar?_utf8EncodeChar_append rest.toByteArray one
  rw [bytes, ByteArray.utf8DecodeChar?_utf8EncodeChar_append] at decoded
  cases decoded
  exact ⟨rfl, append_cancel_left same⟩

/-- A text whose bytes come first is the front of the text. -/
theorem utf8_front {front text : List Char} {rest : List UInt8} (split : utf8 text = utf8 front ++ rest) :
    ∃ after, text = front ++ after ∧ utf8 after = rest := by
  induction front generalizing text with
  | nil => exact ⟨text, rfl, split⟩
  | cons char front ih =>
    cases text with
    | nil =>
      have empty : utf8 (char :: front) = [] := (append_eq_nil_iff.mp split.symm).1
      cases utf8_eq_nil.mp empty
    | cons first text =>
      rw [utf8_cons, utf8_cons, append_assoc] at split
      obtain ⟨rfl, behind⟩ := utf8EncodeChar_append_inj split
      obtain ⟨after, rfl, bytes⟩ := ih behind
      exact ⟨after, rfl, bytes⟩

theorem utf8_inj (same : utf8 one = utf8 other) : one = other := by
  obtain ⟨after, rfl, bytes⟩ := @utf8_front other one [] (by rw [same, append_nil])
  rw [utf8_eq_nil.mp bytes, append_nil]

/-- A piece that is not empty starts where a character does: its first byte is in no other place of one. -/
theorem utf8_infix {piece text : List Char} (some_ : piece ≠ []) {run rest : List UInt8}
    (split : utf8 text = run ++ (utf8 piece ++ rest)) :
    ∃ before after, text = before ++ (piece ++ after) ∧ utf8 before = run ∧ utf8 after = rest := by
  induction text generalizing run with
  | nil =>
    have empty := (append_eq_nil_iff.mp (append_eq_nil_iff.mp split.symm).2).1
    exact absurd (utf8_eq_nil.mp empty) some_
  | cons char text ih =>
    by_cases here : run = []
    · subst here
      obtain ⟨after, same, bytes⟩ := utf8_front split
      exact ⟨[], after, same, rfl, bytes⟩
    rw [utf8_cons] at split
    by_cases past : (String.utf8EncodeChar char).length ≤ run.length
    · obtain ⟨more, rfl⟩ : String.utf8EncodeChar char <+: run :=
        prefix_of_prefix_length_le ⟨_, split⟩ ⟨_, rfl⟩ past
      rw [append_assoc] at split
      obtain ⟨before, after, rfl, run_eq, rest_eq⟩ := ih (append_cancel_left split)
      exact ⟨char :: before, after, rfl, by rw [utf8_cons, run_eq], rest_eq⟩
    -- the piece would start inside the character
    exfalso
    obtain ⟨first, piece, rfl⟩ := exists_cons_of_ne_nil some_
    have inside : run.length < (String.utf8EncodeChar char).length := not_le.mp past
    have lead := @UInt8.isUTF8FirstByte_getElem_zero_utf8EncodeChar first
    have byte : (String.utf8EncodeChar char)[run.length]? = (String.utf8EncodeChar first)[0]? := by
      have at_ := congrArg (fun bytes : List UInt8 => bytes[run.length]?) split
      rw [getElem?_append_left inside, getElem?_append_right le_rfl, Nat.sub_self, utf8_cons,
        append_assoc, getElem?_append_left (length_utf8EncodeChar_pos first)] at at_
      exact at_
    rw [getElem?_eq_getElem inside, getElem?_eq_getElem (length_utf8EncodeChar_pos first), Option.some.injEq] at byte
    rw [← byte, UInt8.isUTF8FirstByte_getElem_utf8EncodeChar] at lead
    exact here (length_eq_zero_iff.mp lead)

/-- A text whose bytes come last is the back of the text. -/
theorem utf8_back (split : utf8 text = run ++ utf8 back) :
    ∃ before, text = before ++ back ∧ utf8 before = run := by
  by_cases empty : back = []
  · subst empty
    exact ⟨text, (append_nil _).symm, by rw [split, utf8_nil, append_nil]⟩
  · obtain ⟨before, after, rfl, bytes, rest⟩ := @ utf8_infix back text empty run [] (by rw [split, append_nil])
    exact ⟨before, by rw [utf8_eq_nil.mp rest, append_nil], bytes⟩

end Rudb.Lib
