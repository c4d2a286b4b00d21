import Offside.Lexeme.Pattern
import Offside.Text.Escape

/-! # Escaped strings

A string with its quotes, backslashes and line feeds escaped is a literal up to its last quote, and
it decodes to the string.
-/

namespace Offside.Escape

/-- A character as it stands in a literal. -/
def encodeChar (c : Char) : List Char :=
  if c = '"' then ['\\', '"']
  else if c = '\\' then ['\\', '\\']
  else if c = '\n' then ['\\', 'n']
  else [c]

def encode (text : List Char) : List Char :=
  text.flatMap encodeChar

@[simp] theorem encode_nil : encode [] = [] := rfl

@[simp] theorem encode_cons (c : Char) (text : List Char) :
    encode (c :: text) = encodeChar c ++ encode text := by
  simp [encode]

/-- What stands for a character: an escape of two, or the character itself. -/
theorem encodeChar_cases (c : Char) :
    (∃ d, encodeChar c = ['\\', d] ∧ meaning? d = some c ∧ d ≠ '\n') ∨
      encodeChar c = [c] ∧ c ≠ '"' ∧ c ≠ '\\' ∧ c ≠ '\n' := by
  unfold encodeChar
  by_cases hquote : c = '"'
  · subst hquote
    exact .inl ⟨'"', by decide, by decide, by decide⟩
  · by_cases hslash : c = '\\'
    · subst hslash
      exact .inl ⟨'\\', by decide, by decide, by decide⟩
    · by_cases hfeed : c = '\n'
      · subst hfeed
        exact .inl ⟨'n', by decide, by decide, by decide⟩
      · exact .inr ⟨by simp [hquote, hslash, hfeed], hquote, hslash, hfeed⟩

theorem decode_cons_of_ne {c : Char} (h : c ≠ '\\') (text : List Char) :
    decode (c :: text) = c :: decode text := by
  cases text with
  | nil => simp [decode]
  | cons d rest => rw [decode, if_neg h]

theorem decode_encode (text : List Char) : decode (encode text) = text := by
  induction text with
  | nil => rfl
  | cons c text ih =>
    rw [encode_cons]
    rcases encodeChar_cases c with ⟨d, hcode, hmeaning, -⟩ | ⟨hcode, -, hslash, -⟩
    · rw [hcode, List.cons_append, List.singleton_append, decode, if_pos rfl, hmeaning]
      simp only [ih]
    · rw [hcode, List.singleton_append, decode_cons_of_ne hslash, ih]

theorem lineFeed_not_mem_encode (text : List Char) : '\n' ∉ encode text := by
  induction text with
  | nil => exact List.not_mem_nil
  | cons c text ih =>
    rw [encode_cons, List.mem_append, not_or]
    refine ⟨?_, ih⟩
    rcases encodeChar_cases c with ⟨d, hcode, -, hfeed⟩ | ⟨hcode, -, -, hfeed⟩
    · rw [hcode]
      simp [hfeed.symm]
    · rw [hcode]
      simp [hfeed.symm]

end Offside.Escape

namespace Offside.Pattern

open Escape

theorem reachClosing_quote (passed : Nat) (rest : List Char) :
    reachClosing passed ('"' :: rest) = passed + 1 := by
  cases rest with
  | nil => rfl
  | cons c rest => rw [reachClosing, if_pos rfl]

/-- The literal ends at the quote behind the escaped text, whatever follows. -/
theorem reachClosing_encode (passed : Nat) (text rest : List Char) :
    reachClosing passed (encode text ++ '"' :: rest) = passed + (encode text).length + 1 := by
  induction text generalizing passed with
  | nil => exact reachClosing_quote passed rest
  | cons c text ih =>
    obtain ⟨d, more, hmore⟩ : ∃ d more, encode text ++ '"' :: rest = d :: more :=
      List.exists_cons_of_ne_nil (by simp)
    have hlength : (encode (c :: text)).length = (encodeChar c).length + (encode text).length := by
      rw [encode_cons, List.length_append]
    rw [hlength, encode_cons, List.append_assoc]
    rcases encodeChar_cases c with ⟨e, hcode, -, hfeed⟩ | ⟨hcode, hquote, hslash, hfeed⟩
    · rw [hcode, List.cons_append, List.singleton_append, reachClosing, if_neg (by decide),
        if_neg (by decide), if_pos rfl, if_neg hfeed, ih]
      simp only [List.length_cons, List.length_nil]
      omega
    · rw [hcode, List.singleton_append, hmore, reachClosing, if_neg hquote, if_neg hfeed,
        if_neg hslash, ← hmore, ih]
      simp only [List.length_cons, List.length_nil]
      omega

end Offside.Pattern
