import Offside.Lexeme.Basic
import Offside.Proofs.Lexeme.Matches

/-! # Spellings

What is written for a token that is neither a layout mark nor a comment. Where a blank or a line
feed follows, a spelling is one piece of its line, and the piece stands for the token.
-/

namespace Offside

open Pattern (isWord isDigits table first?)

/-- A token with the text it is written with. -/
inductive Spelling where
  | identifier (text : List Char) (word : isWord text = true)
      (free : String.ofList text ∉ Kind.reserved.map Prod.fst)
  | reserved (word : String) (kind : Kind) (listed : (word, kind) ∈ Kind.reserved)
  | numeral (whole : List Char) (digits : isDigits whole = true)
  | decimal (whole part : List Char) (digits : isDigits whole = true)
      (partDigits : isDigits part = true)
  | literal (text : List Char)
  | symbol (text : List Char) (kind : Kind) (listed : Pattern.symbol text kind ∈ table)

namespace Spelling

def kind : Spelling → Kind
  | identifier .. => .identifier
  | reserved _ kind _ => kind
  | numeral .. => .number
  | decimal .. => .number
  | literal _ => .string
  | symbol _ kind _ => kind

/-- The text a token has. -/
def value : Spelling → List Char
  | identifier text _ _ => text
  | reserved word _ _ => word.toList
  | numeral whole _ => whole
  | decimal whole part _ _ => whole ++ '.' :: part
  | literal text => text
  | symbol text _ _ => text

/-- A literal is written with quotes and escapes, and any other token as it is. -/
def written : Spelling → List Char
  | literal text => '"' :: (Escape.encode text ++ ['"'])
  | spelling => spelling.value

/-- The pattern that the text of a spelling matches. -/
def pattern : Spelling → Pattern
  | identifier .. => .word
  | reserved .. => .word
  | numeral .. => .numeral
  | decimal .. => .numeral
  | literal _ => .quoted
  | symbol text kind _ => .symbol text kind

theorem isWord_of_mem_reserved : ∀ entry ∈ Kind.reserved, isWord entry.1.toList = true := by
  decide

theorem ofWord_of_mem_reserved :
    ∀ entry ∈ Kind.reserved, Kind.ofWord (String.ofList entry.1.toList) = entry.2 := by
  decide

theorem ofWord_of_not_mem {word : String} (h : word ∉ Kind.reserved.map Prod.fst) :
    Kind.ofWord word = .identifier := by
  have hnone : Kind.ofReserved? word = none := by
    unfold Kind.ofReserved?
    rw [List.lookup_eq_none_iff]
    intro entry hmem
    rw [bne_iff_ne]
    rintro rfl
    exact h (List.mem_map_of_mem hmem)
  rw [Kind.ofWord, hnone, Option.getD_none]

theorem first?_written (spelling : Spelling) {c : Char} (hc : c = ' ' ∨ c = '\n')
    (rest : List Char) :
    first? (spelling.written ++ c :: rest) = some (spelling.pattern, spelling.written.length) := by
  cases spelling with
  | identifier text word free => exact Pattern.first?_word word hc rest
  | reserved word kind listed =>
    exact Pattern.first?_word (isWord_of_mem_reserved _ listed) hc rest
  | numeral whole digits => exact Pattern.first?_numeral digits hc rest
  | decimal whole part digits partDigits =>
    exact Pattern.first?_decimal digits partDigits hc rest
  | literal text => exact Pattern.first?_quoted text (c :: rest)
  | symbol text kind listed => exact Pattern.first?_symbol listed hc rest

/-- The piece that is written stands for the token. -/
theorem meaning?_written (spelling : Spelling) (offset : Nat) :
    Lexeme.meaning? ⟨some spelling.pattern, spelling.written, offset⟩ =
      some (spelling.kind, spelling.value) := by
  cases spelling with
  | identifier text word free =>
    simp only [Lexeme.meaning?, pattern, written, value, kind, ofWord_of_not_mem free]
  | reserved word kind listed =>
    simp only [Lexeme.meaning?, pattern, written, value, Spelling.kind,
      ofWord_of_mem_reserved _ listed]
  | literal text =>
    simp only [Lexeme.meaning?, pattern, written, kind, value, List.tail_cons,
      List.dropLast_concat, Escape.decode_encode]
  | numeral whole digits => rfl
  | decimal whole part digits partDigits => rfl
  | symbol text kind listed => rfl

theorem lineFeed_not_mem_written (spelling : Spelling) : '\n' ∉ spelling.written := by
  cases spelling with
  | identifier text word free => exact Pattern.lineFeed_not_mem_of_isWord word
  | reserved word kind listed =>
    exact Pattern.lineFeed_not_mem_of_isWord (isWord_of_mem_reserved _ listed)
  | numeral whole digits => exact Pattern.lineFeed_not_mem_of_isDigits digits
  | decimal whole part digits partDigits =>
    have hwhole := Pattern.lineFeed_not_mem_of_isDigits digits
    have hpart := Pattern.lineFeed_not_mem_of_isDigits partDigits
    simp [written, value, hwhole, hpart]
  | literal text =>
    have hencode := Escape.lineFeed_not_mem_encode text
    simp [written, hencode]
  | symbol text kind listed => exact Pattern.lineFeed_not_mem_symbol listed

end Spelling

end Offside
