/-! # Escapes of string literals

Six characters have an escape of their own. Any other backslash stands for itself, so decoding
never fails.
-/

namespace Offside.Escape

/-- The character that a backslash followed by `c` stands for. -/
def meaning? (c : Char) : Option Char :=
  if c = 'n' then some '\n'
  else if c = 't' then some '\t'
  else if c = 'r' then some '\r'
  else if c = '0' then some '\x00'
  else if c = '\\' then some '\\'
  else if c = '"' then some '"'
  else none

/-- The text of a string literal, given what stands between its quotes. -/
def decode : List Char → List Char
  | [] => []
  | [c] => [c]
  | c :: d :: rest =>
    if c = '\\' then
      match meaning? d with
      | some m => m :: decode rest
      | none => c :: decode (d :: rest)
    else c :: decode (d :: rest)

/-- A text without a backslash stands for itself. -/
theorem decode_eq_self {text : List Char} (h : '\\' ∉ text) : decode text = text := by
  fun_induction decode text with
  | case1 | case2 => rfl
  | case3 | case4 => simp at h
  | case5 c d rest _ ih => rw [ih fun mem => h (.tail _ mem)]

end Offside.Escape
