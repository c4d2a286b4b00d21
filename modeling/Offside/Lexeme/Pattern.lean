import Offside.Token.Kind

/-! # Patterns of lexemes

The table of patterns a text is matched with, in order, and how far each one reaches. A symbol
stands before every shorter symbol that it begins with.
-/

namespace Offside

inductive Pattern where
  | lineBreak
  | blanks
  | comment
  | word
  | numeral
  | quoted
  | symbol (text : List Char) (kind : Kind)
deriving DecidableEq

namespace Pattern

/-- Characters of ASCII alone make up words. -/
def isWordStart (c : Char) : Bool :=
  c.isAlpha || c == '_'

def isWordRest (c : Char) : Bool :=
  c.isAlphanum || c == '_' || c == '\x27'

/-- The blanks between lexemes. -/
def isSpacing (c : Char) : Bool :=
  c == ' ' || c == '\t' || c == '\r'

/-- How many leading characters satisfy a test. -/
def reachWhile (test : Char → Bool) (text : List Char) : Nat :=
  (text.takeWhile test).length

/-- A line feed, or a carriage return before one. -/
def reachLineBreak : List Char → Nat
  | '\n' :: _ => 1
  | '\r' :: '\n' :: _ => 2
  | _ => 0

/-- Two slashes and the rest of the line. -/
def reachComment : List Char → Nat
  | '/' :: '/' :: rest => 2 + reachWhile (· != '\n') rest
  | _ => 0

def reachWord : List Char → Nat
  | c :: rest => if isWordStart c then 1 + reachWhile isWordRest rest else 0
  | [] => 0

/-- Digits, and if a digit follows the point, the point and the digits after it. -/
def reachNumeral (text : List Char) : Nat :=
  let whole := reachWhile Char.isDigit text
  if whole = 0 then 0
  else match text.drop whole with
    | '.' :: rest =>
      let part := reachWhile Char.isDigit rest
      if part = 0 then whole else whole + 1 + part
    | _ => whole

/-- Up to and with the quote that closes a literal, on the same line, given how much of it was
passed. A backslash takes the character after it along. -/
def reachClosing (passed : Nat) : List Char → Nat
  | [] => 0
  | [c] => if c = '"' then passed + 1 else 0
  | c :: d :: rest =>
    if c = '"' then passed + 1
    else if c = '\n' then 0
    else if c = '\\' then if d = '\n' then 0 else reachClosing (passed + 2) rest
    else reachClosing (passed + 1) (d :: rest)

def reachQuoted : List Char → Nat
  | '"' :: rest => reachClosing 1 rest
  | _ => 0

/-- How many characters at the start of a text a pattern matches. A match is never empty. -/
def reach : Pattern → List Char → Nat
  | lineBreak, text => reachLineBreak text
  | blanks, text => reachWhile isSpacing text
  | comment, text => reachComment text
  | word, text => reachWord text
  | numeral, text => reachNumeral text
  | quoted, text => reachQuoted text
  | symbol written _, text => if written.isPrefixOf text then written.length else 0

/-- The patterns in the order in which they are tried. -/
def table : List Pattern :=
  [lineBreak, blanks, comment, word, numeral, quoted,
   symbol ['[', '|'] .openQuote, symbol ['|', ']'] .closeQuote,
   symbol ['['] .openBracket, symbol [']'] .closeBracket,
   symbol ['\x7b'] .openCurly, symbol ['\x7d'] .closeCurly,
   symbol ['('] .openParen, symbol [')'] .closeParen,
   symbol ['=', '='] .compare, symbol ['!', '='] .compare, symbol ['<', '='] .compare,
   symbol ['>', '='] .compare, symbol ['<'] .compare, symbol ['>'] .compare,
   symbol ['='] .assignment,
   symbol ['*'] .math, symbol ['/'] .math, symbol ['%'] .math, symbol ['+', '+'] .math,
   symbol ['+'] .plus, symbol ['-'] .dash, symbol [','] .comma, symbol [':'] .colon,
   symbol ['.'] .dot, symbol ['|'] .pipe, symbol ['&'] .ampersand]

/-- The first pattern of the table that matches at the start of a text, and how far it reaches. -/
def first? (text : List Char) : Option (Pattern × Nat) :=
  table.findSome? fun pattern =>
    let size := pattern.reach text
    if size = 0 then none else some (pattern, size)

theorem of_first? {text : List Char} {pattern : Pattern} {size : Nat}
    (h : first? text = some (pattern, size)) :
    pattern ∈ table ∧ pattern.reach text = size ∧ 0 < size := by
  obtain ⟨found, mem, h⟩ := List.exists_of_findSome?_eq_some h
  dsimp only at h
  split at h
  · cases h
  · next pos =>
    cases h
    exact ⟨mem, rfl, Nat.pos_of_ne_zero pos⟩

theorem first?_eq_none_iff {text : List Char} :
    first? text = none ↔ ∀ pattern ∈ table, pattern.reach text = 0 := by
  simp [first?]

end Pattern

end Offside
