import Offside.Error
import Offside.Lexeme.Pattern
import Offside.Source.Line
import Offside.Text.Blank
import Offside.Text.Escape
import Offside.Token.Basic

/-! # Lexemes

A line cut into the pieces that the table of patterns finds in it, and the tokens they stand for.
-/

namespace Offside

/-- A piece of a line, the pattern that claims it, and how many bytes of the line stand before it.
A character that no pattern claims is a piece of its own. -/
structure Lexeme where
  pattern? : Option Pattern
  text : List Char
  offset : Nat
deriving DecidableEq

namespace Lexeme

/-- The pieces of a text that begins at the given offset. -/
def cut (offset : Nat) : List Char → List Lexeme
  | [] => []
  | c :: rest =>
    let (pattern?, size) := match Pattern.first? (c :: rest) with
      | some (pattern, size) => (some pattern, size)
      | none => (none, 1)
    let text := c :: rest.take (size - 1)
    ⟨pattern?, text, offset⟩ :: cut (offset + byteLength text) (rest.drop (size - 1))
termination_by text => text.length
decreasing_by simp only [List.length_drop, List.length_cons]; omega

/-- Nothing of a text is lost between its pieces. -/
theorem flatten_cut (offset : Nat) (source : List Char) :
    ((cut offset source).map text).flatten = source := by
  fun_induction cut offset source with
  | case1 => rfl
  | case2 offset c rest _ _ _ text ih =>
    rw [List.map_cons, List.flatten_cons, ih]
    simp [text]

/-- Whether a piece separates others and stands for nothing itself. -/
def isSpacing (lexeme : Lexeme) : Bool :=
  lexeme.pattern? = some .lineBreak || lexeme.pattern? = some .blanks

def isComment (lexeme : Lexeme) : Bool :=
  lexeme.pattern? = some .comment

/-- What a comment says: its text without the slashes and the blanks around it. -/
def remark : List Char → List Char
  | '/' :: '/' :: rest => remark rest
  | text => trim text

/-- The kind and value of the token a piece stands for. -/
def meaning? (lexeme : Lexeme) : Option (Kind × List Char) :=
  match lexeme.pattern? with
  | some .comment => some (.comment, remark lexeme.text)
  | some .word => some (.ofWord (String.ofList lexeme.text), lexeme.text)
  | some .numeral => some (.number, lexeme.text)
  | some .quoted => some (.string, Escape.decode (lexeme.text.tail.dropLast))
  | some (.symbol _ kind) => some (kind, lexeme.text)
  | some .lineBreak | some .blanks | none => none

/-- The token of a piece on a given line. -/
def token (line : Line) (file : String) (lexeme : Lexeme) : Except SyntaxError Token :=
  let start := line.position file lexeme.offset
  match lexeme.meaning? with
  | some (kind, value) =>
    let stop := line.position file (lexeme.offset + byteLength lexeme.text)
    .ok ⟨kind, String.ofList value, ⟨start, stop⟩⟩
  | none => .error ⟨.unrecognised (String.ofList lexeme.text), start⟩

end Lexeme

namespace Line

/-- Indentation is made of spaces and tabs, and each of them is one column wide. -/
def isIndentation (c : Char) : Bool :=
  c == ' ' || c == '\t'

/-- The width of a line's indentation. -/
def width (line : Line) : Nat :=
  (line.text.takeWhile isIndentation).length

/-- Whether nothing but a line break follows the indentation. -/
def isBlank (line : Line) : Bool :=
  let rest := line.text.dropWhile isIndentation
  rest.isEmpty || Pattern.reachLineBreak rest != 0

/-- The pieces of a line that stand for something. A comment counts only where it is the whole
line. -/
def lexemes (line : Line) : List Lexeme :=
  match (Lexeme.cut 0 line.text).filter (!·.isSpacing) with
  | [] => []
  | first :: rest => first :: rest.filter (!·.isComment)

/-- The tokens of a line. -/
def tokens (file : String) (line : Line) : Except SyntaxError (List Token) :=
  line.lexemes.mapM (·.token line file)

end Line

end Offside
