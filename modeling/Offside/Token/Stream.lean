import Offside.Layout.Basic
import Offside.Lexeme.Basic

/-! # Token streams

A source as tokens: the tokens of its lines with the marks of the layout between them, ended by one
end-of-file token.
-/

namespace Offside

/-- The error of a line that no open block takes. -/
def Line.layoutError (line : Line) (file : String) : SyntaxError :=
  ⟨.malformedLayout
    s!"line is indented to column {line.width + 1} which matches no enclosing block",
   line.position file 0⟩

/-- The tokens of the lines that are left and the marks that end the source, given the widths of
the open blocks. No block is open before the first token. -/
def tokensOfLines (file : String) (widths : List Nat) (last : Position) :
    List Line → Except SyntaxError (List Token)
  | [] => .ok ((Layout.leave widths).map (·.token last) ++ [.eof last])
  | line :: rest =>
    if line.isBlank then tokensOfLines file widths last rest
    else match Layout.enter? widths line.width with
      | none => .error (line.layoutError file)
      | some (marks, opened) => do
        let content ← line.tokens file
        let inside := if widths.isEmpty && content.isEmpty then [] else opened
        let following ← tokensOfLines file inside last rest
        return marks.map (·.token (line.position file 0)) ++ (content ++ following)

/-- The position after the last character. -/
def endPosition (file : String) (lines : List Line) : Position :=
  match lines.getLast? with
  | some line => line.position file (byteLength line.text)
  | none => .first file

/-- The file name that stands in the positions of a source without one. -/
def unnamedFile : String :=
  "shell"

/-- The tokens of a source. -/
def tokenize (source file : String) : Except SyntaxError (List Token) :=
  let lines := Line.ofSource source.toList
  tokensOfLines file [] (endPosition file lines) lines

end Offside
