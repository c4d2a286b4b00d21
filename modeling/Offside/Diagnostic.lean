import Offside.Error
import Offside.Source.Line
import Offside.Text.Blank

/-! # Diagnostics

An error shown with the line it is blamed on and a caret below the place. An error outside the
source is shown without a line.
-/

namespace Offside.Diagnostic

/-- The name of the error with its tip, and where it is. -/
def heading (error : SyntaxError) (file : String) : String :=
  let name := error.cause.name
  let title := match error.cause.tip? with
    | some tip => s!"{name} ({tip})"
    | none => name
  s!"Error: {title}\n-> {file}:{error.position.line}:{error.position.column}\n"

/-- The line an error points into, without the spaces it begins with, and a caret below the byte
that lies `bytes` into it. A byte among those spaces gets its caret in the first column. -/
def excerpt (line : Line) (bytes : Nat) : String :=
  let number := toString line.number
  let gutter := String.ofList (List.replicate (number.length + 1) ' ')
  let spaces := (line.text.takeWhile (· == ' ')).length
  let shown := String.ofList (trimEnd (line.text.drop spaces))
  let dashes := String.ofList (List.replicate (bytes - spaces) '-')
  s!"{gutter}|\n{number} | {shown}\n{gutter}| {dashes}^\n"

/-- The whole diagnostic, for the source an error was raised in and the file name to show. -/
def render (error : SyntaxError) (source file : String) : String :=
  let offset := error.position.offset.toNat
  match Line.at? source.toList offset with
  | some line => heading error file ++ excerpt line (offset - line.start)
  | none => heading error file

end Offside.Diagnostic
