import Offside.Token.Basic

/-! # Layout

The offside rule: the width of each line, compared with the widths of the blocks that are open,
decides which blocks begin and end before the line.
-/

namespace Offside.Layout

/-- A mark between two lines. -/
inductive Mark where
  | indent
  | outdent
  | terminator
deriving DecidableEq

namespace Mark

def kind : Mark → Kind
  | indent => .indent
  | outdent => .outdent
  | terminator => .terminator

def text : Mark → String
  | indent => "indent"
  | outdent => "dedent"
  | terminator => "newline"

/-- A mark covers nothing of the source. -/
def token (position : Position) (mark : Mark) : Token :=
  ⟨mark.kind, mark.text, .empty position⟩

end Mark

/-- The marks that end a number of blocks. The line that owned a block ends with it. -/
def closing : Nat → List Mark
  | 0 => []
  | blocks + 1 => .outdent :: .terminator :: closing blocks

/-- The marks before a line of a given width, and the widths open after it, innermost first. The
first line is the base that nothing closes. There is no answer for a line that falls between two
open blocks or left of the base. -/
def enter? (widths : List Nat) (width : Nat) : Option (List Mark × List Nat) :=
  match widths with
  | [] => some ([], [width])
  | top :: _ =>
    if top < width then some ([.indent], width :: widths)
    else if top = width then some ([.terminator], widths)
    else
      let inner := widths.takeWhile (width < ·)
      let outer := widths.dropWhile (width < ·)
      if outer.head? = some width then some (closing inner.length, outer) else none

/-- The marks after the last line. -/
def leave (widths : List Nat) : List Mark :=
  closing (widths.length - 1)

end Offside.Layout
