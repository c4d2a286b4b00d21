/-! # Positions

Where something stands in a source: its byte offset, and the line and column it falls on.
-/

namespace Offside

/-- A place in a named source. Line and column are counted from 1, the column in bytes. -/
structure Position where
  offset : UInt32
  line : UInt32
  column : UInt32
  file : String
deriving DecidableEq, Inhabited

/-- The first place of a file. -/
def Position.first (file : String) : Position :=
  ⟨0, 1, 1, file⟩

/-- The place of what was never read from a source. -/
def Position.null : Position :=
  .first "<null>"

/-- From one place up to another. -/
structure Span where
  start : Position
  stop : Position
deriving DecidableEq, Inhabited

/-- The span that covers nothing. -/
def Span.empty (position : Position) : Span :=
  ⟨position, position⟩

end Offside
