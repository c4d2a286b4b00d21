import Offside.Source.Position
import Offside.Token.Kind

/-! # Tokens -/

namespace Offside

/-- A kind with the text it stands for and the part of the source it covers. -/
structure Token where
  kind : Kind
  value : String
  span : Span
deriving DecidableEq, Inhabited

namespace Token

/-- The token that ends a stream. -/
def eof (position : Position) : Token :=
  ⟨.eof, "EOF", .empty position⟩

/-- One line that says where a token starts and what it is, with its text where the kind does not
settle it. -/
def summary (token : Token) : String :=
  let start := token.span.start
  let text := if token.kind.showsText then token.value else ""
  s!"{start.line}:{start.column} {token.kind.name} ({text})"

/-- A token on three lines. -/
def display (token : Token) : String :=
  s!"Token \x7b\nkind: {token.kind.name},\nvalue: {token.value}\x7d"

end Token

end Offside
