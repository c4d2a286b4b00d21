import Offside.Text.Outline
import Offside.Token.Basic
import Offside.Error

/-! # Outlines of tokens and causes -/

namespace Offside

def Position.outline (position : Position) : Outline :=
  .record "Position"
    [("offset", .atom (toString position.offset)), ("line", .atom (toString position.line)),
     ("column", .atom (toString position.column)), ("file", .text position.file)]

def Span.outline (span : Span) : Outline :=
  .record "Span" [("start", span.start.outline), ("end", span.stop.outline)]

def Token.outline (token : Token) : Outline :=
  .record "Token"
    [("kind", .atom token.kind.name), ("value", .text token.value), ("span", token.span.outline)]

def Cause.outline (cause : Cause) : Outline :=
  .record cause.name <| match cause with
    | .unrecognised text => [("token", .text text)]
    | .unexpected text kind expected =>
      [("token", .text text), ("kind", .atom kind.name), ("expected", .text expected)]
    | .unexpectedEnd expected => [("expected", .text expected)]
    | .malformedLayout message => [("message", .text message)]
    | .invalidNumber text => [("token", .text text)]
    | .nestingTooDeep limit => [("limit", .atom (toString limit))]

end Offside
