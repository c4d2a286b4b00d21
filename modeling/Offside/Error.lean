import Offside.Source.Position
import Offside.Text.Quoted
import Offside.Token.Kind

/-! # Errors

Why a source or a token list is refused, where, and in which words that is said.
-/

namespace Offside

/-- Why a text is refused. -/
inductive Cause where
  /-- No lexeme starts with this character. -/
  | unrecognised (text : String)
  /-- A token that cannot continue what was read before it. -/
  | unexpected (text : String) (kind : Kind) (expected : String)
  /-- The tokens end too early. -/
  | unexpectedEnd (expected : String)
  /-- The indentation of a line, or a block without lines. -/
  | malformedLayout (message : String)
  /-- A number token whose text is no number. -/
  | invalidNumber (text : String)
  /-- Expressions and blocks nest beyond the limit. -/
  | nestingTooDeep (limit : Nat)
deriving DecidableEq, Inhabited

namespace Cause

def name : Cause → String
  | unrecognised .. => "UnrecognisedToken"
  | unexpected .. => "UnexpectedToken"
  | unexpectedEnd .. => "UnexpectedEndOfInput"
  | malformedLayout .. => "MalformedLayout"
  | invalidNumber .. => "NumberParseError"
  | nestingTooDeep .. => "NestingTooDeep"

def message : Cause → String
  | unrecognised text => s!"unrecognised token: {quoted text}"
  | unexpected text kind expected =>
    s!"unexpected token {kind.name} {quoted text}, expected {expected}"
  | unexpectedEnd expected => s!"unexpected end of input, expected {expected}"
  | malformedLayout message => s!"malformed layout: {message}"
  | invalidNumber text => s!"error parsing number: {quoted text}"
  | nestingTooDeep limit => s!"nesting exceeds the limit of {limit}"

/-- What to look at. A character that starts no lexeme speaks for itself. -/
def tip? : Cause → Option String
  | unrecognised _ => none
  | unexpected text _ expected => some s!"Unexpected token `{text}`, expected {expected}"
  | unexpectedEnd expected => some s!"Input ended early, expected {expected}"
  | malformedLayout message => some s!"{message}, check the indentation"
  | invalidNumber text => some s!"Invalid number: `{text}`"
  | nestingTooDeep limit => some s!"Expressions and blocks may nest at most {limit} levels deep"

end Cause

/-- A cause with the place it is blamed on. -/
structure SyntaxError where
  cause : Cause
  position : Position
deriving DecidableEq, Inhabited

/-- Place and message on one line. -/
def SyntaxError.message (error : SyntaxError) : String :=
  let place := error.position
  s!"{place.file}:{place.line}:{place.column}: {error.cause.message}"

end Offside
