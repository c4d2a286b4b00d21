import Offside.Grammar.Cursor

/-! # Parses

What the productions of the grammar are: they take tokens off a cursor and answer with a value or
an error. After an error the cursor stays where it is, so nothing is ever read twice.
-/

namespace Offside

abbrev Parse := EStateM SyntaxError Cursor

namespace Parse

variable {α : Type}

def kind : Parse Kind :=
  return (← get).kind

/-- Passes the current token, unless it ends the stream, and answers with it. -/
def advance : Parse Token :=
  modifyGet fun cursor => (cursor.current, cursor.next)

/-- Passes the current token and answers with its text. -/
def text : Parse String :=
  return (← advance).value

/-- Refuses the current token. -/
def unexpected (expected : String) : Parse α := do
  throw ((← get).unexpected expected)

/-- Refuses the layout at the current token. -/
def layoutError (message : String) : Parse α := do
  throw ((← get).layoutError message)

/-- Takes a token of one kind, and refuses any other with a given error. -/
def expectOr (expected : Kind) (refusal : Cursor → SyntaxError) : Parse Token := do
  let cursor ← get
  if cursor.kind = expected then advance else throw (refusal cursor)

/-- Takes a token of one kind, and blames any other in the given words. -/
def expectAs (expected : Kind) (description : String) : Parse Token :=
  expectOr expected (·.unexpected description)

/-- Takes a token of one kind. -/
def expect (expected : Kind) : Parse Token :=
  expectAs expected expected.name

/-- Takes all tokens of one kind that come next. -/
def skip (kind : Kind) : Parse (List Token) :=
  modifyGet fun cursor => (cursor.ahead.takeWhile (·.kind = kind), cursor.skip kind)

/-- Takes the terminators that come next, and tells whether there were any. -/
def skipTerminators : Parse Bool :=
  return !(← skip .terminator).isEmpty

/-- Takes the terminators at the end of a line, and tells whether the line has ended. What was read
last may have taken its own terminator. -/
def endLine : Parse Bool := do
  let skipped ← skipTerminators
  return skipped || (← get).previous? = some .terminator

/-- Runs what `next?` finds at the cursor until it finds nothing, at most once per entry of the
budget and once more. -/
def collectUpTo (next? : Cursor → Option (Parse α)) : List Token → Parse (List α)
  | [] => do
    match next? (← get) with
    | none => return []
    | some item => return [← item]
  | _ :: budget => do
    match next? (← get) with
    | none => return []
    | some item =>
      let first ← item
      let rest ← collectUpTo next? budget
      return first :: rest

/-- The values of what `next?` finds at the cursor, until it finds nothing. Each item takes at least
one token, so the tokens ahead are budget enough. -/
def collect (next? : Cursor → Option (Parse α)) : Parse (List α) := do
  collectUpTo next? (← get).ahead

/-- One item or more, separated by commas. -/
def separated (item : Parse α) : Parse (List α) := do
  let first ← item
  let rest ← collect fun cursor =>
    if cursor.kind = .comma then some (do let _ ← advance; item) else none
  return first :: rest

end Parse

end Offside
