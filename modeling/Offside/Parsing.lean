import Offside.Grammar.Levels
import Offside.Token.Stream

/-! # Parsing

Token lists and sources as programs.
-/

namespace Offside

/-- How many levels expressions and blocks may nest unless something else is asked for. -/
def defaultLimit : Nat :=
  256

/-- The lines of a whole token stream. -/
def Grammar.program (limit : Nat) : Parse (List Node) :=
  (Grammar.within .standard limit limit).bodyUntil .eof

/-- The first token that is no end-of-file token and follows one. -/
def trailing? (tokens : List Token) : Option Token :=
  (tokens.dropWhile (·.kind != .eof)).find? (·.kind != .eof)

/-- The program that a token list stands for. -/
def parse (tokens : List Token) (file : String) (limit : Nat) : Except SyntaxError Program :=
  match trailing? tokens with
  | some token =>
    .error ⟨.unexpected token.value token.kind "end of input", token.span.start⟩
  | none =>
    match (Grammar.program limit).run (Cursor.ofTokens tokens file) with
    | .ok body _ => .ok ⟨body⟩
    | .error error _ => .error error

/-- The program that a source stands for. -/
def parseSource (source file : String) (limit : Nat) : Except SyntaxError Program := do
  let tokens ← tokenize source file
  parse tokens file limit

end Offside
