import Offside.Grammar.Params
import Offside.Grammar.Tables

/-! # Grammars

What the productions build on: the tables, the productions one nesting level further in, and a way
to run the rule that a table names.
-/

namespace Offside

/-- The productions that open a nesting level. Each fails where the limit leaves none to open. -/
structure Nested where
  /-- How many levels may be open at once. -/
  limit : Nat
  /-- An expression of any form. -/
  expression : Parse Node
  /-- An operand with every operator after it that binds tighter than a power. -/
  inner : Power → Parse Node
  /-- An indented body. -/
  block : Parse (List Node)
  /-- The indented body of a `do`. -/
  sequenceBlock : Parse (List Node)

/-- Fails, for want of a level. -/
def Nested.refuse {α : Type} (limit : Nat) : Parse α := do
  throw ⟨.nestingTooDeep limit, (← get).position⟩

/-- Where no level is left to open. -/
def Nested.exhausted (limit : Nat) : Nested where
  limit
  expression := refuse limit
  inner _ := refuse limit
  block := refuse limit
  sequenceBlock := refuse limit

/-- A grammar at one nesting level. -/
structure Grammar where
  tables : Tables
  nested : Nested
  /-- Runs a rule at the current token, on this level. -/
  run : Rule → Parse Node

namespace Grammar

open Parse

/-- The operand that the table of operands has for the current token. -/
def operand (g : Grammar) : Parse Node := do
  match g.tables.operand? (← kind) with
  | some rule => g.run rule
  | none => unexpected "expression"

end Grammar

end Offside
