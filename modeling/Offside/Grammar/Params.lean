import Offside.Grammar.Parse
import Offside.Node.Basic

/-! # Parameters and types

A type is a name. A list of parameters mixes bare names, names in parentheses with an optional
type, and empty pairs of parentheses, which stand for no parameter.
-/

namespace Offside.Grammar

open Parse

def typeName : Parse String := do
  return (← expectAs .identifier "type name").value

/-- A type behind a colon, if there is a colon. -/
def optionalType : Parse (Option String) := do
  if (← kind) = .colon then
    let _ ← advance
    return some (← typeName)
  else return none

/-- A name, or a name with an optional type in parentheses. -/
def param : Parse Param := do
  if (← kind) = .identifier then return ⟨← text, none⟩
  else
    let _ ← expect .openParen
    let name := (← expect .identifier).value
    let type? ← optionalType
    let _ ← expect .closeParen
    return ⟨name, type?⟩

/-- Whether an empty pair of parentheses comes next. -/
def atEmptyPair (cursor : Cursor) : Bool :=
  cursor.kind = .openParen && cursor.peek 1 = .closeParen

def startsParam (cursor : Cursor) : Bool :=
  cursor.kind = .identifier ||
    (cursor.kind = .openParen && (cursor.peek 1 = .closeParen || cursor.peek 1 = .identifier))

/-- Takes an empty pair of parentheses. -/
def emptyPair : Parse Unit := do
  let _ ← advance
  let _ ← advance

/-- Any number of parameters. -/
def optionalParams : Parse (List Param) := do
  let items ← collect fun cursor =>
    if !startsParam cursor then none
    else if atEmptyPair cursor then some (do emptyPair; return none)
    else some (some <$> param)
  return items.reduceOption

/-- A list of parameters that is written, though it may hold none. -/
def params : Parse (List Param) := do
  if startsParam (← get) then optionalParams else unexpected "parameter"

/-- The name that a declaration introduces. -/
def declaredName (declaration : String) : Parse String := do
  return (← expectAs .identifier (declaration ++ " name")).value

/-- The name of a field or a key. Two reserved words may be one. -/
def fieldName : Parse String := do
  if (← kind).namesField then text else unexpected "field name"

end Offside.Grammar
