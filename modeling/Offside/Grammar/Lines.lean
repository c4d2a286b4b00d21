import Offside.Grammar.Expressions

/-! # Lines and declarations -/

namespace Offside.Grammar

open Parse

variable (g : Grammar)

/-- A comment, a declaration, or an expression. -/
def line : Parse Node := do
  let first ← kind
  if first = .comment then return .comment (← text)
  else
    match g.tables.statement? first with
    | some rule => g.run rule
    | none => g.nested.expression

/-- Lines up to a token that is left where it is. Each line must end before the next one. -/
def linesUntil (stop : Kind) (line : Parse Node) : Parse (List Node) :=
  collect fun cursor =>
    if cursor.kind = stop then none
    else some do
      let node ← line
      let ended ← endLine
      if !ended && (← kind) != stop then unexpected "end of line" else return node

def bodyUntil (stop : Kind) : Parse (List Node) :=
  linesUntil stop g.line

def blockBody : Parse (List Node) := do
  let _ ← expect .indent
  let body ← g.bodyUntil .outdent
  let _ ← expect .outdent
  return body

/-- A line of a `do`, where a name may be bound and a result given. -/
def sequenceLine : Parse Node := do
  match ← kind with
  | .kwBind =>
    let _ ← advance
    let name := (← expect .identifier).value
    let _ ← expect .assignment
    return .bind name (← g.nested.expression)
  | .kwReturn =>
    let _ ← advance
    return .result (← g.nested.expression)
  | _ => g.line

/-- The body of a `do`, which has at least one line. -/
def sequenceBody : Parse (List Node) := do
  let _ ← expect .indent
  if (← kind) = .outdent then layoutError "do block has no lines"
  else
    let body ← linesUntil .outdent g.sequenceLine
    let _ ← expect .outdent
    return body

/-- The value of a binding: an expression, on this line or indented on the next. -/
def boundValue : Parse Node := do
  if (← kind) = .indent then
    let _ ← advance
    let value ← g.nested.expression
    let _ ← skipTerminators
    let _ ← expect .outdent
    return value
  else g.nested.expression

/-- A function if parameters follow the name, and a binding otherwise. -/
def letDeclaration : Parse Node := do
  let _ ← expect .kwLet
  let name ← declaredName "let"
  let next ← kind
  if next = .identifier || next = .openParen then g.functionTail (some name)
  else
    let type? ← optionalType
    let _ ← expect .assignment
    let value ← g.boundValue
    return .letValue name type? value

def variant : Parse Variant := do
  let name ← declaredName "tag"
  let fields ← optionalParams
  return ⟨name, fields⟩

/-- One variant or more. Where they are indented, a line may begin with the bar. -/
def variants (indented : Bool) : Parse (List Variant) := do
  let first ← variant
  let rest ← collect fun cursor =>
    if cursor.kind = .pipe then some (do let _ ← advance; variant)
    else if indented && cursor.kind = .terminator && cursor.peek 1 = .pipe then
      some (do let _ ← advance; let _ ← advance; variant)
    else none
  return first :: rest

def dataDeclaration : Parse Node := do
  let _ ← expect .kwData
  let name ← declaredName "data"
  let params ← optionalParams
  let _ ← expect .assignment
  if (← kind) = .indent then
    let _ ← advance
    let variants ← variants true
    let _ ← skipTerminators
    let _ ← expect .outdent
    return .dataType name params variants
  else return .dataType name params (← variants false)

def macroDeclaration : Parse Node := do
  let _ ← expect .kwMacro
  let name ← declaredName "macro"
  let _ ← expect .assignment
  return .macroBody name (← g.blockOrExpression)

end Offside.Grammar
