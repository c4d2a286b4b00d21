import Offside.Grammar.Basic
import Offside.Number.Reading

/-! # Expressions

Operands and operators, calls by juxtaposition, literals, and the forms that hold bodies. Loops
collect their items first and fold them into a tree afterwards.
-/

namespace Offside

def Operation.node : Operation → String → Node → Node → Node
  | .arithmetic => .arithmetic
  | .comparison => .comparison

namespace Grammar

open Parse

variable (g : Grammar)

/-- The operators that bind tighter than a power, each with its text and right operand. A right
operand ends at the next operator that binds no tighter than its own. -/
def operations (power : Power) : Parse (List (Operation × String × Node)) :=
  collect fun cursor =>
    (g.tables.tighter? power cursor.kind).map fun (own, operation) => do
      let operator ← text
      let right ← g.nested.inner own
      return (operation, operator, right)

/-- The operator at the cursor and its right operand, behind a left operand that is given. -/
def operate (operation : Operation) (power : Power) (left : Node) : Parse Node := do
  let operator ← text
  let right ← g.nested.inner power
  return operation.node operator left right

/-- Operations applied to a first operand, from the left. -/
def applyOperations (left : Node) (operations : List (Operation × String × Node)) : Node :=
  operations.foldl (fun node (operation, operator, right) => operation.node operator node right)
    left

/-- Continues an operand by the operators after it that bind tighter than a power. -/
def operatorTail (left : Node) (power : Power) : Parse Node := do
  return applyOperations left (← g.operations power)

def innerBody (power : Power) : Parse Node := do
  let left ← g.operand
  g.operatorTail left power

/-- The items after a callee: arguments, and empty pairs of parentheses. -/
def arguments : Parse (List (Option Node)) :=
  collect fun cursor =>
    if !cursor.kind.startsInner then none
    else if atEmptyPair cursor then some (do emptyPair; return none)
    else some (some <$> g.nested.inner .loosest)

/-- A callee with the arguments that wait to be applied, last one first. -/
def callOn (callee : Node) (waiting : List Node) : Node :=
  if waiting.isEmpty then callee else .call callee waiting.reverse

/-- Applies a callee to each run of arguments at once, and to nothing at each empty pair. -/
def applyArguments (callee : Node) (waiting : List Node) : List (Option Node) → Node
  | [] => callOn callee waiting
  | some argument :: rest => applyArguments callee (argument :: waiting) rest
  | none :: rest => applyArguments (.call (callOn callee waiting) []) [] rest

/-- A call, or an inner expression. A name or a parenthesised expression without arguments is an
operand like any other. -/
def application : Parse Node := do
  let first ← kind
  if first = .identifier || first = .openParen then
    let callee ← g.operand
    if (← kind).startsInner then return applyArguments callee [] (← g.arguments)
    else g.operatorTail callee .loosest
  else g.nested.inner .loosest

/-- The fields behind an operand, each behind a dot. -/
def accesses : Parse (List String) :=
  collect fun cursor =>
    if cursor.kind = .dot then some (do let _ ← advance; fieldName) else none

def accessTail (target : Node) : Parse Node := do
  return (← accesses).foldl .access target

def accessor : Parse Node := do
  let name := (← expect .identifier).value
  accessTail (.identifier name)

def grouping : Parse Node := do
  let _ ← expect .openParen
  let inner ← g.nested.expression
  let _ ← expect .closeParen
  accessTail inner

/-- The number of a numeral. The error stands at the numeral, which is passed by then. -/
def numeral : Parse Node := do
  let token ← advance
  match Binary64.read? token.value.toList with
  | some value => return .number value
  | none => throw ⟨.invalidNumber token.value, token.span.start⟩

def literal : Parse Node := do
  match ← kind with
  | .number => numeral
  | .string => return .string (← text)
  | .boolean => return .boolean ((← text) = "true")
  | _ => unexpected "literal"

def splice : Parse Node := do
  let _ ← expect .ampersand
  let _ ← expect .openParen
  let inner ← g.nested.expression
  let _ ← expect .closeParen
  return .splice inner

def quotation : Parse Node := do
  let _ ← expect .openQuote
  let inner ← g.nested.expression
  let _ ← expect .closeQuote
  return .quoted inner

def array : Parse Node := do
  let _ ← expect .openBracket
  let elements ← if (← kind) = .closeBracket then pure [] else separated g.nested.expression
  let _ ← expect .closeBracket
  return .array elements

def pair : Parse (String × Node) := do
  let key ← fieldName
  let _ ← expect .colon
  let value ← g.nested.expression
  return (key, value)

/-- A pair on lines of its own: a comma or the end of the line must follow, unless it is the
last. -/
def pairLine : Parse (String × Node) := do
  let entry ← g.pair
  let comma := (← kind) = .comma
  if comma then
    let _ ← advance
  let ended ← endLine
  if !ended && !comma && (← kind) != .outdent then unexpected Kind.outdent.name
  else return entry

/-- Adds a pair. A key that is there already keeps its place and takes the new value. -/
def insertPair (pairs : List (String × Node)) (entry : String × Node) : List (String × Node) :=
  match pairs with
  | [] => [entry]
  | first :: rest =>
    if first.1 = entry.1 then entry :: rest else first :: insertPair rest entry

theorem lookup_insertPair (pairs : List (String × Node)) (name key : String) (value : Node) :
    (insertPair pairs (name, value)).lookup key =
      if key = name then some value else pairs.lookup key := by
  induction pairs with
  | nil =>
    by_cases h : key = name
    · simp [insertPair, h]
    · simp [insertPair, List.lookup_cons, beq_false_of_ne h, h]
  | cons first rest ih =>
    obtain ⟨own, old⟩ := first
    by_cases same : own = name
    · by_cases h : key = name <;> simp [insertPair, List.lookup_cons, same, h, beq_false_of_ne]
    · by_cases h : key = own
      · simp [insertPair, h, same]
      · simp [insertPair, List.lookup_cons, beq_false_of_ne h, same, ih]

def object : Parse Node := do
  let _ ← expect .openCurly
  let entries ← match ← kind with
    | .indent => do
      let _ ← advance
      let _ ← skipTerminators
      let entries ← collect fun cursor =>
        if cursor.kind = .outdent then none else some g.pairLine
      let _ ← expect .outdent
      let _ ← skipTerminators
      pure entries
    | .closeCurly => pure []
    | _ => separated g.pair
  let _ ← expect .closeCurly
  return .object (entries.foldl insertPair [])

/-- A body on lines of its own, or one expression on this line. -/
def blockOrExpression : Parse (List Node) := do
  if (← kind) = .indent then g.nested.block else return [← g.nested.expression]

def conditional : Parse Node := do
  let _ ← expect .kwIf
  let condition ← g.nested.inner .loosest
  let _ ← expect .kwThen
  let thenBody ← g.nested.block
  let _ ← expect .terminator
  let _ ← expect .kwElse
  let elseBody ← g.nested.block
  return .conditional condition thenBody elseBody

/-- What follows the name of a function: parameters, an optional type, and the body. -/
def functionTail (name? : Option String) : Parse Node := do
  let params ← params
  let returnType? ← optionalType
  let _ ← expect .assignment
  let body ← g.blockOrExpression
  return .function name? params returnType? body

def function : Parse Node := do
  let _ ← expect .kwFn
  g.functionTail none

/-- A bare tag, or a tag with at least one name in parentheses. -/
def casePattern : Parse CasePattern := do
  match ← kind with
  | .identifier => return ⟨← text, []⟩
  | .openParen =>
    let _ ← advance
    let tag := (← expect .identifier).value
    let first := (← expect .identifier).value
    let rest ← skip .identifier
    let _ ← expect .closeParen
    return ⟨tag, first :: rest.map (·.value)⟩
  | _ => unexpected "pattern"

def caseArm : Parse (CasePattern × Node) := do
  let _ ← expect .kwCase
  let pattern ← casePattern
  let _ ← expect .assignment
  let body ← g.nested.expression
  return (pattern, body)

/-- One case or more, each but the first after the end of the one before it. -/
def caseArms : Parse (List (CasePattern × Node)) := do
  let armLine : Parse (CasePattern × Node) := do
    let arm ← g.caseArm
    let _ ← endLine
    return arm
  let first ← armLine
  let rest ← collect fun cursor =>
    if cursor.kind = .kwCase && cursor.previous? = some .terminator then some armLine else none
  return first :: rest

def choice : Parse Node := do
  let _ ← expect .kwMatch
  let scrutinee ← g.nested.inner .loosest
  let _ ← expect .indent
  let cases ← g.caseArms
  let _ ← expect .outdent
  return .choice scrutinee cases

/-- The terminator after the body belongs to the expression. -/
def sequence : Parse Node := do
  let _ ← expect .kwDo
  let context ← g.nested.inner .loosest
  let body ← g.nested.sequenceBlock
  let _ ← expect .terminator
  return .sequence context body

/-- An expression of any form. Those with a keyword of their own are no operands. -/
def expressionBody : Parse Node := do
  match ← kind with
  | .kwFn => g.function
  | .kwMatch => g.choice
  | .kwDo => g.sequence
  | _ => g.application

end Grammar

end Offside
