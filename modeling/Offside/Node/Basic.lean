import Offside.Number.Binary64

/-! # Trees

What a source means once its layout and punctuation are read. Declarations, the lines of `do`
blocks and expressions share one type, since a body can hold any of them.
-/

namespace Offside

/-- A name with an optional type: a parameter of a function or a declaration, or a field of a
variant. -/
structure Param where
  name : String
  type? : Option String
deriving DecidableEq, Inhabited

/-- One alternative of a data type. -/
structure Variant where
  name : String
  fields : List Param
deriving DecidableEq, Inhabited

/-- A variant's name with the names given to its fields. -/
structure CasePattern where
  tag : String
  bound : List String
deriving DecidableEq, Inhabited

inductive Node where
  | comment (text : String)
  | letValue (name : String) (type? : Option String) (value : Node)
  | dataType (name : String) (params : List Param) (variants : List Variant)
  | macroBody (name : String) (body : List Node)
  | bind (name : String) (value : Node)
  | result (value : Node)
  /-- A function, with a name where it is declared. -/
  | function (name? : Option String) (params : List Param) (returnType? : Option String)
    (body : List Node)
  | choice (scrutinee : Node) (cases : List (CasePattern × Node))
  | conditional (condition : Node) (thenBody elseBody : List Node)
  | sequence (context : Node) (body : List Node)
  | call (callee : Node) (args : List Node)
  | identifier (name : String)
  | access (target : Node) (field : String)
  | arithmetic (operator : String) (left right : Node)
  | comparison (operator : String) (left right : Node)
  /-- A place in a quoted expression where another is put in. -/
  | splice (inner : Node)
  | quoted (inner : Node)
  | number (value : Binary64)
  | string (value : String)
  | boolean (value : Bool)
  | array (elements : List Node)
  /-- Keys with their values, each key once. -/
  | object (pairs : List (String × Node))
deriving Inhabited

/-- The lines of a source. -/
structure Program where
  body : List Node
deriving Inhabited

/-- The name of a kind of node. -/
def Node.name : Node → String
  | comment .. => "Comment"
  | letValue .. => "Let"
  | dataType .. => "Data"
  | macroBody .. => "Macro"
  | bind .. => "Bind"
  | result .. => "Return"
  | function .. => "Function"
  | choice .. => "Match"
  | conditional .. => "IfThenElse"
  | sequence .. => "Do"
  | call .. => "Call"
  | identifier .. => "Identifier"
  | access .. => "Access"
  | arithmetic .. => "BinaryNumberOperator"
  | comparison .. => "BinaryGenericOperator"
  | splice .. => "Replacement"
  | quoted .. => "Quoted"
  | number .. => "Number"
  | string .. => "String"
  | boolean .. => "Boolean"
  | array .. => "Array"
  | object .. => "Object"

end Offside
