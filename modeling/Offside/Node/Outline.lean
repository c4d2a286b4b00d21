import Offside.Node.Basic
import Offside.Number.Shortest
import Offside.Text.Outline

/-! # Outlines of trees

Each node as a named record of its parts, wrapped in the name of its kind.
-/

namespace Offside

def Param.outline (param : Param) : Outline :=
  .record "Arg" [("name", .text param.name), ("type_annotation", .optionalText param.type?)]

def Variant.outline (variant : Variant) : Outline :=
  .record "Tag"
    [("name", .text variant.name), ("fields", .list (variant.fields.map (·.outline)))]

def CasePattern.outline (pattern : CasePattern) : Outline :=
  .record "Pattern"
    [("tag", .text pattern.tag), ("bound", .list (pattern.bound.map .text))]

namespace Node

/-- The record of an operator with its operands. -/
def operationOutline (record operator : String) (left right : Outline) : Outline :=
  .record record [("operator", .text operator), ("left", left), ("right", right)]

mutual

def outline (node : Node) : Outline :=
  .wrapped node.name <| match node with
    | comment text => .record "CommentStmt" [("text", .text text)]
    | letValue name type? value =>
      .record "LetStmt"
        [("name", .text name), ("type_annotation", .optionalText type?), ("value", outline value)]
    | dataType name params variants =>
      .record "DataStmt"
        [("name", .text name), ("type_params", .list (params.map (·.outline))),
         ("variants", .list (variants.map (·.outline)))]
    | macroBody name body =>
      .record "MacroStmt" [("name", .text name), ("body", .list (outlines body))]
    | bind name value => .record "BindStmt" [("name", .text name), ("value", outline value)]
    | result value => .record "ReturnStmt" [("value", outline value)]
    | function name? params returnType? body =>
      .record "FunctionExpr"
        [("name", .optionalText name?), ("params", .list (params.map (·.outline))),
         ("body", .list (outlines body)), ("return_type", .optionalText returnType?)]
    | choice scrutinee cases =>
      .record "MatchExpr"
        [("scrutinee", outline scrutinee), ("cases", .list (caseOutlines cases))]
    | conditional condition thenBody elseBody =>
      .record "IfThenElseExpr"
        [("condition", outline condition), ("then_block", .list (outlines thenBody)),
         ("else_block", .list (outlines elseBody))]
    | sequence context body =>
      .record "DoExpr" [("context", outline context), ("body", .list (outlines body))]
    | call callee args =>
      .record "CallExpr" [("callee", outline callee), ("args", .list (outlines args))]
    | identifier name => .record "IdentifierExpr" [("name", .text name)]
    | access target field =>
      .record "AccessExpr" [("target", outline target), ("field", .text field)]
    | arithmetic operator left right =>
      operationOutline "BinaryNumberExpr" operator (outline left) (outline right)
    | comparison operator left right =>
      operationOutline "BinaryGenericExpr" operator (outline left) (outline right)
    | splice inner => .record "ReplacementExpr" [("inner", outline inner)]
    | quoted inner => .record "QuotedExpr" [("inner", outline inner)]
    | number value => .record "NumberExpr" [("value", .atom value.decimalText)]
    | string value => .record "StringExpr" [("value", .text value)]
    | boolean value => .record "BooleanExpr" [("value", .atom (if value then "true" else "false"))]
    | array elements => .record "ArrayExpr" [("elements", .list (outlines elements))]
    | object pairs => .record "ObjectExpr" [("pairs", .table (pairOutlines pairs))]

def outlines : List Node → List Outline
  | [] => []
  | node :: rest => outline node :: outlines rest

def caseOutlines : List (CasePattern × Node) → List Outline
  | [] => []
  | (pattern, body) :: rest =>
    .record "Case" [("pattern", pattern.outline), ("body", outline body)] :: caseOutlines rest

def pairOutlines : List (String × Node) → List (String × Outline)
  | [] => []
  | (key, value) :: rest => (key, outline value) :: pairOutlines rest

end

end Node

def Program.outline (program : Program) : Outline :=
  .record "Program" [("body", .list (Node.outlines program.body))]

end Offside
