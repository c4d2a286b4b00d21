import Offside.Node.Basic
import Offside.Text.Quoted

/-! # Tree texts

A tree as one line of nested parentheses, each node by its name with its parts in order.
-/

namespace Offside

/-- Items between brackets, separated by blanks. -/
def bracketed (items : List String) : String :=
  "[" ++ " ".intercalate items ++ "]"

/-- A name and its parts in parentheses. -/
def parenthesised (name : String) (parts : List String) : String :=
  "(" ++ " ".intercalate (name :: parts) ++ ")"

/-- A text that may be missing. -/
def optionalLiteral : Option String → String
  | none => "_"
  | some text => literal text

def Param.treeText (param : Param) : String :=
  parenthesised "Arg" [literal param.name, optionalLiteral param.type?]

def Variant.treeText (variant : Variant) : String :=
  parenthesised "Tag" [literal variant.name, bracketed (variant.fields.map (·.treeText))]

def CasePattern.treeText (pattern : CasePattern) : String :=
  parenthesised "Pattern" [literal pattern.tag, bracketed (pattern.bound.map literal)]

namespace Node

mutual

def treeText (node : Node) : String :=
  parenthesised node.name <| match node with
    | comment text => [literal text]
    | letValue name type? value => [literal name, optionalLiteral type?, treeText value]
    | dataType name params variants =>
      [literal name, bracketed (params.map (·.treeText)), bracketed (variants.map (·.treeText))]
    | macroBody name body => [literal name, bracketed (treeTexts body)]
    | bind name value => [literal name, treeText value]
    | result value => [treeText value]
    | function name? params returnType? body =>
      [optionalLiteral name?, bracketed (params.map (·.treeText)), optionalLiteral returnType?,
       bracketed (treeTexts body)]
    | choice scrutinee cases => [treeText scrutinee, bracketed (caseTexts cases)]
    | conditional condition thenBody elseBody =>
      [treeText condition, bracketed (treeTexts thenBody), bracketed (treeTexts elseBody)]
    | sequence context body => [treeText context, bracketed (treeTexts body)]
    | call callee args => [treeText callee, bracketed (treeTexts args)]
    | identifier name => [literal name]
    | access target field => [treeText target, literal field]
    | arithmetic operator left right => [literal operator, treeText left, treeText right]
    | comparison operator left right => [literal operator, treeText left, treeText right]
    | splice inner => [treeText inner]
    | quoted inner => [treeText inner]
    | number value => [value.bitText]
    | string value => [literal value]
    | boolean value => [if value then "true" else "false"]
    | array elements => [bracketed (treeTexts elements)]
    | object pairs => [bracketed (pairTexts pairs)]

def treeTexts : List Node → List String
  | [] => []
  | node :: rest => treeText node :: treeTexts rest

def caseTexts : List (CasePattern × Node) → List String
  | [] => []
  | (pattern, body) :: rest =>
    parenthesised "Case" [pattern.treeText, treeText body] :: caseTexts rest

def pairTexts : List (String × Node) → List String
  | [] => []
  | (key, value) :: rest => parenthesised (literal key) [treeText value] :: pairTexts rest

end

end Node

end Offside
