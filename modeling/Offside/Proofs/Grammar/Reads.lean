import Offside.Grammar.Expressions
import Offside.Proofs.Grammar.Accepts

/-! # The grammar as a relation

What text stands for what tree. Each rule names the tokens it reads and, where a loop stops, what
must not follow. The number of levels left is part of the relation, since the forms that open a
level need one.
-/

namespace Offside

namespace Reading

/-- Fields behind an operand, each behind a dot. -/
inductive Accesses : Reading (List String) where
  | nil {input : List Token} : nextKind input ≠ .dot → Accesses [] input input
  | cons {dot field : Token} {fields : List String} {input rest : List Token} :
      dot.kind = .dot → field.kind.namesField = true → Accesses fields input rest →
      Accesses (field.value :: fields) (dot :: field :: input) rest

inductive OptionalType : Reading (Option String) where
  | none {input : List Token} : nextKind input ≠ .colon → OptionalType none input input
  | some {colon name : Token} {input : List Token} : colon.kind = .colon →
      name.kind = .identifier → OptionalType (some name.value) (colon :: name :: input) input

/-- An empty pair of parentheses comes next. -/
def EmptyPairAhead (input : List Token) : Prop :=
  nextKind input = .openParen ∧ nextKind input.tail = .closeParen

def ParamAhead (input : List Token) : Prop :=
  nextKind input = .identifier ∨ nextKind input = .openParen ∧
    (nextKind input.tail = .closeParen ∨ nextKind input.tail = .identifier)

/-- A name, or a name with an optional type in parentheses. -/
inductive OneParam : Reading Param where
  | bare {name : Token} {input : List Token} : name.kind = .identifier →
      OneParam ⟨name.value, none⟩ (name :: input) input
  | enclosed {opening name closing : Token} {type? : Option String} {input rest : List Token} :
      opening.kind = .openParen → name.kind = .identifier →
      OptionalType type? input (closing :: rest) → closing.kind = .closeParen →
      OneParam ⟨name.value, type?⟩ (opening :: name :: input) rest

inductive Params : Reading (List Param) where
  | nil {input : List Token} : ¬ ParamAhead input → Params [] input input
  | emptyPair {opening closing : Token} {params : List Param} {input rest : List Token} :
      opening.kind = .openParen → closing.kind = .closeParen → Params params input rest →
      Params params (opening :: closing :: input) rest
  | cons {param : Param} {params : List Param} {input mid rest : List Token} :
      OneParam param input mid → Params params mid rest → Params (param :: params) input rest

/-- Parameters that are written, though they may be none, an optional type and the assignment. -/
inductive Signature : Reading (List Param × Option String) where
  | mk {params : List Param} {type? : Option String} {assign : Token}
      {input mid rest : List Token} : ParamAhead input → Params params input mid →
      OptionalType type? mid (assign :: rest) → assign.kind = .assignment →
      Signature (params, type?) input rest

inductive Pattern : Reading CasePattern where
  | bare {tag : Token} {input : List Token} : tag.kind = .identifier →
      Pattern ⟨tag.value, []⟩ (tag :: input) input
  | enclosed {opening tag first closing : Token} {names input : List Token} :
      opening.kind = .openParen → tag.kind = .identifier → first.kind = .identifier →
      (∀ name ∈ names, name.kind = .identifier) → closing.kind = .closeParen →
      Pattern ⟨tag.value, first.value :: names.map (·.value)⟩
        (opening :: tag :: first :: (names ++ closing :: input)) input

/-- Another variant comes next. Where variants are indented, it may stand on a line of its own. -/
def VariantAhead (indented : Bool) (input : List Token) : Prop :=
  nextKind input = .pipe ∨
    indented = true ∧ nextKind input = .terminator ∧ nextKind input.tail = .pipe

inductive Variants (indented : Bool) : Reading (List Variant) where
  | last {name : Token} {fields : List Param} {input rest : List Token} :
      name.kind = .identifier → Params fields input rest → ¬ VariantAhead indented rest →
      Variants indented [⟨name.value, fields⟩] (name :: input) rest
  | cons {name bar : Token} {fields : List Param} {variants : List Variant}
      {input mid rest : List Token} : name.kind = .identifier → Params fields input (bar :: mid) →
      bar.kind = .pipe → Variants indented variants mid rest →
      Variants indented (⟨name.value, fields⟩ :: variants) (name :: input) rest
  | consLine {name terminator bar : Token} {fields : List Param} {variants : List Variant}
      {input mid rest : List Token} : indented = true → name.kind = .identifier →
      Params fields input (terminator :: bar :: mid) → terminator.kind = .terminator →
      bar.kind = .pipe → Variants indented variants mid rest →
      Variants indented (⟨name.value, fields⟩ :: variants) (name :: input) rest

end Reading

/-- What the rules read. -/
inductive Phrase where
  | expression (node : Node)
  | inner (power : Power) (node : Node)
  | operand (node : Node)
  | operations (power : Power) (items : List (Operation × String × Node))
  | arguments (items : List (Option Node))
  | elements (nodes : List Node)
  | pair (entry : String × Node)
  | pairs (entries : List (String × Node))
  /-- Pairs on lines of their own. -/
  | pairLines (entries : List (String × Node))
  | arm (entry : CasePattern × Node)
  | arms (entries : List (CasePattern × Node))
  | block (nodes : List Node)
  | sequenceBlock (nodes : List Node)
  /-- A body on lines of its own, or one expression. -/
  | body (nodes : List Node)
  /-- A line, which may be one of a `do`. -/
  | line (sequence : Bool) (node : Node)
  | lines (sequence : Bool) (stop : Kind) (nodes : List Node)

open Grammar (applyOperations applyArguments insertPair)

/-- With some number of levels left, a phrase is read off the tokens ahead, and others are left. -/
inductive Reads : Nat → Phrase → List Token → List Token → Prop where
  | function {room : Nat} {fn : Token} {params : List Param} {type? : Option String}
      {nodes : List Node} {input mid rest : List Token} : fn.kind = .kwFn →
      Reading.Signature (params, type?) input mid → Reads room (.body nodes) mid rest →
      Reads (room + 1) (.expression (.function none params type? nodes)) (fn :: input) rest
  | choice {room : Nat} {head indent outdent : Token} {scrutinee : Node}
      {cases : List (CasePattern × Node)} {input mid rest : List Token} : head.kind = .kwMatch →
      Reads room (.inner .loosest scrutinee) input (indent :: mid) → indent.kind = .indent →
      Reads room (.arms cases) mid (outdent :: rest) → outdent.kind = .outdent →
      Reads (room + 1) (.expression (.choice scrutinee cases)) (head :: input) rest
  | sequence {room : Nat} {head terminator : Token} {context : Node} {nodes : List Node}
      {input mid rest : List Token} : head.kind = .kwDo →
      Reads room (.inner .loosest context) input mid →
      Reads room (.sequenceBlock nodes) mid (terminator :: rest) →
      terminator.kind = .terminator →
      Reads (room + 1) (.expression (.sequence context nodes)) (head :: input) rest
  | call {room : Nat} {callee : Node} {items : List (Option Node)} {input mid rest : List Token} :
      nextKind input = .identifier ∨ nextKind input = .openParen →
      Reads room (.operand callee) input mid → (nextKind mid).startsInner = true →
      Reads room (.arguments items) mid rest →
      Reads (room + 1) (.expression (applyArguments callee [] items)) input rest
  | operation {room : Nat} {left : Node} {items : List (Operation × String × Node)}
      {input mid rest : List Token} : nextKind input = .identifier ∨ nextKind input = .openParen →
      Reads room (.operand left) input mid → (nextKind mid).startsInner = false →
      Reads room (.operations .loosest items) mid rest →
      Reads (room + 1) (.expression (applyOperations left items)) input rest
  | other {room : Nat} {node : Node} {input rest : List Token} :
      nextKind input ≠ .identifier → nextKind input ≠ .openParen →
      Reads room (.inner .loosest node) input rest →
      Reads (room + 1) (.expression node) input rest
  | inner {room : Nat} {power : Power} {left : Node} {items : List (Operation × String × Node)}
      {input mid rest : List Token} : Reads room (.operand left) input mid →
      Reads room (.operations power items) mid rest →
      Reads (room + 1) (.inner power (applyOperations left items)) input rest
  | noOperation {room : Nat} {power : Power} {input : List Token} :
      Tables.standard.tighter? power (nextKind input) = none →
      Reads room (.operations power []) input input
  | consOperation {room : Nat} {power own : Power} {operation : Operation} {operator : Token}
      {right : Node} {items : List (Operation × String × Node)} {input mid rest : List Token} :
      Tables.standard.tighter? power operator.kind = some (own, operation) →
      Reads room (.inner own right) input mid → Reads room (.operations power items) mid rest →
      Reads room (.operations power ((operation, operator.value, right) :: items))
        (operator :: input) rest
  | noArgument {room : Nat} {input : List Token} : (nextKind input).startsInner = false →
      Reads room (.arguments []) input input
  | emptyPair {room : Nat} {opening closing : Token} {items : List (Option Node)}
      {input rest : List Token} : opening.kind = .openParen → closing.kind = .closeParen →
      Reads room (.arguments items) input rest →
      Reads room (.arguments (none :: items)) (opening :: closing :: input) rest
  | consArgument {room : Nat} {argument : Node} {items : List (Option Node)}
      {input mid rest : List Token} : Reads room (.inner .loosest argument) input mid →
      Reads room (.arguments items) mid rest →
      Reads room (.arguments (some argument :: items)) input rest
  | number {room : Nat} {token : Token} {value : Binary64} {input : List Token} :
      token.kind = .number → Binary64.read? token.value.toList = some value →
      Reads room (.operand (.number value)) (token :: input) input
  | string {room : Nat} {token : Token} {input : List Token} : token.kind = .string →
      Reads room (.operand (.string token.value)) (token :: input) input
  | boolean {room : Nat} {token : Token} {input : List Token} : token.kind = .boolean →
      Reads room (.operand (.boolean (token.value = "true"))) (token :: input) input
  | accessor {room : Nat} {name : Token} {fields : List String} {input rest : List Token} :
      name.kind = .identifier → Reading.Accesses fields input rest →
      Reads room (.operand (fields.foldl .access (.identifier name.value))) (name :: input) rest
  | grouping {room : Nat} {opening closing : Token} {node : Node} {fields : List String}
      {input mid rest : List Token} : opening.kind = .openParen →
      Reads room (.expression node) input (closing :: mid) → closing.kind = .closeParen →
      Reading.Accesses fields mid rest →
      Reads room (.operand (fields.foldl .access node)) (opening :: input) rest
  | splice {room : Nat} {ampersand opening closing : Token} {node : Node}
      {input rest : List Token} : ampersand.kind = .ampersand → opening.kind = .openParen →
      Reads room (.expression node) input (closing :: rest) → closing.kind = .closeParen →
      Reads room (.operand (.splice node)) (ampersand :: opening :: input) rest
  | quotation {room : Nat} {opening closing : Token} {node : Node} {input rest : List Token} :
      opening.kind = .openQuote → Reads room (.expression node) input (closing :: rest) →
      closing.kind = .closeQuote → Reads room (.operand (.quoted node)) (opening :: input) rest
  | emptyArray {room : Nat} {opening closing : Token} {input : List Token} :
      opening.kind = .openBracket → closing.kind = .closeBracket →
      Reads room (.operand (.array [])) (opening :: closing :: input) input
  | array {room : Nat} {opening closing : Token} {nodes : List Node} {input rest : List Token} :
      opening.kind = .openBracket → Reads room (.elements nodes) input (closing :: rest) →
      closing.kind = .closeBracket → Reads room (.operand (.array nodes)) (opening :: input) rest
  | lastElement {room : Nat} {node : Node} {input rest : List Token} :
      Reads room (.expression node) input rest → nextKind rest ≠ .comma →
      Reads room (.elements [node]) input rest
  | consElement {room : Nat} {node : Node} {nodes : List Node} {comma : Token}
      {input mid rest : List Token} : Reads room (.expression node) input (comma :: mid) →
      comma.kind = .comma → Reads room (.elements nodes) mid rest →
      Reads room (.elements (node :: nodes)) input rest
  | emptyObject {room : Nat} {opening closing : Token} {input : List Token} :
      opening.kind = .openCurly → closing.kind = .closeCurly →
      Reads room (.operand (.object [])) (opening :: closing :: input) input
  | object {room : Nat} {opening closing : Token} {entries : List (String × Node)}
      {input rest : List Token} : opening.kind = .openCurly →
      Reads room (.pairs entries) input (closing :: rest) → closing.kind = .closeCurly →
      Reads room (.operand (.object (entries.foldl insertPair []))) (opening :: input) rest
  | objectLines {room : Nat} {opening indent outdent closing : Token}
      {entries : List (String × Node)} {input mid rest : List Token} : opening.kind = .openCurly →
      indent.kind = .indent →
      Reads room (.pairLines entries) (afterTerminators input) (outdent :: mid) →
      outdent.kind = .outdent → afterTerminators mid = closing :: rest →
      closing.kind = .closeCurly →
      Reads room (.operand (.object (entries.foldl insertPair []))) (opening :: indent :: input)
        rest
  | pair {room : Nat} {key colon : Token} {node : Node} {input rest : List Token} :
      key.kind.namesField = true → colon.kind = .colon → Reads room (.expression node) input rest →
      Reads room (.pair (key.value, node)) (key :: colon :: input) rest
  | lastPair {room : Nat} {entry : String × Node} {input rest : List Token} :
      Reads room (.pair entry) input rest → nextKind rest ≠ .comma →
      Reads room (.pairs [entry]) input rest
  | consPair {room : Nat} {entry : String × Node} {entries : List (String × Node)} {comma : Token}
      {input mid rest : List Token} : Reads room (.pair entry) input (comma :: mid) →
      comma.kind = .comma → Reads room (.pairs entries) mid rest →
      Reads room (.pairs (entry :: entries)) input rest
  | noPairLine {room : Nat} {input : List Token} : nextKind input = .outdent →
      Reads room (.pairLines []) input input
  | pairLineComma {room : Nat} {entry : String × Node} {entries : List (String × Node)}
      {comma : Token} {input mid rest : List Token} :
      Reads room (.pair entry) input (comma :: mid) → comma.kind = .comma →
      Reads room (.pairLines entries) (afterTerminators mid) rest →
      Reads room (.pairLines (entry :: entries)) input rest
  | pairLine {room : Nat} {entry : String × Node} {entries : List (String × Node)}
      {input mid rest : List Token} : Reads room (.pair entry) input mid →
      nextKind mid ≠ .comma →
      (lineEnded input (afterTerminators mid) = true ∨
        nextKind (afterTerminators mid) = .outdent) →
      Reads room (.pairLines entries) (afterTerminators mid) rest →
      Reads room (.pairLines (entry :: entries)) input rest
  | conditional {room : Nat} {head thenToken terminator elseToken : Token} {condition : Node}
      {thenBody elseBody : List Node} {input mid mid' rest : List Token} : head.kind = .kwIf →
      Reads room (.inner .loosest condition) input (thenToken :: mid) →
      thenToken.kind = .kwThen →
      Reads room (.block thenBody) mid (terminator :: elseToken :: mid') →
      terminator.kind = .terminator → elseToken.kind = .kwElse →
      Reads room (.block elseBody) mid' rest →
      Reads room (.operand (.conditional condition thenBody elseBody)) (head :: input) rest
  | arm {room : Nat} {head assign : Token} {pattern : CasePattern} {node : Node}
      {input mid rest : List Token} : head.kind = .kwCase →
      Reading.Pattern pattern input (assign :: mid) → assign.kind = .assignment →
      Reads room (.expression node) mid rest →
      Reads room (.arm (pattern, node)) (head :: input) rest
  | lastArm {room : Nat} {entry : CasePattern × Node} {input mid : List Token} :
      Reads room (.arm entry) input mid →
      ¬ (nextKind (afterTerminators mid) = .kwCase ∧
        lineEnded input (afterTerminators mid) = true) →
      Reads room (.arms [entry]) input (afterTerminators mid)
  | consArm {room : Nat} {entry : CasePattern × Node} {entries : List (CasePattern × Node)}
      {input mid rest : List Token} : Reads room (.arm entry) input mid →
      lineEnded input (afterTerminators mid) = true →
      Reads room (.arms entries) (afterTerminators mid) rest →
      Reads room (.arms (entry :: entries)) input rest
  | block {room : Nat} {indent outdent : Token} {nodes : List Node} {input rest : List Token} :
      indent.kind = .indent → Reads room (.lines false .outdent nodes) input (outdent :: rest) →
      outdent.kind = .outdent → Reads (room + 1) (.block nodes) (indent :: input) rest
  | sequenceBlock {room : Nat} {indent outdent : Token} {nodes : List Node}
      {input rest : List Token} : indent.kind = .indent → nextKind input ≠ .outdent →
      Reads room (.lines true .outdent nodes) input (outdent :: rest) →
      outdent.kind = .outdent → Reads (room + 1) (.sequenceBlock nodes) (indent :: input) rest
  | bodyBlock {room : Nat} {nodes : List Node} {input rest : List Token} :
      Reads room (.block nodes) input rest → Reads room (.body nodes) input rest
  | bodyExpression {room : Nat} {node : Node} {input rest : List Token} :
      Reads room (.expression node) input rest → Reads room (.body [node]) input rest
  | comment {room : Nat} {sequence : Bool} {token : Token} {input : List Token} :
      token.kind = .comment →
      Reads room (.line sequence (.comment token.value)) (token :: input) input
  | letFunction {room : Nat} {sequence : Bool} {head name : Token} {params : List Param}
      {type? : Option String} {nodes : List Node} {input mid rest : List Token} :
      head.kind = .kwLet → name.kind = .identifier →
      Reading.Signature (params, type?) input mid → Reads room (.body nodes) mid rest →
      Reads room (.line sequence (.function (some name.value) params type? nodes))
        (head :: name :: input) rest
  | letValue {room : Nat} {sequence : Bool} {head name assign : Token} {type? : Option String}
      {node : Node} {input mid rest : List Token} : head.kind = .kwLet →
      name.kind = .identifier → nextKind input ≠ .identifier → nextKind input ≠ .openParen →
      Reading.OptionalType type? input (assign :: mid) → assign.kind = .assignment →
      Reads room (.expression node) mid rest →
      Reads room (.line sequence (.letValue name.value type? node)) (head :: name :: input) rest
  | letIndented {room : Nat} {sequence : Bool} {head name assign indent outdent : Token}
      {type? : Option String} {node : Node} {input mid mid' rest : List Token} :
      head.kind = .kwLet → name.kind = .identifier → nextKind input ≠ .identifier →
      nextKind input ≠ .openParen →
      Reading.OptionalType type? input (assign :: indent :: mid) → assign.kind = .assignment →
      indent.kind = .indent → Reads room (.expression node) mid mid' →
      afterTerminators mid' = outdent :: rest → outdent.kind = .outdent →
      Reads room (.line sequence (.letValue name.value type? node)) (head :: name :: input) rest
  | dataType {room : Nat} {sequence : Bool} {head name assign : Token} {params : List Param}
      {variants : List Variant} {input mid rest : List Token} : head.kind = .kwData →
      name.kind = .identifier → Reading.Params params input (assign :: mid) →
      assign.kind = .assignment → Reading.Variants false variants mid rest →
      Reads room (.line sequence (.dataType name.value params variants)) (head :: name :: input)
        rest
  | dataIndented {room : Nat} {sequence : Bool} {head name assign indent outdent : Token}
      {params : List Param} {variants : List Variant} {input mid mid' rest : List Token} :
      head.kind = .kwData → name.kind = .identifier →
      Reading.Params params input (assign :: indent :: mid) → assign.kind = .assignment →
      indent.kind = .indent → Reading.Variants true variants mid mid' →
      afterTerminators mid' = outdent :: rest → outdent.kind = .outdent →
      Reads room (.line sequence (.dataType name.value params variants)) (head :: name :: input)
        rest
  | macroBody {room : Nat} {sequence : Bool} {head name assign : Token} {nodes : List Node}
      {input rest : List Token} : head.kind = .kwMacro → name.kind = .identifier →
      assign.kind = .assignment → Reads room (.body nodes) input rest →
      Reads room (.line sequence (.macroBody name.value nodes)) (head :: name :: assign :: input)
        rest
  | expressionLine {room : Nat} {sequence : Bool} {node : Node} {input rest : List Token} :
      Reads room (.expression node) input rest → Reads room (.line sequence node) input rest
  | bind {room : Nat} {head name assign : Token} {node : Node} {input rest : List Token} :
      head.kind = .kwBind → name.kind = .identifier → assign.kind = .assignment →
      Reads room (.expression node) input rest →
      Reads room (.line true (.bind name.value node)) (head :: name :: assign :: input) rest
  | result {room : Nat} {head : Token} {node : Node} {input rest : List Token} :
      head.kind = .kwReturn → Reads room (.expression node) input rest →
      Reads room (.line true (.result node)) (head :: input) rest
  | noLine {room : Nat} {sequence : Bool} {stop : Kind} {input : List Token} :
      nextKind input = stop → Reads room (.lines sequence stop []) input input
  | consLine {room : Nat} {sequence : Bool} {stop : Kind} {node : Node} {nodes : List Node}
      {input mid rest : List Token} : nextKind input ≠ stop →
      Reads room (.line sequence node) input mid →
      (lineEnded input (afterTerminators mid) = true ∨ nextKind (afterTerminators mid) = stop) →
      Reads room (.lines sequence stop nodes) (afterTerminators mid) rest →
      Reads room (.lines sequence stop (node :: nodes)) input rest

end Offside
