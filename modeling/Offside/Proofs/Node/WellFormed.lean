import Offside.Proofs.Node.Pairs

/-! # Well-formed trees

The type of nodes lets any node stand anywhere. In a well-formed tree declarations and comments are
lines, bindings and results are lines of a `do`, and nothing that needs a part is without one. The
trees that the folds of the grammar build are well formed if their parts are.
-/

namespace Offside

/-- Where a node stands. -/
inductive Place where
  | operand
  /-- Among the lines of a body, which may be that of a `do`. -/
  | line (sequence : Bool)

/-- The operators are known, each in its family. -/
inductive Node.WellFormed (known : Operation → String → Prop) : Place → Node → Prop where
  | comment {sequence : Bool} {text : String} : WellFormed known (.line sequence) (.comment text)
  | letValue {sequence : Bool} {name : String} {type? : Option String} {value : Node} :
      WellFormed known .operand value →
      WellFormed known (.line sequence) (.letValue name type? value)
  | dataType {sequence : Bool} {name : String} {params : List Param} {variants : List Variant} :
      variants ≠ [] → WellFormed known (.line sequence) (.dataType name params variants)
  | macroBody {sequence : Bool} {name : String} {body : List Node} :
      (∀ node ∈ body, WellFormed known (.line false) node) →
      WellFormed known (.line sequence) (.macroBody name body)
  | namedFunction {sequence : Bool} {name : String} {params : List Param}
      {returnType? : Option String} {body : List Node} :
      (∀ node ∈ body, WellFormed known (.line false) node) →
      WellFormed known (.line sequence) (.function (some name) params returnType? body)
  | bind {name : String} {value : Node} : WellFormed known .operand value →
      WellFormed known (.line true) (.bind name value)
  | result {value : Node} : WellFormed known .operand value →
      WellFormed known (.line true) (.result value)
  | expressionLine {sequence : Bool} {node : Node} : WellFormed known .operand node →
      WellFormed known (.line sequence) node
  | function {params : List Param} {returnType? : Option String} {body : List Node} :
      (∀ node ∈ body, WellFormed known (.line false) node) →
      WellFormed known .operand (.function none params returnType? body)
  | choice {scrutinee : Node} {cases : List (CasePattern × Node)} : cases ≠ [] →
      WellFormed known .operand scrutinee → (∀ entry ∈ cases, WellFormed known .operand entry.2) →
      WellFormed known .operand (.choice scrutinee cases)
  | conditional {condition : Node} {thenBody elseBody : List Node} :
      WellFormed known .operand condition →
      (∀ node ∈ thenBody, WellFormed known (.line false) node) →
      (∀ node ∈ elseBody, WellFormed known (.line false) node) →
      WellFormed known .operand (.conditional condition thenBody elseBody)
  | sequence {context : Node} {body : List Node} : body ≠ [] →
      WellFormed known .operand context → (∀ node ∈ body, WellFormed known (.line true) node) →
      WellFormed known .operand (.sequence context body)
  | call {callee : Node} {args : List Node} : WellFormed known .operand callee →
      (∀ node ∈ args, WellFormed known .operand node) →
      WellFormed known .operand (.call callee args)
  | identifier {name : String} : WellFormed known .operand (.identifier name)
  | access {target : Node} {field : String} : WellFormed known .operand target →
      WellFormed known .operand (.access target field)
  | arithmetic {operator : String} {left right : Node} : known .arithmetic operator →
      WellFormed known .operand left → WellFormed known .operand right →
      WellFormed known .operand (.arithmetic operator left right)
  | comparison {operator : String} {left right : Node} : known .comparison operator →
      WellFormed known .operand left → WellFormed known .operand right →
      WellFormed known .operand (.comparison operator left right)
  | splice {inner : Node} : WellFormed known .operand inner →
      WellFormed known .operand (.splice inner)
  | quoted {inner : Node} : WellFormed known .operand inner →
      WellFormed known .operand (.quoted inner)
  | number {value : Binary64} {text : String} : Binary64.read? text.toList = some value →
      WellFormed known .operand (.number value)
  | string {value : String} : WellFormed known .operand (.string value)
  | boolean {value : Bool} : WellFormed known .operand (.boolean value)
  | array {elements : List Node} : (∀ node ∈ elements, WellFormed known .operand node) →
      WellFormed known .operand (.array elements)
  | object {pairs : List (String × Node)} : (pairs.map (·.1)).Nodup →
      (∀ entry ∈ pairs, WellFormed known .operand entry.2) →
      WellFormed known .operand (.object pairs)

def Program.WellFormed (known : Operation → String → Prop) (program : Program) : Prop :=
  ∀ node ∈ program.body, node.WellFormed known (.line false)

namespace Grammar

variable {known : Operation → String → Prop}

theorem wellFormed_callOn {callee : Node} {waiting : List Node}
    (hcallee : callee.WellFormed known .operand)
    (hwaiting : ∀ node ∈ waiting, node.WellFormed known .operand) :
    (callOn callee waiting).WellFormed known .operand := by
  unfold callOn
  split
  · exact hcallee
  · exact .call hcallee fun node hmem => hwaiting node (List.mem_reverse.1 hmem)

theorem wellFormed_applyArguments {callee : Node} {waiting : List Node} {items : List (Option Node)}
    (hcallee : callee.WellFormed known .operand)
    (hwaiting : ∀ node ∈ waiting, node.WellFormed known .operand)
    (hitems : ∀ node, some node ∈ items → node.WellFormed known .operand) :
    (applyArguments callee waiting items).WellFormed known .operand := by
  induction items generalizing callee waiting with
  | nil => exact wellFormed_callOn hcallee hwaiting
  | cons item items ih =>
    have hrest (node : Node) (hmem : some node ∈ items) : node.WellFormed known .operand :=
      hitems node (List.mem_cons_of_mem item hmem)
    cases item with
    | none =>
      exact ih (.call (wellFormed_callOn hcallee hwaiting) (by simp)) (by simp) hrest
    | some argument =>
      exact ih hcallee (List.forall_mem_cons.2 ⟨hitems argument List.mem_cons_self, hwaiting⟩) hrest

theorem wellFormed_operation {operation : Operation} {operator : String} {left right : Node}
    (hknown : known operation operator) (hleft : left.WellFormed known .operand)
    (hright : right.WellFormed known .operand) :
    (operation.node operator left right).WellFormed known .operand := by
  cases operation with
  | arithmetic => exact .arithmetic hknown hleft hright
  | comparison => exact .comparison hknown hleft hright

theorem wellFormed_applyOperations {left : Node} {items : List (Operation × String × Node)}
    (hleft : left.WellFormed known .operand)
    (hitems : ∀ item ∈ items, known item.1 item.2.1 ∧ item.2.2.WellFormed known .operand) :
    (applyOperations left items).WellFormed known .operand := by
  induction items generalizing left with
  | nil => exact hleft
  | cons item items ih =>
    obtain ⟨⟨hknown, hright⟩, hrest⟩ := List.forall_mem_cons.1 hitems
    exact ih (wellFormed_operation hknown hleft hright) hrest

theorem wellFormed_accesses {target : Node} (fields : List String)
    (htarget : target.WellFormed known .operand) :
    (fields.foldl .access target).WellFormed known .operand := by
  induction fields generalizing target with
  | nil => exact htarget
  | cons field fields ih => exact ih (.access htarget)

theorem wellFormed_object {entries : List (String × Node)}
    (h : ∀ entry ∈ entries, entry.2.WellFormed known .operand) :
    (Node.object (entries.foldl insertPair [])).WellFormed known .operand := by
  refine .object (nodup_insertPairs (by simp) entries) fun entry hmem => ?_
  rcases mem_insertPairs hmem with hmem | hmem
  · cases hmem
  · exact h entry hmem

end Grammar

end Offside
