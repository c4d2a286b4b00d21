import Mathlib.Data.List.ReduceOption
import Offside.Proofs.Node.Pairs

/-! # The atoms of a tree

The names, literals, operators and comments of a tree from left to right. What the folds of the
grammar build has the atoms of its parts, one after the other.
-/

namespace Offside

/-- What a tree takes over from a token. -/
inductive Atom where
  /-- A name of any sort, be it of a variable, a type, a tag or a field. -/
  | name (text : String)
  | remark (text : String)
  | operator (text : String)
  | text (value : String)
  /-- The value of a numeral, if it has one. -/
  | number (value? : Option Binary64)
  | truth (value : Bool)

def typeAtoms (type? : Option String) : List Atom :=
  type?.toList.map .name

def Param.atoms (param : Param) : List Atom :=
  .name param.name :: typeAtoms param.type?

def Variant.atoms (variant : Variant) : List Atom :=
  .name variant.name :: variant.fields.flatMap Param.atoms

def CasePattern.atoms (pattern : CasePattern) : List Atom :=
  .name pattern.tag :: pattern.bound.map .name

namespace Node

mutual

def atoms : Node → List Atom
  | comment text => [.remark text]
  | letValue name type? value => .name name :: typeAtoms type? ++ atoms value
  | dataType name params variants =>
    .name name :: params.flatMap Param.atoms ++ variants.flatMap Variant.atoms
  | macroBody name body => .name name :: allAtoms body
  | bind name value => .name name :: atoms value
  | result value => atoms value
  | function name? params returnType? body =>
    name?.toList.map .name ++ params.flatMap Param.atoms ++ typeAtoms returnType? ++ allAtoms body
  | choice scrutinee cases => atoms scrutinee ++ caseAtoms cases
  | conditional condition thenBody elseBody =>
    atoms condition ++ allAtoms thenBody ++ allAtoms elseBody
  | sequence context body => atoms context ++ allAtoms body
  | call callee args => atoms callee ++ allAtoms args
  | identifier name => [.name name]
  | access target field => atoms target ++ [.name field]
  | arithmetic operator left right => atoms left ++ .operator operator :: atoms right
  | comparison operator left right => atoms left ++ .operator operator :: atoms right
  | splice inner => atoms inner
  | quoted inner => atoms inner
  | number value => [.number (some value)]
  | string value => [.text value]
  | boolean value => [.truth value]
  | array elements => allAtoms elements
  | object pairs => pairAtoms pairs

def allAtoms : List Node → List Atom
  | [] => []
  | node :: rest => atoms node ++ allAtoms rest

def caseAtoms : List (CasePattern × Node) → List Atom
  | [] => []
  | (pattern, body) :: rest => pattern.atoms ++ atoms body ++ caseAtoms rest

def pairAtoms : List (String × Node) → List Atom
  | [] => []
  | (key, value) :: rest => .name key :: atoms value ++ pairAtoms rest

end

theorem allAtoms_append (nodes others : List Node) :
    allAtoms (nodes ++ others) = allAtoms nodes ++ allAtoms others := by
  induction nodes with
  | nil => rfl
  | cons node nodes ih => simp only [List.cons_append, allAtoms, ih, List.append_assoc]

@[simp] theorem allAtoms_singleton (node : Node) : allAtoms [node] = node.atoms := by
  simp only [allAtoms, List.append_nil]

end Node

def Program.atoms (program : Program) : List Atom :=
  Node.allAtoms program.body

namespace Grammar

open Node

def operationAtoms (items : List (Operation × String × Node)) : List Atom :=
  items.flatMap fun (_, operator, right) => .operator operator :: right.atoms

theorem atoms_operation (operation : Operation) (operator : String) (left right : Node) :
    (operation.node operator left right).atoms =
      left.atoms ++ .operator operator :: right.atoms := by
  cases operation with
  | arithmetic => simp only [Operation.node, atoms]
  | comparison => simp only [Operation.node, atoms]

theorem atoms_applyOperations (left : Node) (items : List (Operation × String × Node)) :
    (applyOperations left items).atoms = left.atoms ++ operationAtoms items := by
  induction items generalizing left with
  | nil => exact (List.append_nil _).symm
  | cons item items ih =>
    change (applyOperations (item.1.node item.2.1 left item.2.2) items).atoms = _
    rw [ih, atoms_operation]
    simp only [operationAtoms, List.flatMap_cons, List.append_assoc]

theorem atoms_callOn (callee : Node) (waiting : List Node) :
    (callOn callee waiting).atoms = callee.atoms ++ allAtoms waiting.reverse := by
  unfold callOn
  split
  · next h => simp only [List.isEmpty_iff.1 h, List.reverse_nil, allAtoms, List.append_nil]
  · simp only [atoms]

theorem atoms_applyArguments (callee : Node) (waiting : List Node) (items : List (Option Node)) :
    (applyArguments callee waiting items).atoms =
      callee.atoms ++ allAtoms waiting.reverse ++ allAtoms items.reduceOption := by
  induction items generalizing callee waiting with
  | nil =>
    simp only [applyArguments, atoms_callOn, List.reduceOption_nil, allAtoms, List.append_nil]
  | cons item items ih =>
    cases item with
    | none =>
      simp only [applyArguments, ih, atoms, atoms_callOn, List.reduceOption_cons_of_none,
        List.reverse_nil, allAtoms, List.append_nil]
    | some argument =>
      simp only [applyArguments, ih, List.reduceOption_cons_of_some, List.reverse_cons,
        allAtoms_append, allAtoms, List.append_nil, List.append_assoc]

theorem atoms_accesses (target : Node) (fields : List String) :
    (fields.foldl .access target).atoms = target.atoms ++ fields.map .name := by
  induction fields generalizing target with
  | nil => exact (List.append_nil _).symm
  | cons field fields ih =>
    simp only [List.foldl_cons, ih, atoms, List.map_cons, List.append_assoc, List.singleton_append]

/-- An object loses none of its pairs if their keys are distinct. -/
theorem atoms_object {entries : List (String × Node)} (h : (entries.map (·.1)).Nodup) :
    (Node.object (entries.foldl insertPair [])).atoms = pairAtoms entries := by
  rw [insertPairs_of_nodup h, atoms]

end Grammar

end Offside
