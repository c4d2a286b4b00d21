import Mathlib.Data.List.ReduceOption
import Mathlib.Logic.Function.Basic
import Offside.Parsing

/-! # Renamed trees

A tree with another text for each name, operator, comment and string in it. Whatever the grammar
folds into a tree can be renamed before or after, as long as different keys stay different.
-/

namespace Offside

variable (g : String → String)

def Param.rename (param : Param) : Param :=
  ⟨g param.name, param.type?.map g⟩

def Variant.rename (variant : Variant) : Variant :=
  ⟨g variant.name, variant.fields.map (Param.rename g)⟩

def CasePattern.rename (pattern : CasePattern) : CasePattern :=
  ⟨g pattern.tag, pattern.bound.map g⟩

namespace Node

mutual

def rename : Node → Node
  | comment text => comment (g text)
  | letValue name type? value => letValue (g name) (type?.map g) (rename value)
  | dataType name params variants =>
    dataType (g name) (params.map (Param.rename g)) (variants.map (Variant.rename g))
  | macroBody name body => macroBody (g name) (renameAll body)
  | bind name value => bind (g name) (rename value)
  | result value => result (rename value)
  | function name? params returnType? body =>
    function (name?.map g) (params.map (Param.rename g)) (returnType?.map g) (renameAll body)
  | choice scrutinee cases => choice (rename scrutinee) (renameCases cases)
  | conditional condition thenBody elseBody =>
    conditional (rename condition) (renameAll thenBody) (renameAll elseBody)
  | sequence context body => sequence (rename context) (renameAll body)
  | call callee args => call (rename callee) (renameAll args)
  | identifier name => identifier (g name)
  | access target field => access (rename target) (g field)
  | arithmetic operator left right => arithmetic (g operator) (rename left) (rename right)
  | comparison operator left right => comparison (g operator) (rename left) (rename right)
  | splice inner => splice (rename inner)
  | quoted inner => quoted (rename inner)
  | number value => number value
  | string value => string (g value)
  | boolean value => boolean value
  | array elements => array (renameAll elements)
  | object pairs => object (renamePairs pairs)

def renameAll : List Node → List Node
  | [] => []
  | node :: rest => rename node :: renameAll rest

def renameCases : List (CasePattern × Node) → List (CasePattern × Node)
  | [] => []
  | (pattern, body) :: rest => (pattern.rename g, rename body) :: renameCases rest

def renamePairs : List (String × Node) → List (String × Node)
  | [] => []
  | (key, value) :: rest => (g key, rename value) :: renamePairs rest

end

def renameCase (entry : CasePattern × Node) : CasePattern × Node :=
  (entry.1.rename g, entry.2.rename g)

def renamePair (entry : String × Node) : String × Node :=
  (g entry.1, entry.2.rename g)

theorem renameAll_eq_map (nodes : List Node) : renameAll g nodes = nodes.map (rename g) := by
  induction nodes with
  | nil => rfl
  | cons node nodes ih => rw [renameAll, ih, List.map_cons]

theorem renameCases_eq_map (cases : List (CasePattern × Node)) :
    renameCases g cases = cases.map (renameCase g) := by
  induction cases with
  | nil => rfl
  | cons entry cases ih => rw [renameCases, ih, List.map_cons, renameCase]

theorem renamePairs_eq_map (pairs : List (String × Node)) :
    renamePairs g pairs = pairs.map (renamePair g) := by
  induction pairs with
  | nil => rfl
  | cons entry pairs ih => rw [renamePairs, ih, List.map_cons, renamePair]

end Node

def Program.rename (program : Program) : Program :=
  ⟨program.body.map (Node.rename g)⟩

namespace Grammar

open Node

def renameOperation (item : Operation × String × Node) : Operation × String × Node :=
  (item.1, g item.2.1, item.2.2.rename g)

theorem rename_operation (operation : Operation) (operator : String) (left right : Node) :
    (operation.node operator left right).rename g =
      operation.node (g operator) (left.rename g) (right.rename g) := by
  cases operation with
  | arithmetic => simp only [Operation.node, rename]
  | comparison => simp only [Operation.node, rename]

theorem rename_applyOperations (left : Node) (items : List (Operation × String × Node)) :
    (applyOperations left items).rename g =
      applyOperations (left.rename g) (items.map (renameOperation g)) := by
  induction items generalizing left with
  | nil => rfl
  | cons item items ih =>
    change (applyOperations (item.1.node item.2.1 left item.2.2) items).rename g = _
    rw [ih, rename_operation]
    rfl

theorem rename_callOn (callee : Node) (waiting : List Node) :
    (callOn callee waiting).rename g = callOn (callee.rename g) (waiting.map (rename g)) := by
  unfold callOn
  rw [List.isEmpty_map]
  split
  · rfl
  · rw [rename, renameAll_eq_map, List.map_reverse]

theorem rename_applyArguments (callee : Node) (waiting : List Node) (items : List (Option Node)) :
    (applyArguments callee waiting items).rename g =
      applyArguments (callee.rename g) (waiting.map (rename g))
        (items.map (Option.map (rename g))) := by
  induction items generalizing callee waiting with
  | nil => exact rename_callOn g callee waiting
  | cons item items ih =>
    cases item with
    | none =>
      rw [applyArguments, ih, rename, rename_callOn]
      rfl
    | some argument =>
      rw [applyArguments, ih]
      rfl

theorem rename_accesses (target : Node) (fields : List String) :
    (fields.foldl .access target).rename g = (fields.map g).foldl .access (target.rename g) := by
  induction fields generalizing target with
  | nil => rfl
  | cons field fields ih => rw [List.foldl_cons, ih, rename, List.map_cons, List.foldl_cons]

variable {g}

/-- Different keys have different new texts, so a pair goes to the same place. -/
theorem map_insertPair (hg : Function.Injective g) (pairs : List (String × Node))
    (entry : String × Node) :
    (insertPair pairs entry).map (renamePair g) =
      insertPair (pairs.map (renamePair g)) (renamePair g entry) := by
  induction pairs with
  | nil => rfl
  | cons first rest ih =>
    have hkeys : (renamePair g first).1 = (renamePair g entry).1 ↔ first.1 = entry.1 := hg.eq_iff
    rw [insertPair, List.map_cons, insertPair]
    simp only [hkeys]
    split
    · rw [List.map_cons]
    · rw [List.map_cons, ih]

theorem rename_object (hg : Function.Injective g) (entries : List (String × Node)) :
    (Node.object (entries.foldl insertPair [])).rename g =
      .object ((entries.map (renamePair g)).foldl insertPair []) := by
  have hfold (pairs : List (String × Node)) :
      (entries.foldl insertPair pairs).map (renamePair g) =
        (entries.map (renamePair g)).foldl insertPair (pairs.map (renamePair g)) := by
    induction entries generalizing pairs with
    | nil => rfl
    | cons entry entries ih =>
      rw [List.foldl_cons, ih, map_insertPair hg, List.map_cons, List.foldl_cons]
  rw [rename, renamePairs_eq_map, hfold, List.map_nil]

end Grammar

end Offside
