import Offside.Proofs.Node.Pairs

/-! # Height of a tree

The longest chain of nested nodes. The loops of the grammar put what was read so far into a new
node, as its left operand, callee or target. What such a step counts for is a parameter: it counts
for one like every other step in the height, and for nothing in the nesting.
-/

namespace Offside

namespace Node

mutual

/-- The longest chain of nested nodes, where the step to a left operand, a callee or a target counts
for a given number. -/
def heightBy (spine : Nat) : Node → Nat
  | comment _ | dataType .. | identifier _ | number _ | string _ | boolean _ => 1
  | letValue _ _ value | bind _ value | result value | splice value | quoted value =>
    heightBy spine value + 1
  | macroBody _ body | function _ _ _ body => heightsBy spine body + 1
  | choice scrutinee cases => max (heightBy spine scrutinee) (caseHeightsBy spine cases) + 1
  | conditional condition thenBody elseBody =>
    max (heightBy spine condition) (max (heightsBy spine thenBody) (heightsBy spine elseBody)) + 1
  | sequence context body => max (heightBy spine context) (heightsBy spine body) + 1
  | call callee args => max (heightBy spine callee + spine) (heightsBy spine args + 1)
  | access target _ => heightBy spine target + spine
  | arithmetic _ left right | comparison _ left right =>
    max (heightBy spine left + spine) (heightBy spine right + 1)
  | array elements => heightsBy spine elements + 1
  | object pairs => pairHeightsBy spine pairs + 1

def heightsBy (spine : Nat) : List Node → Nat
  | [] => 0
  | node :: rest => max (heightBy spine node) (heightsBy spine rest)

def caseHeightsBy (spine : Nat) : List (CasePattern × Node) → Nat
  | [] => 0
  | (_, body) :: rest => max (heightBy spine body) (caseHeightsBy spine rest)

def pairHeightsBy (spine : Nat) : List (String × Node) → Nat
  | [] => 0
  | (_, value) :: rest => max (heightBy spine value) (pairHeightsBy spine rest)

end

/-- The longest chain of nested nodes. -/
def height (node : Node) : Nat :=
  node.heightBy 1

/-- The longest chain of nested nodes, without the steps to left operands, callees and targets. -/
def nesting (node : Node) : Nat :=
  node.heightBy 0

variable {spine bound : Nat}

theorem heightsBy_le_iff {nodes : List Node} :
    heightsBy spine nodes ≤ bound ↔ ∀ node ∈ nodes, node.heightBy spine ≤ bound := by
  induction nodes with
  | nil => simp [heightsBy]
  | cons node nodes ih => rw [heightsBy, Nat.max_le, ih, List.forall_mem_cons]

theorem caseHeightsBy_le_iff {cases : List (CasePattern × Node)} :
    caseHeightsBy spine cases ≤ bound ↔ ∀ entry ∈ cases, entry.2.heightBy spine ≤ bound := by
  induction cases with
  | nil => simp [caseHeightsBy]
  | cons entry cases ih => rw [caseHeightsBy, Nat.max_le, ih, List.forall_mem_cons]

theorem pairHeightsBy_le_iff {pairs : List (String × Node)} :
    pairHeightsBy spine pairs ≤ bound ↔ ∀ entry ∈ pairs, entry.2.heightBy spine ≤ bound := by
  induction pairs with
  | nil => simp [pairHeightsBy]
  | cons entry pairs ih => rw [pairHeightsBy, Nat.max_le, ih, List.forall_mem_cons]

/-- Each field counts for a step of the spine. -/
theorem heightBy_accesses (target : Node) (fields : List String) :
    (fields.foldl .access target).heightBy spine =
      target.heightBy spine + fields.length * spine := by
  induction fields generalizing target with
  | nil => simp
  | cons field fields ih =>
    rw [List.foldl_cons, ih, heightBy, List.length_cons, Nat.succ_mul]
    omega

end Node

/-! ## Nesting of what the folds build -/

namespace Grammar

variable {bound : Nat}

theorem nesting_accesses (target : Node) (fields : List String) :
    (fields.foldl .access target).nesting = target.nesting := by
  rw [Node.nesting, Node.heightBy_accesses, Nat.mul_zero]
  rfl

theorem nesting_callOn_le {callee : Node} {waiting : List Node} (hcallee : callee.nesting ≤ bound)
    (hwaiting : ∀ node ∈ waiting, node.nesting < bound) :
    (callOn callee waiting).nesting ≤ bound := by
  unfold callOn
  split
  · exact hcallee
  · next hne =>
    obtain ⟨first, more, rfl⟩ := List.exists_cons_of_ne_nil (mt List.isEmpty_iff.2 hne)
    have hfirst := hwaiting first List.mem_cons_self
    have hargs : Node.heightsBy 0 (first :: more).reverse ≤ bound - 1 :=
      Node.heightsBy_le_iff.2 fun node hmem =>
        Nat.le_sub_one_of_lt (hwaiting node (List.mem_reverse.1 hmem))
    rw [Node.nesting, Node.heightBy, Nat.max_le]
    exact ⟨hcallee, by omega⟩

theorem nesting_applyArguments_le {callee : Node} {waiting : List Node}
    {items : List (Option Node)} (hpos : 0 < bound) (hcallee : callee.nesting ≤ bound)
    (hwaiting : ∀ node ∈ waiting, node.nesting < bound)
    (hitems : ∀ node, some node ∈ items → node.nesting < bound) :
    (applyArguments callee waiting items).nesting ≤ bound := by
  induction items generalizing callee waiting with
  | nil => exact nesting_callOn_le hcallee hwaiting
  | cons item items ih =>
    have hrest (node : Node) (hmem : some node ∈ items) : node.nesting < bound :=
      hitems node (List.mem_cons_of_mem item hmem)
    cases item with
    | none =>
      refine ih ?_ (List.forall_mem_nil _) hrest
      have hcall := nesting_callOn_le hcallee hwaiting
      rw [Node.nesting, Node.heightBy, Nat.max_le]
      exact ⟨hcall, hpos⟩
    | some argument =>
      exact ih hcallee (List.forall_mem_cons.2 ⟨hitems argument List.mem_cons_self, hwaiting⟩) hrest

theorem nesting_operation_le (operation : Operation) (operator : String) {left right : Node}
    (hleft : left.nesting ≤ bound) (hright : right.nesting < bound) :
    (operation.node operator left right).nesting ≤ bound := by
  have heq : (operation.node operator left right).nesting =
      max (left.nesting + 0) (right.nesting + 1) := by
    cases operation <;> exact Node.heightBy.eq_def 0 _
  rw [heq]
  exact Nat.max_le.2 ⟨hleft, hright⟩

theorem nesting_applyOperations_le {left : Node} {items : List (Operation × String × Node)}
    (hleft : left.nesting ≤ bound) (hitems : ∀ item ∈ items, item.2.2.nesting < bound) :
    (applyOperations left items).nesting ≤ bound := by
  induction items generalizing left with
  | nil => exact hleft
  | cons item items ih =>
    obtain ⟨operation, operator, right⟩ := item
    obtain ⟨hright, hrest⟩ := List.forall_mem_cons.1 hitems
    exact ih (nesting_operation_le operation operator hleft hright) hrest

theorem nesting_object_le {entries : List (String × Node)}
    (h : ∀ entry ∈ entries, entry.2.nesting ≤ bound) :
    (Node.object (entries.foldl insertPair [])).nesting ≤ bound + 1 := by
  refine Nat.succ_le_succ (Node.pairHeightsBy_le_iff.2 fun entry hmem => ?_)
  rcases mem_insertPairs hmem with hmem | hmem
  · cases hmem
  · exact h entry hmem

end Grammar

end Offside
