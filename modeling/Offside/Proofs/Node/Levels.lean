import Offside.Proofs.Node.Print

/-! # Levels of a tree

How many levels are open at once while a printed tree is read. A tree nested deeper than another
needs more of them, however long the two are, and there is never more than one more than symbols.
-/

namespace Offside

namespace Node

mutual

/-- The levels for what is printed for a node. -/
def levels : Node → Nat
  | comment _ | dataType .. => 0
  | letValue _ _ value | bind _ value | result value => levels value + 1
  | macroBody _ body | function (some _) _ _ body => lineLevels body + 1
  | function none _ _ body => lineLevels body + 2
  | choice scrutinee cases => max (levels scrutinee + 1) (caseLevels cases) + 1
  | conditional condition thenBody elseBody =>
    max (levels condition + 1) (max (lineLevels thenBody + 1) (lineLevels elseBody + 1)) + 2
  | sequence context body => max (levels context + 1) (lineLevels body + 1) + 1
  | call callee args => max (levels callee) (partLevels args) + 1
  | identifier _ => 1
  | access target _ => levels target + 1
  | arithmetic _ left right | comparison _ left right => max (levels left) (levels right + 1) + 1
  | splice inner => levels inner + 2
  | quoted inner => levels inner + 3
  | number _ | string _ | boolean _ => 2
  | array elements => partLevels elements + 2
  | object pairs => pairLevels pairs + 2

/-- The levels for parts that stand in parentheses. -/
def partLevels : List Node → Nat
  | [] => 0
  | node :: rest => max (levels node + 1) (partLevels rest)

def lineLevels : List Node → Nat
  | [] => 0
  | node :: rest => max (levels node + if node.isDeclaration then 0 else 1) (lineLevels rest)

def caseLevels : List (CasePattern × Node) → Nat
  | [] => 0
  | (_, body) :: rest => max (levels body + 1) (caseLevels rest)

def pairLevels : List (String × Node) → Nat
  | [] => 0
  | (_, value) :: rest => max (levels value + 1) (pairLevels rest)

end

variable {room : Nat}

theorem partLevels_le_iff {nodes : List Node} :
    partLevels nodes ≤ room ↔ ∀ node ∈ nodes, node.levels + 1 ≤ room := by
  induction nodes with
  | nil => simp [partLevels]
  | cons node nodes ih => rw [partLevels, Nat.max_le, ih, List.forall_mem_cons]

theorem caseLevels_le_iff {cases : List (CasePattern × Node)} :
    caseLevels cases ≤ room ↔ ∀ entry ∈ cases, entry.2.levels + 1 ≤ room := by
  induction cases with
  | nil => simp [caseLevels]
  | cons entry cases ih => rw [caseLevels, Nat.max_le, ih, List.forall_mem_cons]

theorem pairLevels_le_iff {pairs : List (String × Node)} :
    pairLevels pairs ≤ room ↔ ∀ entry ∈ pairs, entry.2.levels + 1 ≤ room := by
  induction pairs with
  | nil => simp [pairLevels]
  | cons entry pairs ih => rw [pairLevels, Nat.max_le, ih, List.forall_mem_cons]

/-- The levels for a line. An expression that is a line stands in parentheses. -/
def levelsOfLine (node : Node) : Nat :=
  node.levels + if node.isDeclaration then 0 else 1

theorem lineLevels_le_iff {nodes : List Node} :
    lineLevels nodes ≤ room ↔ ∀ node ∈ nodes, node.levelsOfLine ≤ room := by
  induction nodes with
  | nil => simp [lineLevels]
  | cons node nodes ih => rw [lineLevels, Nat.max_le, ih, List.forall_mem_cons, levelsOfLine]

end Node

/-! ## Levels against symbols -/

@[simp] theorem length_parenthesized (symbols : List Symbol) :
    (parenthesized symbols).length = symbols.length + 2 := by
  simp [parenthesized]

@[simp] theorem length_indented (lines : List (List Symbol)) :
    (indented lines).length = (separate .terminator lines).length + 2 := by
  simp [indented]

theorem length_le_separate {separator : Kind} {parts : List (List Symbol)} {part : List Symbol}
    (h : part ∈ parts) : part.length ≤ (separate separator parts).length := by
  fun_induction separate separator parts with
  | case1 => cases h
  | case2 first => exact Nat.le_of_eq (congrArg List.length (List.mem_singleton.1 h))
  | case3 first rest _ ih =>
    rw [List.length_append, List.length_cons]
    rcases List.mem_cons.1 h with rfl | h
    · omega
    · have := ih h
      omega

theorem length_le_arguments {args : List (List Symbol)} {arg : List Symbol} (h : arg ∈ args) :
    arg.length + 2 ≤ (arguments args).length := by
  have hmem : parenthesized arg ∈ args.map parenthesized := List.mem_map_of_mem h
  have hsub := (List.sublist_flatten_of_mem hmem).length_le
  rw [length_parenthesized] at hsub
  unfold arguments
  split
  · cases h
  · rwa [List.flatMap_def]

namespace Node

/-- No more levels than symbols, up to one. -/
def Bounded (node : Node) : Prop :=
  node.levels ≤ node.print.length + 1

variable {nodes : List Node}

theorem Bounded.line {node : Node} (h : node.Bounded) :
    node.levelsOfLine ≤ node.printLine.length + 1 := by
  unfold Bounded at h
  unfold levelsOfLine printLine
  split
  · exact h
  · rw [length_parenthesized]
    omega

theorem lineLevels_le_length (h : ∀ node ∈ nodes, node.Bounded) :
    lineLevels nodes ≤ (separate .terminator (printLines nodes)).length + 1 := by
  rw [lineLevels_le_iff, printLines_eq_map]
  intro node hmem
  have hmap : node.printLine ∈ nodes.map printLine := List.mem_map_of_mem hmem
  exact Nat.le_trans (h node hmem).line (Nat.succ_le_succ (length_le_separate hmap))

theorem partLevels_le_length (h : ∀ node ∈ nodes, node.Bounded) :
    partLevels nodes ≤ (separate .comma ((printAll nodes).map parenthesized)).length := by
  rw [partLevels_le_iff, printAll_eq_map]
  intro node hmem
  have hnode : node.levels ≤ node.print.length + 1 := h node hmem
  have hmap : parenthesized node.print ∈ (nodes.map print).map parenthesized :=
    List.mem_map_of_mem (List.mem_map_of_mem hmem)
  have hlength := @length_le_separate .comma _ _ hmap
  rw [length_parenthesized] at hlength
  omega

theorem partLevels_le_arguments (h : ∀ node ∈ nodes, node.Bounded) :
    partLevels nodes ≤ (Offside.arguments (printAll nodes)).length := by
  rw [partLevels_le_iff, printAll_eq_map]
  intro node hmem
  have hnode : node.levels ≤ node.print.length + 1 := h node hmem
  have hmap : node.print ∈ nodes.map print := List.mem_map_of_mem hmem
  have hlength := length_le_arguments hmap
  omega

theorem caseLevels_le_length {cases : List (CasePattern × Node)}
    (h : ∀ entry ∈ cases, entry.2.Bounded) :
    caseLevels cases ≤ (separate .terminator (printCases cases)).length := by
  rw [caseLevels_le_iff, printCases_eq_map]
  intro entry hmem
  have hnode : entry.2.levels ≤ entry.2.print.length + 1 := h entry hmem
  have hmap : printCase entry ∈ cases.map printCase := List.mem_map_of_mem hmem
  have hlength := @length_le_separate .terminator _ _ hmap
  simp only [printCase, List.cons_append, List.length_cons, List.length_append,
    length_parenthesized] at hlength
  omega

theorem pairLevels_le_length {pairs : List (String × Node)}
    (h : ∀ entry ∈ pairs, entry.2.Bounded) :
    pairLevels pairs ≤ (separate .comma (printPairs pairs)).length := by
  rw [pairLevels_le_iff, printPairs_eq_map]
  intro entry hmem
  have hnode : entry.2.levels ≤ entry.2.print.length + 1 := h entry hmem
  have hmap : printPair entry ∈ pairs.map printPair := List.mem_map_of_mem hmem
  have hlength := @length_le_separate .comma _ _ hmap
  simp only [printPair, List.length_cons, length_parenthesized] at hlength
  omega

mutual

theorem bounded (node : Node) : node.Bounded := by
  unfold Bounded
  match node with
  | comment _ | dataType .. => exact Nat.zero_le _
  | identifier _ => exact Nat.succ_le_succ (Nat.zero_le _)
  | number _ | string _ | boolean _ => exact Nat.le_refl 2
  | letValue _ _ value | bind _ value | result value | access value _ | splice value
  | quoted value =>
    have hvalue : value.levels ≤ value.print.length + 1 := bounded value
    simp only [levels, print, List.length_append, List.length_cons, List.length_nil,
      length_parenthesized]
    omega
  | macroBody _ body | function (some _) _ _ body | function none _ _ body =>
    have hbody := lineLevels_le_length (bounded_of_mem body)
    simp only [levels, print, List.length_append, List.length_cons, length_indented]
    omega
  | choice scrutinee cases =>
    have hscrutinee : scrutinee.levels ≤ scrutinee.print.length + 1 := bounded scrutinee
    have hcases := caseLevels_le_length (bounded_of_mem_cases cases)
    simp only [levels, print, List.length_append, List.length_cons, length_parenthesized,
      length_indented]
    omega
  | conditional condition thenBody elseBody =>
    have hcondition : condition.levels ≤ condition.print.length + 1 := bounded condition
    have hthen := lineLevels_le_length (bounded_of_mem thenBody)
    have helse := lineLevels_le_length (bounded_of_mem elseBody)
    simp only [levels, print, List.length_append, List.length_cons, length_parenthesized,
      length_indented]
    omega
  | sequence context body =>
    have hcontext : context.levels ≤ context.print.length + 1 := bounded context
    have hbody := lineLevels_le_length (bounded_of_mem body)
    simp only [levels, print, List.length_append, List.length_cons, List.length_nil,
      length_parenthesized, length_indented]
    omega
  | call callee args =>
    have hcallee : callee.levels ≤ callee.print.length + 1 := bounded callee
    have hargs := partLevels_le_arguments (bounded_of_mem args)
    simp only [levels, print, List.length_append, length_parenthesized]
    omega
  | arithmetic _ left right | comparison _ left right =>
    have hleft : left.levels ≤ left.print.length + 1 := bounded left
    have hright : right.levels ≤ right.print.length + 1 := bounded right
    simp only [levels, print, List.length_append, List.length_cons, length_parenthesized]
    omega
  | array elements =>
    have helements := partLevels_le_length (bounded_of_mem elements)
    simp only [levels, print, List.length_append, List.length_cons, List.length_nil]
    omega
  | object pairs =>
    have hpairs := pairLevels_le_length (bounded_of_mem_pairs pairs)
    simp only [levels, print, List.length_append, List.length_cons, List.length_nil]
    omega

theorem bounded_of_mem (nodes : List Node) : ∀ node ∈ nodes, node.Bounded := by
  match nodes with
  | [] => exact List.forall_mem_nil _
  | node :: rest => exact List.forall_mem_cons.2 ⟨bounded node, bounded_of_mem rest⟩

theorem bounded_of_mem_cases (cases : List (CasePattern × Node)) :
    ∀ entry ∈ cases, entry.2.Bounded := by
  match cases with
  | [] => exact List.forall_mem_nil _
  | (_, body) :: rest =>
    exact List.forall_mem_cons.2 ⟨bounded body, bounded_of_mem_cases rest⟩

theorem bounded_of_mem_pairs (pairs : List (String × Node)) :
    ∀ entry ∈ pairs, entry.2.Bounded := by
  match pairs with
  | [] => exact List.forall_mem_nil _
  | (_, value) :: rest =>
    exact List.forall_mem_cons.2 ⟨bounded value, bounded_of_mem_pairs rest⟩

end

end Node

namespace Program

/-- The levels for a whole program. -/
def levels (program : Program) : Nat :=
  Node.lineLevels program.body

theorem levels_le_length (program : Program) : program.levels ≤ program.print.length + 1 := by
  unfold levels print
  rw [← Node.printLines_eq_map]
  exact Node.lineLevels_le_length (Node.bounded_of_mem program.body)

end Program

end Offside
