import Mathlib.Data.List.TakeWhile
import Offside.Grammar.Expressions

/-! # Operator chains

The tree of a chain of operands with operators between them. Its root is the rightmost of the
operators that bind loosest, and the parts of the chain before and behind it are its children.
-/

namespace Offside

namespace Kind

/-- How tightly the operators of a kind bind. -/
def tightness : Kind → Nat
  | compare => 1
  | plus | dash => 2
  | math => 3
  | _ => 0

/-- The kinds of operators. -/
def operators : List Kind :=
  [compare, plus, dash, math]

theorem tightness_le (kind : Kind) : kind.tightness ≤ 3 := by
  cases kind <;> decide

/-- A comparison, or the node of an operator on numbers. -/
def join (kind : Kind) (operator : String) (left right : Node) : Node :=
  if kind = compare then .comparison operator left right else .arithmetic operator left right

end Kind

/-- An operator with the operand behind it: the tokens it is written with, and its tree. -/
structure Link where
  operator : Token
  operand : List Token
  node : Node

namespace Link

def tightness (link : Link) : Nat :=
  link.operator.kind.tightness

def join (link : Link) (left right : Node) : Node :=
  link.operator.kind.join link.operator.value left right

def tokens (link : Link) : List Token :=
  link.operator :: link.operand

/-- A chain split at the rightmost of its loosest operators. -/
def split? : List Link → Option (List Link × Link × List Link)
  | [] => none
  | link :: rest =>
    match split? rest with
    | some (before, root, after) =>
      if root.tightness ≤ link.tightness then some (link :: before, root, after)
      else some ([], link, rest)
    | none => some ([], link, rest)

/-- No operator before the root binds looser, and each one behind it binds tighter. -/
structure SplitAt (links before : List Link) (root : Link) (after : List Link) : Prop where
  eq : links = before ++ root :: after
  le : ∀ link ∈ before, root.tightness ≤ link.tightness
  lt : ∀ link ∈ after, root.tightness < link.tightness

variable {links before after : List Link} {root link : Link}

theorem eq_nil_of_split? (h : split? links = none) : links = [] := by
  cases links with
  | nil => rfl
  | cons link rest =>
    rw [split?] at h
    split at h
    · split at h <;> cases h
    · cases h

theorem splitAt_of_split? (h : split? links = some (before, root, after)) :
    SplitAt links before root after := by
  induction links generalizing before root after with
  | nil => cases h
  | cons link rest ih =>
    rw [split?] at h
    cases hrest : split? rest with
    | none =>
      rw [hrest] at h
      cases h
      obtain rfl := eq_nil_of_split? hrest
      exact ⟨rfl, List.forall_mem_nil _, List.forall_mem_nil _⟩
    | some found =>
      obtain ⟨before', root', after'⟩ := found
      obtain ⟨rfl, hle, hlt⟩ := ih hrest
      rw [hrest] at h
      dsimp only at h
      split at h
      · next hroot =>
        cases h
        exact ⟨rfl, List.forall_mem_cons.2 ⟨hroot, hle⟩, hlt⟩
      · next hroot =>
        cases h
        refine ⟨rfl, List.forall_mem_nil _, ?_⟩
        rw [List.forall_mem_append, List.forall_mem_cons]
        refine ⟨fun other hmem => ?_, by omega, fun other hmem => ?_⟩
        · have := hle other hmem
          omega
        · have := hlt other hmem
          omega

/-- There is no other place to split a chain at. -/
theorem split?_of_splitAt (h : SplitAt links before root after) :
    split? links = some (before, root, after) := by
  obtain ⟨rfl, hle, hlt⟩ := h
  induction before with
  | nil =>
    rw [List.nil_append, split?]
    cases hafter : split? after with
    | none => rfl
    | some found =>
      obtain ⟨before', root', after'⟩ := found
      have hroot := hlt root' (by simp [(splitAt_of_split? hafter).eq])
      exact if_neg (by omega)
  | cons link before ih =>
    rw [List.forall_mem_cons] at hle
    rw [List.cons_append, split?, ih hle.2]
    exact if_pos hle.1

end Link

/-- The tree of an operand and of the links behind it. -/
def chainTree (first : Node) (links : List Link) : Node :=
  match _h : Link.split? links with
  | none => first
  | some (before, root, after) => root.join (chainTree first before) (chainTree root.node after)
termination_by links.length
decreasing_by
  all_goals
    rw [(Link.splitAt_of_split? _h).eq, List.length_append, List.length_cons]
    omega

theorem chainTree_nil (first : Node) : chainTree first [] = first := by
  rw [chainTree]
  rfl

theorem chainTree_split {links before after : List Link} {root : Link}
    (h : Link.SplitAt links before root after) (first : Node) :
    chainTree first links = root.join (chainTree first before) (chainTree root.node after) := by
  rw [chainTree]
  split
  · next hnone => simp [Link.split?_of_splitAt h] at hnone
  · next before' root' after' hsome =>
    rw [Link.split?_of_splitAt h] at hsome
    cases hsome
    rfl

/-- An operator takes what binds tighter behind it and what stands before it, and the chain goes on
with its node as the first operand. -/
theorem chainTree_cons {link : Link} {inside outside : List Link}
    (hinside : ∀ other ∈ inside, link.tightness < other.tightness)
    (houtside : ∀ other ∈ outside.head?, other.tightness ≤ link.tightness) (first : Node) :
    chainTree first (link :: inside ++ outside) =
      chainTree (link.join first (chainTree link.node inside)) outside := by
  induction hlength : outside.length using Nat.strong_induction_on generalizing outside with
  | h length ih =>
    subst hlength
    cases hsplit : Link.split? outside with
    | none =>
      have halone : Link.SplitAt (link :: inside) [] link inside :=
        ⟨rfl, List.forall_mem_nil _, hinside⟩
      rw [Link.eq_nil_of_split? hsplit, List.append_nil, chainTree_split halone, chainTree_nil,
        chainTree_nil]
    | some found =>
      obtain ⟨before, root, after⟩ := found
      have hsplits := Link.splitAt_of_split? hsplit
      obtain ⟨rfl, hle, hlt⟩ := hsplits
      -- The root of what lies outside is the root of the whole chain.
      have hroot : root.tightness ≤ link.tightness := by
        cases before with
        | nil => exact houtside root rfl
        | cons next more =>
          exact Nat.le_trans (hle next List.mem_cons_self) (houtside next rfl)
      have hwhole : Link.SplitAt (link :: inside ++ (before ++ root :: after))
          (link :: inside ++ before) root after := by
        refine ⟨by simp, ?_, hlt⟩
        rw [List.forall_mem_append, List.forall_mem_cons]
        exact ⟨⟨hroot, fun other hmem => by have := hinside other hmem; omega⟩, hle⟩
      have hbefore : ∀ other ∈ before.head?, other.tightness ≤ link.tightness := by
        cases before with
        | nil => exact nofun
        | cons next more => exact houtside
      rw [chainTree_split hwhole, chainTree_split ⟨rfl, hle, hlt⟩,
        ih before.length (by simp) hbefore rfl]

namespace Link

/-- The links up to the first one that does not bind tighter than a power. -/
def tighter (power : Nat) (links : List Link) : List Link :=
  links.takeWhile (power < ·.tightness)

/-- The links from that one on. -/
def others (power : Nat) (links : List Link) : List Link :=
  links.dropWhile (power < ·.tightness)

variable {power : Nat} {link : Link}

theorem tighter_append_others (power : Nat) (links : List Link) :
    tighter power links ++ others power links = links :=
  List.takeWhile_append_dropWhile

theorem tighter_cons_of_le (h : link.tightness ≤ power) (rest : List Link) :
    tighter power (link :: rest) = [] ∧ others power (link :: rest) = link :: rest := by
  have hstop : ¬ decide (power < link.tightness) = true := by simpa using h
  exact ⟨List.takeWhile_cons_of_neg hstop, List.dropWhile_cons_of_neg hstop⟩

theorem lt_of_mem_tighter {links : List Link} (h : link ∈ tighter power links) :
    power < link.tightness := by
  simpa using List.mem_takeWhile_imp h

theorem le_of_mem_head?_others {links : List Link} (h : link ∈ (others power links).head?) :
    link.tightness ≤ power := by
  have hstop := List.head?_dropWhile_not (power < ·.tightness) links
  rw [others] at h
  rw [Option.mem_def.1 h] at hstop
  simpa using hstop

/-- What binds tighter than an operator that binds tighter than the power is among the links. -/
theorem tighter_cons (h : power < link.tightness) (rest : List Link) :
    tighter power (link :: rest) = link :: tighter link.tightness rest ++
        tighter power (others link.tightness rest) ∧
      others power (link :: rest) = others power (others link.tightness rest) := by
  have hall : ∀ other ∈ link :: tighter link.tightness rest,
      decide (power < other.tightness) = true := by
    rw [List.forall_mem_cons]
    refine ⟨decide_eq_true h, fun other hmem => decide_eq_true ?_⟩
    exact Nat.lt_trans h (lt_of_mem_tighter hmem)
  have hsplit : link :: rest =
      (link :: tighter link.tightness rest) ++ others link.tightness rest := by
    rw [List.cons_append, tighter_append_others]
  constructor
  · rw [tighter, hsplit, List.takeWhile_append_of_pos hall]
    rfl
  · rw [others, hsplit, List.dropWhile_append_of_pos hall]
    rfl

/-- The tree of such links: the operator takes its own as its right operand. -/
theorem chainTree_tighter_cons (h : power < link.tightness) (rest : List Link) (first : Node) :
    chainTree first (tighter power (link :: rest)) =
      chainTree (link.join first (chainTree link.node (tighter link.tightness rest)))
        (tighter power (others link.tightness rest)) := by
  rw [(tighter_cons h rest).1]
  apply chainTree_cons (fun other hmem => lt_of_mem_tighter hmem)
  intro other hmem
  rw [tighter, List.head?_takeWhile, Option.mem_def, Option.filter_eq_some_iff] at hmem
  exact le_of_mem_head?_others hmem.1

end Link

end Offside
