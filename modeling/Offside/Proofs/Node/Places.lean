import Mathlib.Data.List.Forall2
import Mathlib.Logic.Relation
import Offside.Node.Basic

/-! # Places in a tree

The nodes in a node, and the node with others in their places. What holds everywhere in a tree and
what is changed at one place of it are told by these.
-/

namespace Offside

namespace Node

/-- The nodes in a node, from left to right. -/
def children : Node → List Node
  | comment _ | dataType .. | identifier _ | number _ | string _ | boolean _ => []
  | letValue _ _ value | bind _ value | result value | splice value | quoted value => [value]
  | macroBody _ body | function _ _ _ body => body
  | choice scrutinee cases => scrutinee :: cases.map (·.2)
  | conditional condition thenBody elseBody => condition :: (thenBody ++ elseBody)
  | sequence context body => context :: body
  | call callee args => callee :: args
  | access target _ => [target]
  | arithmetic _ left right | comparison _ left right => [left, right]
  | array elements => elements
  | object pairs => pairs.map (·.2)

/-- The node with others in the places of the nodes in it. There must be as many. -/
def withChildren : Node → List Node → Node
  | letValue name type? _, [value] => letValue name type? value
  | macroBody name _, body => macroBody name body
  | bind name _, [value] => bind name value
  | result _, [value] => result value
  | function name? params returnType? _, body => function name? params returnType? body
  | choice _ cases, scrutinee :: bodies => choice scrutinee ((cases.map (·.1)).zip bodies)
  | conditional _ thenBody _, condition :: lines =>
    conditional condition (lines.take thenBody.length) (lines.drop thenBody.length)
  | sequence _ _, context :: body => sequence context body
  | call _ _, callee :: args => call callee args
  | access _ field, [target] => access target field
  | arithmetic operator _ _, [left, right] => arithmetic operator left right
  | comparison operator _ _, [left, right] => comparison operator left right
  | splice _, [inner] => splice inner
  | quoted _, [inner] => quoted inner
  | array _, elements => array elements
  | object pairs, values => object ((pairs.map (·.1)).zip values)
  | node, _ => node

theorem withChildren_children (node : Node) : node.withChildren node.children = node := by
  cases node <;> simp [children, withChildren, List.zip_map']

theorem children_withChildren {node : Node} {nodes : List Node}
    (h : nodes.length = node.children.length) : (node.withChildren nodes).children = nodes := by
  -- A node that holds no list has at most two nodes in it.
  cases node <;> rcases nodes with _ | ⟨a, _ | ⟨b, _ | ⟨c, rest⟩⟩⟩ <;>
    simp_all [children, withChildren, List.map_snd_zip]

theorem withChildren_withChildren {node : Node} {nodes others : List Node}
    (h : nodes.length = node.children.length) (h' : others.length = node.children.length) :
    (node.withChildren nodes).withChildren others = node.withChildren others := by
  cases node
  case object pairs =>
    rw [children, List.length_map] at h
    simp [withChildren, List.map_fst_zip, h]
  all_goals
    rcases nodes with _ | ⟨a, _ | ⟨b, _ | ⟨c, rest⟩⟩⟩ <;>
    rcases others with _ | ⟨a', _ | ⟨b', _ | ⟨c', rest'⟩⟩⟩ <;>
    simp [children] at h h' <;> simp [withChildren, h, h', List.map_fst_zip]

/-! ## Nodes that differ in the nodes in them only -/

/-- Two nodes differ in the nodes in them only, of which they have as many. -/
def Alike (a b : Node) : Prop :=
  ∃ nodes : List Node, nodes.length = a.children.length ∧ a.withChildren nodes = b

namespace Alike

variable {a b c : Node}

theorem refl (a : Node) : Alike a a :=
  ⟨a.children, rfl, a.withChildren_children⟩

theorem length_eq (h : Alike a b) : b.children.length = a.children.length := by
  obtain ⟨nodes, hlength, rfl⟩ := h
  rw [children_withChildren hlength, hlength]

theorem withChildren_eq (h : Alike a b) : a.withChildren b.children = b := by
  obtain ⟨nodes, hlength, rfl⟩ := h
  rw [children_withChildren hlength]

theorem symm (h : Alike a b) : Alike b a := by
  obtain ⟨nodes, hlength, rfl⟩ := h
  refine ⟨a.children, by rw [children_withChildren hlength, hlength], ?_⟩
  rw [withChildren_withChildren hlength rfl, withChildren_children]

theorem trans (h : Alike a b) (h' : Alike b c) : Alike a c := by
  have hlength := h.length_eq
  have hlength' := h'.length_eq.trans hlength
  refine ⟨c.children, hlength', ?_⟩
  rw [← withChildren_withChildren hlength hlength', h.withChildren_eq, h'.withChildren_eq]

end Alike

/-! ## All places of a tree -/

/-- What a node says holds of it and of every node in it, at any depth. -/
inductive Everywhere (p : Node → Prop) : Node → Prop where
  | intro {node : Node} : p node → (∀ child ∈ node.children, Everywhere p child) →
      Everywhere p node

theorem everywhere_iff {p : Node → Prop} {node : Node} :
    Everywhere p node ↔ p node ∧ ∀ child ∈ node.children, Everywhere p child :=
  ⟨fun ⟨h, hrest⟩ => ⟨h, hrest⟩, fun ⟨h, hrest⟩ => .intro h hrest⟩

/-! ## One place of a tree -/

/-- A node is replaced by another one at one place of a tree, at any depth. -/
inductive Within (r : Node → Node → Prop) : Node → Node → Prop where
  | here {a b : Node} : r a b → Within r a b
  | inside {node a b : Node} {before after : List Node} :
      node.children = before ++ a :: after → Within r a b →
      Within r node (node.withChildren (before ++ b :: after))

end Node

/-- One item of a list is replaced. -/
def OneOf (r : Node → Node → Prop) (nodes others : List Node) : Prop :=
  ∃ before after a b, nodes = before ++ a :: after ∧ others = before ++ b :: after ∧ r a b

section OneOf

open Relation (ReflTransGen)

variable {r : Node → Node → Prop}

theorem OneOf.length_eq {nodes others : List Node} (h : OneOf r nodes others) :
    others.length = nodes.length := by
  obtain ⟨before, after, a, b, rfl, rfl, -⟩ := h
  simp

theorem OneOf.cons {nodes others : List Node} (h : OneOf r nodes others) (node : Node) :
    OneOf r (node :: nodes) (node :: others) := by
  obtain ⟨before, after, a, b, rfl, rfl, hr⟩ := h
  exact ⟨node :: before, after, a, b, rfl, rfl, hr⟩

/-- The items of a list can be replaced one after the other. -/
theorem reflTransGen_oneOf {nodes others : List Node}
    (h : List.Forall₂ (ReflTransGen r) nodes others) :
    ReflTransGen (OneOf r) nodes others := by
  induction h with
  | nil => exact .refl
  | @cons a b nodes others hab _ ih =>
    have hhead : ReflTransGen (OneOf r) (a :: nodes) (b :: nodes) :=
      hab.lift (· :: nodes) fun x y hxy => ⟨[], nodes, x, y, rfl, rfl, hxy⟩
    exact hhead.trans (ih.lift (b :: ·) fun _ _ hstep => hstep.cons b)

namespace Node

/-- The nodes in a node can be replaced one after the other. -/
theorem reflTransGen_within {node : Node} {nodes : List Node}
    (h : List.Forall₂ (ReflTransGen (Within r)) node.children nodes) :
    ReflTransGen (Within r) node (node.withChildren nodes) := by
  have hsteps := reflTransGen_oneOf h
  clear h
  have hmoves : nodes.length = node.children.length ∧
      ReflTransGen (Within r) node (node.withChildren nodes) := by
    induction hsteps with
    | refl => exact ⟨rfl, by rw [withChildren_children]⟩
    | tail _ hstep ih =>
      obtain ⟨hlength, hmoves⟩ := ih
      have hlength' := hstep.length_eq.trans hlength
      obtain ⟨before, after, a, b, rfl, rfl, hab⟩ := hstep
      refine ⟨hlength', hmoves.tail ?_⟩
      rw [← withChildren_withChildren hlength hlength']
      exact .inside (children_withChildren hlength) hab
  exact hmoves.2

end Node

end OneOf

end Offside
