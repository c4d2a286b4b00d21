import Offside.Proofs.Node.Sameness
import Offside.Proofs.Node.WellFormed

/-! # Laws of the equality of trees

Objects are maps, so everywhere in a tree the keys of an object are distinct. Equality of such trees
is symmetric and transitive, and reflexive but for numbers that are not-a-number. It overlooks the
order of pairs and the signs of zeros, and nothing else.
-/

namespace Offside

open Relation (ReflTransGen)

section Lists

variable {r s t : Node → Node → Prop} {nodes others more : List Node}

theorem forall₂_of_mem (h : List.Forall₂ r nodes others)
    (hrel : ∀ a ∈ nodes, ∀ b ∈ others, r a b → s a b) : List.Forall₂ s nodes others := by
  have hmem := (List.forall₂_and_left nodes others).2 ⟨fun _ hmem => hmem, h⟩
  have hmem' := ((List.forall₂_and_left others nodes).2 ⟨fun _ hmem => hmem, hmem.flip⟩).flip
  exact hmem'.imp fun a b ⟨hb, ha, hr⟩ => hrel a ha b hb hr

theorem forall₂_trans_of_mem (h : List.Forall₂ r nodes others) (h' : List.Forall₂ s others more)
    (hrel : ∀ a ∈ nodes, ∀ b ∈ others, ∀ c ∈ more, r a b → s b c → t a c) :
    List.Forall₂ t nodes more := by
  induction h generalizing more with
  | nil =>
    cases h'
    exact .nil
  | cons hab _ ih =>
    obtain ⟨c, rest, hbc, hrest, rfl⟩ := List.forall₂_cons_left_iff.1 h'
    refine .cons (hrel _ (by simp) _ (by simp) _ (by simp) hab hbc) (ih hrest ?_)
    exact fun a ha b hb c hc => hrel a (.tail _ ha) b (.tail _ hb) c (.tail _ hc)

end Lists

namespace Node

/-- The keys of an object are distinct, everywhere in a tree. -/
def KeysDistinct (node : Node) : Prop :=
  Everywhere (fun n => n.keys.Nodup) node

/-- No number anywhere in a tree is not-a-number. -/
def NaNFree (node : Node) : Prop :=
  Everywhere (fun n => n.isNaN = false) node

variable {a b c : Node}

theorem KeysDistinct.of_overlooked (ha : a.KeysDistinct) (h : Overlooked a b) :
    b.KeysDistinct := by
  obtain ⟨hkeys, hchildren⟩ := everywhere_iff.1 ha
  exact .intro (h.perm_keys.nodup_iff.1 hkeys) fun child hmem =>
    hchildren child (h.perm_children.mem_iff.2 hmem)

theorem KeysDistinct.mem_of_overlooked (ha : a.KeysDistinct) (h : Overlooked a b) :
    ∀ child ∈ b.children, child.KeysDistinct :=
  (everywhere_iff.1 (ha.of_overlooked h)).2

theorem WellFormed.keysDistinct {known : Operation → String → Prop} {place : Place}
    (h : a.WellFormed known place) : a.KeysDistinct := by
  induction h with
  | expressionLine _ ih => exact ih
  | object hkeys _ ih =>
    refine .intro hkeys fun child hmem => ?_
    obtain ⟨entry, hentry, rfl⟩ := List.mem_map.1 hmem
    exact ih entry hentry
  | choice _ _ _ ih ihCases =>
    refine .intro List.nodup_nil (List.forall_mem_cons.2 ⟨ih, fun child hmem => ?_⟩)
    obtain ⟨entry, hentry, rfl⟩ := List.mem_map.1 hmem
    exact ihCases entry hentry
  | _ => exact .intro List.nodup_nil (by simp_all [children, KeysDistinct, or_imp])

/-! ## Equality of two nodes -/

theorem nanFree_of_same (ha : a.KeysDistinct) (hb : b.KeysDistinct) (h : Same a b) :
    a.NaNFree := by
  induction ha generalizing b with
  | @intro a hkeys _ ih =>
    obtain ⟨hnumber, b', hover, -, hnodes⟩ := (same_iff hkeys (everywhere_iff.1 hb).1).1 h
    have hboth : List.Forall₂ (fun x y => x.NaNFree ∧ Same x y) a.children b'.children :=
      forall₂_of_mem hnodes fun x hx y hy hsame =>
        ⟨ih x hx (hb.mem_of_overlooked hover y hy) hsame, hsame⟩
    exact .intro hnumber ((List.forall₂_and_left _ _).1 hboth).1

theorem same_refl (ha : a.KeysDistinct) (h : a.NaNFree) : Same a a := by
  induction ha with
  | @intro a hkeys _ ih =>
    obtain ⟨hnumber, hchildren⟩ := everywhere_iff.1 h
    exact (same_iff hkeys hkeys).2 ⟨hnumber, a, .refl a, .refl a,
      List.forall₂_same.2 fun child hmem => ih child hmem (hchildren child hmem)⟩

theorem same_symm (ha : a.KeysDistinct) (hb : b.KeysDistinct) (h : Same a b) : Same b a := by
  induction ha generalizing b with
  | @intro a hkeys _ ih =>
    have hkeys' := (everywhere_iff.1 hb).1
    obtain ⟨hnumber, b', hover, halike, hnodes⟩ := (same_iff hkeys hkeys').1 h
    have hnumber' : b.isNaN = false :=
      hover.isNaN_eq.trans <| (isNaN_eq_of_alike halike).symm.trans hnumber
    have hflip : List.Forall₂ (fun x y => Same y x) a.children b'.children :=
      forall₂_of_mem hnodes fun x hx y hy => ih x hx (hb.mem_of_overlooked hover y hy)
    obtain ⟨a', hover', halike', hnodes'⟩ := hover.symm.exists_before halike hflip
    exact (same_iff hkeys' hkeys).2 ⟨hnumber', a', hover', halike'.symm, hnodes'.flip⟩

theorem same_trans (ha : a.KeysDistinct) (hb : b.KeysDistinct) (hc : c.KeysDistinct)
    (h : Same a b) (h' : Same b c) : Same a c := by
  induction ha generalizing b c with
  | @intro a hkeys _ ih =>
    have hkeys' := (everywhere_iff.1 hb).1
    have hkeys'' := (everywhere_iff.1 hc).1
    obtain ⟨hnumber, b', hover, halike, hnodes⟩ := (same_iff hkeys hkeys').1 h
    obtain ⟨-, c', hover', halike', hnodes'⟩ := (same_iff hkeys' hkeys'').1 h'
    obtain ⟨d, hd, hdb, hdnodes⟩ :=
      hover.exists_before halike'.symm (r := fun x y => Same y x) hnodes'.flip
    refine (same_iff hkeys hkeys'').2 ⟨hnumber, d, hover'.trans hd, halike.trans hdb.symm, ?_⟩
    exact forall₂_trans_of_mem hnodes hdnodes.flip fun x hx y hy z hz =>
      ih x hx (hb.mem_of_overlooked hover y hy) (hc.mem_of_overlooked (hover'.trans hd) z hz)

/-- A tree that is the same as another one can be made from it by what is overlooked. -/
theorem reflTransGen_of_same (ha : a.KeysDistinct) (hb : b.KeysDistinct) (h : Same a b) :
    ReflTransGen (Within Overlooked) b a := by
  induction ha generalizing b with
  | @intro a hkeys _ ih =>
    obtain ⟨-, b', hover, halike, hnodes⟩ := (same_iff hkeys (everywhere_iff.1 hb).1).1 h
    have hmoves : List.Forall₂ (ReflTransGen (Within Overlooked)) b'.children a.children :=
      List.Forall₂.flip <| forall₂_of_mem hnodes fun x hx y hy =>
        ih x hx (hb.mem_of_overlooked hover y hy)
    have hinside := reflTransGen_within hmoves
    rw [halike.symm.withChildren_eq] at hinside
    exact .head (.here hover) hinside

/-! ## Pairs in another order -/

/-- Lists are the same if one node is put in the place of another one that it is the same as. -/
theorem same_of_oneOf {nodes others : List Node}
    (h : OneOf (fun a b => a.KeysDistinct → a.NaNFree → b.KeysDistinct ∧ Same b a) nodes others)
    (hkeys : ∀ node ∈ nodes, node.KeysDistinct) (hnumbers : ∀ node ∈ nodes, node.NaNFree) :
    (∀ node ∈ others, node.KeysDistinct) ∧ List.Forall₂ Same others nodes := by
  have hrefl (part : List Node) (h : ∀ node ∈ part, node.KeysDistinct)
      (h' : ∀ node ∈ part, node.NaNFree) : List.Forall₂ Same part part :=
    List.forall₂_same.2 fun node hmem => same_refl (h node hmem) (h' node hmem)
  obtain ⟨before, after, a, b, rfl, rfl, hab⟩ := h
  simp only [List.forall_mem_append, List.forall_mem_cons] at hkeys hnumbers ⊢
  obtain ⟨hbefore, ha, hafter⟩ := hkeys
  obtain ⟨hbefore', ha', hafter'⟩ := hnumbers
  obtain ⟨hb, hsame⟩ := hab ha ha'
  exact ⟨⟨hbefore, hb, hafter⟩,
    List.rel_append (hrefl before hbefore hbefore') (.cons hsame (hrefl after hafter hafter'))⟩

theorem same_of_reordered (h : Within Reordered a b) (ha : a.KeysDistinct) (ha' : a.NaNFree) :
    b.KeysDistinct ∧ Same b a := by
  induction h with
  | here h =>
    have hover := h.overlooked
    have hb := ha.of_overlooked hover
    obtain ⟨hnumber, hnumbers⟩ := everywhere_iff.1 ha'
    refine ⟨hb, (same_iff (everywhere_iff.1 hb).1 (everywhere_iff.1 ha).1).2
      ⟨hover.isNaN_eq ▸ hnumber, _, hover, .refl _, List.forall₂_same.2 fun child hmem => ?_⟩⟩
    exact same_refl (ha.mem_of_overlooked hover child hmem)
      (hnumbers child (hover.perm_children.mem_iff.2 hmem))
  | @inside node a b before after hchildren _ ih =>
    obtain ⟨hkeys, hchildkeys⟩ := everywhere_iff.1 ha
    obtain ⟨hnumber, hnumbers⟩ := everywhere_iff.1 ha'
    obtain ⟨hdistinct, hnodes⟩ :=
      same_of_oneOf ⟨before, after, a, b, hchildren, rfl, ih⟩ hchildkeys hnumbers
    have halike : Alike node (node.withChildren (before ++ b :: after)) :=
      ⟨_, by simp [hchildren], rfl⟩
    have hplaces : (node.withChildren (before ++ b :: after)).children = before ++ b :: after :=
      children_withChildren (by simp [hchildren])
    rw [← hplaces] at hdistinct hnodes
    have hkeys' := keys_eq_of_alike halike ▸ hkeys
    exact ⟨.intro hkeys' hdistinct, (same_iff hkeys' hkeys).2
      ⟨isNaN_eq_of_alike halike ▸ hnumber, node, .refl node, halike.symm, hnodes⟩⟩

end Node

namespace Program

variable {p q r : Program}

/-- The keys of an object are distinct, everywhere in a program. -/
def KeysDistinct (p : Program) : Prop :=
  ∀ node ∈ p.body, node.KeysDistinct

/-- No number anywhere in a program is not-a-number. -/
def NaNFree (p : Program) : Prop :=
  ∀ node ∈ p.body, node.NaNFree

/-- A node is replaced by another one at one place of a program, at any depth. -/
def Within (r : Node → Node → Prop) (p q : Program) : Prop :=
  OneOf (Node.Within r) p.body q.body

theorem same_iff : p.same q = true ↔ List.Forall₂ Node.Same p.body q.body :=
  Node.sameAll_iff

theorem same_symm (hp : p.KeysDistinct) (hq : q.KeysDistinct) (h : p.same q = true) :
    q.same p = true :=
  same_iff.2 <| .flip <| forall₂_of_mem (same_iff.1 h) fun a ha b hb =>
    Node.same_symm (hp a ha) (hq b hb)

theorem same_trans (hp : p.KeysDistinct) (hq : q.KeysDistinct) (hr : r.KeysDistinct)
    (h : p.same q = true) (h' : q.same r = true) : p.same r = true :=
  same_iff.2 <| forall₂_trans_of_mem (same_iff.1 h) (same_iff.1 h') fun a ha b hb c hc =>
    Node.same_trans (hp a ha) (hq b hb) (hr c hc)

theorem nanFree_of_same (hp : p.KeysDistinct) (hq : q.KeysDistinct) (h : p.same q = true) :
    p.NaNFree := by
  have hboth : List.Forall₂ (fun a b => a.NaNFree ∧ Node.Same a b) p.body q.body :=
    forall₂_of_mem (same_iff.1 h) fun a ha b hb hsame =>
      ⟨Node.nanFree_of_same (hp a ha) (hq b hb) hsame, hsame⟩
  exact ((List.forall₂_and_left _ _).1 hboth).1

theorem same_self_iff (hp : p.KeysDistinct) : p.same p = true ↔ p.NaNFree :=
  ⟨nanFree_of_same hp hp, fun h => same_iff.2 <| List.forall₂_same.2 fun node hmem =>
    Node.same_refl (hp node hmem) (h node hmem)⟩

theorem same_of_reordered (hp : p.KeysDistinct) (hn : p.NaNFree)
    (h : ReflTransGen (Within Node.Reordered) p q) : q.KeysDistinct ∧ q.same p = true := by
  induction h with
  | refl => exact ⟨hp, (same_self_iff hp).2 hn⟩
  | @tail q r _ hstep ih =>
    obtain ⟨hq, hsame⟩ := ih
    obtain ⟨before, after, a, b, hbody, hbody', hab⟩ := hstep
    obtain ⟨hr, hsame'⟩ := Node.same_of_oneOf
      ⟨before, after, a, b, hbody, hbody', Node.same_of_reordered hab⟩ hq
      (nanFree_of_same hq hp hsame)
    exact ⟨hr, same_trans hr hq hp (same_iff.2 hsame') hsame⟩

theorem reflTransGen_of_same (hp : p.KeysDistinct) (hq : q.KeysDistinct) (h : p.same q = true) :
    ReflTransGen (Within Node.Overlooked) q p := by
  have hmoves : List.Forall₂ (ReflTransGen (Node.Within Node.Overlooked)) q.body p.body :=
    List.Forall₂.flip <| forall₂_of_mem (same_iff.1 h) fun a ha b hb =>
      Node.reflTransGen_of_same (hp a ha) (hq b hb)
  exact (reflTransGen_oneOf hmoves).lift Program.mk fun _ _ hstep => hstep

/-- Equality of programs is symmetric and transitive, and holds of a program and itself if no number
in it is not-a-number. Such a program is the same as what it becomes when the pairs of objects are
put in another order, anywhere in it. Programs that are the same differ in the order of pairs and
the signs of zeros only. -/
theorem same_laws (hp : p.KeysDistinct) (hq : q.KeysDistinct) (hr : r.KeysDistinct) :
    (p.same q = true → q.same p = true) ∧
      (p.same q = true → q.same r = true → p.same r = true) ∧
      (p.same p = true ↔ p.NaNFree) ∧
      (p.NaNFree → ∀ p', ReflTransGen (Within Node.Reordered) p p' →
        p.same p' = true ∧ p'.same p = true) ∧
      (p.same q = true → ReflTransGen (Within Node.Overlooked) q p) :=
  ⟨same_symm hp hq, same_trans hp hq hr, same_self_iff hp,
    fun hn _ h =>
      have ⟨hkeys, hsame⟩ := same_of_reordered hp hn h
      ⟨same_symm hkeys hp hsame, hsame⟩,
    reflTransGen_of_same hp hq⟩

/-- An object of two pairs in either order, one of them a zero of either sign. -/
def zeroObject (negative turned : Bool) : Program :=
  let zero : String × Node := ("x", .number (.ofMagnitude negative 0))
  let other : String × Node := ("y", .boolean true)
  ⟨[.object (if turned then [other, zero] else [zero, other])]⟩

theorem keysDistinct_zeroObject (negative turned : Bool) :
    (zeroObject negative turned).KeysDistinct := by
  have hleaf {node : Node} (hkeys : node.keys = []) (hnodes : node.children = []) :
      node.KeysDistinct :=
    .intro (hkeys ▸ .nil) (hnodes ▸ List.forall_mem_nil _)
  have hzero : (Node.number (.ofMagnitude negative 0)).KeysDistinct := hleaf rfl rfl
  have hother : (Node.boolean true).KeysDistinct := hleaf rfl rfl
  refine List.forall_mem_singleton.2 ?_
  cases turned
  · exact .intro (by simp [Node.keys]) (by simpa [Node.children] using ⟨hzero, hother⟩)
  · exact .intro (by simp [Node.keys]) (by simpa [Node.children] using ⟨hother, hzero⟩)

/-- Zeros of both signs, and pairs in both orders. -/
theorem same_laws_zeroObject :
    (zeroObject false true).same (zeroObject true false) = true ∧
      (zeroObject true false).same (zeroObject true false) = true ∧
      (zeroObject true false).same (zeroObject true true) = true ∧
      ReflTransGen (Within Node.Overlooked) (zeroObject false true) (zeroObject true false) := by
  obtain ⟨hsymm, htrans, hself, hreorder, hmoves⟩ := same_laws (keysDistinct_zeroObject true false)
    (keysDistinct_zeroObject false true) (keysDistinct_zeroObject true false)
  have hsame : (zeroObject true false).same (zeroObject false true) = true := by decide +kernel
  have hrefl := htrans hsame (hsymm hsame)
  have hturn : Within Node.Reordered (zeroObject true false) (zeroObject true true) :=
    ⟨[], [], _, _, rfl, rfl, .here ⟨.swap _ _ _⟩⟩
  exact ⟨hsymm hsame, hrefl, (hreorder (hself.1 hrefl) _ (.single hturn)).1, hmoves hsame⟩

end Program

end Offside
