import Mathlib.Data.List.Perm.Subperm
import Offside.Node.Equality
import Offside.Proofs.Node.Pairs
import Offside.Proofs.Node.Places

/-! # Equality of trees

What the equality of trees overlooks in a node is the order of pairs and the sign of a zero. With
distinct keys two trees are the same if one is built like the other, but for what is overlooked, and
the nodes in them are the same.
-/

namespace Offside

namespace Binary64

theorem isNaN_of_isZero {x : Binary64} (h : x.isZero = true) : x.isNaN = false := by
  rw [isZero, decide_eq_true_eq] at h
  simp [isNaN, h]

/-- A number is the same as itself unless it is not-a-number, and a zero is the same as another. -/
theorem same_iff (x y : Binary64) :
    x.same y = true ↔
      x.isNaN = false ∧ (x = y ∨ x.isZero = true ∧ y.isZero = true) := by
  obtain ⟨x⟩ := x
  obtain ⟨y⟩ := y
  simp only [same, Bool.and_eq_true, Bool.not_eq_true', Bool.or_eq_true, beq_iff_eq, mk.injEq]
  constructor
  · rintro ⟨⟨hx, -⟩, h⟩
    exact ⟨hx, h⟩
  · rintro ⟨hx, rfl | ⟨hx', hy⟩⟩
    · exact ⟨⟨hx, hx⟩, .inl rfl⟩
    · exact ⟨⟨hx, isNaN_of_isZero hy⟩, .inr ⟨hx', hy⟩⟩

end Binary64

namespace Node

/-- Two nodes are the same. -/
abbrev Same (a b : Node) : Prop :=
  same a b = true

/-- The keys of an object. Other nodes have none. -/
def keys : Node → List String
  | object pairs => pairs.map (·.1)
  | _ => []

/-- Whether a node is a number that is not-a-number. -/
def isNaN : Node → Bool
  | number value => value.isNaN
  | _ => false

/-! ## Lists of nodes -/

theorem sameAll_iff {nodes others : List Node} :
    sameAll nodes others = true ↔ List.Forall₂ Same nodes others := by
  induction nodes generalizing others with
  | nil => cases others <;> simp [sameAll]
  | cons node nodes ih => cases others <;> simp [sameAll, ih]

theorem sameCases_iff {entries others : List (CasePattern × Node)} :
    sameCases entries others = true ↔
      entries.map (·.1) = others.map (·.1) ∧
        List.Forall₂ Same (entries.map (·.2)) (others.map (·.2)) := by
  induction entries generalizing others with
  | nil => cases others <;> simp [sameCases]
  | cons entry entries ih =>
    obtain ⟨pattern, body⟩ := entry
    cases others with
    | nil => simp [sameCases]
    | cons other others =>
      obtain ⟨pattern', body'⟩ := other
      simp only [sameCases, Bool.and_eq_true, beq_iff_eq, ih, List.map_cons, List.cons.injEq,
        List.forall₂_cons]
      tauto

theorem sameValues_iff {pairs others : List (String × Node)} :
    sameValues pairs others = true ↔
      ∀ entry ∈ pairs, ∃ value, others.lookup entry.1 = some value ∧ Same entry.2 value := by
  induction pairs with
  | nil => simp [sameValues]
  | cons entry pairs ih =>
    obtain ⟨key, value⟩ := entry
    rw [sameValues, Bool.and_eq_true, ih, List.forall_mem_cons]
    cases others.lookup key <;> simp

theorem lookup_of_mem {pairs : List (String × Node)} (h : (pairs.map (·.1)).Nodup)
    {entry : String × Node} (hmem : entry ∈ pairs) : pairs.lookup entry.1 = some entry.2 := by
  obtain ⟨before, after, rfl⟩ := List.append_of_mem hmem
  refine List.lookup_eq_some_iff.2 ⟨before, after, rfl, fun other hother => bne_iff_ne.2 ?_⟩
  rw [List.map_append, List.map_cons, List.nodup_append] at h
  exact (h.2.2 _ (List.mem_map_of_mem hother) _ List.mem_cons_self).symm

theorem forall₂_pairs_iff {r : Node → Node → Prop} {pairs others : List (String × Node)} :
    List.Forall₂ (fun a b => a.1 = b.1 ∧ r a.2 b.2) pairs others ↔
      pairs.map (·.1) = others.map (·.1) ∧
        List.Forall₂ r (pairs.map (·.2)) (others.map (·.2)) := by
  induction pairs generalizing others with
  | nil => cases others <;> simp
  | cons entry pairs ih =>
    cases others with
    | nil => simp
    | cons other others =>
      simp only [List.forall₂_cons, ih, List.map_cons, List.cons.injEq]
      tauto

/-- Values found for keys, paired with these. -/
theorem forall₂_of_lookup {pairs others : List (String × Node)}
    (h : ∀ entry ∈ pairs, ∃ value, others.lookup entry.1 = some value ∧ Same entry.2 value) :
    List.Forall₂ (fun a b => a.1 = b.1 ∧ Same a.2 b.2) pairs
      ((pairs.map (·.1)).filterMap fun key =>
        (others.lookup key).map fun value => (key, value)) := by
  induction pairs with
  | nil => exact .nil
  | cons entry pairs ih =>
    obtain ⟨⟨value, hlookup, hsame⟩, hrest⟩ := List.forall_mem_cons.1 h
    rw [List.map_cons, List.filterMap_cons_some (by rw [hlookup, Option.map_some])]
    exact .cons ⟨rfl, hsame⟩ (ih hrest)

/-- With distinct keys, an object is the same as another one if its pairs have the keys of the other
ones in some order, and the same values. -/
theorem same_object_iff {pairs others : List (String × Node)} (h : (pairs.map (·.1)).Nodup)
    (h' : (others.map (·.1)).Nodup) :
    Same (object pairs) (object others) ↔ ∃ permuted, others.Perm permuted ∧
      List.Forall₂ (fun a b => a.1 = b.1 ∧ Same a.2 b.2) pairs permuted := by
  rw [Same, same, Bool.and_eq_true, beq_iff_eq, sameValues_iff]
  constructor
  · rintro ⟨hlength, hvalues⟩
    -- As many distinct keys, all of them among the others, are all of the others.
    have hsubset : pairs.map (·.1) ⊆ others.map (·.1) := by
      intro key hmem
      obtain ⟨entry, hentry, rfl⟩ := List.mem_map.1 hmem
      obtain ⟨value, hlookup, -⟩ := hvalues entry hentry
      obtain ⟨before, after, rfl, -⟩ := List.lookup_eq_some_iff.1 hlookup
      simp
    have hkeys : (pairs.map (·.1)).Perm (others.map (·.1)) :=
      (h.subperm hsubset).perm_of_length_le (by simp [hlength])
    have hperm := hkeys.symm.filterMap fun key =>
      (others.lookup key).map fun value => (key, value)
    rw [Grammar.filterMap_lookup h'] at hperm
    exact ⟨_, hperm, forall₂_of_lookup hvalues⟩
  · rintro ⟨permuted, hperm, hpairs⟩
    refine ⟨hpairs.length_eq.trans hperm.length_eq.symm, ?_⟩
    have hlookup : ∀ entry ∈ permuted, others.lookup entry.1 = some entry.2 :=
      fun entry hmem => lookup_of_mem h' (hperm.mem_iff.2 hmem)
    clear h h' hperm
    induction hpairs with
    | nil => exact List.forall_mem_nil _
    | cons hpair _ ih =>
      obtain ⟨hfirst, hrest⟩ := List.forall_mem_cons.1 hlookup
      exact List.forall_mem_cons.2 ⟨⟨_, hpair.1 ▸ hfirst, hpair.2⟩, ih hrest⟩

/-! ## Nodes that are alike -/

theorem alike_number_iff {value : Binary64} {b : Node} :
    Alike (number value) b ↔ b = number value := by
  constructor
  · rintro ⟨nodes, hlength, rfl⟩
    rw [List.eq_nil_of_length_eq_zero hlength]
    rfl
  · rintro rfl
    exact .refl _

theorem alike_object_iff {pairs : List (String × Node)} {b : Node} :
    Alike (object pairs) b ↔
      ∃ others, b = object others ∧ pairs.map (·.1) = others.map (·.1) := by
  constructor
  · rintro ⟨values, hlength, rfl⟩
    rw [children, List.length_map] at hlength
    exact ⟨_, rfl, (List.map_fst_zip (by simp [hlength])).symm⟩
  · rintro ⟨others, rfl, hkeys⟩
    refine ⟨others.map (·.2), ?_, ?_⟩
    · simpa [children] using (congrArg List.length hkeys).symm
    · rw [withChildren, hkeys, List.zip_map', List.map_id']

theorem isNaN_eq_of_alike {a b : Node} (h : Alike a b) : a.isNaN = b.isNaN := by
  obtain ⟨nodes, -, rfl⟩ := h
  unfold withChildren
  split <;> rfl

theorem keys_eq_of_alike {a b : Node} (h : Alike a b) : a.keys = b.keys := by
  cases a with
  | object pairs =>
    obtain ⟨others, rfl, hkeys⟩ := alike_object_iff.1 h
    exact hkeys
  | _ =>
    obtain ⟨nodes, -, rfl⟩ := h
    rcases nodes with _ | ⟨x, _ | ⟨y, _ | ⟨z, rest⟩⟩⟩ <;> rfl

/-- Nodes that are the same are alike, and so are the nodes in them, but for numbers and objects. -/
theorem alike_of_same {a b : Node} (h : Same a b) :
    (∃ x y, a = number x ∧ b = number y) ∨ (∃ ps qs, a = object ps ∧ b = object qs) ∨
      Alike a b ∧ List.Forall₂ Same a.children b.children := by
  suffices hparts : _ ∨ _ ∨
      List.Forall₂ Same a.children b.children ∧ a.withChildren b.children = b from
    hparts.imp_right <| Or.imp_right fun ⟨hnodes, heq⟩ =>
      ⟨⟨b.children, hnodes.length_eq.symm, heq⟩, hnodes⟩
  unfold Same at h
  revert h
  fun_cases same a b
  case case18 x y => exact fun _ => .inl ⟨x, y, rfl, rfl⟩
  case case22 ps qs => exact fun _ => .inr (.inl ⟨ps, qs, rfl, rfl⟩)
  case case23 => exact nofun
  case case8 v cs w ds =>
    rw [Bool.and_eq_true, sameCases_iff]
    rintro ⟨hscrutinee, hpatterns, hbodies⟩
    refine .inr (.inr ⟨.cons hscrutinee hbodies, ?_⟩)
    simp [children, withChildren, hpatterns, List.zip_map']
  case case9 v as bs w cs ds =>
    simp only [Bool.and_eq_true, sameAll_iff]
    rintro ⟨⟨hcondition, hthen⟩, helse⟩
    refine .inr (.inr ⟨.cons hcondition (List.rel_append hthen helse), ?_⟩)
    simp [children, withChildren, hthen.length_eq]
  -- The other nodes hold one list at most, and nothing in the places of others.
  all_goals
    refine fun h => .inr (.inr ?_)
    simp_all [children, withChildren, sameAll_iff, Same]

/-- Nodes that are alike are the same if the nodes in them are. -/
theorem same_of_alike {a b : Node} (h : Alike a b) (hnumber : a.isNaN = false)
    (hkeys : a.keys.Nodup) (hnodes : List.Forall₂ Same a.children b.children) : Same a b := by
  cases a
  case number value =>
    rw [alike_number_iff.1 h, Same, same]
    exact (Binary64.same_iff value value).2 ⟨hnumber, .inl rfl⟩
  case object pairs =>
    obtain ⟨others, rfl, heq⟩ := alike_object_iff.1 h
    have hothers : (others.map (·.1)).Nodup := heq ▸ hkeys
    exact (same_object_iff hkeys hothers).2 ⟨others, .refl _, forall₂_pairs_iff.2 ⟨heq, hnodes⟩⟩
  all_goals
    obtain ⟨nodes, hlength, rfl⟩ := h
    rw [children_withChildren hlength] at hnodes
  case choice scrutinee cases =>
    obtain _ | ⟨scrutinee', bodies⟩ := nodes
    · cases hlength
    obtain ⟨hscrutinee, hbodies⟩ := List.forall₂_cons.1 hnodes
    simp only [children, List.length_cons, List.length_map, Nat.add_right_cancel_iff] at hlength
    rw [withChildren, Same, same, Bool.and_eq_true, sameCases_iff,
      List.map_fst_zip (by simp [hlength]), List.map_snd_zip (by simp [hlength])]
    exact ⟨hscrutinee, rfl, hbodies⟩
  case conditional condition thenBody elseBody =>
    obtain _ | ⟨condition', lines⟩ := nodes
    · cases hlength
    obtain ⟨hcondition, hlines⟩ := List.forall₂_cons.1 hnodes
    have hthen := List.forall₂_take thenBody.length hlines
    have helse := List.forall₂_drop thenBody.length hlines
    rw [List.take_left] at hthen
    rw [List.drop_left] at helse
    simp only [withChildren, Same, same, Bool.and_eq_true, sameAll_iff]
    exact ⟨⟨hcondition, hthen⟩, helse⟩
  all_goals
    rcases nodes with _ | ⟨x, _ | ⟨y, _ | ⟨z, rest⟩⟩⟩ <;>
    simp_all [children, withChildren, Same, same, sameAll_iff]

/-! ## What is overlooked -/

/-- The pairs of an object are put in some order. -/
inductive Reordered : Node → Node → Prop where
  | intro {pairs others : List (String × Node)} :
      pairs.Perm others → Reordered (object pairs) (object others)

/-- Two nodes differ at most in the order of pairs or in the sign of a zero, not in what is in the
nodes in them. -/
inductive Overlooked : Node → Node → Prop where
  | refl (a : Node) : Overlooked a a
  | order {pairs others : List (String × Node)} :
      pairs.Perm others → Overlooked (object pairs) (object others)
  | sign {x y : Binary64} :
      x.isZero = true → y.isZero = true → Overlooked (number x) (number y)

theorem Reordered.overlooked {a b : Node} (h : Reordered a b) : Overlooked a b := by
  obtain ⟨hperm⟩ := h
  exact .order hperm

namespace Overlooked

variable {a b c : Node}

theorem symm (h : Overlooked a b) : Overlooked b a := by
  cases h with
  | refl => exact .refl a
  | order hperm => exact .order hperm.symm
  | sign hx hy => exact .sign hy hx

theorem trans (h : Overlooked a b) (h' : Overlooked b c) : Overlooked a c := by
  cases h with
  | refl => exact h'
  | order hperm =>
    cases h' with
    | refl => exact .order hperm
    | order hperm' => exact .order (hperm.trans hperm')
  | sign hx hy =>
    cases h' with
    | refl => exact .sign hx hy
    | sign _ hz => exact .sign hx hz

theorem perm_children (h : Overlooked a b) : a.children.Perm b.children := by
  cases h with
  | order hperm => exact hperm.map _
  | _ => exact .refl _

theorem perm_keys (h : Overlooked a b) : a.keys.Perm b.keys := by
  cases h with
  | order hperm => exact hperm.map _
  | _ => exact .refl _

theorem isNaN_eq (h : Overlooked a b) : a.isNaN = b.isNaN := by
  cases h with
  | sign hx hy => rw [isNaN, isNaN, Binary64.isNaN_of_isZero hx, Binary64.isNaN_of_isZero hy]
  | _ => rfl

/-- What is overlooked behind a node that is alike can be overlooked before it. -/
theorem exists_before {r : Node → Node → Prop} (h : Alike a b) (h' : Overlooked b c)
    (hnodes : List.Forall₂ r a.children b.children) :
    ∃ a', Overlooked a a' ∧ Alike a' c ∧ List.Forall₂ r a'.children c.children := by
  cases h' with
  | refl => exact ⟨a, .refl a, h, hnodes⟩
  | @order pairs others hperm =>
    obtain ⟨entries, rfl, hkeys⟩ := alike_object_iff.1 h.symm
    have hpairs := forall₂_pairs_iff.2 ⟨hkeys.symm, hnodes⟩
    -- The pairs before are put in the order that those behind are put in.
    obtain ⟨permuted, hflip, hperm'⟩ := List.perm_comp_forall₂ hperm.symm hpairs.flip
    obtain ⟨hkeys', hnodes'⟩ := forall₂_pairs_iff.1 hflip.flip
    exact ⟨object permuted, .order hperm'.symm, alike_object_iff.2 ⟨others, rfl, hkeys'⟩, hnodes'⟩
  | sign hx hy =>
    cases alike_number_iff.1 h.symm
    exact ⟨_, .sign hx hy, .refl _, .nil⟩

end Overlooked

/-- With distinct keys, nodes are the same if they are alike but for what is overlooked, and the
nodes in them are the same. A node that is not-a-number is the same as none. -/
theorem same_iff {a b : Node} (h : a.keys.Nodup) (h' : b.keys.Nodup) :
    Same a b ↔ a.isNaN = false ∧
      ∃ b', Overlooked b b' ∧ Alike a b' ∧ List.Forall₂ Same a.children b'.children := by
  constructor
  · intro hsame
    rcases alike_of_same hsame with ⟨x, y, rfl, rfl⟩ | ⟨ps, qs, rfl, rfl⟩ | ⟨halike, hnodes⟩
    · rw [Same, same, Binary64.same_iff] at hsame
      obtain ⟨hx, rfl | ⟨hx', hy⟩⟩ := hsame
      · exact ⟨hx, _, .refl _, .refl _, .nil⟩
      · exact ⟨hx, _, .sign hy hx', .refl _, .nil⟩
    · obtain ⟨permuted, hperm, hpairs⟩ := (same_object_iff h h').1 hsame
      obtain ⟨hkeys, hnodes⟩ := forall₂_pairs_iff.1 hpairs
      exact ⟨rfl, _, .order hperm, alike_object_iff.2 ⟨_, rfl, hkeys⟩, hnodes⟩
    · refine ⟨?_, b, .refl b, halike, hnodes⟩
      cases a with
      | number x =>
        rw [alike_number_iff.1 halike, Same, same, Binary64.same_iff] at hsame
        exact hsame.1
      | _ => rfl
  · rintro ⟨hnumber, b', hover, halike, hnodes⟩
    have hsame := same_of_alike halike hnumber h hnodes
    cases hover with
    | refl => exact hsame
    | @order pairs others hperm =>
      obtain ⟨entries, rfl, hkeys⟩ := alike_object_iff.1 halike.symm
      exact (same_object_iff h h').2
        ⟨others, hperm, forall₂_pairs_iff.2 ⟨hkeys.symm, hnodes⟩⟩
    | sign hx hy =>
      cases alike_number_iff.1 halike.symm
      rw [Same, same, Binary64.same_iff]
      exact ⟨hnumber, .inr ⟨hy, hx⟩⟩

end Node

end Offside
