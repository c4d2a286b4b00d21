import Mathlib.Data.List.SplitBy
import Offside.Proofs.Grammar.Contexts

/-! # Calls

A callee takes all the items behind it. The arguments that stand side by side are given to it at
once, and an empty pair of parentheses calls what was built so far with nothing.
-/

namespace Offside

open Grammar (callOn applyArguments)
open Cursor (Passes)
open Production (Covers)

/-! ## The tree -/

/-- A callee applied to each longest run of arguments at once, and to nothing at each empty pair,
which is an item without an argument. -/
def applications (callee : Node) (items : List (Option Node)) : Node :=
  ((items.splitBy fun item next => item.isSome && next.isSome).map List.reduceOption).foldl
    .call callee

theorem applications_append_none (callee : Node) (before after : List (Option Node)) :
    applications callee (before ++ none :: after) =
      applications (.call (applications callee before) []) after := by
  unfold applications
  rw [← List.singleton_append, List.splitBy_append (by simp), List.splitBy_append (by simp),
    List.map_append, List.map_append, List.foldl_append, List.foldl_append]
  rfl

theorem applications_arguments (callee : Node) (arguments : List Node) :
    applications callee (arguments.map some) =
      if arguments.isEmpty then callee else .call callee arguments := by
  cases arguments with
  | nil => rfl
  | cons argument arguments =>
    have hrun : ((argument :: arguments).map some).IsChain fun item next =>
        item.isSome && next.isSome := by
      rw [List.isChain_map]
      exact (List.pairwise_of_forall fun _ _ => rfl).isChain
    rw [applications, List.splitBy_of_isChain (by simp) hrun]
    have hgroup : ((argument :: arguments).map some).reduceOption = argument :: arguments :=
      List.filterMap_map.trans List.filterMap_some
    simpa using hgroup

theorem applyArguments_eq (callee : Node) (waiting : List Node) (items : List (Option Node)) :
    applyArguments callee waiting items =
      applications callee (waiting.reverse.map some ++ items) := by
  induction items generalizing callee waiting with
  | nil =>
    rw [List.append_nil, applications_arguments]
    simp [applyArguments, callOn]
  | cons item items ih =>
    cases item with
    | some argument => simp [applyArguments, ih]
    | none =>
      rw [applications_append_none, applications_arguments]
      simp [applyArguments, callOn, ih]

/-! ## The text -/

/-- Fields, each behind a dot. -/
inductive FieldsText : List String → List Token → Prop where
  | nil : FieldsText [] []
  | cons {dot field : Token} {fields : List String} {text : List Token} : dot.kind = .dot →
      field.kind.namesField = true → FieldsText fields text →
      FieldsText (field.value :: fields) (dot :: field :: text)

/-- A name or an expression in parentheses, with any number of fields behind it. -/
inductive CalleeText : Node → List Token → Prop where
  | name {token : Token} {fields : List String} {text : List Token} : token.kind = .identifier →
      FieldsText fields text →
      CalleeText (fields.foldl .access (.identifier token.value)) (token :: text)
  | enclosed {opening closing : Token} {node : Node} {inner : List Token} {fields : List String}
      {text : List Token} : opening.kind = .openParen →
      Covers (fun nested => nested.expression) node inner → closing.kind = .closeParen →
      FieldsText fields text →
      CalleeText (fields.foldl .access node) (opening :: (inner ++ closing :: text))

/-- An empty pair of parentheses, or an argument. -/
inductive ItemText : Option Node → List Token → Prop where
  | emptyPair {opening closing : Token} : opening.kind = .openParen →
      closing.kind = .closeParen → ItemText none [opening, closing]
  | argument {node : Node} {text : List Token} :
      Covers (fun nested => nested.inner .loosest) node text → ItemText (some node) text

variable {room : Nat} {rest : List Token}

theorem FieldsText.accesses {fields : List String} {text : List Token}
    (h : FieldsText fields text) (hdot : nextKind rest ≠ .dot) :
    Reading.Accesses fields (text ++ rest) rest := by
  induction h with
  | nil => exact .nil hdot
  | cons hkind hfield _ ih => exact .cons hkind hfield ih

theorem CalleeText.begins {callee : Node} {text : List Token} (h : CalleeText callee text)
    (rest : List Token) :
    nextKind (text ++ rest) = .identifier ∨ nextKind (text ++ rest) = .openParen := by
  cases h with
  | name hkind => exact .inl hkind
  | enclosed hkind => exact .inr hkind

theorem CalleeText.readOff {callee : Node} {text : List Token} (h : CalleeText callee text) :
    (Phrase.operand callee).ReadOff text (nextKind · ≠ .dot) := by
  cases h with
  | name hkind hfields =>
    exact ⟨0, fun room rest _ _ hdot => .accessor hkind (hfields.accesses hdot)⟩
  | @enclosed opening closing node inner fields text hopening hinner hclosing hfields =>
    obtain ⟨levels, hreads⟩ := hinner.readOff_expression
    refine ⟨levels, fun room rest hroom hcontent hdot => ?_⟩
    rw [List.cons_append, List.append_assoc, List.cons_append, List.forall_mem_cons] at *
    have hgroup := hreads hroom hcontent.2 (endsBefore_of_kind hclosing rfl)
    exact .grouping hopening hgroup hclosing (hfields.accesses hdot)

theorem Reads.startsInner_of_arguments {item : Option Node} {items : List (Option Node)}
    {input : List Token} (h : Reads room (.arguments (item :: items)) input rest) :
    (nextKind input).startsInner = true := by
  cases h with
  | emptyPair hopening =>
    rw [nextKind_cons, hopening]
    rfl
  | consArgument hargument => exact hargument.startsInner_of_inner

/-- What goes on neither with a call nor with its last item. -/
def ItemsEnd (rest : List Token) : Prop :=
  (nextKind rest).startsInner = false ∧ Tables.standard.operator? (nextKind rest) = none ∧
    nextKind rest ≠ .dot

theorem innerEnds_of_arguments {items : List (Option Node)} {input : List Token}
    (h : Reads room (.arguments items) input rest) (hrest : ItemsEnd rest) :
    Tables.standard.operator? (nextKind input) = none ∧ nextKind input ≠ .dot := by
  cases items with
  | nil =>
    cases h
    exact hrest.2
  | cons => exact Tables.operator?_of_startsInner h.startsInner_of_arguments

/-- The items behind a callee are read off their texts, as far as they go. -/
theorem arguments_readOff {items : List (Option Node)} {texts : List (List Token)}
    (h : List.Forall₂ ItemText items texts) :
    (Phrase.arguments items).ReadOff texts.flatten ItemsEnd := by
  induction h with
  | nil => exact ⟨0, fun room rest _ _ hrest => .noArgument hrest.1⟩
  | @cons item text items texts hitem hitems ih =>
    obtain ⟨levels, hmore⟩ := ih
    cases hitem with
    | emptyPair hopening hclosing =>
      refine ⟨levels, fun room rest hroom hcontent hrest => .emptyPair hopening hclosing ?_⟩
      exact hmore hroom (fun token hmem => hcontent token (by simp_all)) hrest
    | argument hargument =>
      obtain ⟨levels', hfirst⟩ := hargument.readOff_inner
      refine ⟨max levels levels', fun room rest hroom hcontent hrest => ?_⟩
      rw [List.flatten_cons, List.append_assoc] at hcontent ⊢
      have hreads := hmore (Nat.le_trans (Nat.le_max_left _ _) hroom)
        (List.forall_mem_append.1 hcontent).2 hrest
      obtain ⟨hoperator, hdot⟩ := innerEnds_of_arguments hreads hrest
      refine .consArgument (hfirst (Nat.le_trans (Nat.le_max_right _ _) hroom) hcontent ?_) hreads
      exact ⟨Tables.tighter?_eq_none hoperator _, hdot⟩

/-- A callee with its items is read as the tree of their applications. -/
theorem expression_of_items {callee : Node} {text : List Token} {items : List (Option Node)}
    {texts : List (List Token)} (hcallee : CalleeText callee text)
    (hitems : List.Forall₂ ItemText items texts) :
    (Phrase.expression (applications callee items)).ReadOff (text ++ texts.flatten) ItemsEnd := by
  obtain ⟨levels, hfirst⟩ := hcallee.readOff
  obtain ⟨levels', hmore⟩ := arguments_readOff hitems
  refine ⟨max levels levels' + 1, fun room rest hroom hcontent hrest => ?_⟩
  obtain ⟨room, rfl⟩ : ∃ fewer, room = fewer + 1 := ⟨room - 1, by omega⟩
  rw [List.append_assoc] at hcontent ⊢
  have hreads := hmore (by omega : levels' ≤ room) (List.forall_mem_append.1 hcontent).2 hrest
  obtain ⟨hoperator, hdot⟩ := innerEnds_of_arguments hreads hrest
  have hoperand := hfirst (by omega : levels ≤ room) hcontent hdot
  cases hitems with
  | nil =>
    exact .operation (hcallee.begins _) hoperand hrest.1
      (.noOperation (Tables.tighter?_eq_none hoperator _))
  | @cons item _ items _ hitem hitems =>
    have hcall := Reads.call (hcallee.begins _) hoperand hreads.startsInner_of_arguments hreads
    rwa [applyArguments_eq] at hcall

/-- A call takes its callee and all items behind it, and answers with the tree of their
applications. With no item it answers with the callee. -/
theorem application_of_items {callee : Node} {text : List Token} {items : List (Option Node)}
    {texts : List (List Token)} (hcallee : CalleeText callee text)
    (hitems : List.Forall₂ ItemText items texts) :
    ∃ levels, ∀ {limit room : Nat} {c c' : Cursor}, levels ≤ room →
      Passes (text ++ texts.flatten) c c' → c'.kind.startsInner = false →
      Tables.standard.operator? c'.kind = none → c'.kind ≠ .dot →
      (Grammar.within .standard limit room).application c = .ok (applications callee items) c' := by
  obtain ⟨levels, hreads⟩ := expression_of_items hcallee hitems
  refine ⟨levels, fun {limit room c c'} hroom hpasses hstarts hoperator hdot => ?_⟩
  have hcontent := hpasses.1 ▸ c.kind_ne_eof_of_mem_ahead
  have hbegins := hcallee.begins (texts.flatten ++ c'.ahead)
  rw [← List.append_assoc, ← hpasses.1, ← c.kind_eq_nextKind] at hbegins
  have hkind : c.kind ≠ .kwFn ∧ c.kind ≠ .kwMatch ∧ c.kind ≠ .kwDo := by
    rcases hbegins with hkind | hkind <;> simp [hkind]
  rw [c'.kind_eq_nextKind] at hstarts hoperator hdot
  have haccepts :=
    Grammar.accepts_application (P := fun _ => True) (Nested.exact_within limit room)
  exact haccepts.run_of_passes ⟨trivial, hkind⟩ hpasses
    (hreads (by omega) hcontent ⟨hstarts, hoperator, hdot⟩)

/-- Arguments on both sides of an empty pair, behind a field. -/
theorem application_of_items_access :
    let token (kind : Kind) (text : String) : Token := ⟨kind, text, default⟩
    let callee := [token .identifier "f", token .dot ".", token .identifier "g"]
    let difference := [token .identifier "x", token .dash "-", token .identifier "y"]
    let pair := [token .openParen "(", token .closeParen ")"]
    let last := [token .string "z"]
    let c := Cursor.ofTokens (callee ++ [difference, pair, last].flatten) ""
    ∃ levels c', Passes (callee ++ [difference, pair, last].flatten) c c' ∧
      (Grammar.within .standard levels levels).application c =
        .ok (.call (.call (.call (.access (.identifier "f") "g")
          [.arithmetic "-" (.identifier "x") (.identifier "y")]) []) [.string "z"]) c' := by
  intro token callee difference pair last c
  have hcallee : CalleeText (.access (.identifier "f") "g") callee :=
    @CalleeText.name (token .identifier "f") ["g"] _ rfl
      (@FieldsText.cons (token .dot ".") (token .identifier "g") [] [] rfl rfl .nil)
  have hdifference : ItemText (some (.arithmetic "-" (.identifier "x") (.identifier "y")))
      difference :=
    .argument ⟨3, 3, Cursor.ofTokens difference "", _, rfl, rfl, rfl, rfl, rfl, rfl⟩
  have hlast : ItemText (some (.string "z")) last :=
    .argument ⟨3, 3, Cursor.ofTokens last "", _, rfl, rfl, rfl, rfl, rfl, rfl⟩
  have hitems : List.Forall₂ ItemText [_, none, _] [difference, pair, last] :=
    .cons hdifference (.cons (.emptyPair rfl rfl) (.cons hlast .nil))
  obtain ⟨c', hpasses, hrest⟩ := Passes.exists_of_ahead (List.append_nil _).symm
  obtain ⟨levels, hrun⟩ := application_of_items hcallee hitems
  have hkind : c'.kind = .eof := c'.kind_eq_eof_iff.2 hrest
  refine ⟨levels, c', hpasses, hrun (Nat.le_refl levels) hpasses ?_ ?_ ?_⟩
  · rw [hkind]
    rfl
  · rw [hkind]
    rfl
  · rw [hkind]
    decide

end Offside
