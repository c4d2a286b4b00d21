import Offside.Proofs.Grammar.OperandReadings

/-! # Expressions

Operators, calls and the forms that hold bodies, with the productions of the next level exact. An
expression and an operand with its operators open a level, so they are read with one more left.
-/

namespace Offside.Grammar

open Parse

variable {nested : Nested} {room : Nat} {P : Cursor → Prop}

theorem accepts_operand (hn : nested.Exact room) :
    (ofNested .standard nested).operand.AcceptsOn P fun node => Reads room (.operand node) := by
  refine .byKind fun kind => ?_
  have fails (hkind : kind.startsInner = false) : (unexpected "expression" : Parse Node).AcceptsOn
      (fun c => P c ∧ c.kind = kind) fun node => Reads room (.operand node) := by
    refine acceptsOn_of_fails (fun c v c' _ => unexpected_ne_ok _ c v c') ?_
    rintro c node rest ⟨-, rfl⟩ h
    rw [c.kind_eq_nextKind, h.startsInner_of_operand] at hkind
    cases hkind
  cases kind with
  | number => exact accepts_literal (.inl rfl)
  | string => exact accepts_literal (.inr (.inl rfl))
  | boolean => exact accepts_literal (.inr (.inr rfl))
  | identifier => exact accepts_accessor
  | openParen => exact accepts_grouping hn
  | openBracket => exact accepts_array hn
  | openCurly => exact accepts_object hn
  | openQuote => exact accepts_quotation hn
  | ampersand => exact accepts_splice hn
  | kwIf => exact accepts_conditional hn
  | _ => exact fails rfl

/-- An operator that binds tighter than a power, and its right operand. -/
inductive OneOperation (room : Nat) (power : Power) : Reading (Operation × String × Node) where
  | mk {own : Power} {operation : Operation} {operator : Token} {right : Node}
      {input rest : List Token} :
      Tables.standard.tighter? power operator.kind = some (own, operation) →
      Reads room (.inner own right) input rest →
      OneOperation room power (operation, operator.value, right) (operator :: input) rest

theorem many_oneOperation_iff {power : Power} {items : List (Operation × String × Node)}
    {input rest : List Token} :
    (OneOperation room power).Many
        (fun input => Tables.standard.tighter? power (nextKind input) ≠ none) items input rest ↔
      Reads room (.operations power items) input rest := by
  constructor
  · intro h
    induction h with
    | nil hstop => exact .noOperation (not_not.1 hstop)
    | cons _ hitem _ ih =>
      cases hitem with
      | mk hoperator hright => exact .consOperation hoperator hright ih
  · intro h
    induction items generalizing input with
    | nil =>
      cases h with
      | noOperation hstop => exact .nil (not_not.2 hstop)
    | cons item items ih =>
      cases h with
      | consOperation hoperator hright h =>
        exact .cons (by simp [hoperator]) (.mk hoperator hright) (ih h)

theorem accepts_operations (hn : nested.Exact room) (power : Power) :
    ((ofNested .standard nested).operations power).AcceptsOn P
      fun items => Reads room (.operations power items) := by
  refine .congr (acceptsOn_collect (P := fun _ => True) (R := OneOperation room power)
    (G := fun input => Tables.standard.tighter? power (nextKind input) ≠ none)
    (fun _ _ => trivial) ?_ ?_ ?_).on fun _ _ _ => many_oneOperation_iff
  · intro item input rest h
    cases h with
    | mk _ hright => exact Nat.lt_succ_of_lt (hright.length_lt rfl)
  · intro c _
    rw [Option.map_eq_none_iff, c.kind_eq_nextKind, not_not]
    rfl
  · intro c item _ h
    obtain ⟨⟨own, operation⟩, hoperator, rfl⟩ := Option.map_eq_some_iff.1 h
    change Tables.standard.tighter? power c.kind = _ at hoperator
    have hend : c.kind ≠ .eof := by
      intro heof
      rw [heof] at hoperator
      cases hoperator
    rw [c.kind_eq_nextKind] at hoperator
    refine .congrOn ((acceptsOn_text (by rintro _ rfl; exact hend)).bind fun _ =>
      (hn.inner own).bind fun _ => accepts_pure _) ?_
    rintro c item rest rfl
    constructor
    · rintro ⟨_, _, ⟨operator, hahead, rfl⟩, right, _, hright, rfl, rfl⟩
      rw [hahead] at hoperator ⊢
      exact .mk hoperator hright
    · intro h
      generalize c.ahead = input at h hoperator
      cases h with
      | mk hoperator' hright =>
        rw [nextKind_cons, hoperator'] at hoperator
        cases hoperator
        exact ⟨_, _, ⟨_, rfl, rfl⟩, _, _, hright, rfl, rfl⟩

theorem accepts_operatorTail (hn : nested.Exact room) (left : Node) (power : Power) :
    ((ofNested .standard nested).operatorTail left power).AcceptsOn P fun node input rest =>
      ∃ items, Reads room (.operations power items) input rest ∧
        node = applyOperations left items := by
  refine .congr ((accepts_operations hn power).bind fun _ => accepts_pure _) ?_
  intro node input rest
  constructor
  · rintro ⟨items, _, hitems, rfl, rfl⟩
    exact ⟨items, hitems, rfl⟩
  · rintro ⟨items, hitems, rfl⟩
    exact ⟨items, rest, hitems, rfl, rfl⟩

theorem accepts_innerBody (hn : nested.Exact room) (power : Power) :
    ((ofNested .standard nested).innerBody power).AcceptsOn P
      fun node => Reads (room + 1) (.inner power node) := by
  refine .congr ((accepts_operand hn).bind fun left => accepts_operatorTail hn left power) ?_
  intro node input rest
  constructor
  · rintro ⟨left, mid, hleft, items, hitems, rfl⟩
    exact .inner hleft hitems
  · intro h
    cases h with
    | inner hleft hitems => exact ⟨_, _, hleft, _, hitems, rfl⟩

theorem many_argument_iff {items : List (Option Node)} {input rest : List Token} :
    (OrEmptyPair fun node => Reads room (.inner .loosest node)).Many
        (fun input => (nextKind input).startsInner = true) items input rest ↔
      Reads room (.arguments items) input rest := by
  constructor
  · intro h
    induction h with
    | nil hstop => exact .noArgument (Bool.not_eq_true _ ▸ hstop)
    | @cons item items _ _ _ _ hitem _ ih =>
      cases item with
      | none =>
        obtain ⟨opening, closing, rfl, hopening, hclosing⟩ := hitem
        exact .emptyPair hopening hclosing ih
      | some argument => exact .consArgument hitem ih
  · intro h
    induction items generalizing input with
    | nil =>
      cases h with
      | noArgument hstop => exact .nil (Bool.not_eq_true _ ▸ hstop)
    | cons item items ih =>
      cases h with
      | emptyPair hopening hclosing h =>
        exact .cons (by simp [hopening, Kind.startsInner]) ⟨_, _, rfl, hopening, hclosing⟩ (ih h)
      | consArgument hargument h => exact .cons hargument.startsInner_of_inner hargument (ih h)

theorem accepts_arguments (hn : nested.Exact room) :
    (ofNested .standard nested).arguments.AcceptsOn P
      fun items => Reads room (.arguments items) := by
  refine .congr (accepts_collect_orEmptyPair (s := fun c => c.kind.startsInner)
    (G := fun input => (nextKind input).startsInner = true) ?_ (hn.inner .loosest) ?_ ?_)
    fun _ _ _ => many_argument_iff
  · intro c
    rw [c.kind_eq_nextKind]
  · intro node input rest h
    exact h.length_lt rfl
  · intro node input rest h
    exact h.not_emptyPairAhead_of_inner

/-- What follows a callee decides between a call and an operation. -/
theorem accepts_calleeTail (hn : nested.Exact room) (callee : Node) :
    (do
      if (← kind).startsInner then
        return applyArguments callee [] (← (ofNested .standard nested).arguments)
      else (ofNested .standard nested).operatorTail callee .loosest : Parse Node).Accepts
      fun node input rest =>
        (nextKind input).startsInner = true ∧ (∃ items,
          Reads room (.arguments items) input rest ∧ node = applyArguments callee [] items) ∨
        (nextKind input).startsInner = false ∧ ∃ items,
          Reads room (.operations .loosest items) input rest ∧
            node = applyOperations callee items := by
  refine .byKind fun kind => .ite (fun hkind => ?_) fun hkind => ?_
  · refine .congrKind ((accepts_arguments hn).bind fun _ => accepts_pure _) ?_
    rintro node input rest rfl
    constructor
    · rintro ⟨items, _, hitems, rfl, rfl⟩
      exact .inl ⟨hkind, items, hitems, rfl⟩
    · rintro (⟨-, items, hitems, rfl⟩ | ⟨h, -⟩)
      · exact ⟨items, rest, hitems, rfl, rfl⟩
      · simp [h] at hkind
  · refine .congrKind (accepts_operatorTail hn callee .loosest) ?_
    rintro node input rest rfl
    simp [hkind]

theorem accepts_application (hn : nested.Exact room) :
    (ofNested .standard nested).application.AcceptsOn
      (fun c => P c ∧ c.kind ≠ .kwFn ∧ c.kind ≠ .kwMatch ∧ c.kind ≠ .kwDo)
      fun node => Reads (room + 1) (.expression node) := by
  refine .byKind fun kind => .ite (fun hkind => ?_) fun hkind => ?_
  · refine .congrKind ((accepts_operand hn).bind (accepts_calleeTail hn)) ?_
    rintro node input rest rfl
    have hahead : nextKind input = .identifier ∨ nextKind input = .openParen := by
      simpa using hkind
    constructor
    · rintro ⟨callee, mid, hcallee, ⟨hstarts, items, hitems, rfl⟩ | ⟨hstarts, items, hitems, rfl⟩⟩
      · exact .call hahead hcallee hstarts hitems
      · exact .operation hahead hcallee hstarts hitems
    · intro h
      cases h with
      | call _ hcallee hstarts hitems =>
        exact ⟨_, _, hcallee, .inl ⟨hstarts, _, hitems, rfl⟩⟩
      | operation _ hcallee hstarts hitems =>
        exact ⟨_, _, hcallee, .inr ⟨hstarts, _, hitems, rfl⟩⟩
      | other hident hopen => exact absurd hahead (not_or.2 ⟨hident, hopen⟩)
      | _ => simp_all
  · refine (hn.inner .loosest).on.congrOn ?_
    rintro c node rest ⟨⟨-, hfn, hmatch, hdo⟩, rfl⟩
    rw [c.kind_eq_nextKind] at hkind hfn hmatch hdo
    generalize c.ahead = input at hkind hfn hmatch hdo
    have hahead : nextKind input ≠ .identifier ∧ nextKind input ≠ .openParen := by
      simpa using hkind
    constructor
    · exact .other hahead.1 hahead.2
    · intro h
      cases h with
      | other _ _ h => exact h
      | call h | operation h => exact absurd h (not_or.2 hahead)
      | _ => simp_all

end Offside.Grammar
