import Offside.Proofs.Grammar.BodyReadings

/-! # Lines and blocks

The declarations, the lines of a `do`, and the two kinds of block.
-/

namespace Offside.Grammar

open Parse

variable {nested : Nested} {room : Nat} {sequence : Bool} {P : Cursor → Prop}

/-- The value of a binding, which may be indented. -/
inductive BoundValue (room : Nat) : Reading Node where
  | inline {node : Node} {input rest : List Token} : Reads room (.expression node) input rest →
      BoundValue room node input rest
  | indented {indent outdent : Token} {node : Node} {input mid rest : List Token} :
      indent.kind = .indent → Reads room (.expression node) input mid →
      afterTerminators mid = outdent :: rest → outdent.kind = .outdent →
      BoundValue room node (indent :: input) rest

theorem accepts_boundValue (hn : nested.Exact room) :
    (ofNested .standard nested).boundValue.AcceptsOn P (BoundValue room) := by
  refine .byKind fun kind => .ite (fun hkind => ?_) fun hkind => ?_
  · refine .congrKind ((acceptsOn_advance ?_).bind fun _ => hn.expression.bind fun _ =>
      accepts_skipTerminators.bind fun _ => (accepts_expect (by decide)).bind fun _ =>
        accepts_pure _) ?_
    · rintro c ⟨-, rfl⟩
      simp [hkind]
    · rintro node input rest rfl
      constructor
      · rintro ⟨_, _, rfl, _, _, hnode, _, _, ⟨-, rfl⟩, _, _, ⟨hafter, houtdent⟩, rfl, rfl⟩
        exact .indented hkind hnode hafter houtdent
      · intro h
        cases h with
        | inline h =>
          exact absurd hkind (h.nextKind_ne rfl)
        | indented _ hnode hafter houtdent =>
          exact ⟨_, _, rfl, _, _, hnode, _, _, ⟨rfl, rfl⟩, _, _, ⟨hafter, houtdent⟩, rfl, rfl⟩
  · refine .congrKind hn.expression.on ?_
    rintro node input rest rfl
    constructor
    · exact .inline
    · intro h
      cases h with
      | inline h => exact h
      | indented hindent => exact absurd hindent hkind

/-- What follows the name in a binding without parameters. -/
theorem accepts_valueTail (hn : nested.Exact room) (name : String) :
    (do
      let type? ← optionalType
      let _ ← expect .assignment
      let value ← (ofNested .standard nested).boundValue
      return .letValue name type? value : Parse Node).AcceptsOn P fun node input rest =>
      ∃ type? assign value mid, Reading.OptionalType type? input (assign :: mid) ∧
        assign.kind = .assignment ∧ BoundValue room value mid rest ∧
          node = .letValue name type? value := by
  refine .congr (accepts_optionalType.bind fun _ => (accepts_expect (by decide)).bind fun _ =>
    (accepts_boundValue hn).bind fun _ => accepts_pure _) ?_
  intro node input rest
  constructor
  · rintro ⟨type?, _, htype, assign, mid, ⟨rfl, hassign⟩, value, _, hvalue, rfl, rfl⟩
    exact ⟨type?, assign, value, mid, htype, hassign, hvalue, rfl⟩
  · rintro ⟨type?, assign, value, mid, htype, hassign, hvalue, rfl⟩
    exact ⟨type?, _, htype, assign, mid, ⟨rfl, hassign⟩, value, _, hvalue, rfl, rfl⟩

/-- A declaration of `let` is a function or a binding by what follows the name. -/
def LetTail (room : Nat) (name : String) : Reading Node := fun node input rest =>
  (nextKind input = .identifier ∨ nextKind input = .openParen) ∧
    (∃ params type? nodes mid, Reading.Signature (params, type?) input mid ∧
      Reads room (.body nodes) mid rest ∧ node = .function (some name) params type? nodes) ∨
  nextKind input ≠ .identifier ∧ nextKind input ≠ .openParen ∧
    ∃ type? assign value mid, Reading.OptionalType type? input (assign :: mid) ∧
      assign.kind = .assignment ∧ BoundValue room value mid rest ∧ node = .letValue name type? value

theorem accepts_letTail (hn : nested.Exact room) (name : String) :
    (do
      let next ← kind
      if next = .identifier || next = .openParen then
        (ofNested .standard nested).functionTail (some name)
      else
        let type? ← optionalType
        let _ ← expect .assignment
        let value ← (ofNested .standard nested).boundValue
        return .letValue name type? value : Parse Node).AcceptsOn P (LetTail room name) := by
  refine .byKind fun kind => .ite (fun hkind => ?_) fun hkind => ?_
  · refine .congrKind (accepts_functionTail hn (some name)) ?_
    rintro node input rest rfl
    have hahead : nextKind input = .identifier ∨ nextKind input = .openParen := by
      simpa using hkind
    exact ⟨fun h => .inl ⟨hahead, h⟩, fun h =>
      (h.resolve_right fun h => hahead.elim h.1 h.2.1).2⟩
  · refine .congrKind (accepts_valueTail hn name) ?_
    rintro node input rest rfl
    have hahead : nextKind input ≠ .identifier ∧ nextKind input ≠ .openParen := by
      simpa using hkind
    exact ⟨fun h => .inr ⟨hahead.1, hahead.2, h⟩, fun h =>
      (h.resolve_left fun h => h.1.elim hahead.1 hahead.2).2.2⟩

theorem paramAhead_of_signature {signature : List Param × Option String}
    {input rest : List Token} (h : Reading.Signature signature input rest) :
    nextKind input = .identifier ∨ nextKind input = .openParen := by
  cases h with
  | mk hahead => exact hahead.imp id And.left

theorem accepts_letDeclaration (hn : nested.Exact room) :
    (ofNested .standard nested).letDeclaration.AcceptsOn (fun c => P c ∧ c.kind = .kwLet)
      fun node => Reads room (.line sequence node) := by
  refine .congrKind ((accepts_expect (by decide)).bind fun _ =>
    (accepts_declaredName _).bind fun name => accepts_letTail hn name) ?_
  intro node input rest hkind
  constructor
  · rintro ⟨_, _, ⟨rfl, hhead⟩, _, _, ⟨name, rfl, hname, rfl⟩,
      ⟨-, params, type?, nodes, mid, hsignature, hbody, rfl⟩ |
      ⟨hident, hopen, type?, assign, value, mid, htype, hassign, hvalue, rfl⟩⟩
    · exact .letFunction hhead hname hsignature hbody
    · cases hvalue with
      | inline hvalue => exact .letValue hhead hname hident hopen htype hassign hvalue
      | indented hindent hvalue hafter houtdent =>
        exact .letIndented hhead hname hident hopen htype hassign hindent hvalue hafter houtdent
  · intro h
    cases h with
    | letFunction hhead hname hsignature hbody =>
      exact ⟨_, _, ⟨rfl, hhead⟩, _, _, ⟨_, rfl, hname, rfl⟩,
        .inl ⟨paramAhead_of_signature hsignature, _, _, _, _, hsignature, hbody, rfl⟩⟩
    | letValue hhead hname hident hopen htype hassign hvalue =>
      exact ⟨_, _, ⟨rfl, hhead⟩, _, _, ⟨_, rfl, hname, rfl⟩,
        .inr ⟨hident, hopen, _, _, _, _, htype, hassign, .inline hvalue, rfl⟩⟩
    | letIndented hhead hname hident hopen htype hassign hindent hvalue hafter houtdent =>
      exact ⟨_, _, ⟨rfl, hhead⟩, _, _, ⟨_, rfl, hname, rfl⟩, .inr ⟨hident, hopen, _, _, _, _,
        htype, hassign, .indented hindent hvalue hafter houtdent, rfl⟩⟩
    | expressionLine h =>
      exact absurd hkind (h.nextKind_ne rfl)
    | _ => simp_all

/-- The variants of a type, which may be indented. -/
inductive BoundVariants : Reading (List Variant) where
  | inline {variants : List Variant} {input rest : List Token} :
      Reading.Variants false variants input rest → BoundVariants variants input rest
  | indented {indent outdent : Token} {variants : List Variant} {input mid rest : List Token} :
      indent.kind = .indent → Reading.Variants true variants input mid →
      afterTerminators mid = outdent :: rest → outdent.kind = .outdent →
      BoundVariants variants (indent :: input) rest

theorem accepts_dataTail (name : String) (params : List Param) :
    (do
      if (← kind) = .indent then
        let _ ← advance
        let variants ← variants true
        let _ ← skipTerminators
        let _ ← expect .outdent
        return .dataType name params variants
      else return .dataType name params (← variants false) : Parse Node).AcceptsOn P
      fun node input rest => ∃ variants, BoundVariants variants input rest ∧
        node = .dataType name params variants := by
  refine .byKind fun kind => .ite (fun hkind => ?_) fun hkind => ?_
  · refine .congrKind ((acceptsOn_advance ?_).bind fun _ => (accepts_variants true).bind fun _ =>
      accepts_skipTerminators.bind fun _ => (accepts_expect (by decide)).bind fun _ =>
        accepts_pure _) ?_
    · rintro c ⟨-, rfl⟩
      simp [hkind]
    · rintro node input rest rfl
      constructor
      · rintro ⟨_, _, rfl, _, _, hvariants, _, _, ⟨-, rfl⟩, _, _, ⟨hafter, houtdent⟩, rfl, rfl⟩
        exact ⟨_, .indented hkind hvariants hafter houtdent, rfl⟩
      · rintro ⟨variants, h, rfl⟩
        cases h with
        | inline h => cases h <;> simp_all
        | indented _ hvariants hafter houtdent =>
          exact ⟨_, _, rfl, _, _, hvariants, _, _, ⟨rfl, rfl⟩, _, _, ⟨hafter, houtdent⟩, rfl, rfl⟩
  · refine .congrKind ((accepts_variants false).bind fun _ => accepts_pure _) ?_
    rintro node input rest rfl
    constructor
    · rintro ⟨variants, _, hvariants, rfl, rfl⟩
      exact ⟨variants, .inline hvariants, rfl⟩
    · rintro ⟨variants, h, rfl⟩
      cases h with
      | inline h => exact ⟨_, _, h, rfl, rfl⟩
      | indented hindent => exact absurd hindent hkind

theorem accepts_dataDeclaration :
    dataDeclaration.AcceptsOn (fun c => P c ∧ c.kind = .kwData)
      fun node => Reads room (.line sequence node) := by
  refine .congrKind ((accepts_expect (by decide)).bind fun _ =>
    (accepts_declaredName _).bind fun name => accepts_optionalParams.bind fun params =>
      (accepts_expect (by decide)).bind fun _ => accepts_dataTail name params) ?_
  intro node input rest hkind
  constructor
  · rintro ⟨_, _, ⟨rfl, hhead⟩, _, _, ⟨name, rfl, hname, rfl⟩, params, _, hparams, assign, _,
      ⟨rfl, hassign⟩, variants, hvariants, rfl⟩
    cases hvariants with
    | inline hvariants => exact .dataType hhead hname hparams hassign hvariants
    | indented hindent hvariants hafter houtdent =>
      exact .dataIndented hhead hname hparams hassign hindent hvariants hafter houtdent
  · intro h
    cases h with
    | dataType hhead hname hparams hassign hvariants =>
      exact ⟨_, _, ⟨rfl, hhead⟩, _, _, ⟨_, rfl, hname, rfl⟩, _, _, hparams, _, _, ⟨rfl, hassign⟩,
        _, .inline hvariants, rfl⟩
    | dataIndented hhead hname hparams hassign hindent hvariants hafter houtdent =>
      exact ⟨_, _, ⟨rfl, hhead⟩, _, _, ⟨_, rfl, hname, rfl⟩, _, _, hparams, _, _, ⟨rfl, hassign⟩,
        _, .indented hindent hvariants hafter houtdent, rfl⟩
    | expressionLine h =>
      exact absurd hkind (h.nextKind_ne rfl)
    | _ => simp_all

theorem accepts_macroDeclaration (hn : nested.Exact room) :
    (ofNested .standard nested).macroDeclaration.AcceptsOn (fun c => P c ∧ c.kind = .kwMacro)
      fun node => Reads room (.line sequence node) := by
  refine .congrKind ((accepts_expect (by decide)).bind fun _ =>
    (accepts_declaredName _).bind fun name => (accepts_expect (by decide)).bind fun _ =>
      (accepts_blockOrExpression hn).bind fun _ => accepts_pure _) ?_
  intro node input rest hkind
  constructor
  · rintro ⟨_, _, ⟨rfl, hhead⟩, _, _, ⟨name, rfl, hname, rfl⟩, _, _, ⟨rfl, hassign⟩, nodes, _,
      hbody, rfl, rfl⟩
    exact .macroBody hhead hname hassign hbody
  · intro h
    cases h with
    | macroBody hhead hname hassign hbody =>
      exact ⟨_, _, ⟨rfl, hhead⟩, _, _, ⟨_, rfl, hname, rfl⟩, _, _, ⟨rfl, hassign⟩, _, _, hbody,
        rfl, rfl⟩
    | expressionLine h =>
      exact absurd hkind (h.nextKind_ne rfl)
    | _ => simp_all

end Offside.Grammar
