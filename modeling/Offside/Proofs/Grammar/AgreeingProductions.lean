import Offside.Proofs.Grammar.Agreement
import Offside.Proofs.Grammar.Exact

/-! # Agreement of productions

If the productions of the next level agree, so do those of this level. The reason for failing is
counted in tokens: two levels more than twice the tokens ahead are enough for an expression, and one
more for an operand or a block. A token that is read pays for the two levels that may be open
before the next one.
-/

namespace Offside

/-- The productions that open a level agree wherever enough levels are left for the tokens ahead. -/
structure Nested.Agree (limit room : Nat) (nested nested' : Nested) : Prop where
  expression (c : Cursor) : Parse.Agrees limit (room ≤ 2 * c.ahead.length + 1)
    nested.expression nested'.expression c
  inner (power : Power) (c : Cursor) : Parse.Agrees limit (room ≤ 2 * c.ahead.length)
    (nested.inner power) (nested'.inner power) c
  block (c : Cursor) : Parse.Agrees limit (room ≤ 2 * c.ahead.length) nested.block nested'.block c
  sequenceBlock (c : Cursor) : Parse.Agrees limit (room ≤ 2 * c.ahead.length)
    nested.sequenceBlock nested'.sequenceBlock c

namespace Grammar

open Parse

/-! ## Productions that open no level -/

section Levelless

variable {limit : Nat} {reason : Prop} {c : Cursor}

theorem agrees_typeName : Agrees limit reason typeName typeName c :=
  (agrees_expectAs _ _).bindPure _

theorem agrees_declaredName (declaration : String) :
    Agrees limit reason (declaredName declaration) (declaredName declaration) c :=
  (agrees_expectAs _ _).bindPure _

theorem agrees_fieldName : Agrees limit reason fieldName fieldName c :=
  .byKind <| .ite (fun _ => agrees_text) fun _ => agrees_unexpected _

theorem agrees_optionalType : Agrees limit reason optionalType optionalType c :=
  .byKind <| .ite (fun _ => agrees_advance.bind fun _ _ _ _ => agrees_typeName.bindPure _)
    fun _ => .pure none

theorem agrees_param : Agrees limit reason param param c := by
  refine .byKind <| .ite (fun _ => agrees_text.bindPure _) fun _ => ?_
  exact agrees_expect.bind fun _ _ _ _ => agrees_expect.bind fun _ _ _ _ =>
    agrees_optionalType.bind fun _ _ _ _ => agrees_expect.bindPure _

theorem agrees_emptyPair : Agrees limit reason emptyPair emptyPair c :=
  agrees_advance.bind fun _ _ _ _ => agrees_advance.bindPure _

theorem agrees_optionalParams : Agrees limit reason optionalParams optionalParams c := by
  refine .bindPure (agrees_collect fun c' _ => ?_) _
  split
  · exact .none
  · split
    · exact .some (agrees_emptyPair.bindPure _)
    · exact .some (agrees_param.map some)

theorem agrees_params : Agrees limit reason params params c := by
  change Agrees limit reason (if startsParam c then _ else _) (if startsParam c then _ else _) c
  exact .ite (fun _ => agrees_optionalParams) fun _ => agrees_unexpected _

theorem agrees_accessTail (target : Node) :
    Agrees limit reason (accessTail target) (accessTail target) c := by
  refine .bindPure (agrees_collect fun c' _ => ?_) _
  split
  · exact .some (agrees_advance.bind fun _ _ _ _ => agrees_fieldName)
  · exact .none

theorem agrees_accessor : Agrees limit reason accessor accessor c :=
  agrees_expect.bind fun _ _ _ _ => agrees_accessTail _

theorem agrees_numeral : Agrees limit reason numeral numeral c := by
  refine agrees_advance.bind fun token c' _ _ => ?_
  split
  · exact .pure _
  · exact .of_plain fun _ => nofun

theorem agrees_literal : Agrees limit reason literal literal c := by
  refine .byKind ?_
  split
  · exact agrees_numeral
  · exact agrees_text.bindPure _
  · exact agrees_text.bindPure _
  · exact agrees_unexpected _

theorem agrees_casePattern : Agrees limit reason casePattern casePattern c := by
  refine .byKind ?_
  split
  · exact agrees_text.bindPure _
  · exact agrees_advance.bind fun _ _ _ _ => agrees_expect.bind fun _ _ _ _ =>
      agrees_expect.bind fun _ _ _ _ => (agrees_skip _).bind fun _ _ _ _ =>
        agrees_expect.bindPure _
  · exact agrees_unexpected _

theorem agrees_variant : Agrees limit reason variant variant c :=
  (agrees_declaredName _).bind fun _ _ _ _ => agrees_optionalParams.bindPure _

theorem agrees_variants (indented : Bool) :
    Agrees limit reason (variants indented) (variants indented) c := by
  refine agrees_variant.bind fun first c' _ _ => .bindPure (agrees_collect fun c'' _ => ?_) _
  split
  · exact .some (agrees_advance.bind fun _ _ _ _ => agrees_variant)
  · split
    · exact .some (agrees_advance.bind fun _ _ _ _ =>
        agrees_advance.bind fun _ _ _ _ => agrees_variant)
    · exact .none

theorem agrees_dataDeclaration : Agrees limit reason dataDeclaration dataDeclaration c := by
  refine agrees_expect.bind fun _ _ _ _ => (agrees_declaredName _).bind fun name _ _ _ =>
    agrees_optionalParams.bind fun params _ _ _ => agrees_expect.bind fun _ _ _ _ =>
      .byKind <| .ite (fun _ => ?_) fun _ => (agrees_variants false).bindPure _
  exact agrees_advance.bind fun _ _ _ _ => (agrees_variants true).bind fun _ _ _ _ =>
    agrees_skipTerminators.bind fun _ _ _ _ => agrees_expect.bindPure _

end Levelless

/-! ## Productions of a level -/

variable {limit room : Nat} {nested nested' : Nested} {c : Cursor}

section Operands

variable {g g' : Grammar} (h : g.nested.Agree limit room g'.nested)
include h

theorem agrees_grouping :
    Agrees limit (room + 1 ≤ 2 * c.ahead.length) g.grouping g'.grouping c := by
  refine .expectBind (by decide) fun _ c₁ hlt => ?_
  refine ((h.expression c₁).mono (by omega)).bind fun inner _ _ _ => ?_
  exact agrees_expect.bind fun _ _ _ _ => agrees_accessTail inner

theorem agrees_splice :
    Agrees limit (room + 1 ≤ 2 * c.ahead.length) g.splice g'.splice c := by
  refine .expectBind (by decide) fun _ c₁ hlt => agrees_expect.bind fun _ c₂ _ hle => ?_
  refine ((h.expression c₂).mono (by omega)).bind fun inner _ _ _ => ?_
  exact agrees_expect.bindPure _

theorem agrees_quotation :
    Agrees limit (room + 1 ≤ 2 * c.ahead.length) g.quotation g'.quotation c := by
  refine .expectBind (by decide) fun _ c₁ hlt => ?_
  refine ((h.expression c₁).mono (by omega)).bind fun inner _ _ _ => ?_
  exact agrees_expect.bindPure _

theorem agrees_array :
    Agrees limit (room + 1 ≤ 2 * c.ahead.length) g.array g'.array c := by
  rw [array_eq, array_eq]
  refine .expectBind (by decide) fun _ c₁ hlt => ?_
  refine .bind (.byKind <| .ite (fun _ => .pure []) fun _ => ?_) fun _ _ _ _ =>
    agrees_expect.bindPure _
  exact agrees_separated fun c₂ hle => (h.expression c₂).mono (by omega)

theorem agrees_pair :
    Agrees limit (room ≤ 2 * c.ahead.length + 1) g.pair g'.pair c := by
  refine agrees_fieldName.bind fun key c₁ _ hle => agrees_expect.bind fun _ c₂ _ hle' => ?_
  exact ((h.expression c₂).mono (by omega)).bindPure _

theorem agrees_pairLine :
    Agrees limit (room ≤ 2 * c.ahead.length + 1) g.pairLine g'.pairLine c := by
  have ending (entry : String × Node) (comma : Prop) [Decidable comma] (c₁ : Cursor) :=
    @agrees_endLine_unless _ limit (room ≤ 2 * c.ahead.length + 1) c₁
      (fun ended kind => !ended && !decide comma && kind != .outdent) Kind.outdent.name entry
  exact (agrees_pair h).bind fun entry c₁ _ _ => .byKind <| .ite
    (fun _ => agrees_advance.bind fun _ c₂ _ _ => ending entry _ c₂) fun _ => ending entry _ c₁

theorem agrees_object :
    Agrees limit (room + 1 ≤ 2 * c.ahead.length) g.object g'.object c := by
  rw [object_eq, object_eq]
  refine .expectBind (by decide) fun _ c₁ hlt => ?_
  refine .bind (.byKind ?_) fun _ _ _ _ => agrees_expect.bindPure _
  split
  · refine agrees_advance.bind fun _ c₂ _ hle => agrees_skipTerminators.bind fun _ c₃ _ hle' =>
      .bind (agrees_collect fun c₄ hle'' => ?_) fun _ _ _ _ => agrees_expect.bind fun _ _ _ _ =>
        agrees_skipTerminators.bindPure _
    split
    · exact .none
    · exact .some ((agrees_pairLine h).mono (by omega))
  · exact .pure []
  · exact agrees_separated fun c₂ hle => (agrees_pair h).mono (by omega)

theorem agrees_conditional :
    Agrees limit (room + 1 ≤ 2 * c.ahead.length) g.conditional g'.conditional c := by
  refine .expectBind (by decide) fun _ c₁ hlt => ?_
  refine ((h.inner _ c₁).mono (by omega)).bind fun _ c₂ _ hle => ?_
  refine agrees_expect.bind fun _ c₃ _ hle₃ => ?_
  refine ((h.block c₃).mono (by omega)).bind fun _ c₄ _ hle₄ => ?_
  refine agrees_expect.bind fun _ c₅ _ hle₅ => agrees_expect.bind fun _ c₆ _ hle₆ => ?_
  exact ((h.block c₆).mono (by omega)).bindPure _

end Operands

variable (h : nested.Agree limit room nested') (hexact : nested.Exact room)

section

include h

theorem agrees_operand :
    Agrees limit (room + 1 ≤ 2 * c.ahead.length) (ofNested .standard nested).operand
      (ofNested .standard nested').operand c := by
  have hg : (ofNested .standard nested).nested.Agree limit room
      (ofNested .standard nested').nested := h
  refine .byKind ?_
  generalize c.kind = kind
  cases kind with
  | number | string | boolean => exact agrees_literal
  | identifier => exact agrees_accessor
  | openParen => exact agrees_grouping hg
  | openBracket => exact agrees_array hg
  | openCurly => exact agrees_object hg
  | openQuote => exact agrees_quotation hg
  | ampersand => exact agrees_splice hg
  | kwIf => exact agrees_conditional hg
  | _ => exact agrees_unexpected _

theorem agrees_operatorTail (left : Node) (power : Power) :
    Agrees limit (room ≤ 2 * c.ahead.length) ((ofNested .standard nested).operatorTail left power)
      ((ofNested .standard nested').operatorTail left power) c := by
  refine .bindPure (agrees_collect fun c₁ hle => ?_) _
  change Option.Rel _ (Option.map _ (Tables.standard.tighter? power c₁.kind))
    (Option.map _ (Tables.standard.tighter? power c₁.kind))
  cases Tables.standard.tighter? power c₁.kind with
  | none => exact .none
  | some entry =>
    refine .some (agrees_text.bind fun operator c₂ _ hle' => ?_)
    exact ((h.inner entry.1 c₂).mono (by omega)).bindPure _

theorem agrees_arguments :
    Agrees limit (room ≤ 2 * c.ahead.length) (ofNested .standard nested).arguments
      (ofNested .standard nested').arguments c := by
  refine agrees_collect fun c₁ hle => ?_
  split
  · exact .none
  · split
    · exact .some (agrees_emptyPair.bindPure _)
    · exact .some (((h.inner .loosest c₁).mono (by omega)).map some)

theorem agrees_blockOrExpression :
    Agrees limit (room ≤ 2 * c.ahead.length + 1) (ofNested .standard nested).blockOrExpression
      (ofNested .standard nested').blockOrExpression c :=
  .byKind <| .ite (fun _ => (h.block c).mono (by omega)) fun _ => (h.expression c).bindPure _

theorem agrees_functionTail (name? : Option String) :
    Agrees limit (room ≤ 2 * c.ahead.length + 1) ((ofNested .standard nested).functionTail name?)
      ((ofNested .standard nested').functionTail name?) c := by
  refine agrees_params.bind fun params c₁ _ hle => agrees_optionalType.bind fun type? c₂ _ hle₂ =>
    agrees_expect.bind fun _ c₃ _ hle₃ => ?_
  exact ((agrees_blockOrExpression h).mono (by omega)).bindPure _

theorem agrees_function :
    Agrees limit (room + 1 ≤ 2 * c.ahead.length) (ofNested .standard nested).function
      (ofNested .standard nested').function c :=
  .expectBind (by decide) fun _ c₁ hlt => (agrees_functionTail h none).mono (by omega)

theorem agrees_caseArm :
    Agrees limit (room + 1 ≤ 2 * c.ahead.length) (ofNested .standard nested).caseArm
      (ofNested .standard nested').caseArm c := by
  refine .expectBind (by decide) fun _ c₁ hlt => agrees_casePattern.bind fun pattern c₂ _ hle =>
    agrees_expect.bind fun _ c₃ _ hle₃ => ?_
  exact ((h.expression c₃).mono (by omega)).bindPure _

theorem agrees_caseArms :
    Agrees limit (room + 1 ≤ 2 * c.ahead.length) (ofNested .standard nested).caseArms
      (ofNested .standard nested').caseArms c := by
  have line (c₁ : Cursor) (hle : c₁.ahead.length ≤ c.ahead.length) :
      Agrees limit (room + 1 ≤ 2 * c.ahead.length)
        (do let arm ← (ofNested .standard nested).caseArm; let _ ← endLine; return arm)
        (do let arm ← (ofNested .standard nested').caseArm; let _ ← endLine; return arm) c₁ :=
    ((agrees_caseArm h).mono (by omega)).bind fun _ _ _ _ => agrees_endLine.bindPure _
  refine (line c (Nat.le_refl _)).bind fun first c₁ _ hle => .bindPure (agrees_collect ?_) _
  intro c₂ hle₂
  split
  · exact .some (line c₂ (Nat.le_trans hle₂ hle))
  · exact .none

theorem agrees_choice :
    Agrees limit (room + 1 ≤ 2 * c.ahead.length) (ofNested .standard nested).choice
      (ofNested .standard nested').choice c := by
  refine .expectBind (by decide) fun _ c₁ hlt => ?_
  refine ((h.inner .loosest c₁).mono (by omega)).bind fun scrutinee c₂ _ hle =>
    agrees_expect.bind fun _ c₃ _ hle₃ => ?_
  exact ((agrees_caseArms h).mono (by omega)).bind fun _ _ _ _ => agrees_expect.bindPure _

theorem agrees_sequence :
    Agrees limit (room + 1 ≤ 2 * c.ahead.length) (ofNested .standard nested).sequence
      (ofNested .standard nested').sequence c := by
  refine .expectBind (by decide) fun _ c₁ hlt => ?_
  refine ((h.inner .loosest c₁).mono (by omega)).bind fun context c₂ _ hle => ?_
  exact ((h.sequenceBlock c₂).mono (by omega)).bind fun _ _ _ _ => agrees_expect.bindPure _

theorem agrees_application :
    Agrees limit (room ≤ 2 * c.ahead.length) (ofNested .standard nested).application
      (ofNested .standard nested').application c := by
  refine .byKind <| .ite (fun _ => ?_) fun _ => h.inner .loosest c
  refine ((agrees_operand h).mono (by omega)).bind fun callee c₁ _ hle => ?_
  refine .byKind <| .ite (fun _ => ?_) fun _ => (agrees_operatorTail h _ _).mono (by omega)
  exact ((agrees_arguments h).mono (by omega)).bindPure _

theorem agrees_expressionBody :
    Agrees limit (room + 1 ≤ 2 * c.ahead.length + 1) (ofNested .standard nested).expressionBody
      (ofNested .standard nested').expressionBody c := by
  refine .byKind ?_
  split
  · exact (agrees_function h).mono (by omega)
  · exact (agrees_choice h).mono (by omega)
  · exact (agrees_sequence h).mono (by omega)
  · exact (agrees_application h).mono (by omega)

theorem agrees_boundValue :
    Agrees limit (room ≤ 2 * c.ahead.length + 1) (ofNested .standard nested).boundValue
      (ofNested .standard nested').boundValue c := by
  refine .byKind <| .ite (fun _ => ?_) fun _ => h.expression c
  refine agrees_advance.bind fun _ c₁ _ hle => ((h.expression c₁).mono (by omega)).bind ?_
  exact fun _ _ _ _ => agrees_skipTerminators.bind fun _ _ _ _ => agrees_expect.bindPure _

theorem agrees_letDeclaration :
    Agrees limit (room ≤ 2 * c.ahead.length + 1) (ofNested .standard nested).letDeclaration
      (ofNested .standard nested').letDeclaration c := by
  refine agrees_expect.bind fun _ c₁ _ hle => (agrees_declaredName _).bind fun name c₂ _ hle₂ =>
    .byKind <| .ite (fun _ => (agrees_functionTail h _).mono (by omega)) fun _ => ?_
  refine agrees_optionalType.bind fun type? c₃ _ hle₃ => agrees_expect.bind fun _ c₄ _ hle₄ => ?_
  exact ((agrees_boundValue h).mono (by omega)).bindPure _

theorem agrees_macroDeclaration :
    Agrees limit (room ≤ 2 * c.ahead.length + 1) (ofNested .standard nested).macroDeclaration
      (ofNested .standard nested').macroDeclaration c := by
  refine agrees_expect.bind fun _ c₁ _ hle => (agrees_declaredName _).bind fun name c₂ _ hle₂ =>
    agrees_expect.bind fun _ c₃ _ hle₃ => ?_
  exact ((agrees_blockOrExpression h).mono (by omega)).bindPure _

theorem agrees_line :
    Agrees limit (room ≤ 2 * c.ahead.length + 1) (ofNested .standard nested).line
      (ofNested .standard nested').line c := by
  refine .byKind <| .ite (fun _ => agrees_text.bindPure _) fun _ => ?_
  generalize c.kind = kind
  cases kind with
  | kwLet => exact agrees_letDeclaration h
  | kwData => exact agrees_dataDeclaration
  | kwMacro => exact agrees_macroDeclaration h
  | _ => exact h.expression c

theorem agrees_sequenceLine :
    Agrees limit (room ≤ 2 * c.ahead.length + 1) (ofNested .standard nested).sequenceLine
      (ofNested .standard nested').sequenceLine c := by
  refine .byKind ?_
  split
  · refine agrees_advance.bind fun _ c₁ _ hle => agrees_expect.bind fun _ c₂ _ hle₂ =>
      agrees_expect.bind fun _ c₃ _ hle₃ => ?_
    exact ((h.expression c₃).mono (by omega)).bindPure _
  · refine agrees_advance.bind fun _ c₁ _ hle => ?_
    exact ((h.expression c₁).mono (by omega)).bindPure _
  · exact agrees_line h

end

theorem agrees_linesUntil {reason : Prop} {line line' : Parse Node} (stop : Kind)
    (hline : ∀ c', c'.ahead.length ≤ c.ahead.length → Agrees limit reason line line' c') :
    Agrees limit reason (linesUntil stop line) (linesUntil stop line') c := by
  refine agrees_collect fun c₁ hle => ?_
  split
  · exact .none
  · exact .some ((hline c₁ hle).bind fun node c₂ _ _ =>
      agrees_endLine_unless (fun ended kind => !ended && kind != stop) _ node)

include h in
theorem agrees_bodyUntil (stop : Kind) :
    Agrees limit (room ≤ 2 * c.ahead.length + 1) ((ofNested .standard nested).bodyUntil stop)
      ((ofNested .standard nested').bodyUntil stop) c :=
  agrees_linesUntil stop fun _ hle => (agrees_line h).mono (by omega)

include h in
theorem agrees_blockBody :
    Agrees limit (room + 1 ≤ 2 * c.ahead.length) (ofNested .standard nested).blockBody
      (ofNested .standard nested').blockBody c :=
  .expectBind (by decide) fun _ c₁ hlt => ((agrees_bodyUntil h _).mono (by omega)).bind
    fun _ _ _ _ => agrees_expect.bindPure _

include h in
theorem agrees_sequenceBody :
    Agrees limit (room + 1 ≤ 2 * c.ahead.length) (ofNested .standard nested).sequenceBody
      (ofNested .standard nested').sequenceBody c := by
  refine .expectBind (by decide) fun _ c₁ hlt => .byKind <| .ite
    (fun _ => agrees_layoutError _) fun _ => ?_
  refine (agrees_linesUntil _ fun c₂ hle => ?_).bind fun _ _ _ _ => agrees_expect.bindPure _
  exact (agrees_sequenceLine h).mono (by omega)

include h hexact in
/-- An operand that was read took a token. -/
theorem agrees_innerBody (power : Power) :
    Agrees limit (room + 1 ≤ 2 * c.ahead.length) ((ofNested .standard nested).innerBody power)
      ((ofNested .standard nested').innerBody power) c := by
  refine (agrees_operand h).bind fun left c₁ hrun _ => (agrees_operatorTail h left power).mono ?_
  have hlt := ((accepts_operand (P := fun _ => True) hexact).sound trivial hrun).length_lt rfl
  omega

end Grammar

end Offside
