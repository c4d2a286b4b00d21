import Offside.Proofs.Grammar.Renaming
import Offside.Proofs.Grammar.LookaheadProductions

/-! # Renamed productions

Every production takes the same turns on renamed tokens, as long as each operator of the tables is a
kind whose text is renamed. If this holds of the productions of the next level, it holds of those of
this level.
-/

namespace Offside

variable {r : Renaming}

/-- The productions that open a level do not tell renamed tokens apart. -/
structure Nested.Renames (r : Renaming) (nested : Nested) : Prop where
  expression (c : Cursor) : Parse.RenamesAt r r.node nested.expression nested.expression c
  inner (power : Power) (c : Cursor) :
    Parse.RenamesAt r r.node (nested.inner power) (nested.inner power) c
  block (c : Cursor) : Parse.RenamesAt r r.nodes nested.block nested.block c
  sequenceBlock (c : Cursor) :
    Parse.RenamesAt r r.nodes nested.sequenceBlock nested.sequenceBlock c

/-- The same of a whole level, where the tables may name any rule. -/
structure Grammar.Renames (r : Renaming) (g : Grammar) : Prop where
  operators {kind : Kind} : (g.tables.operator? kind).isSome →
    kind.isOpaque = true ∧ kind ≠ .eof
  nested : g.nested.Renames r
  run (rule : Rule) (c : Cursor) : Parse.RenamesAt r r.node (g.run rule) (g.run rule) c

namespace Grammar

open Parse

/-! ## Productions that open no level -/

section Levelless

variable {c : Cursor}

theorem renames_typeName : RenamesAt r r.text typeName typeName c :=
  .nameBind (by simp) fun _ hname => .pure hname

theorem renames_declaredName {declaration : String}
    (hdeclaration : declaration ++ " name" ≠ "end of input") :
    RenamesAt r r.text (declaredName declaration) (declaredName declaration) c :=
  .nameBind hdeclaration fun _ hname => .pure hname

theorem renames_fieldName : RenamesAt r r.text fieldName fieldName c := by
  refine .byKind <| .ite (fun h => renames_text ?_ ?_) fun _ => renames_unexpected (by simp)
  · intro heof
    rw [heof] at h
    cases h
  · revert h
    cases c.kind <;> simp [Kind.namesField, Kind.isOpaque]

theorem renames_optionalType :
    RenamesAt r (Option.map r.text) optionalType optionalType c :=
  .byKind <| .ite (fun _ => .advanceThen fun _ => renames_typeName.bindPure fun _ => rfl)
    fun _ => .pure rfl

theorem renames_param : RenamesAt r (Param.rename r.text) param param c :=
  .byKind <| .ite
    (fun h => (renames_text (by simp [h]) (by rw [h]; rfl)).bindPure fun _ => rfl) fun _ =>
    .expectThen (by decide) fun _ => .nameBind (by simp [Kind.name]) fun _ hname =>
      renames_optionalType.bind fun _ _ => .expectThen (by decide) fun _ =>
        .pure (by rw [hname]; rfl)

theorem renames_emptyPair : RenamesAt r id emptyPair emptyPair c :=
  .advanceThen fun _ => .advanceThen fun _ => .pure rfl

theorem atEmptyPair_of_renamed {c' : Cursor} (hc : c.Renamed r c') :
    atEmptyPair c' = atEmptyPair c := by
  unfold atEmptyPair
  rw [hc.kind_eq]
  by_cases h : c.kind = .openParen
  · rw [hc.peek_one_eq (by simp [h])]
  · simp [h]

theorem startsParam_of_renamed {c' : Cursor} (hc : c.Renamed r c') :
    startsParam c' = startsParam c := by
  unfold startsParam
  rw [hc.kind_eq]
  by_cases h : c.kind = .openParen
  · rw [hc.peek_one_eq (by simp [h])]
  · simp [h]

/-- The items of parameter lists and of argument lists. -/
theorem renames_orEmptyPair {α : Type} {f : α → α} {starts starts' : Bool} {p : Parse α}
    {c' : Cursor} (hc : c.Renamed r c') (hstarts : starts' = starts)
    (hp : ∀ c, RenamesAt r f p p c) :
    Option.Rel (RenamesAt r (Option.map f) · · c)
      (if !starts then none
        else if atEmptyPair c then some (do emptyPair; return none) else some (some <$> p))
      (if !starts' then none
        else if atEmptyPair c' then some (do emptyPair; return none) else some (some <$> p)) := by
  rw [hstarts, atEmptyPair_of_renamed hc]
  split
  · exact .none
  · split
    · exact .some (renames_emptyPair.bindPure fun _ => rfl)
    · exact .some (hp c).map

theorem renames_optionalParams : RenamesAt r r.params optionalParams optionalParams c :=
  .bindPure (renames_collect fun hc =>
    renames_orEmptyPair hc (startsParam_of_renamed hc) fun _ => renames_param)
    fun _ => List.reduceOption_map

theorem renames_params : RenamesAt r r.params params params c :=
  .choose (.ite (fun _ => renames_optionalParams) fun _ => renames_unexpected (by simp))
    fun hc => by rw [startsParam_of_renamed hc]

theorem renames_accessTail {target target' : Node} (htarget : target' = r.node target) :
    RenamesAt r r.node (accessTail target) (accessTail target') c := by
  refine .bindPure (renames_collect (f := r.text) fun hc => ?_) fun fields => ?_
  · rw [hc.kind_eq]
    split
    · exact .some (.advanceThen fun _ => renames_fieldName)
    · exact .none
  · rw [htarget]
    exact (rename_accesses r.text target fields).symm

theorem renames_accessor : RenamesAt r r.node accessor accessor c :=
  .nameBind (by simp [Kind.name]) fun _ hname =>
    renames_accessTail (by rw [hname, Renaming.node, Node.rename])

/-- The text of a numeral stays as it is, and the error names its place. -/
theorem renames_numeral (hnumber : c.kind = .number) : RenamesAt r r.node numeral numeral c := by
  refine .advanceBind (by simp [hnumber]) fun {token token'} c₁ htoken hkind => ?_
  have hvalue : token'.value = token.value := by
    rw [htoken.value, hkind, hnumber]
    rfl
  rw [hvalue]
  cases hread : Binary64.read? token.value.toList with
  | some value => exact .pure (by rw [Renaming.node, Node.rename])
  | none =>
    exact fun _ _ => .error
      ⟨rfl, token, token', htoken.related, ⟨hkind.trans hnumber, rfl, hread⟩, rfl, rfl⟩

theorem renames_boolean (hboolean : c.kind = .boolean) : RenamesAt r id text text c :=
  .advanceBind (by simp [hboolean]) fun _ htoken hkind =>
    .pure (by rw [htoken.value, hkind, hboolean]; rfl)

theorem renames_literal : RenamesAt r r.node literal literal c := by
  refine .byKind ?_
  split
  · next h => exact renames_numeral h
  · next h =>
    exact (renames_text (by simp [h]) (by rw [h]; rfl)).bindPure fun _ => by
      rw [Renaming.node, Node.rename]
  · next h => exact (renames_boolean h).bindPure fun _ => by rw [Renaming.node, Node.rename, id]
  · exact renames_unexpected (by simp)

theorem renames_casePattern :
    RenamesAt r (CasePattern.rename r.text) casePattern casePattern c := by
  refine .byKind ?_
  split
  · next h => exact (renames_text (by simp [h]) (by rw [h]; rfl)).bindPure fun _ => rfl
  · exact .advanceThen fun _ => .nameBind (by simp [Kind.name]) fun _ htag =>
      .nameBind (by simp [Kind.name]) fun _ hfirst => .skipNamesBind fun _ hrest =>
        .expectThen (by decide) fun _ => .pure (by
          rw [htag, hfirst, hrest, CasePattern.rename, List.map_cons])
  · exact renames_unexpected (by simp)

theorem renames_variant : RenamesAt r (Variant.rename r.text) variant variant c :=
  (renames_declaredName (by simp)).bind fun _ _ => renames_optionalParams.bindPure fun _ => rfl

theorem renames_variants (indented : Bool) :
    RenamesAt r (List.map (Variant.rename r.text)) (variants indented) (variants indented) c := by
  refine renames_variant.bind fun first _ => .bindPure (renames_collect fun {c c'} hc => ?_)
    fun _ => rfl
  have hpeek : (c.kind = .terminator && c'.peek 1 = .pipe) =
      (c.kind = .terminator && c.peek 1 = .pipe) := by
    by_cases hkind : c.kind = .terminator
    · rw [hc.peek_one_eq (by simp [hkind])]
    · simp [hkind]
  rw [hc.kind_eq, Bool.and_assoc, Bool.and_assoc, hpeek]
  split
  · exact .some (.advanceThen fun _ => renames_variant)
  · split
    · exact .some (.advanceThen fun _ => .advanceThen fun _ => renames_variant)
    · exact .none

theorem renames_dataDeclaration : RenamesAt r r.node dataDeclaration dataDeclaration c := by
  refine .expectThen (by decide) fun _ => (renames_declaredName (by simp)).bind fun name _ =>
    renames_optionalParams.bind fun params _ => .expectThen (by decide) fun _ =>
      .byKind <| .ite (fun _ => ?_) fun _ => (renames_variants false).bindPure fun variants => by
        rw [Renaming.node, Node.rename, Renaming.params]
  exact .advanceThen fun _ => (renames_variants true).bind fun variants _ =>
    renames_skipTerminators.bind fun _ _ => .expectThen (by decide) fun _ => .pure (by
      rw [Renaming.node, Node.rename, Renaming.params])

end Levelless

/-! ## Productions of a level -/

section Levels

variable {g : Grammar} {c : Cursor} (h : g.Renames r)
include h

theorem renames_operand : RenamesAt r r.node g.operand g.operand c := by
  refine .byKind ?_
  cases g.tables.operand? c.kind with
  | some rule => exact h.run rule c
  | none => exact renames_unexpected (by simp)

theorem renames_grouping : RenamesAt r r.node g.grouping g.grouping c :=
  .expectThen (by decide) fun c₁ => (h.nested.expression c₁).bind fun _ _ =>
    .expectThen (by decide) fun _ => renames_accessTail rfl

theorem renames_splice : RenamesAt r r.node g.splice g.splice c :=
  .expectThen (by decide) fun _ => .expectThen (by decide) fun c₂ =>
    (h.nested.expression c₂).bind fun _ _ => .expectThen (by decide) fun _ => .pure (by
      rw [Renaming.node, Node.rename])

theorem renames_quotation : RenamesAt r r.node g.quotation g.quotation c :=
  .expectThen (by decide) fun c₁ => (h.nested.expression c₁).bind fun _ _ =>
    .expectThen (by decide) fun _ => .pure (by rw [Renaming.node, Node.rename])

theorem renames_array : RenamesAt r r.node g.array g.array c := by
  rw [array_eq]
  refine .expectThen (by decide) fun _ => .bind (f := r.nodes)
    (.byKind <| .ite (fun _ => .pure rfl) fun _ => renames_separated h.nested.expression)
    fun elements _ => .expectThen (by decide) fun _ => .pure ?_
  rw [Renaming.node, Node.rename, Node.renameAll_eq_map, Renaming.nodes]

theorem renames_pair : RenamesAt r r.pair g.pair g.pair c :=
  renames_fieldName.bind fun _ _ => .expectThen (by decide) fun c₂ =>
    (h.nested.expression c₂).bindPure fun _ => rfl

theorem renames_pairLine : RenamesAt r r.pair g.pairLine g.pairLine c := by
  have ending (entry : String × Node) (comma : Prop) [Decidable comma] (c₁ : Cursor) :=
    @renames_endLine_unless r _ r.pair c₁
      (fun ended kind => !ended && !decide comma && kind != .outdent) Kind.outdent.name
      (by simp [Kind.name]) entry _ rfl
  exact (renames_pair h).bind fun entry c₁ => .byKind <| .ite
    (fun _ => .advanceThen fun c₂ => ending entry _ c₂) fun _ => ending entry _ c₁

theorem renames_object : RenamesAt r r.node g.object g.object c := by
  rw [object_eq]
  refine .expectThen (by decide) fun _ => .bind (f := List.map r.pair) (.byKind ?_)
    fun entries _ => .expectThen (by decide) fun _ =>
      .pure (rename_object r.injective entries).symm
  split
  · refine .advanceThen fun _ => renames_skipTerminators.bind fun _ _ =>
      .bind (renames_collect fun hc => ?_) fun _ _ => .expectThen (by decide) fun _ =>
        renames_skipTerminators.bindPure fun _ => rfl
    rw [hc.kind_eq]
    split
    · exact .none
    · exact .some (renames_pairLine h)
  · exact .pure rfl
  · exact renames_separated fun _ => renames_pair h

theorem renames_conditional : RenamesAt r r.node g.conditional g.conditional c :=
  .expectThen (by decide) fun c₁ => (h.nested.inner _ c₁).bind fun _ _ =>
    .expectThen (by decide) fun c₃ => (h.nested.block c₃).bind fun _ _ =>
      .expectThen (by decide) fun _ => .expectThen (by decide) fun c₆ =>
        (h.nested.block c₆).bindPure fun _ => by
          simp only [Renaming.node, Node.rename, Node.renameAll_eq_map, Renaming.nodes]

theorem renames_operatorTail {left left' : Node} (hleft : left' = r.node left) (power : Power) :
    RenamesAt r r.node (g.operatorTail left power) (g.operatorTail left' power) c := by
  refine .bindPure (renames_collect (f := renameOperation r.text) fun {c c'} hc => ?_)
    fun items => ?_
  · rw [hc.kind_eq]
    cases htighter : g.tables.tighter? power c.kind with
    | none => exact .none
    | some entry =>
      have hsome : (g.tables.operator? c.kind).isSome := by
        rw [(Option.filter_eq_some_iff.1 htighter).1]
        rfl
      obtain ⟨htext, hne⟩ := h.operators hsome
      exact .some ((renames_text hne htext).bind fun _ c₂ =>
        (h.nested.inner entry.1 c₂).bindPure fun _ => rfl)
  · rw [hleft]
    exact (rename_applyOperations r.text left items).symm

theorem renames_arguments :
    RenamesAt r (List.map (Option.map r.node)) g.arguments g.arguments c :=
  renames_collect fun hc => renames_orEmptyPair hc (by rw [hc.kind_eq]) (h.nested.inner .loosest)

theorem renames_blockOrExpression :
    RenamesAt r r.nodes g.blockOrExpression g.blockOrExpression c :=
  .byKind <| .ite (fun _ => h.nested.block c) fun _ => (h.nested.expression c).bindPure
    fun _ => rfl

theorem renames_functionTail {name? name?' : Option String}
    (hname : name?' = name?.map r.text) :
    RenamesAt r r.node (g.functionTail name?) (g.functionTail name?') c :=
  renames_params.bind fun _ _ => renames_optionalType.bind fun _ _ =>
    .expectThen (by decide) fun _ => (renames_blockOrExpression h).bindPure fun _ => by
      rw [hname, Renaming.node, Node.rename, Node.renameAll_eq_map, Renaming.nodes,
        Renaming.params]

theorem renames_function : RenamesAt r r.node g.function g.function c :=
  .expectThen (by decide) fun _ => renames_functionTail h rfl

theorem renames_caseArm : RenamesAt r (Node.renameCase r.text) g.caseArm g.caseArm c :=
  .expectThen (by decide) fun _ => renames_casePattern.bind fun _ _ =>
    .expectThen (by decide) fun c₃ => (h.nested.expression c₃).bindPure fun _ => rfl

theorem renames_caseArms :
    RenamesAt r (List.map (Node.renameCase r.text)) g.caseArms g.caseArms c := by
  have line (c₁ : Cursor) : RenamesAt r (Node.renameCase r.text)
      (do let arm ← g.caseArm; let _ ← endLine; return arm)
      (do let arm ← g.caseArm; let _ ← endLine; return arm) c₁ :=
    (renames_caseArm h).bind fun _ _ => renames_endLine.bindPure fun _ => rfl
  refine (line c).bind fun first _ => .bindPure (renames_collect fun {c₂ c₂'} hc => ?_) fun _ => rfl
  rw [hc.kind_eq, hc.previous?_eq]
  split
  · exact .some (line c₂)
  · exact .none

theorem renames_choice : RenamesAt r r.node g.choice g.choice c :=
  .expectThen (by decide) fun c₁ => (h.nested.inner .loosest c₁).bind fun _ _ =>
    .expectThen (by decide) fun _ => (renames_caseArms h).bind fun _ _ =>
      .expectThen (by decide) fun _ => .pure (by
        rw [Renaming.node, Node.rename, Node.renameCases_eq_map])

theorem renames_sequence : RenamesAt r r.node g.sequence g.sequence c :=
  .expectThen (by decide) fun c₁ => (h.nested.inner .loosest c₁).bind fun _ c₂ =>
    (h.nested.sequenceBlock c₂).bind fun _ _ => .expectThen (by decide) fun _ => .pure (by
      rw [Renaming.node, Node.rename, Node.renameAll_eq_map, Renaming.nodes])

theorem renames_application : RenamesAt r r.node g.application g.application c := by
  refine .byKind <| .ite (fun _ => ?_) fun _ => h.nested.inner .loosest c
  exact (renames_operand h).bind fun callee _ => .byKind <| .ite
    (fun _ => (renames_arguments h).bindPure fun items =>
      (rename_applyArguments r.text callee [] items).symm)
    fun _ => renames_operatorTail h rfl _

theorem renames_expressionBody : RenamesAt r r.node g.expressionBody g.expressionBody c := by
  refine .byKind ?_
  split
  · exact renames_function h
  · exact renames_choice h
  · exact renames_sequence h
  · exact renames_application h

theorem renames_innerBody (power : Power) :
    RenamesAt r r.node (g.innerBody power) (g.innerBody power) c :=
  (renames_operand h).bind fun _ _ => renames_operatorTail h rfl power

theorem renames_boundValue : RenamesAt r r.node g.boundValue g.boundValue c :=
  .byKind <| .ite (fun _ => .advanceThen fun c₁ => (h.nested.expression c₁).bind fun _ _ =>
    renames_skipTerminators.bind fun _ _ => .expectThen (by decide) fun _ => .pure rfl)
    fun _ => h.nested.expression c

theorem renames_letDeclaration : RenamesAt r r.node g.letDeclaration g.letDeclaration c :=
  .expectThen (by decide) fun _ => (renames_declaredName (by simp)).bind fun _ _ => .byKind <|
    .ite (fun _ => renames_functionTail h rfl) fun _ => renames_optionalType.bind fun _ _ =>
      .expectThen (by decide) fun _ => (renames_boundValue h).bindPure fun _ => by
        rw [Renaming.node, Node.rename]

theorem renames_macroDeclaration : RenamesAt r r.node g.macroDeclaration g.macroDeclaration c :=
  .expectThen (by decide) fun _ => (renames_declaredName (by simp)).bind fun _ _ =>
    .expectThen (by decide) fun _ => (renames_blockOrExpression h).bindPure fun _ => by
      rw [Renaming.node, Node.rename, Node.renameAll_eq_map, Renaming.nodes]

theorem renames_line : RenamesAt r r.node g.line g.line c := by
  refine .byKind <| .ite (fun hkind => ?_) fun _ => ?_
  · exact (renames_text (by simp [hkind]) (by rw [hkind]; rfl)).bindPure fun _ => by
      rw [Renaming.node, Node.rename]
  · cases g.tables.statement? c.kind with
    | some rule => exact h.run rule c
    | none => exact h.nested.expression c

theorem renames_sequenceLine : RenamesAt r r.node g.sequenceLine g.sequenceLine c := by
  refine .byKind ?_
  split
  · exact .advanceThen fun _ => .nameBind (by simp [Kind.name]) fun _ hname =>
      .expectThen (by decide) fun c₃ => (h.nested.expression c₃).bindPure fun _ => by
        rw [hname, Renaming.node, Node.rename]
  · exact .advanceThen fun c₁ => (h.nested.expression c₁).bindPure fun _ => by
      rw [Renaming.node, Node.rename]
  · exact renames_line h

end Levels

theorem renames_linesUntil {line : Parse Node} (hline : ∀ c, RenamesAt r r.node line line c)
    (stop : Kind) (c : Cursor) :
    RenamesAt r r.nodes (linesUntil stop line) (linesUntil stop line) c := by
  refine renames_collect fun {c c'} hc => ?_
  rw [hc.kind_eq]
  split
  · exact .none
  · exact .some ((hline c).bind fun node _ => renames_endLine_unless
      (fun ended kind => !ended && kind != stop) (by simp) rfl)

section Levels

variable {g : Grammar} {c : Cursor} (h : g.Renames r)
include h

theorem renames_bodyUntil (stop : Kind) :
    RenamesAt r r.nodes (g.bodyUntil stop) (g.bodyUntil stop) c :=
  renames_linesUntil (fun _ => renames_line h) stop c

theorem renames_blockBody : RenamesAt r r.nodes g.blockBody g.blockBody c :=
  .expectThen (by decide) fun _ => (renames_bodyUntil h _).bind fun _ _ =>
    .expectThen (by decide) fun _ => .pure rfl

theorem renames_sequenceBody : RenamesAt r r.nodes g.sequenceBody g.sequenceBody c :=
  .expectThen (by decide) fun _ => .byKind <| .ite (fun _ => renames_layoutError _) fun _ =>
    (renames_linesUntil (fun _ => renames_sequenceLine h) _ _).bind fun _ _ =>
      .expectThen (by decide) fun _ => .pure rfl

theorem renames_rule (rule : Rule) (c : Cursor) :
    RenamesAt r r.node (rule.parse g) (rule.parse g) c := by
  cases rule with
  | expression => exact h.nested.expression c
  | application => exact renames_application h
  | literal => exact renames_literal
  | accessor => exact renames_accessor
  | grouping => exact renames_grouping h
  | splice => exact renames_splice h
  | quotation => exact renames_quotation h
  | array => exact renames_array h
  | object => exact renames_object h
  | conditional => exact renames_conditional h
  | function => exact renames_function h
  | choice => exact renames_choice h
  | sequence => exact renames_sequence h
  | line => exact renames_line h
  | letDeclaration => exact renames_letDeclaration h
  | dataDeclaration => exact renames_dataDeclaration
  | macroDeclaration => exact renames_macroDeclaration h

end Levels

end Grammar

open Grammar

theorem Tables.isOpaque_of_operator? {kind : Kind} (h : (standard.operator? kind).isSome) :
    kind.isOpaque = true ∧ kind ≠ .eof := by
  cases kind <;> simp_all [standard, Kind.isOpaque]

/-- Handing on a token to another rule changes nothing about this. -/
theorem renames_runRule {nested : Nested} (h : nested.Renames r) (turns : Nat) :
    Grammar.Renames r ⟨.standard, nested, runRule .standard nested turns⟩ := by
  induction turns with
  | zero =>
    exact ⟨Tables.isOpaque_of_operator?, h, fun _ _ => Parse.renames_refuse nested.limit⟩
  | succ turns ih => exact ⟨Tables.isOpaque_of_operator?, h, renames_rule ih⟩

theorem Nested.renames_within (limit room : Nat) : (within .standard limit room).Renames r := by
  induction room with
  | zero =>
    exact ⟨fun _ => Parse.renames_refuse limit, fun _ _ => Parse.renames_refuse limit,
      fun _ => Parse.renames_refuse limit, fun _ => Parse.renames_refuse limit⟩
  | succ room ih =>
    have h : (Grammar.within .standard limit room).Renames r := renames_runRule ih 2
    exact ⟨fun _ => renames_expressionBody h, fun power _ => renames_innerBody h power,
      fun _ => renames_blockBody h, fun _ => renames_sequenceBody h⟩

/-- A whole program is parsed alike on renamed tokens. -/
theorem renames_program (limit : Nat) (c : Cursor) :
    Parse.RenamesAt r r.nodes (Grammar.program limit) (Grammar.program limit) c :=
  renames_bodyUntil (renames_runRule (Nested.renames_within limit limit) 2) .eof

end Offside
