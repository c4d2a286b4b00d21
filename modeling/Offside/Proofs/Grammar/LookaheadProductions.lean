import Offside.Proofs.Grammar.Lookahead

/-! # Lookahead of the productions

Every production decides by the current token and by what follows an opening parenthesis, whatever
the tables are. Those that a table can name pass at least one token when they succeed, and so does
each item of a loop. If all this holds of the productions of the next level, it holds of those of
this level. Indented variants look for a bar behind a terminator, which is passed in any case.
-/

namespace Offside

variable {Q : Position → Position → Prop}

/-- The productions that open a level see no further than the token behind what they pass, and
behind an opening parenthesis, and they pass one token at least when they succeed. -/
structure Nested.Local (Q : Position → Position → Prop) (nested : Nested) : Prop where
  expression (c : Cursor) : Parse.TakesAt Q nested.expression c
  inner (power : Power) (c : Cursor) : Parse.TakesAt Q (nested.inner power) c
  block (c : Cursor) : Parse.TakesAt Q nested.block c
  sequenceBlock (c : Cursor) : Parse.TakesAt Q nested.sequenceBlock c

/-- The same of a whole level, where the tables may name any rule. -/
structure Grammar.Local (Q : Position → Position → Prop) (g : Grammar) : Prop where
  nested : g.nested.Local Q
  run (rule : Rule) (c : Cursor) : Parse.TakesAt Q (g.run rule) c

namespace Grammar

open Parse

/-! ## Productions that open no level -/

section Levelless

variable {c : Cursor}

theorem takes_nameAs (description : String) :
    TakesAt Q (do return (← expectAs .identifier description).value) c :=
  .expectAsBind (by decide) (fun h => by rw [h.value]) fun _ _ => .pure _

theorem takes_fieldName : TakesAt Q fieldName c :=
  .byKind <| .ite (fun h => takes_text fun heof => by simp [heof, Kind.namesField] at h)
    fun _ => takes_unexpected _

theorem local_optionalType : LocalAt Q optionalType c :=
  .byKind <| .ite (fun _ => .advanceThen fun _ => (takes_nameAs _).toLocalAt.bindPure _)
    fun _ => .pure none

theorem takes_param : TakesAt Q param c :=
  .byKind <| .ite (fun h => (takes_text (by simp [h])).bindPure _) fun _ =>
    .expectThen (by decide) fun _ => .expectBind (fun h => by simp only [h.value]) fun _ _ =>
      local_optionalType.bind fun _ _ _ => .expectThen fun _ => .pure _

theorem takes_emptyPair (h : atEmptyPair c = true) : TakesAt Q emptyPair c := by
  have hkind : c.kind = .openParen := by
    rw [atEmptyPair, Bool.and_eq_true, decide_eq_true_eq] at h
    exact h.1
  exact .advanceThen (by simp [hkind]) fun _ => .advanceThen fun _ => .pure ()

theorem atEmptyPair_eq {c' : Cursor} (hc : c.Resembles Q 1 c') :
    atEmptyPair c' = atEmptyPair c := by
  unfold atEmptyPair
  rw [hc.kind_eq]
  by_cases h : c.kind = .openParen
  · have hpair : c'.peek 1 = .closeParen ↔ c.peek 1 = .closeParen := by
      rw [← Kind.opened_eq_pair_iff, hc.opened_peek_one h, Kind.opened_eq_pair_iff]
    simp only [hpair]
  · simp [h]

theorem startsParam_eq {c' : Cursor} (hc : c.Resembles Q 1 c') :
    startsParam c' = startsParam c := by
  unfold startsParam
  rw [hc.kind_eq]
  by_cases h : c.kind = .openParen
  · have hpair : c'.peek 1 = .closeParen ↔ c.peek 1 = .closeParen := by
      rw [← Kind.opened_eq_pair_iff, hc.opened_peek_one h, Kind.opened_eq_pair_iff]
    have hname : c'.peek 1 = .identifier ↔ c.peek 1 = .identifier := by
      rw [← Kind.opened_eq_name_iff, hc.opened_peek_one h, Kind.opened_eq_name_iff]
    simp only [hpair, hname]
  · simp [h]

/-- The items of parameter lists and of argument lists. -/
theorem takes_orEmptyPair {α : Type} {s : Cursor → Bool} {p : Parse α}
    (hp : ∀ c, TakesAt Q p c) {item : Parse (Option α)}
    (hfound : (if !s c then none
      else if atEmptyPair c then some (do emptyPair; return none)
      else some (some <$> p)) = some item) : TakesAt Q item c := by
  split at hfound
  · cases hfound
  · split at hfound
    · next hempty =>
      cases hfound
      exact (takes_emptyPair hempty).bindPure _
    · cases hfound
      exact (hp c).map some

theorem local_optionalParams : LocalAt Q optionalParams c :=
  .bindPure (local_collect (fun hc => by rw [startsParam_eq hc, atEmptyPair_eq hc])
    (takes_orEmptyPair fun _ => takes_param) c) _

theorem local_params : LocalAt Q params c :=
  .choose (.ite (fun _ => local_optionalParams) fun _ => (takes_unexpected _).toLocalAt)
    fun hc => by rw [startsParam_eq hc]

theorem local_accessTail (target : Node) : LocalAt Q (accessTail target) c :=
  .bindPure (local_collect_behind (by decide) (fun _ => takes_fieldName.toLocalAt) c) _

theorem takes_accessor : TakesAt Q accessor c :=
  .expectBind (by decide) (fun h => by simp only [h.value]) fun _ _ => local_accessTail _

/-- The numeral is passed in any case, and the error names its place. -/
theorem local_numeral : LocalAt Q numeral c := by
  have run_eq (c : Cursor) : numeral c = (Binary64.read? c.current.value.toList).elim
      (.error ⟨.invalidNumber c.current.value, c.current.span.start⟩ c.next)
      fun value => .ok (.number value) c.next := by
    rw [numeral_eq]
    change ((Binary64.read? c.current.value.toList).elim (throw _)
      fun value => pure (.number value) : Parse Node) c.next = _
    cases Binary64.read? c.current.value.toList <;> rfl
  have ending_eq (c : Cursor) : ending (numeral c) = c.next := by
    rw [run_eq]
    cases Binary64.read? c.current.value.toList <;> rfl
  refine ⟨by rw [ending_eq]; exact c.reaches_next, fun {c' n} hn hc => ?_⟩
  rw [ending_eq] at hc
  have hcurrent := (hc.mono (by omega : 1 ≤ _)).current
  have hnext := Cursor.Resembles.next hn hc
  rw [run_eq, run_eq, hcurrent.value]
  cases Binary64.read? c.current.value.toList with
  | some value => exact ⟨rfl, hnext⟩
  | none => exact ⟨⟨rfl, hcurrent.start⟩, hnext⟩

theorem takes_numeral (hne : c.kind ≠ .eof) : TakesAt Q numeral c where
  toLocalAt := local_numeral
  length_lt hrun := by
    rw [numeral_eq] at hrun
    refine lt_of_advanceBind hne (fun token v c₁ c' hrun => ?_) hrun
    cases hread : Binary64.read? token.value.toList with
    | some value =>
      rw [hread] at hrun
      cases hrun
      exact Nat.le_refl _
    | none =>
      rw [hread] at hrun
      cases hrun

theorem takes_literal : TakesAt Q literal c := by
  refine .byKind ?_
  split
  · next h => exact takes_numeral (by simp [h])
  · next h => exact (takes_text (by simp [h])).bindPure _
  · next h => exact (takes_text (by simp [h])).bindPure _
  · exact takes_unexpected _

theorem takes_casePattern : TakesAt Q casePattern c := by
  refine .byKind ?_
  split
  · next h => exact (takes_text (by simp [h])).bindPure _
  · next h =>
    refine .advanceThen (by simp [h]) fun _ => .expectBind (fun h => by simp only [h.value])
      fun tag _ => .expectBind (fun h => by simp only [h.value]) fun first _ => ?_
    exact LocalAt.skipBind (g := fun rest => (do
      let _ ← expect .closeParen
      return ⟨tag.value, first.value :: rest⟩ : Parse CasePattern)) (by decide)
      fun _ _ => .expectThen fun _ => .pure _
  · exact takes_unexpected _

theorem takes_variant : TakesAt Q variant c :=
  (takes_nameAs _).bind fun _ _ _ => local_optionalParams.bindPure _

theorem takes_nextVariant {indented : Bool} {item : Parse Variant}
    (hfound : (if c.kind = .pipe then some (do let _ ← advance; variant)
      else if indented && c.kind = .terminator && c.peek 1 = .pipe then
        some (do let _ ← advance; let _ ← advance; variant)
      else none) = some item) : TakesAt Q item c := by
  split at hfound
  · next hkind =>
    cases hfound
    exact .advanceThen (by simp [hkind]) fun _ => takes_variant.toLocalAt
  · split at hfound
    · next hkind =>
      cases hfound
      exact .advanceThen (by simp_all) fun _ => .advanceThen fun _ => takes_variant.toLocalAt
    · cases hfound

theorem takes_variants : TakesAt Q (variants false) c := by
  refine takes_variant.bind fun first c' _ =>
    .bindPure (local_collect (fun {c c'} hc => ?_) takes_nextVariant c') _
  rw [hc.kind_eq]
  simp

/-- Variants that are indented, with something behind them that passes terminators. -/
theorem local_variants_then {β : Type} {f : List Variant → Parse β}
    (hf : ∀ vs c, LocalAt Q (f vs) c)
    (hlast : ∀ vs {c}, c.kind = .terminator → (ending (f vs c)).ahead.length < c.ahead.length) :
    LocalAt Q (variants true >>= f) c := by
  simp only [variants, bind_assoc, pure_bind]
  refine takes_variant.toLocalAt.bind fun first c' _ =>
    local_collect_then (k := .terminator) (fun {c c'} hc hc' => ?_) takes_nextVariant
      (fun {c item} hfound hkind => ?_) (fun rest => hf (first :: rest))
      (fun rest => hlast (first :: rest)) c'
  · rw [hc'.kind_eq]
    by_cases hkind : c.kind = .terminator
    · rw [(hc hkind).peek_one_eq (by simp [hkind])]
    · simp [hkind]
  · have hne : c.kind ≠ .eof := by simp [hkind]
    rw [hkind, if_neg (by decide)] at hfound
    split at hfound
    · cases hfound
      exact length_ending_lt_of_advance (Q := Q) hne
        (.advanceThen fun _ => takes_variant.toLocalAt)
    · cases hfound

theorem takes_dataDeclaration : TakesAt Q dataDeclaration c := by
  refine .expectThen (by decide) fun _ => (takes_nameAs _).toLocalAt.bind fun name _ _ =>
    local_optionalParams.bind fun params _ _ => .expectThen fun _ =>
      .byKind <| .ite (fun _ => ?_) fun _ => takes_variants.toLocalAt.bindPure _
  refine .advanceThen fun _ => local_variants_then (fun _ _ => local_skipTerminators.bind
    fun _ _ _ => .expectThen fun _ => .pure _) fun _ c hkind => ?_
  refine Nat.lt_of_le_of_lt (length_ending_bind_le fun _ c' _ => ?_)
    (Cursor.length_skip_lt hkind (by decide))
  exact (LocalAt.expectThen (Q := Q) fun _ => .pure _).reaches

end Levelless

/-! ## Productions of a level -/

section Levels

variable {g : Grammar} {c : Cursor} (h : g.Local Q)
include h

theorem takes_operand : TakesAt Q g.operand c := by
  refine .byKind ?_
  cases g.tables.operand? c.kind with
  | some rule => exact h.run rule c
  | none => exact takes_unexpected _

theorem takes_grouping : TakesAt Q g.grouping c :=
  .expectThen (by decide) fun c₁ => (h.nested.expression c₁).toLocalAt.bind fun inner _ _ =>
    .expectThen fun _ => local_accessTail inner

theorem takes_splice : TakesAt Q g.splice c :=
  .expectThen (by decide) fun _ => .expectThen fun c₂ =>
    (h.nested.expression c₂).toLocalAt.bind fun _ _ _ => .expectThen fun _ => .pure _

theorem takes_quotation : TakesAt Q g.quotation c :=
  .expectThen (by decide) fun c₁ => (h.nested.expression c₁).toLocalAt.bind fun _ _ _ =>
    .expectThen fun _ => .pure _

theorem takes_array : TakesAt Q g.array c := by
  rw [array_eq]
  refine .expectThen (by decide) fun _ => .bind (.byKind <| .ite (fun _ => .pure []) fun _ => ?_)
    fun _ _ _ => .expectThen fun _ => .pure _
  exact (takes_separated h.nested.expression).toLocalAt

theorem takes_pair : TakesAt Q g.pair c :=
  takes_fieldName.bind fun _ _ _ => .expectThen fun c₂ =>
    (h.nested.expression c₂).toLocalAt.bindPure _

theorem takes_pairLine : TakesAt Q g.pairLine c := by
  have ending (entry : String × Node) (comma : Prop) [Decidable comma] (c₁ : Cursor) :=
    @local_endLine_unless Q _ c₁
      (fun ended kind => !ended && !decide comma && kind != .outdent) Kind.outdent.name entry
  exact (takes_pair h).bind fun entry c₁ _ => .byKind <| .ite
    (fun _ => .advanceThen fun c₂ => ending entry _ c₂) fun _ => ending entry _ c₁

theorem takes_nextPairLine {item : Parse (String × Node)}
    (hfound : (if c.kind = .outdent then none else some g.pairLine) = some item) :
    TakesAt Q item c := by
  split at hfound
  · cases hfound
  · cases hfound
    exact takes_pairLine h

theorem takes_object : TakesAt Q g.object c := by
  rw [object_eq]
  refine .expectThen (by decide) fun _ => .bind (.byKind ?_) fun _ _ _ =>
    .expectThen fun _ => .pure _
  split
  · exact .advanceThen fun _ => local_skipTerminators.bind fun _ c₃ _ =>
      .bind (local_collect (fun hc => by rw [hc.kind_eq]) (takes_nextPairLine h) c₃) fun _ _ _ =>
        .expectThen fun _ => local_skipTerminators.bindPure _
  · exact .pure []
  · exact (takes_separated fun _ => takes_pair h).toLocalAt

theorem takes_conditional : TakesAt Q g.conditional c :=
  .expectThen (by decide) fun c₁ => (h.nested.inner _ c₁).toLocalAt.bind fun _ _ _ =>
    .expectThen fun c₃ => (h.nested.block c₃).toLocalAt.bind fun _ _ _ => .expectThen fun _ =>
      .expectThen fun c₆ => (h.nested.block c₆).toLocalAt.bindPure _

theorem takes_nextOperation {power : Power} {item : Parse (Operation × String × Node)}
    (hfound : ((g.tables.tighter? power c.kind).map fun (own, operation) => do
      let operator ← text
      let right ← g.nested.inner own
      return (operation, operator, right)) = some item) : TakesAt Q item c := by
  obtain ⟨⟨own, operation⟩, -, rfl⟩ := Option.map_eq_some_iff.1 hfound
  exact .bindRight local_text fun _ c₂ _ => (h.nested.inner own c₂).bindPure _

theorem local_operatorTail (left : Node) (power : Power) :
    LocalAt Q (g.operatorTail left power) c :=
  .bindPure (local_collect (fun hc => by rw [hc.kind_eq]) (takes_nextOperation h) c) _

theorem takes_operate (operation : Operation) (power : Power) (left : Node) :
    TakesAt Q (g.operate operation power left) c :=
  .bindRight local_text fun _ c₁ _ => (h.nested.inner power c₁).bindPure _

theorem local_arguments : LocalAt Q g.arguments c :=
  local_collect (fun hc => by rw [hc.kind_eq, atEmptyPair_eq hc])
    (takes_orEmptyPair (s := fun c => c.kind.startsInner) (h.nested.inner .loosest)) c

theorem takes_blockOrExpression : TakesAt Q g.blockOrExpression c :=
  .byKind <| .ite (fun _ => h.nested.block c) fun _ => (h.nested.expression c).bindPure _

theorem takes_functionTail (name? : Option String) : TakesAt Q (g.functionTail name?) c :=
  .bindRight local_params fun _ _ _ => .bindRight local_optionalType fun _ _ _ =>
    .expectThen (by decide) fun _ => (takes_blockOrExpression h).toLocalAt.bindPure _

theorem takes_function : TakesAt Q g.function c :=
  .expectThen (by decide) fun _ => (takes_functionTail h none).toLocalAt

theorem takes_caseArm : TakesAt Q g.caseArm c :=
  .expectThen (by decide) fun _ => takes_casePattern.toLocalAt.bind fun _ _ _ =>
    .expectThen fun c₃ => (h.nested.expression c₃).toLocalAt.bindPure _

theorem takes_armLine : TakesAt Q (do
    let arm ← g.caseArm
    let _ ← endLine
    return arm) c :=
  (takes_caseArm h).bind fun _ _ _ => local_endLine.bindPure _

theorem takes_nextArmLine {item : Parse (CasePattern × Node)}
    (hfound : (if c.kind = .kwCase && c.previous? = some .terminator then some (do
      let arm ← g.caseArm
      let _ ← endLine
      return arm)
    else none) = some item) : TakesAt Q item c := by
  split at hfound
  · cases hfound
    exact takes_armLine h
  · cases hfound

theorem takes_caseArms : TakesAt Q g.caseArms c :=
  (takes_armLine h).bind fun _ c₁ _ => .bindPure
    (local_collect (fun hc => by rw [hc.kind_eq, hc.previous?_eq]) (takes_nextArmLine h) c₁) _

theorem takes_choice : TakesAt Q g.choice c :=
  .expectThen (by decide) fun c₁ => (h.nested.inner .loosest c₁).toLocalAt.bind fun _ _ _ =>
    .expectThen fun _ => (takes_caseArms h).toLocalAt.bind fun _ _ _ =>
      .expectThen fun _ => .pure _

theorem takes_sequence : TakesAt Q g.sequence c :=
  .expectThen (by decide) fun c₁ => (h.nested.inner .loosest c₁).toLocalAt.bind fun _ c₂ _ =>
    (h.nested.sequenceBlock c₂).toLocalAt.bind fun _ _ _ => .expectThen fun _ => .pure _

theorem takes_application : TakesAt Q g.application c := by
  refine .byKind <| .ite (fun _ => ?_) fun _ => h.nested.inner .loosest c
  exact (takes_operand h).bind fun callee _ _ => .byKind <| .ite
    (fun _ => (local_arguments h).bindPure _) fun _ => local_operatorTail h _ _

theorem takes_expressionBody : TakesAt Q g.expressionBody c := by
  refine .byKind ?_
  split
  · exact takes_function h
  · exact takes_choice h
  · exact takes_sequence h
  · exact takes_application h

theorem takes_innerBody (power : Power) : TakesAt Q (g.innerBody power) c :=
  (takes_operand h).bind fun left _ _ => local_operatorTail h left power

theorem local_boundValue : LocalAt Q g.boundValue c :=
  .byKind <| .ite (fun _ => .advanceThen fun c₁ =>
    (h.nested.expression c₁).toLocalAt.bind fun _ _ _ => local_skipTerminators.bind fun _ _ _ =>
      .expectThen fun _ => .pure _) fun _ => (h.nested.expression c).toLocalAt

theorem takes_letDeclaration : TakesAt Q g.letDeclaration c :=
  .expectThen (by decide) fun _ => (takes_nameAs _).toLocalAt.bind fun _ _ _ => .byKind <| .ite
    (fun _ => (takes_functionTail h _).toLocalAt) fun _ => local_optionalType.bind fun _ _ _ =>
      .expectThen fun _ => (local_boundValue h).bindPure _

theorem takes_macroDeclaration : TakesAt Q g.macroDeclaration c :=
  .expectThen (by decide) fun _ => (takes_nameAs _).toLocalAt.bind fun _ _ _ =>
    .expectThen fun _ => (takes_blockOrExpression h).toLocalAt.bindPure _

theorem takes_line : TakesAt Q g.line c := by
  refine .byKind <| .ite (fun hkind => (takes_text (by simp [hkind])).bindPure _) fun _ => ?_
  cases g.tables.statement? c.kind with
  | some rule => exact h.run rule c
  | none => exact h.nested.expression c

theorem takes_sequenceLine : TakesAt Q g.sequenceLine c := by
  refine .byKind ?_
  split
  · next hkind =>
    exact .advanceThen (by simp [hkind]) fun _ =>
      .expectBind (fun h => by simp only [h.value]) fun _ _ => .expectThen fun c₃ =>
        (h.nested.expression c₃).toLocalAt.bindPure _
  · next hkind =>
    exact .advanceThen (by simp [hkind]) fun c₁ => (h.nested.expression c₁).toLocalAt.bindPure _
  · exact takes_line h

end Levels

section Lines

variable {line : Parse Node} (hline : ∀ c, TakesAt Q line c)
include hline

/-- Lines of either sort. -/
theorem takes_nextLine {stop : Kind} {c : Cursor} {item : Parse Node}
    (hfound : (if c.kind = stop then none
      else some do
        let node ← line
        let ended ← endLine
        if !ended && (← kind) != stop then unexpected "end of line" else return node) =
      some item) : TakesAt Q item c := by
  split at hfound
  · cases hfound
  · cases hfound
    exact (hline c).bind fun node _ _ =>
      local_endLine_unless (fun ended kind => !ended && kind != stop) _ node

theorem local_linesUntil (stop : Kind) (c : Cursor) : LocalAt Q (linesUntil stop line) c :=
  local_collect (fun hc => by rw [hc.kind_eq]) (takes_nextLine hline) c

theorem length_add_length_le_of_linesUntil {stop : Kind} {nodes : List Node} {c c' : Cursor}
    (hrun : linesUntil stop line c = .ok nodes c') :
    c'.ahead.length + nodes.length ≤ c.ahead.length :=
  length_add_length_le_of_collect (progresses_of_takes (takes_nextLine hline)) hrun

end Lines

section Levels

variable {g : Grammar} {c : Cursor} (h : g.Local Q)
include h

theorem local_bodyUntil (stop : Kind) : LocalAt Q (g.bodyUntil stop) c :=
  local_linesUntil (fun _ => takes_line h) stop c

theorem takes_blockBody : TakesAt Q g.blockBody c :=
  .expectThen (by decide) fun _ => (local_bodyUntil h _).bind fun _ _ _ =>
    .expectThen fun _ => .pure _

theorem takes_sequenceBody : TakesAt Q g.sequenceBody c := by
  refine .expectThen (by decide) fun _ => .byKind <| .ite (fun _ => local_layoutError _) fun _ => ?_
  exact (local_linesUntil (fun _ => takes_sequenceLine h) _ _).bind fun _ _ _ =>
    .expectThen fun _ => .pure _

theorem takes_rule (rule : Rule) : TakesAt Q (rule.parse g) c := by
  cases rule with
  | expression => exact h.nested.expression c
  | application => exact takes_application h
  | literal => exact takes_literal
  | accessor => exact takes_accessor
  | grouping => exact takes_grouping h
  | splice => exact takes_splice h
  | quotation => exact takes_quotation h
  | array => exact takes_array h
  | object => exact takes_object h
  | conditional => exact takes_conditional h
  | function => exact takes_function h
  | choice => exact takes_choice h
  | sequence => exact takes_sequence h
  | line => exact takes_line h
  | letDeclaration => exact takes_letDeclaration h
  | dataDeclaration => exact takes_dataDeclaration
  | macroDeclaration => exact takes_macroDeclaration h

end Levels

end Grammar

open Grammar

variable {tables : Tables}

theorem takes_refuse {α : Type} (limit : Nat) (c : Cursor) :
    Parse.TakesAt Q (Nested.refuse limit : Parse α) c :=
  .of_fails (.throw fun hc => ⟨rfl, hc.position⟩) fun v c' => refuse_ne_ok limit c v c'

/-- Handing on a token to another rule changes nothing about this. -/
theorem local_runRule {nested : Nested} (h : nested.Local Q) (turns : Nat) :
    Grammar.Local Q ⟨tables, nested, runRule tables nested turns⟩ := by
  induction turns with
  | zero => exact ⟨h, fun _ => takes_refuse nested.limit⟩
  | succ turns ih => exact ⟨h, fun rule _ => takes_rule ih rule⟩

theorem Nested.local_within (tables : Tables) (limit room : Nat) :
    (within tables limit room).Local Q := by
  induction room with
  | zero =>
    exact ⟨takes_refuse limit, fun _ => takes_refuse limit, takes_refuse limit, takes_refuse limit⟩
  | succ room ih =>
    have h : (Grammar.within tables limit room).Local Q := local_runRule ih 2
    exact ⟨fun _ => takes_expressionBody h, fun power _ => takes_innerBody h power,
      fun _ => takes_blockBody h, fun _ => takes_sequenceBody h⟩

theorem Grammar.local_within (tables : Tables) (limit room : Nat) :
    (within tables limit room).Local Q :=
  local_runRule (Nested.local_within tables limit room) 2

/-- A whole program is parsed with two tokens in view. -/
theorem local_program (limit : Nat) (c : Cursor) : Parse.LocalAt Q (Grammar.program limit) c :=
  local_bodyUntil (Grammar.local_within .standard limit limit) .eof

end Offside
