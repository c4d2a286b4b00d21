import Offside.Parsing
import Offside.Proofs.Grammar.Framed
import Offside.Proofs.Grammar.OperandReadings

/-! # Productions in a frame

If the productions of the next level run in a frame as others do anywhere, so do those of this
level. Hence a grammar that counts the open levels reads what the grammar reads that is made for the
levels left to open, and it has as many levels open behind each production as before.
-/

namespace Offside

variable {frame : Frame}

/-- In the frame, the productions that open a level run as others do. -/
structure Nested.Tracks (frame : Frame) (nested nested' : Nested) : Prop where
  limit : nested.limit = nested'.limit
  expression (c : Cursor) : Parse.Tracks frame nested.expression nested'.expression c
  inner (power : Power) (c : Cursor) :
    Parse.Tracks frame (nested.inner power) (nested'.inner power) c
  block (c : Cursor) : Parse.Tracks frame nested.block nested'.block c
  sequenceBlock (c : Cursor) : Parse.Tracks frame nested.sequenceBlock nested'.sequenceBlock c

/-- The same of a whole level, under the same tables. -/
structure Grammar.Tracks (frame : Frame) (g g' : Grammar) : Prop where
  tables : g.tables = g'.tables
  nested : g.nested.Tracks frame g'.nested
  run (rule : Rule) (c : Cursor) : Parse.Tracks frame (g.run rule) (g'.run rule) c

namespace Grammar

open Parse

/-! ## Productions that open no level -/

section Levelless

variable {c : Cursor}

theorem tracks_nameAs (description : String) :
    Parse.Tracks frame (do return (← expectAs .identifier description).value)
      (do return (← expectAs .identifier description).value) c :=
  (tracks_expectAs _ _).bindPure _

theorem tracks_fieldName : Parse.Tracks frame fieldName fieldName c :=
  .byKind <| .ite (fun _ => tracks_text) fun _ => tracks_unexpected _

theorem tracks_optionalType : Parse.Tracks frame optionalType optionalType c :=
  .byKind <| .ite (fun _ => tracks_advance.bind fun _ _ => (tracks_nameAs _).bindPure _)
    fun _ => .pure none

theorem tracks_param : Parse.Tracks frame param param c :=
  .byKind <| .ite (fun _ => tracks_text.bindPure _) fun _ =>
    tracks_expect.bind fun _ _ => tracks_expect.bind fun _ _ =>
      tracks_optionalType.bind fun _ _ => tracks_expect.bindPure _

theorem tracks_emptyPair : Parse.Tracks frame emptyPair emptyPair c :=
  tracks_advance.bind fun _ _ => tracks_advance.bindPure _

/-- The items of parameter lists and of argument lists. -/
theorem tracks_orEmptyPair {α : Type} {p q : Parse α} (hp : Parse.Tracks frame p q c)
    (starts : Bool) :
    Option.Rel (Parse.Tracks frame · · c)
      (if !starts then none
        else if atEmptyPair (c.inFrame frame) then some (do emptyPair; return none)
        else some (some <$> p))
      (if !starts then none
        else if atEmptyPair c then some (do emptyPair; return none)
        else some (some <$> q)) := by
  rw [show atEmptyPair (c.inFrame frame) = atEmptyPair c from rfl]
  split
  · exact .none
  · split
    · exact .some (tracks_emptyPair.bindPure _)
    · exact .some (hp.map some)

theorem tracks_optionalParams : Parse.Tracks frame optionalParams optionalParams c :=
  .bindPure (tracks_collect fun c => tracks_orEmptyPair tracks_param (startsParam c)) _

theorem tracks_params : Parse.Tracks frame params params c := by
  change Parse.Tracks frame (if startsParam c then _ else _) (if startsParam c then _ else _) c
  exact .ite (fun _ => tracks_optionalParams) fun _ => tracks_unexpected _

theorem tracks_accessTail (target : Node) :
    Parse.Tracks frame (accessTail target) (accessTail target) c := by
  refine .bindPure (tracks_collect fun c' => ?_) _
  change Option.Rel _ (if c'.kind = .dot then _ else _) _
  split
  · exact .some (tracks_advance.bind fun _ _ => tracks_fieldName)
  · exact .none

theorem tracks_accessor : Parse.Tracks frame accessor accessor c :=
  tracks_expect.bind fun _ _ => tracks_accessTail _

theorem tracks_numeral : Parse.Tracks frame numeral numeral c := by
  refine tracks_advance.bind fun token c' => ?_
  split
  · exact .pure _
  · rfl

theorem tracks_literal : Parse.Tracks frame literal literal c := by
  refine .byKind ?_
  split
  · exact tracks_numeral
  · exact tracks_text.bindPure _
  · exact tracks_text.bindPure _
  · exact tracks_unexpected _

theorem tracks_casePattern : Parse.Tracks frame casePattern casePattern c := by
  refine .byKind ?_
  split
  · exact tracks_text.bindPure _
  · exact tracks_advance.bind fun _ _ => tracks_expect.bind fun _ _ =>
      tracks_expect.bind fun _ _ => (tracks_skip _).bind fun _ _ => tracks_expect.bindPure _
  · exact tracks_unexpected _

theorem tracks_variant : Parse.Tracks frame variant variant c :=
  (tracks_nameAs _).bind fun _ _ => tracks_optionalParams.bindPure _

theorem tracks_variants (indented : Bool) :
    Parse.Tracks frame (variants indented) (variants indented) c := by
  refine tracks_variant.bind fun first _ => .bindPure (tracks_collect fun c' => ?_) _
  change Option.Rel _ (if c'.kind = .pipe then _
    else if indented && c'.kind = .terminator && c'.peek 1 = .pipe then _ else _) _
  split
  · exact .some (tracks_advance.bind fun _ _ => tracks_variant)
  · split
    · exact .some (tracks_advance.bind fun _ _ => tracks_advance.bind fun _ _ => tracks_variant)
    · exact .none

theorem tracks_dataDeclaration : Parse.Tracks frame dataDeclaration dataDeclaration c := by
  refine tracks_expect.bind fun _ _ => (tracks_nameAs _).bind fun name _ =>
    tracks_optionalParams.bind fun params _ => tracks_expect.bind fun _ _ =>
      .byKind <| .ite (fun _ => ?_) fun _ => (tracks_variants false).bindPure _
  exact tracks_advance.bind fun _ _ => (tracks_variants true).bind fun _ _ =>
    tracks_skipTerminators.bind fun _ _ => tracks_expect.bindPure _

end Levelless

/-! ## Productions of a level -/

section Levels

variable {g g' : Grammar} {c : Cursor} (h : g.Tracks frame g')
include h

theorem tracks_operand : Parse.Tracks frame g.operand g'.operand c := by
  refine .byKind ?_
  rw [h.tables]
  cases g'.tables.operand? c.kind with
  | some rule => exact h.run rule c
  | none => exact tracks_unexpected _

theorem tracks_grouping : Parse.Tracks frame g.grouping g'.grouping c :=
  tracks_expect.bind fun _ c₁ => (h.nested.expression c₁).bind fun inner _ =>
    tracks_expect.bind fun _ _ => tracks_accessTail inner

theorem tracks_splice : Parse.Tracks frame g.splice g'.splice c :=
  tracks_expect.bind fun _ _ => tracks_expect.bind fun _ c₂ =>
    (h.nested.expression c₂).bind fun _ _ => tracks_expect.bindPure _

theorem tracks_quotation : Parse.Tracks frame g.quotation g'.quotation c :=
  tracks_expect.bind fun _ c₁ => (h.nested.expression c₁).bind fun _ _ => tracks_expect.bindPure _

theorem tracks_array : Parse.Tracks frame g.array g'.array c := by
  rw [array_eq, array_eq]
  exact tracks_expect.bind fun _ _ => .bind
    (.byKind <| .ite (fun _ => .pure []) fun _ => tracks_separated h.nested.expression)
    fun _ _ => tracks_expect.bindPure _

theorem tracks_pair : Parse.Tracks frame g.pair g'.pair c :=
  tracks_fieldName.bind fun _ _ => tracks_expect.bind fun _ c₂ =>
    (h.nested.expression c₂).bindPure _

theorem tracks_pairLine : Parse.Tracks frame g.pairLine g'.pairLine c := by
  have ending (entry : String × Node) (comma : Prop) [Decidable comma] (c₁ : Cursor) :=
    @tracks_endLine_unless _ frame c₁
      (fun ended kind => !ended && !decide comma && kind != .outdent) Kind.outdent.name entry
  exact (tracks_pair h).bind fun entry c₁ => .byKind <| .ite
    (fun _ => tracks_advance.bind fun _ c₂ => ending entry _ c₂) fun _ => ending entry _ c₁

theorem tracks_object : Parse.Tracks frame g.object g'.object c := by
  rw [object_eq, object_eq]
  refine tracks_expect.bind fun _ _ => .bind (.byKind ?_) fun _ _ => tracks_expect.bindPure _
  split
  · refine tracks_advance.bind fun _ _ => tracks_skipTerminators.bind fun _ _ =>
      .bind (tracks_collect fun c₄ => ?_) fun _ _ => tracks_expect.bind fun _ _ =>
        tracks_skipTerminators.bindPure _
    change Option.Rel _ (if c₄.kind = .outdent then _ else _) _
    split
    · exact .none
    · exact .some (tracks_pairLine h)
  · exact .pure []
  · exact tracks_separated fun _ => tracks_pair h

theorem tracks_conditional : Parse.Tracks frame g.conditional g'.conditional c :=
  tracks_expect.bind fun _ c₁ => (h.nested.inner _ c₁).bind fun _ _ =>
    tracks_expect.bind fun _ c₃ => (h.nested.block c₃).bind fun _ _ =>
      tracks_expect.bind fun _ _ => tracks_expect.bind fun _ c₆ =>
        (h.nested.block c₆).bindPure _

theorem tracks_operatorTail (left : Node) (power : Power) :
    Parse.Tracks frame (g.operatorTail left power) (g'.operatorTail left power) c := by
  refine .bindPure (tracks_collect fun c₁ => ?_) _
  rw [h.tables]
  change Option.Rel _ (Option.map _ (g'.tables.tighter? power c₁.kind)) _
  cases g'.tables.tighter? power c₁.kind with
  | none => exact .none
  | some entry =>
    exact .some (tracks_text.bind fun _ c₂ => (h.nested.inner entry.1 c₂).bindPure _)

theorem tracks_operate (operation : Operation) (power : Power) (left : Node) :
    Parse.Tracks frame (g.operate operation power left) (g'.operate operation power left) c :=
  tracks_text.bind fun _ c₁ => (h.nested.inner power c₁).bindPure _

theorem tracks_arguments : Parse.Tracks frame g.arguments g'.arguments c :=
  tracks_collect fun c => tracks_orEmptyPair (h.nested.inner .loosest c) c.kind.startsInner

theorem tracks_blockOrExpression :
    Parse.Tracks frame g.blockOrExpression g'.blockOrExpression c :=
  .byKind <| .ite (fun _ => h.nested.block c) fun _ => (h.nested.expression c).bindPure _

theorem tracks_functionTail (name? : Option String) :
    Parse.Tracks frame (g.functionTail name?) (g'.functionTail name?) c :=
  tracks_params.bind fun _ _ => tracks_optionalType.bind fun _ _ => tracks_expect.bind fun _ _ =>
    (tracks_blockOrExpression h).bindPure _

theorem tracks_function : Parse.Tracks frame g.function g'.function c :=
  tracks_expect.bind fun _ _ => tracks_functionTail h none

theorem tracks_caseArm : Parse.Tracks frame g.caseArm g'.caseArm c :=
  tracks_expect.bind fun _ _ => tracks_casePattern.bind fun _ _ => tracks_expect.bind fun _ c₃ =>
    (h.nested.expression c₃).bindPure _

theorem tracks_caseArms : Parse.Tracks frame g.caseArms g'.caseArms c := by
  have line (c₁ : Cursor) : Parse.Tracks frame
      (do let arm ← g.caseArm; let _ ← endLine; return arm)
      (do let arm ← g'.caseArm; let _ ← endLine; return arm) c₁ :=
    (tracks_caseArm h).bind fun _ _ => tracks_endLine.bindPure _
  refine (line c).bind fun first _ => .bindPure (tracks_collect fun c₂ => ?_) _
  change Option.Rel _
    (if c₂.kind = .kwCase && c₂.previous? = some .terminator then _ else _) _
  split
  · exact .some (line c₂)
  · exact .none

theorem tracks_choice : Parse.Tracks frame g.choice g'.choice c :=
  tracks_expect.bind fun _ c₁ => (h.nested.inner .loosest c₁).bind fun _ _ =>
    tracks_expect.bind fun _ _ => (tracks_caseArms h).bind fun _ _ => tracks_expect.bindPure _

theorem tracks_sequence : Parse.Tracks frame g.sequence g'.sequence c :=
  tracks_expect.bind fun _ c₁ => (h.nested.inner .loosest c₁).bind fun _ c₂ =>
    (h.nested.sequenceBlock c₂).bind fun _ _ => tracks_expect.bindPure _

theorem tracks_application : Parse.Tracks frame g.application g'.application c := by
  refine .byKind <| .ite (fun _ => ?_) fun _ => h.nested.inner .loosest c
  exact (tracks_operand h).bind fun callee _ => .byKind <| .ite
    (fun _ => (tracks_arguments h).bindPure _) fun _ => tracks_operatorTail h _ _

theorem tracks_expressionBody : Parse.Tracks frame g.expressionBody g'.expressionBody c := by
  refine .byKind ?_
  split
  · exact tracks_function h
  · exact tracks_choice h
  · exact tracks_sequence h
  · exact tracks_application h

theorem tracks_innerBody (power : Power) :
    Parse.Tracks frame (g.innerBody power) (g'.innerBody power) c :=
  (tracks_operand h).bind fun left _ => tracks_operatorTail h left power

theorem tracks_boundValue : Parse.Tracks frame g.boundValue g'.boundValue c :=
  .byKind <| .ite (fun _ => tracks_advance.bind fun _ c₁ => (h.nested.expression c₁).bind
    fun _ _ => tracks_skipTerminators.bind fun _ _ => tracks_expect.bindPure _)
    fun _ => h.nested.expression c

theorem tracks_letDeclaration : Parse.Tracks frame g.letDeclaration g'.letDeclaration c :=
  tracks_expect.bind fun _ _ => (tracks_nameAs _).bind fun _ _ => .byKind <| .ite
    (fun _ => tracks_functionTail h _) fun _ => tracks_optionalType.bind fun _ _ =>
      tracks_expect.bind fun _ _ => (tracks_boundValue h).bindPure _

theorem tracks_macroDeclaration :
    Parse.Tracks frame g.macroDeclaration g'.macroDeclaration c :=
  tracks_expect.bind fun _ _ => (tracks_nameAs _).bind fun _ _ => tracks_expect.bind fun _ _ =>
    (tracks_blockOrExpression h).bindPure _

theorem tracks_line : Parse.Tracks frame g.line g'.line c := by
  refine .byKind <| .ite (fun _ => tracks_text.bindPure _) fun _ => ?_
  rw [h.tables]
  cases g'.tables.statement? c.kind with
  | some rule => exact h.run rule c
  | none => exact h.nested.expression c

theorem tracks_sequenceLine : Parse.Tracks frame g.sequenceLine g'.sequenceLine c := by
  refine .byKind ?_
  split
  · exact tracks_advance.bind fun _ _ => tracks_expect.bind fun _ _ =>
      tracks_expect.bind fun _ c₃ => (h.nested.expression c₃).bindPure _
  · exact tracks_advance.bind fun _ c₁ => (h.nested.expression c₁).bindPure _
  · exact tracks_line h

end Levels

theorem tracks_linesUntil {line line' : Parse Node} (hline : ∀ c, Parse.Tracks frame line line' c)
    (stop : Kind) (c : Cursor) :
    Parse.Tracks frame (linesUntil stop line) (linesUntil stop line') c := by
  refine tracks_collect fun c₁ => ?_
  change Option.Rel _ (if c₁.kind = stop then _ else _) _
  split
  · exact .none
  · exact .some ((hline c₁).bind fun node _ =>
      tracks_endLine_unless (fun ended kind => !ended && kind != stop) _ node)

section Levels

variable {g g' : Grammar} {c : Cursor} (h : g.Tracks frame g')
include h

theorem tracks_bodyUntil (stop : Kind) :
    Parse.Tracks frame (g.bodyUntil stop) (g'.bodyUntil stop) c :=
  tracks_linesUntil (fun _ => tracks_line h) stop c

theorem tracks_blockBody : Parse.Tracks frame g.blockBody g'.blockBody c :=
  tracks_expect.bind fun _ _ => (tracks_bodyUntil h _).bind fun _ _ => tracks_expect.bindPure _

theorem tracks_sequenceBody : Parse.Tracks frame g.sequenceBody g'.sequenceBody c :=
  tracks_expect.bind fun _ _ => .byKind <| .ite (fun _ => tracks_layoutError _) fun _ =>
    (tracks_linesUntil (fun _ => tracks_sequenceLine h) _ _).bind fun _ _ =>
      tracks_expect.bindPure _

theorem tracks_rule (rule : Rule) : Parse.Tracks frame (rule.parse g) (rule.parse g') c := by
  cases rule with
  | expression => exact h.nested.expression c
  | application => exact tracks_application h
  | literal => exact tracks_literal
  | accessor => exact tracks_accessor
  | grouping => exact tracks_grouping h
  | splice => exact tracks_splice h
  | quotation => exact tracks_quotation h
  | array => exact tracks_array h
  | object => exact tracks_object h
  | conditional => exact tracks_conditional h
  | function => exact tracks_function h
  | choice => exact tracks_choice h
  | sequence => exact tracks_sequence h
  | line => exact tracks_line h
  | letDeclaration => exact tracks_letDeclaration h
  | dataDeclaration => exact tracks_dataDeclaration
  | macroDeclaration => exact tracks_macroDeclaration h

end Levels

/-- Handing on a token to another rule changes nothing about this. -/
theorem tracks_runRule {nested nested' : Nested} (h : nested.Tracks frame nested')
    (tables : Tables) (turns : Nat) :
    Grammar.Tracks frame ⟨tables, nested, runRule tables nested turns⟩
      ⟨tables, nested', runRule tables nested' turns⟩ := by
  induction turns with
  | zero =>
    refine ⟨rfl, h, fun _ c => ?_⟩
    change Parse.Tracks frame (Nested.refuse nested.limit) (Nested.refuse nested'.limit) c
    rw [h.limit]
    exact tracks_refuse nested'.limit
  | succ turns ih => exact ⟨rfl, h, fun rule _ => tracks_rule ih rule⟩

end Grammar

/-! ## Counted levels -/

namespace Nested

open Parse

variable {α : Type} {p q : Parse α} {c : Cursor}

/-- Where no level is left to open. -/
theorem tracks_deeper_of_le (hle : frame.limit ≤ frame.depth) :
    Parse.Tracks frame (deeper p) (refuse frame.limit) c :=
  if_pos hle

theorem deeper_of_ok {v : α} {c' : Cursor} (hlt : c.frame.depth < c.frame.limit)
    (h : p c.enter = .ok v c') : deeper p c = .ok v c'.leave := by
  rw [deeper, if_neg (Nat.not_le.2 hlt), h]

theorem deeper_of_error {error : SyntaxError} {c' : Cursor} (hlt : c.frame.depth < c.frame.limit)
    (h : p c.enter = .error error c') : deeper p c = .error error c'.leave := by
  rw [deeper, if_neg (Nat.not_le.2 hlt), h]

/-- The level that is counted for a parse is discounted behind it. -/
theorem tracks_deeper (hlt : frame.depth < frame.limit) (production : Tables → Parse α)
    (hp : Parse.Tracks frame.enter (production frame.tables) q c) :
    Parse.Tracks frame (deeper fun cursor => production cursor.frame.tables cursor) q c := by
  have hrun : production frame.tables (c.inFrame frame).enter = inFrame frame.enter (q c) := hp
  rw [Parse.Tracks]
  cases hq : q c with
  | ok v c' =>
    rw [hq] at hrun
    exact deeper_of_ok hlt hrun
  | error error c' =>
    rw [hq] at hrun
    exact deeper_of_error hlt hrun

/-- Turns enough for the levels left to open are as good as any. -/
theorem tracks_counting {turns : Nat} (hturns : frame.limit - frame.depth ≤ turns) :
    (counting frame.limit turns).Tracks frame
      (within frame.tables frame.limit (frame.limit - frame.depth)) := by
  induction turns generalizing frame with
  | zero =>
    rw [Nat.le_zero.1 hturns]
    exact ⟨rfl, fun _ => tracks_refuse _, fun _ _ => tracks_refuse _, fun _ => tracks_refuse _,
      fun _ => tracks_refuse _⟩
  | succ turns ih =>
    by_cases hlt : frame.depth < frame.limit
    · have hroom : frame.limit - frame.depth = frame.enter.limit - frame.enter.depth + 1 := by
        simp only [Frame.enter]
        omega
      have h : (Grammar.ofNested frame.tables (counting frame.limit turns)).Tracks frame.enter
          (.within frame.tables frame.limit (frame.enter.limit - frame.enter.depth)) :=
        Grammar.tracks_runRule (@ih frame.enter (by omega)) _ 2
      rw [hroom, counting, within]
      let level (tables : Tables) : Grammar := .ofNested tables (counting frame.limit turns)
      exact ⟨rfl,
        fun _ => tracks_deeper hlt (fun tables => (level tables).expressionBody)
          (Grammar.tracks_expressionBody h),
        fun power _ => tracks_deeper hlt (fun tables => (level tables).innerBody power)
          (Grammar.tracks_innerBody h power),
        fun _ => tracks_deeper hlt (fun tables => (level tables).blockBody)
          (Grammar.tracks_blockBody h),
        fun _ => tracks_deeper hlt (fun tables => (level tables).sequenceBody)
          (Grammar.tracks_sequenceBody h)⟩
    · have hle : frame.limit ≤ frame.depth := Nat.not_lt.1 hlt
      rw [Nat.sub_eq_zero_of_le hle, counting, within, exhausted]
      refine ⟨rfl, fun _ => ?_, fun _ _ => ?_, fun _ => ?_, fun _ => ?_⟩
      all_goals
        dsimp only
        exact tracks_deeper_of_le hle

end Nested

/-- The grammar of a frame reads what the one reads that has as many levels left to open. -/
theorem Grammar.tracks_counting (frame : Frame) :
    (counting frame).Tracks frame
      (within frame.tables frame.limit (frame.limit - frame.depth)) :=
  tracks_runRule (Nested.tracks_counting (by omega)) _ 2

end Offside
