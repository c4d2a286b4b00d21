import Offside.Proofs.Grammar.ParamReadings

/-! # How phrases begin

Each phrase that is no list takes at least one token, and the kind of its first token tells which
rule reads it.
-/

namespace Offside

/-- Whether a token of this kind can begin an expression. -/
def Kind.startsExpression (kind : Kind) : Bool :=
  kind.startsInner || kind = .kwFn || kind = .kwMatch || kind = .kwDo

/-- Whether nothing goes on with an expression before a token of this kind. -/
def Kind.closes : Kind → Bool
  | eof | terminator | outdent | comma | closeParen | closeBracket | closeCurly | closeQuote => true
  | _ => false

theorem Tables.tighter?_eq_none {kind : Kind} (h : standard.operator? kind = none) (power : Power) :
    standard.tighter? power kind = none := by
  simp [tighter?, h]

theorem Tables.operator?_of_closes {kind : Kind} (h : kind.closes = true) :
    standard.operator? kind = none ∧ kind ≠ .dot := by
  cases kind <;> first | exact ⟨rfl, by decide⟩ | cases h

theorem Tables.operator?_of_startsInner {kind : Kind} (h : kind.startsInner = true) :
    standard.operator? kind = none ∧ kind ≠ .dot := by
  cases kind <;> first | exact ⟨rfl, by decide⟩ | cases h

/-- How many tokens a phrase has at least. -/
def Phrase.least : Phrase → Nat
  | operations .. | arguments _ | pairLines _ | lines .. => 0
  | _ => 1

namespace Reads

variable {room : Nat} {input rest : List Token}

attribute [grind →] suffix_of_cons_suffix Grammar.optionalType_suffix Grammar.oneParam_suffix
  Grammar.params_suffix

theorem accesses_suffix {fields : List String} (h : Reading.Accesses fields input rest) :
    rest <:+ input := by
  induction h with
  | _ => grind

theorem signature_suffix {signature : List Param × Option String}
    (h : Reading.Signature signature input rest) : rest <:+ input := by
  cases h with
  | mk => grind

theorem pattern_suffix {pattern : CasePattern} (h : Reading.Pattern pattern input rest) :
    rest <:+ input := by
  cases h with
  | bare => exact List.suffix_cons _ _
  | @enclosed opening tag first closing names =>
    exact ⟨opening :: tag :: first :: (names ++ [closing]), by simp⟩

theorem variants_suffix {indented : Bool} {variants : List Variant}
    (h : Reading.Variants indented variants input rest) : rest <:+ input := by
  induction h with
  | _ => grind

attribute [grind →] accesses_suffix signature_suffix pattern_suffix variants_suffix

/-- What is left behind a phrase is the end of what was ahead. -/
theorem suffix {phrase : Phrase} (h : Reads room phrase input rest) : rest <:+ input := by
  induction h with
  | _ => grind [!afterTerminators_suffix]

theorem length_add_least_le {phrase : Phrase} (h : Reads room phrase input rest) :
    rest.length + phrase.least ≤ input.length := by
  induction h with
  | _ => grind [Phrase.least, length_afterTerminators_le]

theorem length_lt {phrase : Phrase} (hleast : phrase.least = 1) (h : Reads room phrase input rest) :
    rest.length < input.length := by
  have := h.length_add_least_le
  omega

theorem startsInner_of_operand {node : Node} (h : Reads room (.operand node) input rest) :
    (nextKind input).startsInner = true := by
  cases h <;> simp_all [Kind.startsInner]

theorem startsInner_of_inner {power : Power} {node : Node}
    (h : Reads room (.inner power node) input rest) : (nextKind input).startsInner = true := by
  cases h with
  | inner hleft => exact hleft.startsInner_of_operand

/-- No expression after an operator begins with a token of another kind. -/
theorem nextKind_ne_of_inner {power : Power} {node : Node} {kind : Kind}
    (h : Reads room (.inner power node) input rest) (hkind : kind.startsInner = false) :
    nextKind input ≠ kind := by
  rintro rfl
  rw [h.startsInner_of_inner] at hkind
  cases hkind

theorem startsExpression {node : Node} (h : Reads room (.expression node) input rest) :
    (nextKind input).startsExpression = true := by
  cases h with
  | function h | choice h | sequence h => simp [Kind.startsExpression, h]
  | call _ h | operation _ h => simp [Kind.startsExpression, h.startsInner_of_operand]
  | other _ _ h => simp [Kind.startsExpression, h.startsInner_of_inner]

/-- No expression begins with a token of another kind. -/
theorem nextKind_ne {node : Node} {kind : Kind} (h : Reads room (.expression node) input rest)
    (hkind : kind.startsExpression = false) : nextKind input ≠ kind := by
  rintro rfl
  rw [h.startsExpression] at hkind
  cases hkind

theorem not_emptyPairAhead_of_operand {node : Node} (h : Reads room (.operand node) input rest) :
    ¬ Reading.EmptyPairAhead input := by
  rintro ⟨hopening, hclosing⟩
  cases h with
  | grouping _ h => exact absurd hclosing (h.nextKind_ne rfl)
  | _ => simp_all

theorem not_emptyPairAhead_of_inner {power : Power} {node : Node}
    (h : Reads room (.inner power node) input rest) : ¬ Reading.EmptyPairAhead input := by
  cases h with
  | inner hleft => exact hleft.not_emptyPairAhead_of_operand

theorem nextKind_of_block {nodes : List Node} (h : Reads room (.block nodes) input rest) :
    nextKind input = .indent := by
  cases h with
  | block h => exact h

theorem nextKind_of_sequenceBlock {nodes : List Node}
    (h : Reads room (.sequenceBlock nodes) input rest) : nextKind input = .indent := by
  cases h with
  | sequenceBlock h => exact h

theorem nextKind_of_arm {entry : CasePattern × Node} (h : Reads room (.arm entry) input rest) :
    nextKind input = .kwCase := by
  cases h with
  | arm h => exact h

theorem nextKind_of_arms {entries : List (CasePattern × Node)}
    (h : Reads room (.arms entries) input rest) : nextKind input = .kwCase := by
  cases h with
  | lastArm h | consArm h => exact h.nextKind_of_arm

theorem namesField_of_pair {entry : String × Node} (h : Reads room (.pair entry) input rest) :
    (nextKind input).namesField = true := by
  cases h with
  | pair h => exact h

theorem nextKind_of_lines {sequence : Bool} {stop : Kind} {nodes : List Node}
    (h : Reads room (.lines sequence stop nodes) input rest) : nextKind rest = stop := by
  induction nodes generalizing input with
  | nil =>
    cases h with
    | noLine h => exact h
  | cons node nodes ih =>
    cases h with
    | consLine _ _ _ h => exact ih h

end Reads

end Offside
