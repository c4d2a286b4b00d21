import Offside.Proofs.Grammar.Exact
import Offside.Proofs.Node.Equivalence

/-! # Parsed trees

A tree that was read is well formed, and its operators are operator tokens of the input.
-/

namespace Offside

/-- The kinds of the operators of a family. -/
def Operation.kinds : Operation → List Kind
  | arithmetic => [.plus, .dash, .math]
  | comparison => [.compare]

theorem Tables.mem_kinds_of_tighter? {power own : Power} {kind : Kind} {operation : Operation}
    (h : standard.tighter? power kind = some (own, operation)) : kind ∈ operation.kinds := by
  have hoperator : standard.operator? kind = some (own, operation) :=
    Option.eq_some_of_filter_eq_some h
  cases kind <;> cases hoperator <;> decide

/-- A token of the list is an operator of this family with this text. -/
def OperatorOf (tokens : List Token) (operation : Operation) (text : String) : Prop :=
  ∃ token ∈ tokens, token.kind ∈ operation.kinds ∧ token.value = text

/-- What is well formed about the trees of a phrase. -/
def Phrase.WellFormed (known : Operation → String → Prop) : Phrase → Prop
  | expression node | inner _ node | operand node => node.WellFormed known .operand
  | operations _ items =>
    ∀ item ∈ items, known item.1 item.2.1 ∧ item.2.2.WellFormed known .operand
  | arguments items => ∀ node, some node ∈ items → node.WellFormed known .operand
  | elements nodes => ∀ node ∈ nodes, node.WellFormed known .operand
  | pair entry => entry.2.WellFormed known .operand
  | arm entry => entry.2.WellFormed known .operand
  | pairs entries | pairLines entries => ∀ entry ∈ entries, entry.2.WellFormed known .operand
  | arms entries => entries ≠ [] ∧ ∀ entry ∈ entries, entry.2.WellFormed known .operand
  | block nodes | body nodes => ∀ node ∈ nodes, node.WellFormed known (.line false)
  | sequenceBlock nodes => nodes ≠ [] ∧ ∀ node ∈ nodes, node.WellFormed known (.line true)
  | line sequence node => node.WellFormed known (.line sequence)
  | lines sequence _ nodes => ∀ node ∈ nodes, node.WellFormed known (.line sequence)

open Grammar

variable {room : Nat} {tokens input rest : List Token}

theorem Reading.Variants.ne_nil {indented : Bool} {variants : List Variant}
    (h : Variants indented variants input rest) : variants ≠ [] := by
  cases h <;> exact List.cons_ne_nil _ _

namespace Reads

attribute [grind →] Reads.suffix

theorem lines_ne_nil {sequence : Bool} {stop : Kind} {nodes : List Node}
    (h : Reads room (.lines sequence stop nodes) input rest) (hfirst : nextKind input ≠ stop) :
    nodes ≠ [] := by
  rintro rfl
  cases h with
  | noLine hstop => exact hfirst hstop

theorem wellFormed {known : Operation → String → Prop}
    (hknown : ∀ token ∈ tokens, ∀ operation : Operation, token.kind ∈ operation.kinds →
      known operation token.value) {phrase : Phrase} (h : Reads room phrase input rest)
    (hin : input <:+ tokens) : phrase.WellFormed known := by
  induction h with
  | function _ _ _ ih => exact .function (ih (by grind))
  | choice _ _ _ _ _ ih ihCases =>
    obtain ⟨hne, hcases⟩ := ihCases (by grind)
    exact .choice hne (ih (by grind)) hcases
  | sequence _ _ _ _ ih ihBody =>
    obtain ⟨hne, hbody⟩ := ihBody (by grind)
    exact .sequence hne (ih (by grind)) hbody
  | call _ _ _ _ ih ihItems =>
    exact wellFormed_applyArguments (ih hin) (by simp) (ihItems (by grind))
  | operation _ _ _ _ ih ihItems => exact wellFormed_applyOperations (ih hin) (ihItems (by grind))
  | other _ _ _ ih => exact ih hin
  | inner _ _ ih ihItems => exact wellFormed_applyOperations (ih hin) (ihItems (by grind))
  | noOperation => exact List.forall_mem_nil _
  | consOperation hoperator _ _ ih ihItems =>
    have hmem := hin.subset List.mem_cons_self
    exact List.forall_mem_cons.2 ⟨⟨hknown _ hmem _ (Tables.mem_kinds_of_tighter? hoperator),
      ih (by grind)⟩, ihItems (by grind)⟩
  | noArgument => exact fun _ => nofun
  | emptyPair _ _ _ ih =>
    intro node hmem
    rcases List.mem_cons.1 hmem with h | h
    · cases h
    · exact ih (by grind) node h
  | consArgument _ _ ih ihItems =>
    intro node hmem
    rcases List.mem_cons.1 hmem with h | h
    · cases h
      exact ih hin
    · exact ihItems (by grind) node h
  | number _ hvalue => exact .number hvalue
  | string => exact .string
  | boolean => exact .boolean
  | accessor => exact wellFormed_accesses _ .identifier
  | grouping _ _ _ _ ih => exact wellFormed_accesses _ (ih (by grind))
  | splice _ _ _ _ ih => exact .splice (ih (by grind))
  | quotation _ _ _ ih => exact .quoted (ih (by grind))
  | emptyArray => exact .array (List.forall_mem_nil _)
  | array _ _ _ ih => exact .array (ih (by grind))
  | lastElement _ _ ih => exact List.forall_mem_singleton.2 (ih hin)
  | consElement _ _ _ ih ihRest => exact List.forall_mem_cons.2 ⟨ih hin, ihRest (by grind)⟩
  | emptyObject => exact .object (by simp) (List.forall_mem_nil _)
  | object _ _ _ ih => exact wellFormed_object (ih (by grind))
  | objectLines _ _ _ _ _ _ ih =>
    exact wellFormed_object (ih ((afterTerminators_suffix _).trans (by grind)))
  | pair _ _ _ ih => exact ih (by grind)
  | lastPair _ _ ih => exact List.forall_mem_singleton.2 (ih hin)
  | consPair _ _ _ ih ihRest => exact List.forall_mem_cons.2 ⟨ih hin, ihRest (by grind)⟩
  | noPairLine => exact List.forall_mem_nil _
  | pairLineComma _ _ _ ih ihRest =>
    exact List.forall_mem_cons.2 ⟨ih hin, ihRest ((afterTerminators_suffix _).trans (by grind))⟩
  | pairLine _ _ _ _ ih ihRest =>
    exact List.forall_mem_cons.2 ⟨ih hin, ihRest ((afterTerminators_suffix _).trans (by grind))⟩
  | conditional _ _ _ _ _ _ _ ih ihThen ihElse =>
    exact .conditional (ih (by grind)) (ihThen (by grind)) (ihElse (by grind))
  | arm _ _ _ _ ih => exact ih (by grind)
  | lastArm _ _ ih => exact ⟨List.cons_ne_nil _ _, List.forall_mem_singleton.2 (ih hin)⟩
  | consArm _ _ _ ih ihRest =>
    exact ⟨List.cons_ne_nil _ _, List.forall_mem_cons.2
      ⟨ih hin, (ihRest ((afterTerminators_suffix _).trans (by grind))).2⟩⟩
  | block _ _ _ ih => exact ih (by grind)
  | sequenceBlock _ hfirst h _ ih => exact ⟨h.lines_ne_nil hfirst, ih (by grind)⟩
  | bodyBlock _ ih => exact ih hin
  | bodyExpression _ ih => exact List.forall_mem_singleton.2 (.expressionLine (ih hin))
  | comment => exact .comment
  | letFunction _ _ _ _ ih => exact .namedFunction (ih (by grind))
  | letValue _ _ _ _ _ _ _ ih => exact .letValue (ih (by grind))
  | letIndented _ _ _ _ _ _ _ _ _ _ ih => exact .letValue (ih (by grind))
  | dataType _ _ _ _ hvariants => exact .dataType hvariants.ne_nil
  | dataIndented _ _ _ _ _ hvariants => exact .dataType hvariants.ne_nil
  | macroBody _ _ _ _ ih => exact .macroBody (ih (by grind))
  | expressionLine _ ih => exact .expressionLine (ih hin)
  | bind _ _ _ _ ih => exact .bind (ih (by grind))
  | result _ _ ih => exact .result (ih (by grind))
  | noLine => exact List.forall_mem_nil _
  | consLine _ _ _ _ ih ihRest =>
    exact List.forall_mem_cons.2 ⟨ih hin, ihRest ((afterTerminators_suffix _).trans (by grind))⟩

end Reads

/-- Whatever is parsed is well formed, and its operators are operator tokens of the input. -/
theorem wellFormed_of_parse {tokens : List Token} {file : String} {limit : Nat} {program : Program}
    (h : parse tokens file limit = .ok program) : program.WellFormed (OperatorOf tokens) := by
  have hreads := (parse_eq_ok_iff.1 h).2
  refine hreads.wellFormed (fun token hmem operation hkind => ?_) List.suffix_rfl
  exact ⟨token, (List.takeWhile_sublist _).subset hmem, hkind, rfl⟩

/-- Whatever is parsed can be compared: the keys of an object in it are distinct. -/
theorem keysDistinct_of_parse {tokens : List Token} {file : String} {limit : Nat}
    {program : Program} (h : parse tokens file limit = .ok program) : program.KeysDistinct := by
  have hlines : Phrase.WellFormed (fun _ _ => True) (.lines false .eof program.body) :=
    (parse_eq_ok_iff.1 h).2.wellFormed (fun _ _ _ _ => trivial) List.suffix_rfl
  exact fun node hmem => (hlines node hmem).keysDistinct

/-- A `do` with a binding and a result, which is compared. -/
theorem wellFormed_parse_sequence :
    Program.WellFormed (OperatorOf [⟨.kwDo, "do", default⟩, ⟨.identifier, "m", default⟩,
      ⟨.indent, "Indent", default⟩, ⟨.kwBind, "bind", default⟩, ⟨.identifier, "x", default⟩,
      ⟨.assignment, "=", default⟩, ⟨.identifier, "y", default⟩,
      ⟨.terminator, "Terminator", default⟩, ⟨.kwReturn, "return", default⟩,
      ⟨.identifier, "x", default⟩, ⟨.compare, "<", default⟩, ⟨.identifier, "y", default⟩,
      ⟨.outdent, "Outdent", default⟩, ⟨.terminator, "Terminator", default⟩])
      ⟨[.sequence (.identifier "m") [.bind "x" (.identifier "y"),
        .result (.comparison "<" (.identifier "x") (.identifier "y"))]]⟩ :=
  @wellFormed_of_parse _ "f" 6 _ rfl

end Offside
