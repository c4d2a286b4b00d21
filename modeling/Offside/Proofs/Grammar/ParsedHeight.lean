import Mathlib.Data.List.TakeWhile
import Offside.Proofs.Grammar.Exact
import Offside.Proofs.Node.Height

/-! # Height of parsed trees

The limit on levels bounds the nesting of a tree that was parsed. It does not bound the height: one
level is enough for a name with any number of fields.
-/

namespace Offside

/-- The nesting of the trees of a phrase, with some number of levels left. -/
def Phrase.Shallow (room : Nat) : Phrase → Prop
  | expression node | inner _ node => node.nesting ≤ room
  | operand node | line _ node => node.nesting ≤ room + 1
  | operations _ items => ∀ item ∈ items, item.2.2.nesting ≤ room
  | arguments items => ∀ node, some node ∈ items → node.nesting ≤ room
  | pair entry => entry.2.nesting ≤ room
  | arm entry => entry.2.nesting ≤ room
  | pairs entries | pairLines entries => ∀ entry ∈ entries, entry.2.nesting ≤ room
  | arms entries => ∀ entry ∈ entries, entry.2.nesting ≤ room
  | elements nodes | block nodes | sequenceBlock nodes | body nodes =>
    ∀ node ∈ nodes, node.nesting ≤ room
  | lines _ _ nodes => ∀ node ∈ nodes, node.nesting ≤ room + 1

open Grammar Node

variable {room : Nat} {input rest : List Token}

namespace Reads

/-- Every step but those of the loops opens a level. -/
theorem shallow {phrase : Phrase} (h : Reads room phrase input rest) : phrase.Shallow room := by
  induction h with
  | function _ _ _ ih => exact Nat.succ_le_succ (heightsBy_le_iff.2 ih)
  | choice _ _ _ _ _ ih ihCases =>
    exact Nat.succ_le_succ (Nat.max_le.2 ⟨ih, caseHeightsBy_le_iff.2 ihCases⟩)
  | sequence _ _ _ _ ih ihBody =>
    exact Nat.succ_le_succ (Nat.max_le.2 ⟨ih, heightsBy_le_iff.2 ihBody⟩)
  | call _ _ _ _ ih ihItems =>
    exact nesting_applyArguments_le (Nat.succ_pos _) ih (List.forall_mem_nil _)
      fun node hmem => Nat.lt_succ_of_le (ihItems node hmem)
  | operation _ _ _ _ ih ihItems | inner _ _ ih ihItems =>
    exact nesting_applyOperations_le ih fun item hmem => Nat.lt_succ_of_le (ihItems item hmem)
  | other _ _ _ ih => exact Nat.le_succ_of_le ih
  | noOperation => exact List.forall_mem_nil _
  | consOperation _ _ _ ih ihItems => exact List.forall_mem_cons.2 ⟨ih, ihItems⟩
  | noArgument => exact fun _ => nofun
  | emptyPair _ _ _ ih =>
    intro node hmem
    rcases List.mem_cons.1 hmem with h | h
    · cases h
    · exact ih node h
  | consArgument _ _ ih ihItems =>
    intro node hmem
    rcases List.mem_cons.1 hmem with h | h
    · cases h
      exact ih
    · exact ihItems node h
  | number | string | boolean | emptyArray | emptyObject | comment | dataType | dataIndented =>
    exact Nat.succ_le_succ (Nat.zero_le _)
  | accessor =>
    exact Nat.le_trans (Nat.le_of_eq (nesting_accesses _ _)) (Nat.succ_le_succ (Nat.zero_le _))
  | grouping _ _ _ _ ih =>
    exact Nat.le_trans (Nat.le_of_eq (nesting_accesses _ _)) (Nat.le_succ_of_le ih)
  | splice _ _ _ _ ih | quotation _ _ _ ih => exact Nat.succ_le_succ ih
  | array _ _ _ ih => exact Nat.succ_le_succ (heightsBy_le_iff.2 ih)
  | lastElement _ _ ih | lastPair _ _ ih | lastArm _ _ ih | bodyExpression _ ih =>
    exact List.forall_mem_singleton.2 ih
  | consElement _ _ _ ih ihRest | consPair _ _ _ ih ihRest | pairLineComma _ _ _ ih ihRest
  | pairLine _ _ _ _ ih ihRest | consArm _ _ _ ih ihRest | consLine _ _ _ _ ih ihRest =>
    exact List.forall_mem_cons.2 ⟨ih, ihRest⟩
  | object _ _ _ ih | objectLines _ _ _ _ _ _ ih => exact nesting_object_le ih
  | pair _ _ _ ih | arm _ _ _ _ ih | block _ _ _ ih | sequenceBlock _ _ _ _ ih | bodyBlock _ ih =>
    exact ih
  | noPairLine | noLine => exact List.forall_mem_nil _
  | conditional _ _ _ _ _ _ _ ih ihThen ihElse =>
    exact Nat.succ_le_succ (Nat.max_le.2
      ⟨ih, Nat.max_le.2 ⟨heightsBy_le_iff.2 ihThen, heightsBy_le_iff.2 ihElse⟩⟩)
  | letFunction _ _ _ _ ih | macroBody _ _ _ _ ih =>
    exact Nat.succ_le_succ (heightsBy_le_iff.2 ih)
  | letValue _ _ _ _ _ _ _ ih | letIndented _ _ _ _ _ _ _ _ _ _ ih | bind _ _ _ _ ih
  | result _ _ ih => exact Nat.succ_le_succ ih
  | expressionLine _ ih => exact Nat.le_succ_of_le ih

end Reads

/-! ## Chains of fields -/

/-- A field behind a dot. -/
def dotField : List Token :=
  [⟨.dot, ".", default⟩, ⟨.identifier, "y", default⟩]

/-- A name with a number of fields. -/
def fieldChain (fields : Nat) : List Token :=
  ⟨.identifier, "x", default⟩ :: (List.replicate fields dotField).flatten

theorem accesses_of_chain (fields : Nat) :
    Reading.Accesses (List.replicate fields "y") (List.replicate fields dotField).flatten [] := by
  induction fields with
  | zero => exact .nil (by decide)
  | succ fields ih =>
    have hname : (Token.mk .identifier "y" default).kind.namesField = true := rfl
    exact .cons rfl hname ih

/-- However many fields there are, no level but the first is opened. -/
theorem parse_fieldChain (fields : Nat) (file : String) :
    parse (fieldChain fields) file 1 =
      .ok ⟨[(List.replicate fields "y").foldl .access (.identifier "x")]⟩ := by
  have hcontent : ∀ token ∈ fieldChain fields, (token.kind != .eof) = true := by
    simp only [fieldChain, dotField, List.forall_mem_cons, List.mem_flatten]
    refine ⟨rfl, ?_⟩
    rintro token ⟨field, hfield, hmem⟩
    rw [List.eq_of_mem_replicate hfield] at hmem
    revert token
    decide
  have htake : (fieldChain fields).takeWhile (·.kind != .eof) = fieldChain fields :=
    List.takeWhile_eq_self_iff.2 hcontent
  have hdrop : (fieldChain fields).dropWhile (·.kind != .eof) = [] :=
    List.dropWhile_eq_nil_iff.2 hcontent
  have hoperand : Reads 0 (.operand _) (fieldChain fields) [] :=
    .accessor rfl (accesses_of_chain fields)
  have hexpression : Reads 1 (.expression _) (fieldChain fields) [] :=
    .operation (.inl rfl) hoperand rfl (.noOperation rfl)
  refine parse_eq_ok_iff.2 ⟨by rw [trailing?, hdrop]; rfl, ?_⟩
  rw [htake]
  exact .consLine (by simp [fieldChain]) (.expressionLine hexpression) (.inr rfl) (.noLine rfl)

/-- No function of the limit bounds the height of the trees that are parsed under it. -/
theorem not_exists_height_bound :
    ¬ ∃ bound : Nat → Nat, ∀ (tokens : List Token) (file : String) (limit : Nat)
      (program : Program), parse tokens file limit = .ok program →
      ∀ node ∈ program.body, node.height ≤ bound limit := by
  rintro ⟨bound, h⟩
  have hle := h _ "" 1 _ (parse_fieldChain (bound 1) "") _ (List.mem_singleton_self _)
  rw [Node.height, heightBy_accesses, List.length_replicate, heightBy] at hle
  omega

/-- The limit bounds the nesting. -/
theorem nesting_le_of_parse {tokens : List Token} {file : String} {limit : Nat}
    {program : Program} (h : parse tokens file limit = .ok program) :
    ∀ node ∈ program.body, node.nesting ≤ limit + 1 :=
  (parse_eq_ok_iff.1 h).2.shallow

/-- A field inside a definition, under a limit of one. -/
theorem nesting_le_of_parse_letValue :
    let tokens : List Token :=
      [⟨.kwLet, "let", default⟩, ⟨.identifier, "x", default⟩, ⟨.assignment, "=", default⟩,
       ⟨.identifier, "x", default⟩, ⟨.dot, ".", default⟩, ⟨.identifier, "y", default⟩]
    let body : List Node := [.letValue "x" none (.access (.identifier "x") "y")]
    parse tokens "" 1 = .ok ⟨body⟩ ∧ ∀ node ∈ body, node.nesting ≤ 2 := by
  intro tokens body
  have h : parse tokens "" 1 = .ok ⟨body⟩ := rfl
  exact ⟨h, nesting_le_of_parse h⟩

end Offside
