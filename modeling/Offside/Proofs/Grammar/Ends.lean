import Offside.Proofs.Grammar.Starts

/-! # How phrases end

An operand ends in a literal, a name or a closing mark, and so do arguments and operations. An
expression may also end in the terminator of a `do`.
-/

namespace Offside

/-- Whether an operand can end in a token of this kind. -/
def Kind.endsOperand : Kind → Bool
  | identifier | number | string | boolean | kwReturn | kwBind | closeParen | closeBracket
  | closeCurly | closeQuote | outdent => true
  | _ => false

/-- Whether an expression can end in a token of this kind. -/
def Kind.endsExpression (kind : Kind) : Bool :=
  kind.endsOperand || kind = .terminator

theorem Kind.endsExpression_of_endsOperand {kind : Kind} (h : kind.endsOperand = true) :
    kind.endsExpression = true := by
  rw [endsExpression, h, Bool.true_or]

theorem Kind.endsOperand_of_namesField {kind : Kind} (h : kind.namesField = true) :
    kind.endsOperand = true := by
  cases kind <;> first | rfl | cases h

/-- What is read is not empty, and its last token is of a kind that satisfies a test. -/
def EndsWith (test : Kind → Bool) (input rest : List Token) : Prop :=
  ∃ text token, input = text ++ token :: rest ∧ test token.kind = true

namespace EndsWith

variable {test : Kind → Bool} {input mid rest : List Token} {token : Token}

theorem one (h : test token.kind = true) : EndsWith test (token :: rest) rest :=
  ⟨[], token, rfl, h⟩

theorem of_suffix (h : EndsWith test mid rest) (hmid : mid <:+ input) :
    EndsWith test input rest := by
  obtain ⟨text, token, rfl, htest⟩ := h
  obtain ⟨front, rfl⟩ := hmid
  exact ⟨front ++ text, token, (List.append_assoc ..).symm, htest⟩

theorem cons (h : EndsWith test input rest) : EndsWith test (token :: input) rest :=
  h.of_suffix (List.suffix_cons _ _)

/-- A last token that is given. -/
theorem of_token (hmid : token :: rest <:+ input) (h : test token.kind = true) :
    EndsWith test input rest :=
  (one h).of_suffix hmid

theorem mono {test' : Kind → Bool} (h : EndsWith test input rest)
    (himp : ∀ kind, test kind = true → test' kind = true) : EndsWith test' input rest := by
  obtain ⟨text, token, rfl, htest⟩ := h
  exact ⟨text, token, rfl, himp _ htest⟩

/-- What may be empty leaves the last token to what comes before it. -/
theorem append (h : EndsWith test input mid) (hmid : rest = mid ∨ EndsWith test mid rest)
    (hsuffix : mid <:+ input) : EndsWith test input rest := by
  rcases hmid with rfl | hmid
  · exact h
  · exact hmid.of_suffix hsuffix

end EndsWith

theorem accesses_endsWith {fields : List String} {input rest : List Token}
    (h : Reading.Accesses fields input rest) :
    rest = input ∨ EndsWith Kind.endsOperand input rest := by
  induction h with
  | nil => exact .inl rfl
  | cons _ hfield h ih =>
    exact .inr (((EndsWith.one (Kind.endsOperand_of_namesField hfield)).append ih
      (List.suffix_cons _ _)).cons)

theorem params_endsWith {params : List Param} {input rest : List Token}
    (h : Reading.Params params input rest) :
    rest = input ∨ EndsWith Kind.endsOperand input rest := by
  induction h with
  | nil => exact .inl rfl
  | emptyPair _ hclosing _ ih =>
    exact .inr ((EndsWith.one (by rw [hclosing]; rfl)).append ih (List.suffix_cons _ _)).cons
  | cons hparam _ ih =>
    refine .inr (EndsWith.append ?_ ih (Grammar.oneParam_suffix hparam))
    cases hparam with
    | bare hname => exact .one (by rw [hname]; rfl)
    | enclosed _ _ htype hclosing =>
      have hmid := Grammar.optionalType_suffix htype
      exact (EndsWith.of_token hmid (by rw [hclosing]; rfl)).cons.cons

theorem variants_endsWith {indented : Bool} {variants : List Variant} {input rest : List Token}
    (h : Reading.Variants indented variants input rest) :
    EndsWith Kind.endsOperand input rest := by
  induction h with
  | last hname hparams =>
    exact (EndsWith.one (by rw [hname]; rfl)).append (params_endsWith hparams)
      (List.suffix_cons _ _)
  | cons _ hparams _ _ ih =>
    exact (ih.of_suffix (suffix_of_cons_suffix (Grammar.params_suffix hparams))).cons
  | consLine _ _ hparams _ _ _ ih =>
    exact (ih.of_suffix (suffix_of_cons_suffix (suffix_of_cons_suffix
      (Grammar.params_suffix hparams)))).cons

/-- How a phrase ends. -/
def Phrase.Ends (input rest : List Token) : Phrase → Prop
  | operand _ | inner .. | block _ => EndsWith Kind.endsOperand input rest
  | operations .. | arguments _ => rest = input ∨ EndsWith Kind.endsOperand input rest
  | expression _ | pair _ | body _ => EndsWith Kind.endsExpression input rest
  | _ => True

namespace Reads

variable {room : Nat} {input rest : List Token}

theorem ends {phrase : Phrase} (h : Reads room phrase input rest) : phrase.Ends input rest := by
  have expression {input rest : List Token} (h : EndsWith Kind.endsOperand input rest) :
      EndsWith Kind.endsExpression input rest :=
    h.mono fun _ => Kind.endsExpression_of_endsOperand
  induction h with
  | function _ hsignature hbody ih =>
    exact (ih.of_suffix (signature_suffix hsignature)).cons
  | choice _ hscrutinee _ harms houtdent =>
    exact expression ((EndsWith.of_token (harms.suffix.trans
      (suffix_of_cons_suffix hscrutinee.suffix)) (by rw [houtdent]; rfl)).cons)
  | sequence _ hcontext hblock hterminator =>
    exact (EndsWith.of_token (hblock.suffix.trans hcontext.suffix) (by rw [hterminator]; rfl)).cons
  | call _ hcallee _ hitems ihCallee ihItems =>
    exact expression (ihCallee.append ihItems hcallee.suffix)
  | operation _ hleft _ hitems ihLeft ihItems =>
    exact expression (ihLeft.append ihItems hleft.suffix)
  | other _ _ hinner ih => exact expression ih
  | inner hleft hitems ihLeft ihItems => exact ihLeft.append ihItems hleft.suffix
  | noOperation => exact .inl rfl
  | consOperation _ hright hitems ihRight ihItems =>
    exact .inr (ihRight.append ihItems hright.suffix).cons
  | noArgument => exact .inl rfl
  | emptyPair _ hclosing hitems ih =>
    exact .inr ((EndsWith.one (by rw [hclosing]; rfl)).append ih (List.suffix_cons _ _)).cons
  | consArgument hargument hitems ihArgument ihItems =>
    exact .inr (ihArgument.append ihItems hargument.suffix)
  | number hkind | string hkind | boolean hkind => exact .one (by rw [hkind]; rfl)
  | accessor hname haccesses =>
    exact (EndsWith.one (by rw [hname]; rfl)).append (accesses_endsWith haccesses)
      (List.suffix_cons _ _)
  | grouping _ hnode hclosing haccesses =>
    exact ((EndsWith.one (by rw [hclosing]; rfl)).append (accesses_endsWith haccesses)
      (List.suffix_cons _ _)).of_suffix (hnode.suffix.trans (List.suffix_cons _ _))
  | splice _ _ hnode hclosing =>
    exact (EndsWith.of_token hnode.suffix (by rw [hclosing]; rfl)).cons.cons
  | quotation _ hnode hclosing =>
    exact (EndsWith.of_token hnode.suffix (by rw [hclosing]; rfl)).cons
  | emptyArray _ hclosing | emptyObject _ hclosing =>
    exact (EndsWith.one (by rw [hclosing]; rfl)).cons
  | array _ hnodes hclosing | object _ hnodes hclosing =>
    exact (EndsWith.of_token hnodes.suffix (by rw [hclosing]; rfl)).cons
  | objectLines _ _ hentries _ hmid hclosing =>
    refine (EndsWith.of_token ?_ (by rw [hclosing]; rfl)).cons.cons
    rw [← hmid]
    exact (afterTerminators_suffix _).trans ((suffix_of_cons_suffix hentries.suffix).trans
      (afterTerminators_suffix _))
  | pair _ _ _ ih => exact ih.cons.cons
  | conditional _ hcondition _ hthen _ _ _ _ _ ih =>
    exact (ih.of_suffix ((suffix_of_cons_suffix (suffix_of_cons_suffix hthen.suffix)).trans
      (suffix_of_cons_suffix hcondition.suffix))).cons
  | block _ hlines houtdent =>
    exact (EndsWith.of_token hlines.suffix (by rw [houtdent]; rfl)).cons
  | bodyBlock _ ih => exact expression ih
  | bodyExpression _ ih => exact ih
  | _ => trivial

/-- What follows operations binds no tighter than the power. -/
theorem tighter?_of_operations {power : Power} {items : List (Operation × String × Node)}
    (h : Reads room (.operations power items) input rest) :
    Tables.standard.tighter? power (nextKind rest) = none := by
  induction items generalizing input with
  | nil =>
    cases h with
    | noOperation hstop => exact hstop
  | cons item items ih =>
    cases h with
    | consOperation _ _ h => exact ih h

theorem tighter?_of_inner {power : Power} {node : Node}
    (h : Reads room (.inner power node) input rest) :
    Tables.standard.tighter? power (nextKind rest) = none := by
  cases h with
  | inner _ hitems => exact hitems.tighter?_of_operations

theorem endsWith_of_expression {node : Node} (h : Reads room (.expression node) input rest) :
    EndsWith Kind.endsExpression input rest :=
  h.ends

/-- Only functions and the forms of a `do` end in what is no operand's end. -/
theorem endsOperand_of_expression {node : Node} (h : Reads room (.expression node) input rest)
    (hfn : nextKind input ≠ .kwFn) (hdo : nextKind input ≠ .kwDo) :
    EndsWith Kind.endsOperand input rest := by
  cases h with
  | function hkind => exact absurd hkind hfn
  | sequence hkind => exact absurd hkind hdo
  | choice _ hscrutinee _ harms houtdent =>
    exact (EndsWith.of_token (harms.suffix.trans (suffix_of_cons_suffix hscrutinee.suffix))
      (by rw [houtdent]; rfl)).cons
  | call _ hcallee _ hitems => exact EndsWith.append hcallee.ends hitems.ends hcallee.suffix
  | operation _ hleft _ hitems => exact EndsWith.append hleft.ends hitems.ends hleft.suffix
  | other _ _ hinner => exact hinner.ends

/-- A declaration of a type ends in a name, a closing parenthesis or an outdent. -/
theorem endsOperand_of_data {sequence : Bool} {node : Node}
    (h : Reads room (.line sequence node) input rest) (hkind : nextKind input = .kwData) :
    EndsWith Kind.endsOperand input rest := by
  cases h with
  | dataType _ _ hparams _ hvariants =>
    exact ((variants_endsWith hvariants).of_suffix
      (suffix_of_cons_suffix (Grammar.params_suffix hparams))).cons.cons
  | dataIndented _ _ hparams _ _ hvariants hmid houtdent =>
    refine (EndsWith.of_token ?_ (by rw [houtdent]; rfl)).cons.cons
    rw [← hmid]
    exact (afterTerminators_suffix _).trans ((variants_suffix hvariants).trans
      (suffix_of_cons_suffix (suffix_of_cons_suffix (Grammar.params_suffix hparams))))
  | expressionLine h => exact absurd hkind (h.nextKind_ne rfl)
  | _ => simp_all

theorem endsWith_of_pair {entry : String × Node} (h : Reads room (.pair entry) input rest) :
    EndsWith Kind.endsExpression input rest :=
  h.ends

end Reads

end Offside
