import Offside.Proofs.Grammar.ParsedTrees
import Offside.Proofs.Node.Atoms

/-! # Nothing is lost

The atoms of a parsed tree are those of the tokens it was read from, in order. A key that an object
has twice would be an exception, so the texts in front of colons must differ.
-/

namespace Offside

/-- What a token adds to a tree. A keyword adds its text where it names a field. -/
def Token.atoms (token : Token) (field : Bool) : List Atom :=
  match token.kind with
  | .identifier => [.name token.value]
  | .number => [.number (Binary64.read? token.value.toList)]
  | .string => [.text token.value]
  | .boolean => [.truth (token.value = "true")]
  | .comment => [.remark token.value]
  | .compare | .math | .plus | .dash => [.operator token.value]
  | .kwBind | .kwReturn => if field then [.name token.value] else []
  | _ => []

/-- The atoms of a token list, where it is told whether a dot comes before it. A keyword names a
field directly behind a dot or directly before a colon. -/
def content : Bool → List Token → List Atom
  | _, [] => []
  | afterDot, token :: rest =>
    token.atoms (afterDot || nextKind rest = .colon) ++ content (token.kind = .dot) rest

/-- The texts of the tokens that stand directly before a colon. -/
def textsBeforeColons : List Token → List String
  | [] => []
  | token :: rest =>
    if nextKind rest = .colon then token.value :: textsBeforeColons rest
    else textsBeforeColons rest

theorem textsBeforeColons_suffix {input rest : List Token} (h : rest <:+ input) :
    textsBeforeColons rest <:+ textsBeforeColons input := by
  obtain ⟨text, rfl⟩ := h
  induction text with
  | nil => exact List.suffix_rfl
  | cons token text ih =>
    rw [List.cons_append, textsBeforeColons]
    split
    · exact ih.trans (List.suffix_cons _ _)
    · exact ih

theorem Token.atoms_of_namesField {token : Token} (h : token.kind.namesField = true) :
    token.atoms true = [.name token.value] := by
  unfold atoms
  cases hkind : token.kind <;> simp_all [Kind.namesField]

theorem content_field {token : Token} (h : token.kind.namesField = true) {afterDot : Bool}
    {rest : List Token} (hplace : afterDot = true ∨ nextKind rest = .colon) :
    content afterDot (token :: rest) = .name token.value :: content false rest := by
  have hfield : (afterDot || decide (nextKind rest = .colon)) = true := by simpa using hplace
  have hdot : token.kind ≠ .dot := by
    intro hkind
    rw [hkind] at h
    cases h
  rw [content, hfield, token.atoms_of_namesField h, decide_eq_false hdot, List.singleton_append]

theorem content_afterTerminators (input : List Token) :
    content false (afterTerminators input) = content false input := by
  induction input with
  | nil => rfl
  | cons token rest ih =>
    by_cases h : token.kind = .terminator
    · rw [afterTerminators_cons_of_eq h, ih]
      simp [content, Token.atoms, h]
    · have hne : nextKind (token :: rest) ≠ .terminator := h
      rw [afterTerminators_of_ne hne]

theorem content_of_afterTerminators {input rest : List Token} (h : afterTerminators input = rest) :
    content false input = content false rest :=
  h ▸ (content_afterTerminators input).symm

/-- What is known of a list past its terminators, as long as it ends the token list, is known of
the list itself. -/
theorem content_eq_of_past_terminators {tokens input : List Token} {atoms : List Atom}
    (h : afterTerminators input <:+ tokens → content false (afterTerminators input) = atoms)
    (hin : input <:+ tokens) : content false input = atoms :=
  (content_afterTerminators input).symm.trans (h ((afterTerminators_suffix input).trans hin))

theorem content_operator {power own : Power} {operation : Operation} {operator : Token}
    (h : Tables.standard.tighter? power operator.kind = some (own, operation))
    (rest : List Token) :
    content false (operator :: rest) = .operator operator.value :: content false rest := by
  have hkind := Tables.mem_kinds_of_tighter? h
  cases operation with
  | arithmetic =>
    simp only [Operation.kinds, List.mem_cons, List.not_mem_nil, or_false] at hkind
    rcases hkind with hkind | hkind | hkind <;> simp [content, Token.atoms, hkind]
  | comparison =>
    simp only [Operation.kinds, List.mem_singleton] at hkind
    simp [content, Token.atoms, hkind]

namespace Reading

variable {input rest : List Token}

theorem content_accesses {fields : List String} (h : Accesses fields input rest) :
    content false input = fields.map .name ++ content false rest := by
  induction h with
  | nil => rfl
  | cons hdot hfield _ ih =>
    rw [content, decide_eq_true hdot, content_field hfield (.inl rfl), ih]
    simp [Token.atoms, hdot]

theorem content_optionalType {type? : Option String} (h : OptionalType type? input rest) :
    content false input = typeAtoms type? ++ content false rest := by
  cases h with
  | none => rfl
  | some hcolon hname => simp [content, Token.atoms, hcolon, hname, typeAtoms]

theorem content_oneParam {param : Param} (h : OneParam param input rest) :
    content false input = param.atoms ++ content false rest := by
  cases h with
  | bare hname => simp [content, Token.atoms, hname, Param.atoms, typeAtoms]
  | enclosed hopening hname htype hclosing =>
    simp [content, Token.atoms, hopening, hname, content_optionalType htype, hclosing, Param.atoms]

theorem content_params {params : List Param} (h : Params params input rest) :
    content false input = params.flatMap Param.atoms ++ content false rest := by
  induction h with
  | nil => rfl
  | emptyPair hopening hclosing _ ih => simp [content, Token.atoms, hopening, hclosing, ih]
  | cons hparam _ ih => simp [content_oneParam hparam, ih]

theorem content_signature {params : List Param} {type? : Option String}
    (h : Signature (params, type?) input rest) :
    content false input =
      params.flatMap Param.atoms ++ typeAtoms type? ++ content false rest := by
  cases h with
  | mk _ hparams htype hassign =>
    simp [content_params hparams, content_optionalType htype, content, Token.atoms, hassign]

theorem content_identifiers {names : List Token} (h : ∀ name ∈ names, name.kind = .identifier)
    (input : List Token) :
    content false (names ++ input) = (names.map (·.value)).map .name ++ content false input := by
  induction names with
  | nil => rfl
  | cons name names ih =>
    obtain ⟨hname, hnames⟩ := List.forall_mem_cons.1 h
    simp [content, Token.atoms, hname, ih hnames]

theorem content_pattern {pattern : CasePattern} (h : Pattern pattern input rest) :
    content false input = pattern.atoms ++ content false rest := by
  cases h with
  | bare htag => simp [content, Token.atoms, htag, CasePattern.atoms]
  | enclosed hopening htag hfirst hnames hclosing =>
    simp [content, Token.atoms, hopening, htag, hfirst, content_identifiers hnames, hclosing,
      CasePattern.atoms]

theorem content_variants {indented : Bool} {variants : List Variant}
    (h : Variants indented variants input rest) :
    content false input = variants.flatMap Variant.atoms ++ content false rest := by
  induction h with
  | last hname hfields =>
    simp [content, Token.atoms, hname, content_params hfields, Variant.atoms]
  | cons hname hfields hbar _ ih =>
    simp [content, Token.atoms, hname, content_params hfields, hbar, ih, Variant.atoms]
  | consLine _ hname hfields hterminator hbar _ ih =>
    simp [content, Token.atoms, hname, content_params hfields, hterminator, hbar, ih,
      Variant.atoms]

end Reading

/-- The atoms of the trees of a phrase. -/
def Phrase.atoms : Phrase → List Atom
  | expression node | inner _ node | operand node | line _ node => node.atoms
  | operations _ items => Grammar.operationAtoms items
  | arguments items => Node.allAtoms items.reduceOption
  | pair (key, value) => .name key :: value.atoms
  | pairs entries | pairLines entries => Node.pairAtoms entries
  | arm (pattern, node) => pattern.atoms ++ node.atoms
  | arms entries => Node.caseAtoms entries
  | elements nodes | block nodes | sequenceBlock nodes | body nodes | lines _ _ nodes =>
    Node.allAtoms nodes

open Grammar Node

variable {room : Nat} {tokens input rest : List Token}

namespace Reads

theorem textsBeforeColons_of_pair {entry : String × Node}
    (h : Reads room (.pair entry) input rest) :
    ∃ texts, textsBeforeColons input = entry.1 :: texts ∧ textsBeforeColons rest <:+ texts := by
  cases h with
  | @pair _ key colon _ input _ _ hcolon h =>
    refine ⟨textsBeforeColons (colon :: input), if_pos hcolon, ?_⟩
    exact textsBeforeColons_suffix (h.suffix.trans (List.suffix_cons _ _))

theorem key_cons_sublist {entry : String × Node} {keys : List String} {mid : List Token}
    (h : Reads room (.pair entry) input mid) (hmid : rest <:+ mid)
    (hkeys : keys.Sublist (textsBeforeColons rest)) :
    (entry.1 :: keys).Sublist (textsBeforeColons input) := by
  obtain ⟨texts, htexts, hsuffix⟩ := h.textsBeforeColons_of_pair
  rw [htexts]
  exact (hkeys.trans ((textsBeforeColons_suffix hmid).trans hsuffix).sublist).cons_cons _

/-- The keys of a run of pairs are among the texts before colons. -/
theorem keys_sublist_of_pairs {entries : List (String × Node)}
    (h : Reads room (.pairs entries) input rest) :
    (entries.map (·.1)).Sublist (textsBeforeColons input) := by
  induction entries generalizing input with
  | nil => exact List.nil_sublist _
  | cons entry entries ih =>
    cases h with
    | lastPair h => exact h.key_cons_sublist List.suffix_rfl (List.nil_sublist _)
    | consPair h _ hrest => exact h.key_cons_sublist (List.suffix_cons _ _) (ih hrest)

theorem keys_sublist_of_pairLines {entries : List (String × Node)}
    (h : Reads room (.pairLines entries) input rest) :
    (entries.map (·.1)).Sublist (textsBeforeColons input) := by
  induction entries generalizing input with
  | nil => exact List.nil_sublist _
  | cons entry entries ih =>
    cases h with
    | pairLineComma h _ hrest =>
      exact h.key_cons_sublist ((afterTerminators_suffix _).trans (List.suffix_cons _ _))
        (ih hrest)
    | pairLine h _ _ hrest => exact h.key_cons_sublist (afterTerminators_suffix _) (ih hrest)

theorem content_eq (hdistinct : (textsBeforeColons tokens).Nodup) {phrase : Phrase}
    (h : Reads room phrase input rest) (hin : input <:+ tokens) :
    content false input = phrase.atoms ++ content false rest := by
  induction h with
  | function hfn hsignature _ ih =>
    simp [content, Token.atoms, hfn, Reading.content_signature hsignature, ih (by grind),
      Phrase.atoms, atoms]
  | choice hhead _ hindent _ houtdent ih ihCases =>
    have hcases := ihCases (by grind)
    simp [content, Token.atoms, hhead, ih (by grind), hindent, houtdent, hcases, Phrase.atoms,
      atoms]
  | sequence hhead _ _ hterminator ih ihBody =>
    simp [content, Token.atoms, hhead, ih (by grind), ihBody (by grind), hterminator, Phrase.atoms,
      atoms]
  | call _ _ _ _ ih ihItems =>
    simp [ih hin, ihItems (by grind), Phrase.atoms, atoms_applyArguments, allAtoms]
  | operation _ _ _ _ ih ihItems =>
    simp [ih hin, ihItems (by grind), Phrase.atoms, atoms_applyOperations]
  | other _ _ _ ih => exact ih hin
  | inner _ _ ih ihItems =>
    simp [ih hin, ihItems (by grind), Phrase.atoms, atoms_applyOperations]
  | noOperation => rfl
  | consOperation hoperator _ _ ih ihItems =>
    simp [content_operator hoperator, ih (by grind), ihItems (by grind), Phrase.atoms,
      operationAtoms]
  | noArgument => rfl
  | emptyPair hopening hclosing _ ih =>
    simp [content, Token.atoms, hopening, hclosing, ih (by grind), Phrase.atoms,
      List.reduceOption_cons_of_none]
  | consArgument _ _ ih ihItems =>
    simp [ih hin, ihItems (by grind), Phrase.atoms, List.reduceOption_cons_of_some, allAtoms]
  | number hkind hvalue => simp [content, Token.atoms, hkind, hvalue, Phrase.atoms, atoms]
  | string hkind => simp [content, Token.atoms, hkind, Phrase.atoms, atoms]
  | boolean hkind => simp [content, Token.atoms, hkind, Phrase.atoms, atoms]
  | accessor hname hfields =>
    simp [content, Token.atoms, hname, Reading.content_accesses hfields, Phrase.atoms,
      atoms_accesses, atoms]
  | grouping hopening _ hclosing hfields ih =>
    simp [content, Token.atoms, hopening, ih (by grind), hclosing,
      Reading.content_accesses hfields, Phrase.atoms, atoms_accesses]
  | splice hampersand hopening _ hclosing ih =>
    simp [content, Token.atoms, hampersand, hopening, ih (by grind), hclosing, Phrase.atoms, atoms]
  | quotation hopening _ hclosing ih =>
    simp [content, Token.atoms, hopening, ih (by grind), hclosing, Phrase.atoms, atoms]
  | emptyArray hopening hclosing =>
    simp [content, Token.atoms, hopening, hclosing, Phrase.atoms, atoms, allAtoms]
  | array hopening _ hclosing ih =>
    simp [content, Token.atoms, hopening, ih (by grind), hclosing, Phrase.atoms, atoms]
  | lastElement _ _ ih => simp [ih hin, Phrase.atoms]
  | consElement _ hcomma _ ih ihRest =>
    simp [ih hin, content, Token.atoms, hcomma, ihRest (by grind), Phrase.atoms, allAtoms]
  | emptyObject hopening hclosing =>
    simp [content, Token.atoms, hopening, hclosing, Phrase.atoms, atoms, pairAtoms]
  | object hopening h hclosing ih =>
    have hkeys := hdistinct.sublist
      (h.keys_sublist_of_pairs.trans (textsBeforeColons_suffix (by grind)).sublist)
    simp [content, Token.atoms, hopening, ih (by grind), hclosing, Phrase.atoms,
      atoms_object hkeys]
  | objectLines hopening hindent h houtdent hafter hclosing ih =>
    have hin' := suffix_of_cons_suffix (suffix_of_cons_suffix hin)
    have hkeys := hdistinct.sublist (h.keys_sublist_of_pairLines.trans
      (textsBeforeColons_suffix ((afterTerminators_suffix _).trans hin')).sublist)
    have hlines := content_eq_of_past_terminators ih hin'
    simp [content, Token.atoms, hopening, hindent, hlines, houtdent,
      content_of_afterTerminators hafter, hclosing, Phrase.atoms, atoms_object hkeys]
  | @pair _ _ colon _ input _ hkey hcolon _ ih =>
    have hnext : nextKind (colon :: input) = .colon := hcolon
    rw [content_field hkey (.inr hnext)]
    simp [content, Token.atoms, hcolon, ih (by grind), Phrase.atoms]
  | lastPair _ _ ih => simp [ih hin, Phrase.atoms, pairAtoms]
  | consPair _ hcomma _ ih ihRest =>
    simp [ih hin, content, Token.atoms, hcomma, ihRest (by grind), Phrase.atoms, pairAtoms]
  | noPairLine => rfl
  | pairLineComma _ hcomma _ ih ihRest =>
    have hrest := content_eq_of_past_terminators ihRest (by grind)
    simp [ih hin, content, Token.atoms, hcomma, hrest, Phrase.atoms, pairAtoms]
  | pairLine _ _ _ _ ih ihRest =>
    have hrest := content_eq_of_past_terminators ihRest (by grind)
    simp [ih hin, hrest, Phrase.atoms, pairAtoms]
  | conditional hhead _ hthen _ hterminator helse _ ih ihThen ihElse =>
    simp [content, Token.atoms, hhead, ih (by grind), hthen, ihThen (by grind), hterminator, helse,
      ihElse (by grind), Phrase.atoms, atoms]
  | arm hhead hpattern hassign _ ih =>
    simp [content, Token.atoms, hhead, Reading.content_pattern hpattern, hassign, ih (by grind),
      Phrase.atoms]
  | lastArm _ _ ih => simp [ih hin, content_afterTerminators, Phrase.atoms, caseAtoms]
  | consArm _ _ _ ih ihRest =>
    have hrest := content_eq_of_past_terminators ihRest (by grind)
    simp [ih hin, hrest, Phrase.atoms, caseAtoms]
  | block hindent _ houtdent ih =>
    simp [content, Token.atoms, hindent, ih (by grind), houtdent, Phrase.atoms]
  | sequenceBlock hindent _ _ houtdent ih =>
    simp [content, Token.atoms, hindent, ih (by grind), houtdent, Phrase.atoms]
  | bodyBlock _ ih => exact ih hin
  | bodyExpression _ ih => simp [ih hin, Phrase.atoms]
  | comment hkind => simp [content, Token.atoms, hkind, Phrase.atoms, atoms]
  | letFunction hhead hname hsignature _ ih =>
    simp [content, Token.atoms, hhead, hname, Reading.content_signature hsignature, ih (by grind),
      Phrase.atoms, atoms]
  | letValue hhead hname _ _ htype hassign _ ih =>
    simp [content, Token.atoms, hhead, hname, Reading.content_optionalType htype, hassign,
      ih (by grind), Phrase.atoms, atoms]
  | letIndented hhead hname _ _ htype hassign hindent _ hafter houtdent ih =>
    simp [content, Token.atoms, hhead, hname, Reading.content_optionalType htype, hassign, hindent,
      ih (by grind), content_of_afterTerminators hafter, houtdent, Phrase.atoms, atoms]
  | dataType hhead hname hparams hassign hvariants =>
    simp [content, Token.atoms, hhead, hname, Reading.content_params hparams, hassign,
      Reading.content_variants hvariants, Phrase.atoms, atoms]
  | dataIndented hhead hname hparams hassign hindent hvariants hafter houtdent =>
    simp [content, Token.atoms, hhead, hname, Reading.content_params hparams, hassign, hindent,
      Reading.content_variants hvariants, content_of_afterTerminators hafter, houtdent,
      Phrase.atoms, atoms]
  | macroBody hhead hname hassign _ ih =>
    simp [content, Token.atoms, hhead, hname, hassign, ih (by grind), Phrase.atoms, atoms]
  | expressionLine _ ih => exact ih hin
  | bind hhead hname hassign _ ih =>
    simp [content, Token.atoms, hhead, hname, hassign, ih (by grind), Phrase.atoms, atoms]
  | result hhead h ih =>
    have hcolon : nextKind _ ≠ .colon := h.nextKind_ne rfl
    simp [content, Token.atoms, hhead, hcolon, ih (by grind), Phrase.atoms, atoms]
  | noLine => rfl
  | consLine _ _ _ _ ih ihRest =>
    have hrest := content_eq_of_past_terminators ihRest (by grind)
    simp [ih hin, hrest, Phrase.atoms, allAtoms]

end Reads

section EndOfFile

variable {ends : List Token} (hends : ∀ token ∈ ends, token.kind = .eof)
include hends

theorem nextKind_append_ends (tokens : List Token) :
    nextKind (tokens ++ ends) = nextKind tokens := by
  rcases tokens with _ | ⟨token, rest⟩
  · rcases ends with _ | ⟨first, rest⟩
    · rfl
    · exact hends first List.mem_cons_self
  · rfl

theorem content_append_ends (tokens : List Token) (afterDot : Bool) :
    content afterDot (tokens ++ ends) = content afterDot tokens := by
  induction tokens generalizing afterDot with
  | nil =>
    rw [List.nil_append]
    induction ends generalizing afterDot with
    | nil => rfl
    | cons first rest ih =>
      obtain ⟨hfirst, hrest⟩ := List.forall_mem_cons.1 hends
      simp [content, Token.atoms, hfirst, ih hrest]
  | cons token rest ih =>
    rw [List.cons_append, content, nextKind_append_ends hends, ih, content]

theorem textsBeforeColons_append_ends (tokens : List Token) :
    textsBeforeColons (tokens ++ ends) = textsBeforeColons tokens ++ textsBeforeColons ends := by
  induction tokens with
  | nil => rfl
  | cons token rest ih =>
    rw [List.cons_append, textsBeforeColons, nextKind_append_ends hends, ih, textsBeforeColons]
    split <;> rfl

end EndOfFile

theorem forall_eof_of_trailing? {tokens : List Token} (h : trailing? tokens = none) :
    ∀ token ∈ tokens.dropWhile (·.kind != .eof), token.kind = .eof := by
  simpa [trailing?] using h

/-- A program has the names, literals, operators and comments of its tokens, in their order. -/
theorem atoms_of_parse {tokens : List Token} {file : String} {limit : Nat} {program : Program}
    (hdistinct : (textsBeforeColons tokens).Nodup)
    (h : parse tokens file limit = .ok program) : program.atoms = content false tokens := by
  obtain ⟨htrailing, hreads⟩ := parse_eq_ok_iff.1 h
  have hends := forall_eof_of_trailing? htrailing
  have hsplit := List.takeWhile_append_dropWhile (p := (·.kind != .eof)) (l := tokens)
  rw [← hsplit, textsBeforeColons_append_ends hends] at hdistinct
  rw [← hsplit, content_append_ends hends,
    hreads.content_eq (hdistinct.sublist (List.sublist_append_left _ _)) List.suffix_rfl]
  exact (List.append_nil _).symm

/-- Both keywords name fields here. -/
theorem atoms_of_parse_keywords :
    Program.atoms ⟨[.object [("bind", .access (.identifier "x") "return")]]⟩ =
      content false [⟨.openCurly, "\x7b", default⟩, ⟨.kwBind, "bind", default⟩,
        ⟨.colon, ":", default⟩, ⟨.identifier, "x", default⟩, ⟨.dot, ".", default⟩,
        ⟨.kwReturn, "return", default⟩, ⟨.closeCurly, "\x7d", default⟩, .eof default] :=
  @atoms_of_parse _ "f" 5 _ (by decide) rfl

end Offside
