import Offside.Proofs.Grammar.Starts
import Offside.Proofs.Node.Print

/-! # Reading what is printed: the parts without a level

The printed types, parameters, patterns and variants are read as what they were printed from, unless
what follows would go on with them.
-/

namespace Offside.Reading

variable {text rest : List Token}

theorem optionalType_of_spelled {type? : Option String} (h : Spelled (typeSymbols type?) text)
    (hnext : nextKind rest ≠ .colon) : OptionalType type? (text ++ rest) rest := by
  cases type? with
  | none =>
    rw [typeSymbols, spelled_nil_iff] at h
    subst h
    exact .none hnext
  | some name =>
    simp only [typeSymbols, spelled_cons_iff, spelled_nil_iff] at h
    obtain ⟨colon, _, rfl, hcolon, type, _, rfl, ⟨htype, rfl⟩, rfl⟩ := h
    exact .some hcolon htype

theorem oneParam_of_spelled {param : Param} (h : Spelled param.print text) :
    OneParam param (text ++ rest) rest := by
  rcases param with ⟨name, _ | type⟩
  · simp only [Param.print, spelled_cons_iff, spelled_nil_iff] at h
    obtain ⟨token, _, rfl, ⟨htoken, rfl⟩, rfl⟩ := h
    exact .bare htoken
  · simp only [Param.print, parenthesized, List.cons_append, spelled_cons_iff, spelled_append_iff,
      spelled_nil_iff] at h
    obtain ⟨opening, _, rfl, hopening, token, _, rfl, ⟨htoken, rfl⟩, mid, _, rfl, htype, closing, _,
      rfl, hclosing, rfl⟩ := h
    simp only [List.cons_append, List.append_assoc]
    refine .enclosed hopening htoken (optionalType_of_spelled htype ?_) hclosing
    intro hcolon
    exact absurd (hclosing.symm.trans hcolon) (by decide)

theorem params_of_spelled {params : List Param} (h : Spelled (params.flatMap Param.print) text)
    (hnext : ¬ ParamAhead rest) : Params params (text ++ rest) rest := by
  induction params generalizing text with
  | nil =>
    rw [List.flatMap_nil, spelled_nil_iff] at h
    subst h
    exact .nil hnext
  | cons param params ih =>
    rw [List.flatMap_cons, spelled_append_iff] at h
    obtain ⟨first, others, rfl, hfirst, hothers⟩ := h
    rw [List.append_assoc]
    exact .cons (oneParam_of_spelled hfirst) (ih hothers)

theorem not_paramAhead {input : List Token} (hident : nextKind input ≠ .identifier)
    (hopen : nextKind input ≠ .openParen) : ¬ ParamAhead input :=
  not_or.2 ⟨hident, fun h => hopen h.1⟩

theorem paramAhead_of_params {param : Param} {params : List Param} {input : List Token}
    (h : Params (param :: params) input rest) : ParamAhead input := by
  cases h with
  | emptyPair hopening hclosing => exact .inr ⟨hopening, .inl hclosing⟩
  | cons hparam => exact Grammar.paramAhead_of_oneParam hparam

/-- Neither a type nor an assignment begins like a parameter. -/
theorem OptionalType.not_ahead {type? : Option String} {assign : Token} {input : List Token}
    (h : OptionalType type? input (assign :: rest)) (hassign : assign.kind = .assignment) :
    nextKind input ≠ .identifier ∧ nextKind input ≠ .openParen := by
  cases h with
  | none => exact ⟨by simp [hassign], by simp [hassign]⟩
  | some hcolon => exact ⟨by simp [hcolon], by simp [hcolon]⟩

theorem signature_of_spelled {params : List Param} {returnType? : Option String}
    (h : Spelled (signature params returnType?) text) :
    Signature (params, returnType?) (text ++ rest) rest := by
  simp only [signature, spelled_append_iff, spelled_cons_iff, spelled_nil_iff] at h
  obtain ⟨_, _, rfl, ⟨written, type, rfl, hwritten, htype⟩, assign, _, rfl, hassign, rfl⟩ := h
  simp only [List.append_assoc, List.cons_append, List.nil_append]
  have htail : OptionalType returnType? (type ++ assign :: rest) (assign :: rest) := by
    refine optionalType_of_spelled htype fun hcolon => ?_
    exact absurd (hassign.symm.trans hcolon) (by decide)
  obtain ⟨hident, hopen⟩ := htail.not_ahead hassign
  have hnext := not_paramAhead hident hopen
  cases params with
  | nil =>
    simp only [parenthesized, List.cons_append, List.nil_append, spelled_cons_iff, spelled_nil_iff]
      at hwritten
    obtain ⟨opening, _, rfl, hopening, closing, _, rfl, hclosing, rfl⟩ := hwritten
    exact .mk (.inr ⟨hopening, .inl hclosing⟩) (.emptyPair hopening hclosing (.nil hnext)) htail
      hassign
  | cons param params =>
    have hparams := params_of_spelled hwritten hnext
    exact .mk (paramAhead_of_params hparams) hparams htail hassign

theorem identifiers_of_spelled {names : List String}
    (h : Spelled (names.map (.word .identifier)) text) :
    (∀ token ∈ text, token.kind = .identifier) ∧ text.map (·.value) = names := by
  induction names generalizing text with
  | nil =>
    rw [List.map_nil, spelled_nil_iff] at h
    subst h
    exact ⟨List.forall_mem_nil _, rfl⟩
  | cons name names ih =>
    rw [List.map_cons, spelled_cons_iff] at h
    obtain ⟨token, others, rfl, ⟨htoken, rfl⟩, hothers⟩ := h
    obtain ⟨hkinds, hvalues⟩ := ih hothers
    exact ⟨List.forall_mem_cons.2 ⟨htoken, hkinds⟩, by rw [List.map_cons, hvalues]⟩

theorem pattern_of_spelled {pattern : CasePattern} (h : Spelled pattern.print text) :
    Pattern pattern (text ++ rest) rest := by
  rcases pattern with ⟨tag, _ | ⟨first, bound⟩⟩
  · simp only [CasePattern.print, spelled_cons_iff, spelled_nil_iff] at h
    obtain ⟨token, _, rfl, ⟨htoken, rfl⟩, rfl⟩ := h
    exact .bare htoken
  · simp only [CasePattern.print, parenthesized, List.map_cons, List.cons_append, spelled_cons_iff,
      spelled_append_iff, spelled_nil_iff] at h
    obtain ⟨opening, _, rfl, hopening, token, _, rfl, ⟨htoken, rfl⟩, name, _, rfl, ⟨hname, rfl⟩,
      names, _, rfl, hnames, closing, _, rfl, hclosing, rfl⟩ := h
    obtain ⟨hkinds, rfl⟩ := identifiers_of_spelled hnames
    simp only [List.cons_append, List.append_assoc, List.nil_append]
    exact .enclosed hopening htoken hname hkinds hclosing

theorem variants_of_spelled {variants : List Variant} (hne : variants ≠ [])
    (h : Spelled (separate .pipe (variants.map Variant.print)) text) (hnext : ¬ ParamAhead rest)
    (hpipe : nextKind rest ≠ .pipe) : Variants false variants (text ++ rest) rest := by
  induction variants generalizing text with
  | nil => exact absurd rfl hne
  | cons variant variants ih =>
    obtain ⟨name, fields⟩ := variant
    cases variants with
    | nil =>
      simp only [List.map_cons, List.map_nil, separate, Variant.print, spelled_cons_iff] at h
      obtain ⟨token, params, rfl, ⟨htoken, rfl⟩, hparams⟩ := h
      exact .last htoken (params_of_spelled hparams hnext) fun h => h.elim hpipe nofun
    | cons other variants =>
      rw [separate_map_cons, spelled_append_iff] at h
      simp only [Variant.print, spelled_cons_iff] at h
      obtain ⟨_, _, rfl, ⟨token, params, rfl, ⟨htoken, rfl⟩, hparams⟩, bar, others, rfl, hbar,
        hothers⟩ := h
      simp only [List.cons_append, List.append_assoc]
      have hkind : bar.kind = .pipe := hbar
      refine .cons htoken (params_of_spelled hparams ?_) hkind (ih (by simp) hothers)
      exact not_paramAhead (by simp [hkind]) (by simp [hkind])

end Offside.Reading
