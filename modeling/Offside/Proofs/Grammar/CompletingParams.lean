import Offside.Proofs.Grammar.CompletingParts

/-! # Completing names, literals and parameters

The productions that open no level can be completed.
-/

namespace Offside.Production

open Parse Cursor Grammar

variable {room : Nat}

theorem productive_typeName : Productive room (fun _ => typeName) fun _ => True :=
  (productive_expectAs (by decide) _).bindPure Token.value

theorem productive_declaredName (declaration : String) :
    Productive room (fun _ => declaredName declaration) fun _ => True :=
  (productive_expectAs (by decide) _).bindPure Token.value

theorem productive_fieldName : Productive room (fun _ => fieldName) fun _ => True := by
  refine productive_token Kind.namesField Token.value "field name" .identifier rfl rfl fun c => ?_
  change (if c.kind.namesField then text else unexpected _ : Parse String) c = _
  split <;> rfl

theorem productive_optionalType :
    Productive room (fun _ => optionalType) fun c => c.kind ≠ .colon where
  toResumes := by
    refine .byKind fun kind => ?_
    by_cases hkind : kind = .colon
    · subst hkind
      refine .own (f := fun _ _ => some <$> typeName) ((Productive.expectThen (by decide)
        fun _ => productive_typeName.map some).toResumes.mono fun _ _ => trivial) ?_
      intro _ c hc
      rw [map_eq_pure_bind]
      exact (kind_bind_eq hc _).trans (advance_bind_eq hc _)
    · refine ⟨fun _ => pure none, (Productive.pure none).toResumes, fun {_ c} hc => ?_,
        fun {_ _ c v} hrun hc => ?_⟩
      all_goals change (if c.kind = .colon then _ else pure none : Parse (Option String)) c = _
      · rw [if_neg (hc ▸ hkind)]
      · rw [if_neg hc]
        exact hrun
  fills before := by
    refine ⟨0, none, [], nofun, fun _ {_ c c'} _ _ hpasses hc => ?_⟩
    rw [hpasses.eq]
    change (if c'.kind = .colon then _ else pure none : Parse (Option String)) c' = _
    rw [if_neg hc]
    rfl

/-- A text that can be followed by a colon or the assignment. -/
theorem kind_of_optionalType {α : Type} {f : Option String → Token → Parse α} {c c' : Cursor}
    {v : α}
    (hrun : (optionalType >>= fun type? => expect .assignment >>= f type?) c = .ok v c') :
    c.kind = .colon ∨ c.kind = .assignment := by
  by_cases hkind : c.kind = .colon
  · exact .inl hkind
  · refine .inr ?_
    change ((if c.kind = .colon then _ else pure none : Parse (Option String)) >>= _) c = _ at hrun
    rw [if_neg hkind] at hrun
    exact kind_of_expectAs hrun

theorem productive_param : Productive room (fun _ => param) fun _ => True := by
  have hbare : Productive room (fun _ => (do
      let token ← expect .identifier
      return ⟨token.value, none⟩ : Parse Param)) fun _ => True :=
    (productive_expectAs (by decide) _).bindPure fun token => Param.mk token.value none
  have henclosed : Productive room (fun _ => (do
      let _ ← expect .openParen
      let name := (← expect .identifier).value
      let type? ← optionalType
      let _ ← expect .closeParen
      return ⟨name, type?⟩ : Parse Param)) fun _ => True :=
    .expectThen (by decide) fun _ => .expectThen (by decide) fun _ =>
      productive_optionalType.bindExpect (by decide) (fun _ hc => by simp [hc]) fun _ _ => .pure _
  have bare_eq {c : Cursor} (hc : c.kind = .identifier) : param c = (do
      let token ← expect .identifier
      return ⟨token.value, none⟩ : Parse Param) c :=
    (kind_bind_eq hc _).trans (text_bind_eq hc _)
  refine ⟨.byKind fun kind => ?_, ?_⟩
  · by_cases hkind : kind = .identifier
    · subst hkind
      exact .own hbare.toResumes bare_eq
    · refine .token henclosed.toResumes fun {_ c} hc => ?_
      change (if c.kind = .identifier then _ else _ : Parse Param) c = _
      rw [if_neg (by rcases hc with hc | hc <;> simp [hc, hkind])]
  · exact hbare.fills.of_case fun hrun _ => (bare_eq (kind_of_expectAs hrun)).trans hrun

/-- A token that no parameter begins with. -/
def EndsParams (c : Cursor) : Prop :=
  c.kind ≠ .identifier ∧ c.kind ≠ .openParen

theorem startsParam_eq_false {c : Cursor} (h : EndsParams c) : startsParam c = false := by
  simp [startsParam, h.1, h.2]

theorem loop_params : Loop room
    (fun _ c => if !startsParam c then none
      else if atEmptyPair c then some (do emptyPair; return none)
      else some (some <$> param))
    (fun c => if !startsParam c then none else some (atEmptyPair c))
    (fun empty _ => if empty then
      expect .openParen >>= fun _ => expect .closeParen >>= fun _ => Pure.pure none
      else some <$> param)
    (fun _ _ => True) fun c => True ∧ startsParam c = false := by
  refine loop_orEmptyPair productive_param (fun _ _ _ => takes_param) (fun c h => ?_)
    (fun {_ _ c v c'} hrun => ?_) fun _ _ _ _ => trivial
  · simp only [atEmptyPair, Bool.and_eq_true, decide_eq_true_eq] at h
    simp [startsParam, h.1, h.2]
  · have hparam := (accepts_param (P := fun _ => True)).sound trivial hrun
    refine ⟨(startsParam_iff c).2 (paramAhead_of_oneParam hparam), ?_⟩
    rw [Bool.eq_false_iff, Ne, atEmptyPair_iff]
    exact not_emptyPairAhead_of_oneParam hparam

theorem productive_optionalParams : Productive room (fun _ => optionalParams) EndsParams :=
  (loop_params.productive.mono fun _ hc => ⟨trivial, startsParam_eq_false hc⟩).bindPure _

theorem not_paramAhead {c : Cursor} (h : EndsParams c) : ¬ Reading.ParamAhead c.ahead := by
  rw [← startsParam_iff, startsParam_eq_false h]
  exact Bool.false_ne_true

theorem params_lt {params : List Param} {input rest : List Token}
    (h : Reading.Params params input rest) (hahead : Reading.ParamAhead input) :
    rest.length < input.length := by
  cases h with
  | nil hstop => exact absurd hahead hstop
  | emptyPair _ _ h => exact Nat.lt_succ_of_le (Nat.le_succ_of_le (params_suffix h).length_le)
  | cons hparam h => exact Nat.lt_of_le_of_lt (params_suffix h).length_le (oneParam_consumes hparam)

/-- Parameters that are written take a text that is not empty. -/
theorem productive_params : Productive room (fun _ => params) EndsParams := by
  have run_eq (c : Cursor) : params c =
      (if startsParam c then optionalParams else unexpected "parameter" : Parse (List Param)) c :=
    rfl
  have takes {n : Nat} {before : Option Kind} {v : List Param} {text : List Token}
      (hne : text ≠ []) (h : Takes n (fun _ => optionalParams) EndsParams before v text) :
      Takes n (fun _ => params) EndsParams before v text := by
    refine ⟨h.content, fun limit {_ c c'} hroom hbefore hpasses hc => ?_⟩
    have hrun := h.run limit hroom hbefore hpasses hc
    cases hstarts : startsParam c with
    | true => rw [run_eq, hstarts, if_pos rfl, hrun]
    | false =>
      have hnone : optionalParams c = .ok [] c :=
        bind_of_ok (collect_of_none (by simp [hstarts]))
      rw [hnone] at hrun
      cases hrun
      exact absurd (hpasses.length_lt hne) (Nat.lt_irrefl _)
  constructor
  · constructor
    · intro limit c v c' hrun
      rw [run_eq] at hrun
      split at hrun
      · next hstarts =>
        obtain ⟨text, hpasses, htakes⟩ :=
          (@productive_optionalParams room).moves limit hrun
        refine ⟨text, hpasses, takes (hpasses.ne_nil_of_length_lt ?_) htakes⟩
        exact params_lt ((accepts_optionalParams (P := fun _ => True)).sound trivial hrun)
          ((startsParam_iff c).1 hstarts)
      · cases hrun
    · intro limit c error c' hrun hdeep
      rw [run_eq] at hrun
      split at hrun
      · exact ((@productive_optionalParams room).completes limit hrun hdeep).imp
          fun hne _ htakes => ⟨_, _, takes hne htakes⟩
      · cases hrun
        exact .of_nil (blamed_unexpected c _)
  · intro before
    refine ⟨0, [⟨"x", none⟩], [⟨.identifier, "x", default⟩],
      .of_accepts (P := fun _ => True) (fun _ _ _ => accepts_params) (by decide)
        (fun _ => trivial) fun _ c _ hc _ => ?_⟩
    exact ⟨.inl rfl, .cons (@Reading.OneParam.bare ⟨.identifier, "x", default⟩ c.ahead rfl)
      (.nil (not_paramAhead hc))⟩

theorem productive_accessTail (target : Node) :
    Productive room (fun _ => accessTail target) fun c => c.kind ≠ .dot := by
  have hloop := loop_behind (k := .dot) (by decide) (@productive_fieldName room)
    (fun _ _ _ => takes_fieldName) fun _ _ => trivial
  exact (hloop.productive.mono fun _ hc => ⟨trivial, hc⟩).bindPure _

theorem productive_accessor : Productive room (fun _ => accessor) fun c => c.kind ≠ .dot :=
  .expectThen (by decide) fun name => productive_accessTail (.identifier name.value)

/-- A number token whose text is read. -/
def numberToken : Parse Node := do
  let token ← expect .number
  match Binary64.read? token.value.toList with
  | some value => return .number value
  | none => throw ⟨.invalidNumber token.value, token.span.start⟩

/-- A number is blamed after it was passed, so nothing has been begun before it. -/
theorem resumes_numberToken : Resumes room (fun _ => numberToken) fun _ => True := by
  have run_eq {c : Cursor} (hc : c.kind = .number) : numberToken c =
      match Binary64.read? c.current.value.toList with
      | some value => .ok (.number value) c.next
      | none => .error ⟨.invalidNumber c.current.value, c.current.span.start⟩ c.next := by
    refine (advance_bind_eq hc _).symm.trans ?_
    change (match Binary64.read? c.current.value.toList with
      | some value => pure (.number value)
      | none => throw _ : Parse Node) c.next = _
    cases Binary64.read? c.current.value.toList <;> rfl
  constructor
  · intro limit c v c' hrun
    have hkind : c.kind = .number := kind_of_expectAs hrun
    have hne : c.kind ≠ .eof := by simp [hkind]
    have hpasses := Passes.next hne
    rw [run_eq hkind] at hrun
    refine ⟨[c.current], ?_, fun token hmem => List.mem_singleton.1 hmem ▸ hne, ?_⟩
    · split at hrun <;> cases hrun
      exact hpasses
    · intro limit room d d' _ _ hpasses' _
      obtain ⟨hcurrent, hnext⟩ := hpasses'.next_eq
      rw [run_eq (hpasses'.kind_eq.trans hkind), hcurrent, hnext]
      split at hrun
      · cases hrun
        rfl
      · cases hrun
  · intro limit c error c' hrun _
    by_cases hkind : c.kind = .number
    · rw [run_eq hkind] at hrun
      split at hrun
      · cases hrun
      · cases hrun
        exact .of_nil ⟨c.current, .next (by simp [hkind])⟩
    · change (expectAs .number _ >>= _) c = _ at hrun
      rw [expectAs_bind_eq] at hrun
      change (if c.kind = .number then _ else _ : Parse Node) c = _ at hrun
      rw [if_neg hkind] at hrun
      cases hrun
      exact .of_nil (blamed_unexpected c _)

theorem productive_literal : Productive room (fun _ => Grammar.literal) fun _ => True := by
  have hstring : Productive room (fun _ => (do
      let token ← expect .string
      return .string token.value : Parse Node)) fun _ => True :=
    (productive_expectAs (by decide) _).bindPure fun token => Node.string token.value
  have hboolean : Productive room (fun _ => (do
      let token ← expect .boolean
      return .boolean (token.value = "true") : Parse Node)) fun _ => True :=
    (productive_expectAs (by decide) _).bindPure fun token => Node.boolean (token.value = "true")
  have string_eq {c : Cursor} (hc : c.kind = .string) : Grammar.literal c = (do
      let token ← expect .string
      return .string token.value : Parse Node) c :=
    (kind_bind_eq hc _).trans (text_bind_eq hc _)
  refine ⟨.byKind fun kind => ?_, ?_⟩
  · cases kind with
    | number =>
      exact .own resumes_numberToken fun hc => (kind_bind_eq hc _).trans (advance_bind_eq hc _)
    | string => exact .own hstring.toResumes string_eq
    | boolean =>
      exact .own hboolean.toResumes fun hc => (kind_bind_eq hc _).trans (text_bind_eq hc _)
    | _ => exact .refusal fun hc => kind_bind_eq hc _
  · exact hstring.fills.of_case fun hrun _ => (string_eq (kind_of_expectAs hrun)).trans hrun

theorem productive_casePattern : Productive room (fun _ => casePattern) fun _ => True := by
  have hbare : Productive room (fun _ => (do
      let token ← expect .identifier
      return ⟨token.value, []⟩ : Parse CasePattern)) fun _ => True :=
    (productive_expectAs (by decide) _).bindPure fun token => CasePattern.mk token.value []
  have henclosed : Productive room (fun _ => (do
      let _ ← expect .openParen
      let tag := (← expect .identifier).value
      let first := (← expect .identifier).value
      let rest ← skip .identifier
      let _ ← expect .closeParen
      return ⟨tag, first :: rest.map (·.value)⟩ : Parse CasePattern)) fun _ => True :=
    .expectThen (by decide) fun _ => .expectThen (by decide) fun _ => .expectThen (by decide)
      fun _ => (productive_skip (by decide)).bindExpect (by decide) (fun _ hc => by simp [hc])
        fun _ _ => .pure _
  have bare_eq {c : Cursor} (hc : c.kind = .identifier) : casePattern c = (do
      let token ← expect .identifier
      return ⟨token.value, []⟩ : Parse CasePattern) c :=
    (kind_bind_eq hc _).trans (text_bind_eq hc _)
  refine ⟨.byKind fun kind => ?_, ?_⟩
  · cases kind with
    | identifier => exact .own hbare.toResumes bare_eq
    | openParen =>
      exact .own henclosed.toResumes fun hc => (kind_bind_eq hc _).trans (advance_bind_eq hc _)
    | _ => exact .refusal fun hc => kind_bind_eq hc _
  · exact hbare.fills.of_case fun hrun _ => (bare_eq (kind_of_expectAs hrun)).trans hrun

theorem productive_variant : Productive room (fun _ => variant) EndsParams :=
  (productive_declaredName _).bind (fun _ => productive_optionalParams.bindPure _)
    fun _ _ _ _ _ _ _ _ => trivial

/-- Where variants may end. -/
def EndsVariants (indented : Bool) (c : Cursor) : Prop :=
  EndsParams c ∧ c.kind ≠ .pipe ∧
    ¬ (indented = true ∧ c.kind = .terminator ∧ c.peek 1 = .pipe)

theorem loop_variants (indented : Bool) : Loop room
    (fun _ c =>
      if c.kind = .pipe then some (do let _ ← advance; variant)
      else if indented && c.kind = .terminator && c.peek 1 = .pipe then
        some (do let _ ← advance; let _ ← advance; variant)
      else none)
    (fun c => if c.kind = .pipe then some false
      else if indented && c.kind = .terminator && c.peek 1 = .pipe then some true else none)
    (fun line _ => if line then expect .terminator >>= fun _ => expect .pipe >>= fun _ => variant
      else expect .pipe >>= fun _ => variant)
    (fun _ => EndsParams) (EndsVariants indented) where
  progresses _ _ := progresses_of_takes (takes_nextVariant (Q := Eq))
  stops {nested c} hlook := by
    split at hlook
    · cases hlook
    · next hpipe =>
      split at hlook
      · cases hlook
      · next hline => rw [if_neg hpipe, if_neg hline]
  finds {nested c line} hlook := by
    split at hlook
    · next hpipe =>
      cases hlook
      exact ⟨_, if_pos hpipe, advance_bind_eq hpipe _⟩
    · next hpipe =>
      split at hlook
      · next hline =>
        cases hlook
        refine ⟨_, by rw [if_neg hpipe, if_pos hline], ?_⟩
        simp only [Bool.and_eq_true, decide_eq_true_eq] at hline
        exact advanceTwo_bind_eq hline.1.2 (by decide) hline.2 _
      · cases hlook
  resumes line := by
    cases line with
    | true => exact (Productive.expectThen (by decide) fun _ => .expectThen (by decide)
        fun _ => productive_variant).toResumes
    | false => exact (Productive.expectThen (by decide) fun _ => productive_variant).toResumes
  again {limit room c d v d' line} hlook _ hkind hrun := by
    cases line with
    | true =>
      obtain ⟨hterminator, hpipe⟩ := kinds_of_expectTwo (by decide) hrun
      have hindented : indented = true := by
        by_contra hnot
        simp only [Bool.not_eq_true] at hnot
        simp [hnot] at hlook
      simp [hterminator, hpipe, hindented]
    | false => exact if_pos (kind_of_expectAs hrun)
  chain {_ c v c' d _ _} _ _ hlook _ _ hkind := by
    rw [EndsParams, hkind]
    by_cases hpipe : c'.kind = .pipe
    · simp [hpipe]
    · by_cases hterminator : c'.kind = .terminator
      · simp [hterminator]
      · simp [hpipe, hterminator] at hlook
  ends {c} hc := by
    rw [if_neg hc.2.1, if_neg]
    simpa using hc.2.2
  last _ hd := hd.1

end Offside.Production
