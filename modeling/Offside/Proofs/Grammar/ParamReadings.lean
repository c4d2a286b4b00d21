import Offside.Grammar.Lines
import Offside.Proofs.Grammar.Reads

/-! # Productions without a level

Types, parameters, patterns, fields and variants hold no expressions. Each accepts the reading of
its name.
-/

namespace Offside.Grammar

open Parse

variable {P : Cursor → Prop}

theorem accepts_nameAs (description : String) :
    (expectAs .identifier description >>= fun name => pure name.value).AcceptsOn P
      fun value input rest =>
        ∃ name, input = name :: rest ∧ name.kind = .identifier ∧ value = name.value := by
  refine ((accepts_expectAs (by decide) _).bind fun name => accepts_pure name.value).congr ?_
  intro value input rest
  constructor
  · rintro ⟨name, _, ⟨rfl, hname⟩, rfl, rfl⟩
    exact ⟨name, rfl, hname, rfl⟩
  · rintro ⟨name, rfl, hname, rfl⟩
    exact ⟨name, rest, ⟨rfl, hname⟩, rfl, rfl⟩

theorem accepts_typeName :
    typeName.AcceptsOn P fun value input rest =>
      ∃ name, input = name :: rest ∧ name.kind = .identifier ∧ value = name.value :=
  accepts_nameAs _

theorem accepts_declaredName (declaration : String) :
    (declaredName declaration).AcceptsOn P fun value input rest =>
      ∃ name, input = name :: rest ∧ name.kind = .identifier ∧ value = name.value :=
  accepts_nameAs _

theorem accepts_fieldName :
    fieldName.AcceptsOn P fun value input rest =>
      ∃ field, input = field :: rest ∧ field.kind.namesField = true ∧ value = field.value := by
  refine .byKind fun kind => .ite (fun hkind => ?_) fun hkind => ?_
  · refine (acceptsOn_text ?_).congrKind ?_
    · rintro c ⟨-, rfl⟩ heof
      simp [heof, Kind.namesField] at hkind
    · rintro value input rest rfl
      constructor
      · rintro ⟨field, rfl, rfl⟩
        exact ⟨field, rfl, hkind, rfl⟩
      · rintro ⟨field, rfl, -, rfl⟩
        exact ⟨field, rfl, rfl⟩
  · refine acceptsOn_of_fails (fun c v c' _ => unexpected_ne_ok _ c v c') ?_
    rintro c value rest ⟨-, rfl⟩ ⟨field, hinput, hfield, -⟩
    rw [c.kind_eq_nextKind, hinput, nextKind_cons] at hkind
    exact hkind hfield

theorem accepts_optionalType : optionalType.AcceptsOn P Reading.OptionalType := by
  refine .byKind fun kind => .ite (fun hkind => ?_) fun hkind => ?_
  · refine ((acceptsOn_advance ?_).bind fun _ => accepts_typeName.bind fun name =>
      accepts_pure (some name)).congrKind ?_
    · rintro c ⟨-, rfl⟩
      simp [hkind]
    · rintro value input rest rfl
      constructor
      · rintro ⟨colon, _, rfl, _, _, ⟨name, rfl, hname, rfl⟩, rfl, rfl⟩
        exact .some hkind hname
      · intro h
        cases h with
        | none h => exact absurd hkind h
        | some _ hname => exact ⟨_, _, rfl, _, _, ⟨_, rfl, hname, rfl⟩, rfl, rfl⟩
  · refine (accepts_pure none).congrKind ?_
    rintro value input rest rfl
    constructor
    · rintro ⟨rfl, rfl⟩
      exact .none hkind
    · intro h
      cases h with
      | none => exact ⟨rfl, rfl⟩
      | some hcolon => exact absurd hcolon hkind

theorem accepts_param : param.AcceptsOn P Reading.OneParam := by
  refine .byKind fun kind => .ite (fun hkind => ?_) fun hkind => ?_
  · refine .congrKind ((acceptsOn_text ?_).bind fun _ => accepts_pure _) ?_
    · rintro c ⟨-, rfl⟩
      simp [hkind]
    · rintro value input rest rfl
      constructor
      · rintro ⟨_, _, ⟨name, rfl, rfl⟩, rfl, rfl⟩
        exact .bare hkind
      · intro h
        cases h with
        | bare => exact ⟨_, _, ⟨_, rfl, rfl⟩, rfl, rfl⟩
        | enclosed hopening => simp [hopening] at hkind
  · refine .congrKind ((accepts_expect (by decide)).bind fun _ =>
      (accepts_expect (by decide)).bind fun _ => accepts_optionalType.bind fun _ =>
        (accepts_expect (by decide)).bind fun _ => accepts_pure _) ?_
    rintro value input rest rfl
    constructor
    · rintro ⟨_, _, ⟨rfl, hopening⟩, _, _, ⟨rfl, hname⟩, _, _, htype, _, _, ⟨rfl, hclosing⟩,
        rfl, rfl⟩
      exact .enclosed hopening hname htype hclosing
    · intro h
      cases h with
      | bare hname => exact absurd hname hkind
      | enclosed hopening hname htype hclosing =>
        exact ⟨_, _, ⟨rfl, hopening⟩, _, _, ⟨rfl, hname⟩, _, _, htype, _, _, ⟨rfl, hclosing⟩,
          rfl, rfl⟩

theorem startsParam_iff (c : Cursor) : startsParam c = true ↔ Reading.ParamAhead c.ahead := by
  by_cases h : c.ahead = []
  · simp [startsParam, Reading.ParamAhead, c.kind_eq_nextKind, h]
  · simp [startsParam, Reading.ParamAhead, c.kind_eq_nextKind, Cursor.peek_one h]

theorem atEmptyPair_iff (c : Cursor) :
    atEmptyPair c = true ↔ Reading.EmptyPairAhead c.ahead := by
  by_cases h : c.ahead = []
  · simp [atEmptyPair, Reading.EmptyPairAhead, c.kind_eq_nextKind, h]
  · simp [atEmptyPair, Reading.EmptyPairAhead, c.kind_eq_nextKind, Cursor.peek_one h]

theorem emptyPairAhead_iff {input : List Token} :
    Reading.EmptyPairAhead input ↔ ∃ opening closing rest, input = opening :: closing :: rest ∧
      opening.kind = .openParen ∧ closing.kind = .closeParen := by
  rcases input with _ | ⟨opening, _ | ⟨closing, rest⟩⟩ <;> simp [Reading.EmptyPairAhead]

theorem acceptsOn_emptyPair :
    emptyPair.AcceptsOn (fun c => Reading.EmptyPairAhead c.ahead) fun _ input rest =>
      ∃ opening closing, input = opening :: closing :: rest ∧ opening.kind = .openParen ∧
        closing.kind = .closeParen := by
  refine .congrOn (acceptsOn_advanceTwo ?_ (accepts_pure ())) ?_
  · intro c h
    obtain ⟨opening, closing, rest, hahead, -⟩ := emptyPairAhead_iff.1 h
    exact ⟨opening, closing, rest, hahead⟩
  · intro c _ rest h
    obtain ⟨opening, closing, input, hahead, hopening, hclosing⟩ := emptyPairAhead_iff.1 h
    rw [hahead]
    constructor
    · rintro ⟨_, _, _, h, -, rfl⟩
      cases h
      exact ⟨opening, closing, rfl, hopening, hclosing⟩
    · rintro ⟨_, _, h, -⟩
      cases h
      exact ⟨_, _, _, rfl, rfl, rfl⟩

/-- A value, or an empty pair of parentheses in its place. -/
def OrEmptyPair {α : Type} (R : Reading α) : Reading (Option α)
  | some v, input, rest => R v input rest
  | none, input, rest => ∃ opening closing, input = opening :: closing :: rest ∧
      opening.kind = .openParen ∧ closing.kind = .closeParen

section OrEmptyPair

variable {α : Type} {item : Parse α} {R : Reading α}

theorem acceptsOn_emptyPair_none
    (hempty : ∀ {v input rest}, R v input rest → ¬ Reading.EmptyPairAhead input) :
    (do emptyPair; return none : Parse (Option α)).AcceptsOn
      (fun c => Reading.EmptyPairAhead c.ahead) (OrEmptyPair R) := by
  refine .congrOn (acceptsOn_emptyPair.bind fun _ => accepts_pure none) ?_
  rintro c (_ | v) rest hpair
  · constructor
    · rintro ⟨_, _, h, -, rfl⟩
      exact h
    · intro h
      exact ⟨(), rest, h, rfl, rfl⟩
  · constructor
    · rintro ⟨_, _, -, h, -⟩
      cases h
    · intro h
      exact absurd hpair (hempty h)

theorem acceptsOn_item_some (hitem : item.Accepts R) :
    (some <$> item).AcceptsOn (fun c => ¬ Reading.EmptyPairAhead c.ahead) (OrEmptyPair R) := by
  rw [map_eq_pure_bind]
  refine .congrOn (hitem.on.bind fun v => accepts_pure (some v)) ?_
  rintro c (_ | v) rest hpair
  · constructor
    · rintro ⟨_, _, -, h, -⟩
      cases h
    · rintro ⟨opening, closing, h, hopening, hclosing⟩
      exact absurd (emptyPairAhead_iff.2 ⟨_, _, _, h, hopening, hclosing⟩) hpair
  · constructor
    · rintro ⟨_, _, h, hv, rfl⟩
      cases hv
      exact h
    · intro h
      exact ⟨v, rest, h, rfl, rfl⟩

/-- The loop of parameters and that of arguments. -/
theorem accepts_collect_orEmptyPair {s : Cursor → Bool} {G : List Token → Prop}
    (hs : ∀ c, s c = true ↔ G c.ahead) (hitem : item.Accepts R) (hR : R.Consumes)
    (hempty : ∀ {v input rest}, R v input rest → ¬ Reading.EmptyPairAhead input) :
    (collect fun c =>
      if !s c then none
      else if atEmptyPair c then some (do emptyPair; return none)
      else some (some <$> item)).AcceptsOn P ((OrEmptyPair R).Many G) := by
  refine (acceptsOn_collect (P := fun _ => True) (fun _ _ => trivial) ?_ ?_ ?_).on
  · rintro (_ | v) input rest h
    · obtain ⟨opening, closing, rfl, -⟩ := h
      simp only [List.length_cons]
      omega
    · exact hR h
  · intro c _
    rw [← hs]
    cases h : s c
    · simp
    · by_cases hpair : atEmptyPair c <;> simp [hpair]
  · rintro c parse - h
    split at h
    · cases h
    · split at h
      · next hpair =>
        cases h
        apply (acceptsOn_emptyPair_none hempty).mono
        rintro _ rfl
        rwa [atEmptyPair_iff] at hpair
      · next hpair =>
        cases h
        apply (acceptsOn_item_some hitem).mono
        rintro _ rfl
        rwa [atEmptyPair_iff] at hpair

end OrEmptyPair

theorem optionalType_suffix {type? : Option String} {input rest : List Token}
    (h : Reading.OptionalType type? input rest) : rest <:+ input := by
  cases h with
  | none => exact List.suffix_rfl
  | some => exact ⟨[_, _], rfl⟩

theorem oneParam_suffix {param : Param} {input rest : List Token}
    (h : Reading.OneParam param input rest) : rest <:+ input := by
  cases h with
  | bare => exact List.suffix_cons _ _
  | enclosed _ _ htype =>
    exact (suffix_of_cons_suffix (optionalType_suffix htype)).trans ⟨[_, _], rfl⟩

theorem oneParam_consumes : Reading.OneParam.Consumes := by
  intro param input rest h
  cases h with
  | bare => exact Nat.lt_succ_self _
  | enclosed _ _ htype =>
    have := (optionalType_suffix htype).length_le
    simp only [List.length_cons] at this ⊢
    omega

theorem not_emptyPairAhead_of_oneParam {param : Param} {input rest : List Token}
    (h : Reading.OneParam param input rest) : ¬ Reading.EmptyPairAhead input := by
  rintro ⟨hopening, hclosing⟩
  cases h with
  | bare hname => simp [hname] at hopening
  | enclosed _ hname => simp [hname] at hclosing

theorem paramAhead_of_oneParam {param : Param} {input rest : List Token}
    (h : Reading.OneParam param input rest) : Reading.ParamAhead input := by
  cases h with
  | bare hname => exact .inl hname
  | enclosed hopening hname => exact .inr ⟨hopening, .inr hname⟩

theorem params_iff {params : List Param} {input rest : List Token} :
    Reading.Params params input rest ↔ ∃ items,
      (OrEmptyPair Reading.OneParam).Many Reading.ParamAhead items input rest ∧
        params = items.reduceOption := by
  constructor
  · intro h
    induction h with
    | nil hstop => exact ⟨[], .nil hstop, rfl⟩
    | emptyPair hopening hclosing _ ih =>
      obtain ⟨items, hitems, rfl⟩ := ih
      exact ⟨none :: items,
        .cons (.inr ⟨hopening, .inl hclosing⟩) ⟨_, _, rfl, hopening, hclosing⟩ hitems, rfl⟩
    | cons hparam _ ih =>
      obtain ⟨items, hitems, rfl⟩ := ih
      exact ⟨some _ :: items, .cons (paramAhead_of_oneParam hparam) hparam hitems, rfl⟩
  · rintro ⟨items, h, rfl⟩
    induction h with
    | nil hstop => exact .nil hstop
    | @cons item items _ _ _ _ hitem _ ih =>
      cases item with
      | none =>
        obtain ⟨opening, closing, rfl, hopening, hclosing⟩ := hitem
        exact .emptyPair hopening hclosing ih
      | some param => exact .cons hitem ih

theorem accepts_optionalParams : optionalParams.AcceptsOn P Reading.Params := by
  refine .congr ((accepts_collect_orEmptyPair startsParam_iff accepts_param oneParam_consumes
    not_emptyPairAhead_of_oneParam).bind fun items => accepts_pure items.reduceOption) ?_
  intro params input rest
  rw [params_iff]
  constructor
  · rintro ⟨items, _, hitems, rfl, rfl⟩
    exact ⟨items, hitems, rfl⟩
  · rintro ⟨items, hitems, rfl⟩
    exact ⟨items, rest, hitems, rfl, rfl⟩

theorem params_suffix {params : List Param} {input rest : List Token}
    (h : Reading.Params params input rest) : rest <:+ input := by
  induction h with
  | nil => exact List.suffix_rfl
  | emptyPair _ _ _ ih => exact ih.trans ⟨[_, _], rfl⟩
  | cons hparam _ ih => exact ih.trans (oneParam_suffix hparam)

theorem accepts_params :
    params.AcceptsOn P fun params input rest =>
      Reading.ParamAhead input ∧ Reading.Params params input rest := by
  refine .pointwise fun c _ => ?_
  have run_eq : params c = (if startsParam c then optionalParams else unexpected "parameter" :
      Parse (List Param)) c := rfl
  refine .of_eq (.ite (fun h => ?_) fun h => ?_) (by rintro _ rfl; exact run_eq)
  · rw [startsParam_iff] at h
    refine accepts_optionalParams.congrOn ?_
    rintro _ params rest rfl
    exact (and_iff_right h).symm
  · rw [startsParam_iff] at h
    refine acceptsOn_of_fails (fun c v c' _ => unexpected_ne_ok _ c v c') ?_
    rintro _ params rest rfl ⟨hahead, -⟩
    exact h hahead

theorem accesses_iff {fields : List String} {input rest : List Token} :
    Reading.Accesses fields input rest ↔
      Reading.Many (Reading.Behind fun value input rest =>
        ∃ field, input = field :: rest ∧ field.kind.namesField = true ∧ value = field.value)
        (nextKind · = .dot) fields input rest := by
  constructor
  · intro h
    induction h with
    | nil hstop => exact .nil hstop
    | cons hdot hfield _ ih => exact .cons hdot ⟨_, _, rfl, _, rfl, hfield, rfl⟩ ih
  · intro h
    induction h with
    | nil hstop => exact .nil hstop
    | cons hdot hitem _ ih =>
      obtain ⟨dot, _, rfl, field, rfl, hfield, rfl⟩ := hitem
      exact .cons hdot hfield ih

theorem accepts_accesses : accesses.AcceptsOn P Reading.Accesses := by
  refine .congr (accepts_collect_behind (by decide) accepts_fieldName ?_) fun _ _ _ =>
    accesses_iff.symm
  rintro value input rest ⟨field, rfl, -⟩
  exact Nat.lt_succ_self _

theorem accepts_accessTail (target : Node) :
    (accessTail target).AcceptsOn P fun node input rest =>
      ∃ fields, Reading.Accesses fields input rest ∧ node = fields.foldl .access target := by
  refine .congr (accepts_accesses.bind fun fields => accepts_pure (fields.foldl .access target)) ?_
  intro node input rest
  constructor
  · rintro ⟨fields, _, h, rfl, rfl⟩
    exact ⟨fields, h, rfl⟩
  · rintro ⟨fields, h, rfl⟩
    exact ⟨fields, rest, h, rfl, rfl⟩

/-- The names up to a closing parenthesis. -/
theorem bound_iff {names input rest : List Token} {closing : Token}
    (hclosing : closing.kind = .closeParen) :
    (names = input.takeWhile (·.kind = .identifier) ∧
      closing :: rest = input.dropWhile (·.kind = .identifier)) ↔
    input = names ++ closing :: rest ∧ ∀ name ∈ names, name.kind = .identifier := by
  constructor
  · rintro ⟨rfl, hrest⟩
    rw [hrest]
    refine ⟨List.takeWhile_append_dropWhile.symm, fun name hmem => ?_⟩
    exact of_decide_eq_true (List.all_eq_true.1 List.all_takeWhile name hmem)
  · rintro ⟨rfl, hnames⟩
    have hpass : ∀ name ∈ names, decide (name.kind = .identifier) = true :=
      fun name hmem => decide_eq_true (hnames name hmem)
    rw [List.takeWhile_append_of_pos hpass, List.dropWhile_append_of_pos hpass]
    simp [hclosing]

theorem accepts_casePattern : casePattern.AcceptsOn P Reading.Pattern := by
  refine .byKind fun kind => ?_
  split
  · refine .congrKind ((acceptsOn_text ?_).bind fun _ => accepts_pure _) ?_
    · rintro c ⟨-, hkind⟩
      simp [hkind]
    · intro pattern input rest hkind
      constructor
      · rintro ⟨_, _, ⟨tag, rfl, rfl⟩, rfl, rfl⟩
        exact .bare hkind
      · intro h
        cases h with
        | bare => exact ⟨_, _, ⟨_, rfl, rfl⟩, rfl, rfl⟩
        | enclosed hopening => simp [hopening] at hkind
  · refine .congrKind ((acceptsOn_advance ?_).bind fun _ =>
      (accepts_expect (by decide)).bind fun _ => (accepts_expect (by decide)).bind fun _ =>
        (accepts_skip _).bind fun _ => (accepts_expect (by decide)).bind fun _ =>
          accepts_pure _) ?_
    · rintro c ⟨-, hkind⟩
      simp [hkind]
    · intro pattern input rest hkind
      constructor
      · rintro ⟨_, _, rfl, tag, _, ⟨rfl, htag⟩, first, _, ⟨rfl, hfirst⟩, _, _, ⟨hbound, hrest⟩,
          closing, _, ⟨rfl, hclosing⟩, rfl, rfl⟩
        obtain ⟨rfl, hnames⟩ := (bound_iff hclosing).1 ⟨hbound, hrest⟩
        exact .enclosed hkind htag hfirst hnames hclosing
      · intro h
        cases h with
        | bare htag => simp [htag] at hkind
        | enclosed hopening htag hfirst hnames hclosing =>
          exact ⟨_, _, rfl, _, _, ⟨rfl, htag⟩, _, _, ⟨rfl, hfirst⟩, _, _,
            (bound_iff hclosing).2 ⟨rfl, hnames⟩, _, _, ⟨rfl, hclosing⟩, rfl, rfl⟩
  · next hident hopen =>
    refine acceptsOn_of_fails (fun c v c' _ => unexpected_ne_ok _ c v c') ?_
    rintro c pattern rest ⟨-, rfl⟩ h
    rw [c.kind_eq_nextKind] at hident hopen
    generalize c.ahead = input at h hident hopen
    cases h with
    | bare htag => exact hident htag
    | enclosed hopening => exact hopen hopening

/-- A variant on the line of the one before it. -/
def OneVariant : Reading Variant := fun variant input rest =>
  ∃ name fields mid, input = name :: mid ∧ name.kind = .identifier ∧
    Reading.Params fields mid rest ∧ variant = ⟨name.value, fields⟩

theorem oneVariant_consumes : OneVariant.Consumes := by
  rintro variant input rest ⟨name, fields, mid, rfl, -, hfields, -⟩
  exact Nat.lt_succ_of_le (params_suffix hfields).length_le

theorem accepts_variant : variant.AcceptsOn P OneVariant := by
  refine .congr ((accepts_declaredName _).bind fun _ => accepts_optionalParams.bind fun _ =>
    accepts_pure _) ?_
  intro value input rest
  constructor
  · rintro ⟨_, mid, ⟨name, rfl, hname, rfl⟩, fields, _, hfields, rfl, rfl⟩
    exact ⟨name, fields, mid, rfl, hname, hfields, rfl⟩
  · rintro ⟨name, fields, mid, rfl, hname, hfields, rfl⟩
    exact ⟨_, mid, ⟨name, rfl, hname, rfl⟩, fields, _, hfields, rfl, rfl⟩

/-- A variant behind a bar, which may begin a line. -/
def NextVariant (indented : Bool) : Reading Variant := fun variant input rest =>
  (∃ bar mid, input = bar :: mid ∧ bar.kind = .pipe ∧ OneVariant variant mid rest) ∨
    ∃ terminator bar mid, input = terminator :: bar :: mid ∧ indented = true ∧
      terminator.kind = .terminator ∧ bar.kind = .pipe ∧ OneVariant variant mid rest

theorem variants_iff {indented : Bool} {variants : List Variant} {input rest : List Token} :
    Reading.Variants indented variants input rest ↔ ∃ first mid others,
      OneVariant first input mid ∧
        (NextVariant indented).Many (Reading.VariantAhead indented) others mid rest ∧
          variants = first :: others := by
  constructor
  · intro h
    induction h with
    | last hname hfields hstop =>
      exact ⟨_, _, [], ⟨_, _, _, rfl, hname, hfields, rfl⟩, .nil hstop, rfl⟩
    | cons hname hfields hbar _ ih =>
      obtain ⟨first, mid, others, hfirst, hothers, rfl⟩ := ih
      exact ⟨_, _, first :: others, ⟨_, _, _, rfl, hname, hfields, rfl⟩,
        .cons (.inl hbar) (.inl ⟨_, _, rfl, hbar, hfirst⟩) hothers, rfl⟩
    | consLine hindented hname hfields hterminator hbar _ ih =>
      obtain ⟨first, mid, others, hfirst, hothers, rfl⟩ := ih
      exact ⟨_, _, first :: others, ⟨_, _, _, rfl, hname, hfields, rfl⟩,
        .cons (.inr ⟨hindented, hterminator, hbar⟩)
          (.inr ⟨_, _, _, rfl, hindented, hterminator, hbar, hfirst⟩) hothers, rfl⟩
  · rintro ⟨first, mid, others, hfirst, hothers, rfl⟩
    induction hothers generalizing first input with
    | nil hstop =>
      obtain ⟨name, fields, mid, rfl, hname, hfields, rfl⟩ := hfirst
      exact .last hname hfields hstop
    | cons _ hnext _ ih =>
      obtain ⟨name, fields, mid, rfl, hname, hfields, rfl⟩ := hfirst
      rcases hnext with ⟨bar, mid, rfl, hbar, hnext⟩ |
        ⟨terminator, bar, mid, rfl, hindented, hterminator, hbar, hnext⟩
      · exact .cons hname hfields hbar (ih _ hnext)
      · exact .consLine hindented hname hfields hterminator hbar (ih _ hnext)

theorem acceptsOn_barVariant (indented : Bool) :
    (do let _ ← advance; variant : Parse Variant).AcceptsOn (fun c => nextKind c.ahead = .pipe)
      (NextVariant indented) := by
  refine .congrOn ((acceptsOn_advance ?_).bind fun _ => accepts_variant) ?_
  · intro c h
    simp [c.kind_eq_nextKind, h]
  · intro c variant rest hpipe
    constructor
    · rintro ⟨bar, mid, hahead, h⟩
      rw [hahead] at hpipe
      exact .inl ⟨bar, mid, hahead, hpipe, h⟩
    · rintro (⟨bar, mid, hahead, -, h⟩ | ⟨terminator, bar, mid, hahead, -, hterminator, -⟩)
      · exact ⟨bar, mid, hahead, h⟩
      · simp [hahead, hterminator] at hpipe

theorem acceptsOn_lineVariant :
    (do let _ ← advance; let _ ← advance; variant : Parse Variant).AcceptsOn
      (fun c => ∃ terminator bar rest, c.ahead = terminator :: bar :: rest ∧
        terminator.kind = .terminator ∧ bar.kind = .pipe) (NextVariant true) := by
  refine .congrOn (acceptsOn_advanceTwo ?_ accepts_variant) ?_
  · rintro c ⟨terminator, bar, rest, hahead, -⟩
    exact ⟨terminator, bar, rest, hahead⟩
  · rintro c variant rest ⟨terminator, bar, tail, hahead, hterminator, hbar⟩
    rw [hahead]
    constructor
    · rintro ⟨_, _, _, h, hvariant⟩
      cases h
      exact .inr ⟨_, _, _, rfl, rfl, hterminator, hbar, hvariant⟩
    · rintro (⟨_, _, h, hpipe, -⟩ | ⟨_, _, _, h, -, -, -, hvariant⟩)
      · cases h
        simp [hpipe] at hterminator
      · cases h
        exact ⟨_, _, _, rfl, hvariant⟩

/-- The loop behind the first variant. -/
theorem accepts_otherVariants (indented : Bool) :
    (collect fun c =>
      if c.kind = .pipe then some (do let _ ← advance; variant)
      else if indented && c.kind = .terminator && c.peek 1 = .pipe then
        some (do let _ ← advance; let _ ← advance; variant)
      else none).Accepts ((NextVariant indented).Many (Reading.VariantAhead indented)) := by
  apply acceptsOn_collect
  · exact fun _ _ => trivial
  · rintro variant input rest (⟨bar, mid, rfl, -, h⟩ | ⟨terminator, bar, mid, rfl, -, -, -, h⟩)
    · exact Nat.lt_succ_of_lt (oneVariant_consumes h)
    · exact Nat.lt_succ_of_lt (Nat.lt_succ_of_lt (oneVariant_consumes h))
  · intro c _
    by_cases hpipe : c.kind = .pipe
    · simp [Reading.VariantAhead, ← c.kind_eq_nextKind, hpipe]
    · by_cases hline : c.kind = .terminator
      · have hne : c.ahead ≠ [] := mt c.kind_eq_eof_iff.2 (by simp [hline])
        simp [Reading.VariantAhead, ← c.kind_eq_nextKind, hline, Cursor.peek_one hne]
      · simp [Reading.VariantAhead, ← c.kind_eq_nextKind, hpipe, hline]
  · intro c item _ h
    split at h
    · next hpipe =>
      cases h
      rw [c.kind_eq_nextKind] at hpipe
      apply (acceptsOn_barVariant indented).mono
      rintro _ rfl
      exact hpipe
    · split at h
      · next hpipe hline =>
        cases h
        simp only [Bool.and_eq_true, decide_eq_true_eq] at hline
        obtain ⟨⟨rfl, hterminator⟩, hbar⟩ := hline
        have hne : c.ahead ≠ [] := mt c.kind_eq_eof_iff.2 (by simp [hterminator])
        rw [Cursor.peek_one hne] at hbar
        rw [c.kind_eq_nextKind] at hterminator
        apply acceptsOn_lineVariant.mono
        rintro _ rfl
        obtain ⟨terminator, tail, hahead⟩ := List.exists_cons_of_ne_nil hne
        rw [hahead] at hterminator hbar
        obtain ⟨bar, rest, rfl, hbar⟩ := eq_cons_of_nextKind hbar (by decide)
        exact ⟨terminator, bar, rest, hahead, hterminator, hbar⟩
      · cases h

theorem accepts_variants (indented : Bool) :
    (variants indented).AcceptsOn P (Reading.Variants indented) := by
  have both := (accepts_variant (P := P)).bind fun first =>
    (accepts_otherVariants indented).bind fun others => accepts_pure (first :: others)
  apply both.congr
  intro variants input rest
  rw [variants_iff]
  constructor
  · rintro ⟨first, mid, hfirst, others, _, hothers, rfl, rfl⟩
    exact ⟨first, mid, others, hfirst, hothers, rfl⟩
  · rintro ⟨first, mid, others, hfirst, hothers, rfl⟩
    exact ⟨first, mid, hfirst, others, rest, hothers, rfl, rfl⟩

end Offside.Grammar
