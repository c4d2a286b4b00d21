import Offside.Proofs.Grammar.ExpressionReadings

/-! # Forms with bodies

Functions, matches and `do`, and with them every expression.
-/

namespace Offside.Grammar

open Parse

variable {nested : Nested} {room : Nat} {P : Cursor → Prop}

theorem accepts_blockOrExpression (hn : nested.Exact room) :
    (ofNested .standard nested).blockOrExpression.AcceptsOn P
      fun nodes => Reads room (.body nodes) := by
  refine .byKind fun kind => .ite (fun hkind => ?_) fun hkind => ?_
  · refine .congrKind hn.block.on ?_
    rintro nodes input rest rfl
    constructor
    · exact .bodyBlock
    · intro h
      cases h with
      | bodyBlock h => exact h
      | bodyExpression h =>
        exact absurd hkind (h.nextKind_ne rfl)
  · refine .congrKind (hn.expression.on.bind fun node => accepts_pure [node]) ?_
    rintro nodes input rest rfl
    constructor
    · rintro ⟨node, _, hnode, rfl, rfl⟩
      exact .bodyExpression hnode
    · intro h
      cases h with
      | bodyBlock h => exact absurd h.nextKind_of_block hkind
      | bodyExpression h => exact ⟨_, _, h, rfl, rfl⟩

theorem accepts_functionTail (hn : nested.Exact room) (name? : Option String) :
    ((ofNested .standard nested).functionTail name?).AcceptsOn P fun node input rest =>
      ∃ params type? nodes mid, Reading.Signature (params, type?) input mid ∧
        Reads room (.body nodes) mid rest ∧ node = .function name? params type? nodes := by
  refine .congr (accepts_params.bind fun params => accepts_optionalType.bind fun type? =>
    (accepts_expect (by decide)).bind fun _ => (accepts_blockOrExpression hn).bind fun _ =>
      accepts_pure _) ?_
  intro node input rest
  constructor
  · rintro ⟨params, _, ⟨hahead, hparams⟩, type?, _, htype, _, _, ⟨rfl, hassign⟩, nodes, _, hbody,
      rfl, rfl⟩
    exact ⟨params, type?, nodes, _, .mk hahead hparams htype hassign, hbody, rfl⟩
  · rintro ⟨params, type?, nodes, mid, hsignature, hbody, rfl⟩
    cases hsignature with
    | mk hahead hparams htype hassign =>
      exact ⟨params, _, ⟨hahead, hparams⟩, type?, _, htype, _, _, ⟨rfl, hassign⟩, nodes, _, hbody,
        rfl, rfl⟩

theorem accepts_function (hn : nested.Exact room) :
    (ofNested .standard nested).function.AcceptsOn (fun c => P c ∧ c.kind = .kwFn)
      fun node => Reads (room + 1) (.expression node) := by
  refine .congrKind ((accepts_expect (by decide)).bind fun _ => accepts_functionTail hn none) ?_
  intro node input rest hkind
  constructor
  · rintro ⟨fn, _, ⟨rfl, hfn⟩, params, type?, nodes, mid, hsignature, hbody, rfl⟩
    exact .function hfn hsignature hbody
  · intro h
    cases h with
    | function hfn hsignature hbody =>
      exact ⟨_, _, ⟨rfl, hfn⟩, _, _, _, _, hsignature, hbody, rfl⟩
    | call h | operation h => simp [hkind] at h
    | other _ _ h => exact absurd hkind (h.nextKind_ne_of_inner rfl)
    | _ => simp_all

theorem accepts_caseArm (hn : nested.Exact room) :
    (ofNested .standard nested).caseArm.AcceptsOn P fun entry => Reads room (.arm entry) := by
  refine .congr ((accepts_expect (by decide)).bind fun _ => accepts_casePattern.bind fun _ =>
    (accepts_expect (by decide)).bind fun _ => hn.expression.bind fun _ => accepts_pure _) ?_
  intro entry input rest
  constructor
  · rintro ⟨_, _, ⟨rfl, hhead⟩, _, _, hpattern, _, _, ⟨rfl, hassign⟩, _, _, hnode, rfl, rfl⟩
    exact .arm hhead hpattern hassign hnode
  · intro h
    cases h with
    | arm hhead hpattern hassign hnode =>
      exact ⟨_, _, ⟨rfl, hhead⟩, _, _, hpattern, _, _, ⟨rfl, hassign⟩, _, _, hnode, rfl, rfl⟩

theorem arm_consumes : Reading.Consumes fun entry => Reads room (.arm entry) :=
  fun h => h.length_lt rfl

/-- A case with the terminators behind it. -/
def ArmLine (room : Nat) : Reading (CasePattern × Node) := fun entry input rest =>
  ∃ mid, Reads room (.arm entry) input mid ∧ rest = afterTerminators mid

theorem armLine_suffix {entry : CasePattern × Node} {input rest : List Token}
    (h : ArmLine room entry input rest) : rest <:+ input := by
  obtain ⟨mid, h, rfl⟩ := h
  exact (afterTerminators_suffix mid).trans h.suffix

theorem armLine_consumes : (ArmLine room).Consumes := by
  rintro entry input _ ⟨mid, h, rfl⟩
  exact Nat.lt_of_le_of_lt (length_afterTerminators_le mid) (arm_consumes h)

theorem accepts_armLine (hn : nested.Exact room) :
    (do
      let arm ← (ofNested .standard nested).caseArm
      let _ ← endLine
      return arm : Parse (CasePattern × Node)).AcceptsOn P (ArmLine room) := by
  have tail (entry : CasePattern × Node) (c : Cursor) : (do
      let _ ← endLine
      return entry : Parse (CasePattern × Node)).AcceptsOn (After c)
      fun result input rest => result = entry ∧ rest = afterTerminators input := by
    refine ((acceptsOn_endLine c).bind fun _ => accepts_pure entry).congr ?_
    intro result input rest
    constructor
    · rintro ⟨_, _, ⟨-, rfl⟩, rfl, rfl⟩
      exact ⟨rfl, rfl⟩
    · rintro ⟨rfl, rfl⟩
      exact ⟨_, _, ⟨rfl, rfl⟩, rfl, rfl⟩
  refine .congr ((accepts_caseArm hn).bindAfter
    (S := fun entry _ result input rest => result = entry ∧ rest = afterTerminators input)
    arm_consumes tail) ?_
  intro entry input rest
  constructor
  · rintro ⟨_, mid, h, rfl, rfl⟩
    exact ⟨mid, h, rfl⟩
  · rintro ⟨mid, h, rfl⟩
    exact ⟨entry, mid, h, rfl, rfl⟩

/-- Another case follows. It must begin a line, and only the tokens since an earlier case tell
whether it does. -/
def ArmAhead (start input : List Token) : Prop :=
  nextKind input = .kwCase ∧ lineEnded start input = true

theorem lineEnded_of_armLine {entry : CasePattern × Node} {start input mid : List Token}
    (hsuffix : input <:+ start) (h : ArmLine room entry input mid) :
    lineEnded start mid = lineEnded input mid :=
  lineEnded_of_suffix hsuffix (armLine_suffix h) (armLine_consumes h)

theorem arms_iff {entries : List (CasePattern × Node)} {start input rest : List Token}
    (hsuffix : input <:+ start) :
    Reads room (.arms entries) input rest ↔ ∃ first mid others,
      ArmLine room first input mid ∧
        (ArmLine room).Many (ArmAhead start) others mid rest ∧ entries = first :: others := by
  constructor
  · intro h
    induction entries generalizing input with
    | nil => cases h
    | cons entry entries ih =>
      cases h with
      | @lastArm _ _ _ mid harm hstop =>
        have hline : ArmLine room entry input (afterTerminators mid) := ⟨mid, harm, rfl⟩
        refine ⟨entry, _, [], hline, .nil ?_, rfl⟩
        rwa [ArmAhead, lineEnded_of_armLine hsuffix hline]
      | @consArm _ _ _ _ mid _ harm hend h =>
        have hline : ArmLine room entry input (afterTerminators mid) := ⟨mid, harm, rfl⟩
        obtain ⟨next, _, others, hnext, hothers, rfl⟩ :=
          ih ((armLine_suffix hline).trans hsuffix) h
        refine ⟨entry, _, next :: others, hline, .cons ⟨h.nextKind_of_arms, ?_⟩ hnext hothers, rfl⟩
        rwa [lineEnded_of_armLine hsuffix hline]
  · rintro ⟨first, mid, others, hfirst, hothers, rfl⟩
    induction hothers generalizing first input with
    | nil hstop =>
      rw [ArmAhead, lineEnded_of_armLine hsuffix hfirst] at hstop
      obtain ⟨mid, harm, rfl⟩ := hfirst
      exact .lastArm harm hstop
    | cons hahead hnext _ ih =>
      have hend := hahead.2
      rw [lineEnded_of_armLine hsuffix hfirst] at hend
      have h := ih ((armLine_suffix hfirst).trans hsuffix) _ hnext
      obtain ⟨mid, harm, rfl⟩ := hfirst
      exact .consArm harm hend h

theorem accepts_caseArms (hn : nested.Exact room) :
    (ofNested .standard nested).caseArms.AcceptsOn P fun entries => Reads room (.arms entries) := by
  have others (first : CasePattern × Node) (start : Cursor) : (do
      let rest ← collect fun cursor =>
        if cursor.kind = .kwCase && cursor.previous? = some .terminator then
          some do
            let arm ← (ofNested .standard nested).caseArm
            let _ ← endLine
            return arm
        else none
      return first :: rest : Parse (List (CasePattern × Node))).AcceptsOn (After start)
      fun entries input rest => ∃ others,
        (ArmLine room).Many (ArmAhead start.ahead) others input rest ∧
          entries = first :: others := by
    refine .congr (.bind (acceptsOn_collect (P := After start) (R := ArmLine room)
      (G := ArmAhead start.ahead) After.of_reaches armLine_consumes ?_ ?_) fun others =>
        accepts_pure (first :: others)) ?_
    · intro c hc
      rw [ArmAhead, ← hc.1.previous?_eq hc.2, ← c.kind_eq_nextKind]
      simp
    · intro c item _ h
      split at h
      · cases h
        exact accepts_armLine hn
      · cases h
    · intro entries input rest
      constructor
      · rintro ⟨others, _, hothers, rfl, rfl⟩
        exact ⟨others, hothers, rfl⟩
      · rintro ⟨others, hothers, rfl⟩
        exact ⟨others, rest, hothers, rfl, rfl⟩
  refine .congr ((accepts_armLine hn).bindAfter (S := fun first start entries input rest =>
    ∃ others, (ArmLine room).Many (ArmAhead start) others input rest ∧ entries = first :: others)
    armLine_consumes others) ?_
  intro entries input rest
  rw [arms_iff List.suffix_rfl]
  constructor
  · rintro ⟨first, mid, hfirst, others, hothers, rfl⟩
    exact ⟨first, mid, others, hfirst, hothers, rfl⟩
  · rintro ⟨first, mid, others, hfirst, hothers, rfl⟩
    exact ⟨first, mid, hfirst, others, hothers, rfl⟩

theorem accepts_choice (hn : nested.Exact room) :
    (ofNested .standard nested).choice.AcceptsOn (fun c => P c ∧ c.kind = .kwMatch)
      fun node => Reads (room + 1) (.expression node) := by
  refine .congrKind ((accepts_expect (by decide)).bind fun _ => (hn.inner _).bind fun _ =>
    (accepts_expect (by decide)).bind fun _ => (accepts_caseArms hn).bind fun _ =>
      (accepts_expect (by decide)).bind fun _ => accepts_pure _) ?_
  intro node input rest hkind
  constructor
  · rintro ⟨_, _, ⟨rfl, hhead⟩, _, _, hscrutinee, _, _, ⟨rfl, hindent⟩, _, _, hcases, _, _,
      ⟨rfl, houtdent⟩, rfl, rfl⟩
    exact .choice hhead hscrutinee hindent hcases houtdent
  · intro h
    cases h with
    | choice hhead hscrutinee hindent hcases houtdent =>
      exact ⟨_, _, ⟨rfl, hhead⟩, _, _, hscrutinee, _, _, ⟨rfl, hindent⟩, _, _, hcases, _, _,
        ⟨rfl, houtdent⟩, rfl, rfl⟩
    | call h | operation h => simp [hkind] at h
    | other _ _ h => exact absurd hkind (h.nextKind_ne_of_inner rfl)
    | _ => simp_all

theorem accepts_sequence (hn : nested.Exact room) :
    (ofNested .standard nested).sequence.AcceptsOn (fun c => P c ∧ c.kind = .kwDo)
      fun node => Reads (room + 1) (.expression node) := by
  refine .congrKind ((accepts_expect (by decide)).bind fun _ => (hn.inner _).bind fun _ =>
    hn.sequenceBlock.bind fun _ => (accepts_expect (by decide)).bind fun _ => accepts_pure _) ?_
  intro node input rest hkind
  constructor
  · rintro ⟨_, _, ⟨rfl, hhead⟩, _, _, hcontext, _, _, hbody, _, _, ⟨rfl, hterminator⟩, rfl, rfl⟩
    exact .sequence hhead hcontext hbody hterminator
  · intro h
    cases h with
    | sequence hhead hcontext hbody hterminator =>
      exact ⟨_, _, ⟨rfl, hhead⟩, _, _, hcontext, _, _, hbody, _, _, ⟨rfl, hterminator⟩, rfl, rfl⟩
    | call h | operation h => simp [hkind] at h
    | other _ _ h => exact absurd hkind (h.nextKind_ne_of_inner rfl)
    | _ => simp_all

theorem accepts_expressionBody (hn : nested.Exact room) :
    (ofNested .standard nested).expressionBody.AcceptsOn P
      fun node => Reads (room + 1) (.expression node) := by
  refine .byKind fun kind => ?_
  split
  · exact accepts_function hn
  · exact accepts_choice hn
  · exact accepts_sequence hn
  · next hfn hmatch hdo =>
    refine (accepts_application (P := P) hn).mono ?_
    rintro c ⟨hc, rfl⟩
    exact ⟨hc, hfn, hmatch, hdo⟩

end Offside.Grammar
