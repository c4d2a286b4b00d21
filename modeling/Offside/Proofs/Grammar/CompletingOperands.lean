import Offside.Proofs.Grammar.CompletingParams

/-! # Completing operands and operators

Operands, operators and calls can be completed if the productions of the next level can.
-/

namespace Offside.Production

open Parse Cursor Grammar

variable {room : Nat}

/-- Where an expression may end: behind the terminator of its own, or before a token that nothing
goes on with. -/
def MayEnd (c : Cursor) : Prop :=
  c.previous? = some .terminator ∨ c.kind.closes = true

theorem mayEnd_of_kind {kind : Kind} {c : Cursor} (hkind : c.kind = kind)
    (h : kind.closes = true) : MayEnd c :=
  .inr (hkind ▸ h)

/-- Where an operand may end, with the operators after it that bind tighter than a power. -/
def InnerEnds (power : Power) (c : Cursor) : Prop :=
  Tables.standard.tighter? power c.kind = none ∧ c.kind ≠ .dot

theorem innerEnds_of_kind {power : Power} {kind : Kind} {c : Cursor} (hkind : c.kind = kind)
    (h : Tables.standard.operator? kind = none) (hdot : kind ≠ .dot) : InnerEnds power c :=
  ⟨hkind ▸ Tables.tighter?_eq_none h power, hkind ▸ hdot⟩

/-- What ends like an operand never ends behind a terminator of its own. -/
theorem Resumes.mayEnd {α : Type} {p : Production α}
    (h : Resumes room p fun c => c.kind.closes = true)
    (hends : ∀ {limit room c v c'}, p (.within .standard limit room) c = .ok v c' →
      c.Reaches c' ∧ EndsWith Kind.endsOperand c.ahead c'.ahead) : Resumes room p MayEnd := by
  refine h.weaken .eof (fun c hc => by rw [hc]; rfl)
    (K := fun last? => ∃ last, last? = some last ∧ last.endsOperand = true)
    (fun hrun => (hends hrun).1.previous?_of_endsWith (hends hrun).2) ?_
  rintro c ⟨last, hlast, hlastEnds⟩ hc
  refine hc.resolve_left fun hterminator => ?_
  obtain rfl : last = .terminator := by simpa [hlast] using hterminator
  cases hlastEnds

theorem previous?_skip_of_kind {c : Cursor} (h : c.kind = .terminator) :
    (c.skip .terminator).previous? = some .terminator := by
  refine Passes.previous?_skip fun hnil => ?_
  obtain ⟨token, rest, hahead, hkind⟩ := eq_cons_of_nextKind (c.kind_eq_nextKind ▸ h) (by decide)
  simp [hahead, hkind] at hnil

theorem mayEnd_of_skip {c : Cursor} (h : MayEnd (c.skip .terminator)) : MayEnd c := by
  by_cases hkind : c.kind = .terminator
  · exact mayEnd_of_kind hkind rfl
  · rwa [skip_of_ne hkind] at h

/-- Where a line may end among lines up to a token. -/
def LineEnds (stop : Kind) (c : Cursor) : Prop :=
  c.kind ≠ .terminator ∧ (c.previous? = some .terminator ∨ c.kind = stop)

section LineEnd

variable {α : Type} (stop : Kind) (expected : String) (v : α)

theorem productive_lineEnd : Productive room
    (fun _ => (do
      let ended ← endLine
      if !ended && (← kind) != stop then unexpected expected else return v : Parse α))
    (LineEnds stop) := by
  refine (productive_endLine_unless (fun ended kind => !ended && kind != stop) (fun _ => rfl)
    expected v).mono fun c hc => ⟨hc.1, ?_⟩
  rcases hc.2 with hended | hstop <;> simp [*]

variable {stop expected v} in
theorem lineEnds_of_run {w : α} {c c' : Cursor} (hrun : (do
      let ended ← endLine
      if !ended && (← kind) != stop then unexpected expected
      else return v : Parse α) c = .ok w c') :
    c' = c.skip .terminator ∧ LineEnds stop c' := by
  rw [bind_of_ok (endLine_eq c)] at hrun
  obtain ⟨_, _, hkind, hrun⟩ := bind_eq_ok.1 hrun
  cases hkind
  split at hrun
  · cases hrun
  · next hended =>
    cases hrun
    refine ⟨rfl, kind_skip_ne (by decide) c, ?_⟩
    simpa only [Bool.and_eq_true, Bool.not_eq_true', decide_eq_false_iff_not, bne_iff_ne,
      not_and_or, not_not] using hended

theorem follows_lineEnd (hstop : stop.closes = true) : Follows
    (fun _ => (do
      let ended ← endLine
      if !ended && (← kind) != stop then unexpected expected else return v : Parse α))
    (LineEnds stop) MayEnd := by
  intro limit room c w c' hrun hc
  obtain ⟨rfl, -⟩ := lineEnds_of_run hrun
  refine mayEnd_of_skip (hc.2.imp_right fun hkind => ?_)
  rw [hkind, hstop]

end LineEnd

/-- The productions that open a level can be completed. -/
structure Completable (room : Nat) : Prop where
  expression : Productive room (fun nested => nested.expression) MayEnd
  inner : ∀ power, Productive room (fun nested => nested.inner power) (InnerEnds power)
  block : Productive room (fun nested => nested.block) fun _ => True
  sequenceBlock : Productive room (fun nested => nested.sequenceBlock) fun _ => True

/-- A pair with a comma behind it. -/
theorem pairLine_eq_comma {nested : Nested} {entry : String × Node} {c c₁ : Cursor}
    (hrun : (ofNested .standard nested).pair c = .ok entry c₁) (hkind : c₁.kind = .comma) :
    (ofNested .standard nested).pairLine c =
      ((ofNested .standard nested).pair >>= fun entry => expect .comma >>= fun _ =>
        endLine >>= fun _ => pure entry) c := by
  refine bind_congr_right fun entry c' hrun' => ?_
  obtain ⟨-, rfl⟩ : _ ∧ c₁ = c' := by simpa [hrun] using hrun'
  refine (kind_bind_eq hkind _).trans ((advance_bind_eq hkind _).trans ?_)
  refine bind_congr_right fun _ c₂ _ => bind_congr_right fun ended c₃ _ => ?_
  change (if !ended && !decide (Kind.comma = .comma) && c₃.kind != .outdent then unexpected _
    else pure entry : Parse (String × Node)) c₃ = _
  rw [decide_eq_true rfl, Bool.not_true, Bool.and_false, Bool.false_and, if_neg Bool.false_ne_true]

theorem pairLine_eq_noComma {nested : Nested} {entry : String × Node} {c c₁ : Cursor}
    (hrun : (ofNested .standard nested).pair c = .ok entry c₁) (hkind : c₁.kind ≠ .comma) :
    (ofNested .standard nested).pairLine c =
      ((ofNested .standard nested).pair >>= fun entry => (do
        let ended ← endLine
        if !ended && (← kind) != .outdent then unexpected Kind.outdent.name
        else return entry : Parse (String × Node))) c := by
  refine bind_congr_right fun entry c' hrun' => ?_
  obtain ⟨-, rfl⟩ : _ ∧ c₁ = c' := by simpa [hrun] using hrun'
  change (if c₁.kind = .comma then _ else _ : Parse (String × Node)) c₁ = _
  rw [if_neg hkind]
  refine bind_congr_right fun ended c₂ _ => ?_
  change (if !ended && !decide (c₁.kind = .comma) && c₂.kind != .outdent then unexpected _
    else pure entry : Parse (String × Node)) c₂ = _
  rw [decide_eq_false hkind, Bool.not_false, Bool.and_true]
  rfl

/-- Where a pair on lines of its own may end. -/
def PairLineEnds (c : Cursor) : Prop :=
  c.kind ≠ .terminator ∧ c.kind ≠ .comma ∧
    (c.previous? = some .terminator ∨ c.previous? = some .comma ∨ c.kind = .outdent)

/-- What was read last before the end of a line is no comma, unless the comma was read as such. -/
theorem previous?_of_pairLineEnd {nested : Nested} (hn : nested.Exact room)
    {v : String × Node} {c c' : Cursor}
    (hrun : ((ofNested .standard nested).pair >>= fun entry => (do
      let ended ← endLine
      if !ended && (← kind) != .outdent then unexpected Kind.outdent.name
      else return entry : Parse (String × Node))) c = .ok v c') :
    c'.previous? ≠ some .comma := by
  obtain ⟨entry, c₁, hpair, hend⟩ := bind_eq_ok.1 hrun
  obtain ⟨rfl, -⟩ := lineEnds_of_run hend
  have haccepts := accepts_pair (g := ofNested .standard nested) (P := fun _ => True) hn
  obtain ⟨kind, hlast, hends⟩ := (haccepts.reaches trivial hpair).previous?_of_endsWith
    (haccepts.sound trivial hpair).endsWith_of_pair
  by_cases hterminators : c₁.kind = .terminator
  · rw [previous?_skip_of_kind hterminators]
    simp
  · rw [skip_of_ne hterminators, hlast]
    rintro ⟨⟩
    cases hends

theorem pairLineEnds_of_run {nested : Nested} {v : String × Node} {c c' : Cursor}
    (hrun : (ofNested .standard nested).pairLine c = .ok v c') (hne : c'.kind ≠ .comma) :
    PairLineEnds c' := by
  cases hpair : (ofNested .standard nested).pair c with
  | error error c₁ =>
    have hfails := (bind_of_error hpair).symm.trans hrun
    cases hfails
  | ok entry c₁ =>
    by_cases hkind : c₁.kind = .comma
    · rw [pairLine_eq_comma hpair hkind, bind_of_ok hpair] at hrun
      obtain ⟨_, c₂, hcomma, hrun⟩ := bind_eq_ok.1 hrun
      obtain ⟨-, -, rfl⟩ := expectAs_eq_ok_iff.1 hcomma
      rw [bind_of_ok (endLine_eq _)] at hrun
      cases hrun
      refine ⟨kind_skip_ne (by decide) _, hne, ?_⟩
      by_cases hterminator : c₁.next.kind = .terminator
      · exact .inl (previous?_skip_of_kind hterminator)
      · rw [skip_of_ne hterminator, (Passes.next (by simp [hkind])).previous?_eq]
        exact .inr (.inl (congrArg some hkind))
    · rw [pairLine_eq_noComma hpair hkind, bind_of_ok hpair] at hrun
      obtain ⟨-, hterminator, hended⟩ := lineEnds_of_run hrun
      exact ⟨hterminator, hne, hended.imp id .inr⟩

theorem pairLine_eq_error (nested : Nested) {c : Cursor} (hkind : c.kind.namesField = false) :
    ∃ error, (ofNested .standard nested).pairLine c = .error error c := by
  refine ⟨c.unexpected "field name", bind_of_error (bind_of_error ?_)⟩
  change (if c.kind.namesField then text else unexpected _ : Parse String) c = _
  rw [hkind, if_neg Bool.false_ne_true]
  rfl

section Levels

variable (h : Completable room)
include h

theorem productive_grouping :
    Productive room (fun nested => (ofNested .standard nested).grouping) fun c => c.kind ≠ .dot :=
  .expectThen (by decide) fun _ => h.expression.bindExpect (by decide)
    (fun _ hc => mayEnd_of_kind hc rfl) fun inner _ => productive_accessTail inner

theorem productive_splice :
    Productive room (fun nested => (ofNested .standard nested).splice) fun _ => True :=
  .expectThen (by decide) fun _ => .expectThen (by decide) fun _ =>
    h.expression.bindExpect (by decide) (fun _ hc => mayEnd_of_kind hc rfl) fun _ _ => .pure _

theorem productive_quotation :
    Productive room (fun nested => (ofNested .standard nested).quotation) fun _ => True :=
  .expectThen (by decide) fun _ =>
    h.expression.bindExpect (by decide) (fun _ hc => mayEnd_of_kind hc rfl) fun _ _ => .pure _

theorem productive_elements :
    Productive room (fun nested => (ofNested .standard nested).elements)
      fun c => c.kind = .closeBracket where
  toResumes := by
    refine .byKind fun kind => ?_
    by_cases hkind : kind = .closeBracket
    · subst hkind
      exact .ending (Productive.pure []).toResumes (fun hc => (kind_bind_eq hc _)) fun _ => id
    · have hseparated := productive_separated h.expression
        (fun limit room => (Nested.local_within .standard limit room).expression)
        fun _ hc => mayEnd_of_kind hc rfl
      refine .consuming (hseparated.toResumes.mono fun c hc => ?_)
        (fun hc => (kind_bind_eq hc _).trans (congrFun (if_neg hkind) _))
        fun limit room _ => takes_separated (Nested.local_within .standard limit room).expression
      exact ⟨mayEnd_of_kind hc rfl, by simp [hc]⟩
  fills before := by
    refine ⟨0, [], [], nofun, fun _ {_ c c'} _ _ hpasses hc => ?_⟩
    rw [hpasses.eq]
    exact kind_bind_eq hc _

theorem productive_array :
    Productive room (fun nested => (ofNested .standard nested).array) fun _ => True := by
  simp only [array_eq]
  exact .expectThen (by decide) fun _ => (productive_elements h).bindExpect (by decide)
    (fun _ => id) fun _ _ => .pure _

theorem productive_pair :
    Productive room (fun nested => (ofNested .standard nested).pair) MayEnd :=
  productive_fieldName.bindExpect (by decide) (fun _ _ => trivial) fun key _ =>
    h.expression.bindPure fun value => (key, value)

theorem resumes_pairLine :
    Resumes room (fun nested => (ofNested .standard nested).pairLine) PairLineEnds := by
  have hcomma : Productive room (fun nested => (ofNested .standard nested).pair >>= fun entry =>
      expect .comma >>= fun _ => endLine >>= fun _ => pure entry) fun c => c.kind ≠ .terminator :=
    (productive_pair h).bindExpect (by decide) (fun _ hc => mayEnd_of_kind hc rfl) fun _ _ =>
      productive_endLine.bindPure _
  have hnoComma := (productive_pair h).bind (fun entry => productive_lineEnd _ _ entry)
    fun entry => follows_lineEnd .outdent Kind.outdent.name entry rfl
  have hnoComma' : Resumes room _ PairLineEnds := hnoComma.toResumes.weaken .outdent
    (K := (· ≠ some .comma)) (fun c hc => ⟨by simp [hc], .inr hc⟩)
    (fun {limit room _ _ _} hrun => previous?_of_pairLineEnd (Nested.exact_within limit room) hrun)
    fun c hcomma hc => ⟨hc.1, hc.2.2.imp id fun hc => hc.resolve_left hcomma⟩
  refine .of_case fun limit c => ?_
  by_cases hkind : ∃ entry c₁, (ofNested .standard (.within .standard limit room)).pair c =
    .ok entry c₁ ∧ c₁.kind = .comma
  · obtain ⟨entry, c₁, hrun, hkind⟩ := hkind
    refine ⟨_, hcomma.toResumes.mono fun c hc => hc.1, pairLine_eq_comma hrun hkind, ?_⟩
    intro limit room d v d' _ hrun' _
    obtain ⟨entry', d₁, hpair, hrest⟩ := bind_eq_ok.1 hrun'
    exact (pairLine_eq_comma hpair (kind_of_expectAs hrest)).trans hrun'
  · refine ⟨_, hnoComma', ?_, ?_⟩
    · cases hrun : (ofNested .standard (.within .standard limit room)).pair c with
      | error error c₁ => exact (bind_of_error hrun).trans (bind_of_error hrun).symm
      | ok entry c₁ => exact pairLine_eq_noComma hrun fun hcomma => hkind ⟨entry, c₁, hrun, hcomma⟩
    · intro limit room d v d' _ hrun' hd
      obtain ⟨entry, d₁, hpair, hrest⟩ := bind_eq_ok.1 hrun'
      obtain ⟨rfl, -⟩ := lineEnds_of_run hrest
      refine (pairLine_eq_noComma hpair fun hcomma => ?_).trans hrun'
      rw [PairLineEnds, skip_of_ne (by simp [hcomma])] at hd
      exact hd.2.1 hcomma

theorem loop_pairLines : Loop room
    (fun nested c => if c.kind = .outdent then none
      else some (ofNested .standard nested).pairLine)
    (fun c => if c.kind = .outdent then none else some ())
    (fun _ nested => (ofNested .standard nested).pairLine) (fun _ => PairLineEnds)
    fun c => c.kind = .outdent where
  progresses limit room :=
    progresses_of_takes (takes_nextPairLine (Grammar.local_within (Q := Eq) .standard limit room))
  stops {_ c} hlook := by
    split at hlook
    · next hkind => exact if_pos hkind
    · cases hlook
  finds {_ c _} hlook := by
    split at hlook
    · cases hlook
    · next hkind => exact ⟨_, if_neg hkind, rfl⟩
  resumes _ := resumes_pairLine h
  again hlook _ hkind _ := by rwa [hkind]
  chain {_ c v c' d _ _} _ hrun _ hgoes hbefore hkind := by
    have hends := pairLineEnds_of_run hrun fun hcomma =>
      let ⟨error, hfails⟩ := pairLine_eq_error _ (hcomma ▸ rfl)
      hgoes error hfails
    rwa [PairLineEnds, hbefore, hkind]
  ends hc := if_pos hc
  last _ hd := ⟨by simp [hd], by simp [hd], .inr (.inr hd)⟩

/-- The pairs of an object on lines of their own. -/
theorem productive_pairBlock : Productive room
    (fun nested => expect .indent >>= fun _ => skipTerminators >>= fun _ =>
      collect (fun c => if c.kind = .outdent then none
        else some (ofNested .standard nested).pairLine) >>= fun entries =>
          expect .outdent >>= fun _ => skipTerminators >>= fun _ => pure entries)
    fun c => c.kind ≠ .terminator := by
  refine .expectThen (by decide) fun _ => productive_skipTerminators.bind
    (fun _ => (loop_pairLines h).productive.bindExpect (by decide) (fun _ => id)
      fun entries _ => productive_skipTerminators.bindPure fun _ => entries) ?_
  intro _ limit room c v c' hrun _ hterminator
  obtain ⟨error, hfails⟩ := pairLine_eq_error (.within .standard limit room) (c := c)
    (hterminator ▸ rfl)
  obtain ⟨entries, c₁, hlines, -⟩ := bind_eq_ok.1 hrun
  rw [collect_of_some ((loop_pairLines h).progresses limit room) (if_neg (by simp [hterminator])),
    bind_of_error hfails] at hlines
  cases hlines

theorem productive_entries : Productive room (fun nested => (ofNested .standard nested).entries)
    fun c => c.kind = .closeCurly where
  toResumes := by
    refine .byKind fun kind => ?_
    have hpairs := productive_separated (productive_pair h)
      (fun limit room _ => takes_pair (Grammar.local_within .standard limit room))
      fun _ hc => mayEnd_of_kind hc rfl
    cases kind with
    | indent =>
      exact .own ((productive_pairBlock h).toResumes.mono fun _ hc => by simp [hc]) fun hc =>
        (kind_bind_eq hc _).trans (advance_bind_eq hc _)
    | closeCurly =>
      exact .ending (Productive.pure []).toResumes (fun hc => kind_bind_eq hc _) fun _ => id
    | _ =>
      refine .consuming (hpairs.toResumes.mono fun c hc => ?_) (fun hc => kind_bind_eq hc _)
        fun limit room _ =>
          takes_separated fun _ => takes_pair (Grammar.local_within .standard limit room)
      exact ⟨mayEnd_of_kind hc rfl, by simp [hc]⟩
  fills before := by
    refine ⟨0, [], [], nofun, fun _ {_ c c'} _ _ hpasses hc => ?_⟩
    rw [hpasses.eq]
    exact kind_bind_eq hc _

theorem productive_object :
    Productive room (fun nested => (ofNested .standard nested).object) fun _ => True := by
  simp only [object_eq]
  exact .expectThen (by decide) fun _ => (productive_entries h).bindExpect (by decide)
    (fun _ => id) fun _ _ => .pure _

theorem productive_conditional :
    Productive room (fun nested => (ofNested .standard nested).conditional) fun _ => True :=
  .expectThen (by decide) fun _ => (h.inner .loosest).bindExpect (by decide)
    (fun _ hc => innerEnds_of_kind hc rfl (by decide)) fun _ _ =>
      h.block.bindExpect (by decide) (fun _ _ => trivial) fun _ _ =>
        .expectThen (by decide) fun _ => h.block.bindPure _

end Levels

end Offside.Production
