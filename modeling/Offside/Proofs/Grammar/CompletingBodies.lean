import Offside.Proofs.Grammar.CompletingExpressions

/-! # Completing the forms that hold bodies

Functions, choices and the forms of a `do` can be completed if the productions of the next level
can.
-/

namespace Offside.Production

open Parse Cursor Grammar

variable {room : Nat}

/-- Where a case may end. -/
def ArmEnds (c : Cursor) : Prop :=
  c.kind ≠ .terminator ∧ MayEnd c

theorem follows_armEnd (arm : CasePattern × Node) :
    Follows (fun _ => endLine >>= fun _ => pure arm) ArmEnds MayEnd := by
  intro limit room c v c' hrun hc
  have hend := (bind_of_ok (endLine_eq c)).symm.trans hrun
  cases hend
  exact mayEnd_of_skip hc.2

section Levels

variable (h : Completable room)
include h

theorem productive_blockOrExpression :
    Productive room (fun nested => (ofNested .standard nested).blockOrExpression) MayEnd where
  toResumes := by
    refine .byKind fun kind => ?_
    by_cases hkind : kind = .indent
    · refine .consuming (h.block.toResumes.mono fun _ _ => trivial)
        (fun hc => (kind_bind_eq hc _).trans (congrFun (if_pos hkind) _)) fun limit room => ?_
      exact (Nested.local_within .standard limit room).block
    · refine .consuming (h.expression.bindPure fun node => [node]).toResumes
        (fun hc => (kind_bind_eq hc _).trans (congrFun (if_neg hkind) _)) fun limit room c => ?_
      exact ((Nested.local_within .standard limit room).expression c).bindPure _
  fills := by
    refine (h.expression.bindPure fun node => [node]).fills.of_case
      fun {limit room c _ _} hrun _ => ?_
    obtain ⟨node, c₁, hnode, -⟩ := bind_eq_ok.1 hrun
    have hreads := (Nested.exact_within limit room).expression.sound trivial hnode
    have hkind : c.kind ≠ .indent := c.kind_eq_nextKind ▸ hreads.nextKind_ne rfl
    exact ((kind_bind_eq rfl _).trans (congrFun (if_neg hkind) _)).trans hrun

theorem productive_functionTail (name? : Option String) :
    Productive room (fun nested => (ofNested .standard nested).functionTail name?) MayEnd :=
  productive_params.bind
    (fun _ => productive_optionalType.bindExpect (by decide) (fun _ hc => by simp [hc])
      fun _ _ => (productive_blockOrExpression h).bindPure _)
    fun _ _ _ _ _ _ hrun _ => by
      rcases kind_of_optionalType hrun with hkind | hkind <;> simp [EndsParams, hkind]

theorem productive_function :
    Productive room (fun nested => (ofNested .standard nested).function) MayEnd :=
  .expectThen (by decide) fun _ => productive_functionTail h none

theorem productive_caseArm :
    Productive room (fun nested => (ofNested .standard nested).caseArm) MayEnd :=
  .expectThen (by decide) fun _ => productive_casePattern.bindExpect (by decide)
    (fun _ _ => trivial) fun _ _ => h.expression.bindPure _

theorem productive_armLine : Productive room
    (fun nested => (ofNested .standard nested).caseArm >>= fun arm => endLine >>= fun _ => pure arm)
    ArmEnds :=
  (productive_caseArm h).bind
    (fun arm => (productive_endLine.bindPure fun _ => arm).mono fun _ hc => hc.1) follows_armEnd

theorem loop_armLines : Loop room
    (fun nested c => if c.kind = .kwCase && c.previous? = some .terminator then some (do
        let arm ← (ofNested .standard nested).caseArm
        let _ ← endLine
        return arm)
      else none)
    (fun c => if c.kind = .kwCase && c.previous? = some .terminator then some () else none)
    (fun _ nested => do
      let arm ← (ofNested .standard nested).caseArm
      let _ ← endLine
      return arm)
    (fun _ => ArmEnds) fun c => c.kind = .outdent where
  progresses limit room :=
    progresses_of_takes (takes_nextArmLine (Grammar.local_within (Q := Eq) .standard limit room))
  stops {_ c} hlook := by
    split at hlook
    · cases hlook
    · next hstop => exact if_neg hstop
  finds {_ c _} hlook := by
    split at hlook
    · next hgo => exact ⟨_, if_pos hgo, rfl⟩
    · cases hlook
  resumes _ := (productive_armLine h).toResumes
  again hlook hbefore hkind _ := by rwa [hkind, hbefore]
  chain {_ c v c' d _ _} _ _ hlook _ hbefore hkind := by
    split at hlook
    · next hgo =>
      simp only [Bool.and_eq_true, decide_eq_true_eq] at hgo
      exact ⟨by simp [hkind, hgo.1], .inl (hbefore.trans hgo.2)⟩
    · cases hlook
  ends hc := by simp [hc]
  last _ hd := ⟨by simp [hd], mayEnd_of_kind hd rfl⟩

theorem productive_caseArms :
    Productive room (fun nested => (ofNested .standard nested).caseArms)
      fun c => c.kind = .outdent := by
  refine (productive_armLine h).bind (fun first => (loop_armLines h).productive.bindPure _)
    fun first => .bindPure ?_ _
  refine (loop_armLines h).follows (fun c hc => ?_) fun c hlook => ?_
  · exact ⟨by simp [hc], mayEnd_of_kind hc rfl⟩
  · split at hlook
    · next hgo =>
      simp only [Bool.and_eq_true, decide_eq_true_eq] at hgo
      exact ⟨by simp [hgo.1], .inl hgo.2⟩
    · cases hlook

theorem productive_choice :
    Productive room (fun nested => (ofNested .standard nested).choice) fun _ => True :=
  .expectThen (by decide) fun _ => (h.inner .loosest).bindExpect (by decide)
    (fun _ hc => innerEnds_of_kind hc rfl (by decide)) fun _ _ =>
      (productive_caseArms h).bindExpect (by decide) (fun _ => id) fun _ _ => .pure _

theorem productive_sequence :
    Productive room (fun nested => (ofNested .standard nested).sequence) fun _ => True := by
  refine .expectThen (by decide) fun _ => (h.inner .loosest).bind
    (fun _ => h.sequenceBlock.bindExpect (by decide) (fun _ _ => trivial) fun _ _ => .pure _) ?_
  intro context limit room c v c' hrun _
  obtain ⟨body, c₁, hbody, -⟩ := bind_eq_ok.1 hrun
  have hreads := (Nested.exact_within limit room).sequenceBlock.sound trivial hbody
  exact innerEnds_of_kind (c.kind_eq_nextKind.trans hreads.nextKind_of_sequenceBlock) rfl
    (by decide)

theorem resumes_expressionBody :
    Resumes room (fun nested => (ofNested .standard nested).expressionBody) MayEnd := by
  refine .byKind fun kind => ?_
  cases kind with
  | kwFn => exact .own (productive_function h).toResumes fun hc => kind_bind_eq hc _
  | kwMatch =>
    exact .own ((productive_choice h).toResumes.mono fun _ _ => trivial)
      fun hc => kind_bind_eq hc _
  | kwDo =>
    exact .own ((productive_sequence h).toResumes.mono fun _ _ => trivial)
      fun hc => kind_bind_eq hc _
  | _ =>
    exact .consuming (resumes_application h) (fun hc => kind_bind_eq hc _) fun limit room _ =>
      takes_application (Grammar.local_within .standard limit room)

end Levels

end Offside.Production
