import Offside.Proofs.Grammar.CompletingOperands

/-! # Completing expressions

Expressions and the bodies they hold can be completed if the productions of the next level can.
-/

namespace Offside.Production

open Parse Cursor Grammar

variable {room : Nat}

/-- The text of an operator that binds tighter than a power. -/
def operatorText (power : Power) : Parse String := do
  if (Tables.standard.tighter? power (← kind)).isSome then text else unexpected "operator"

theorem resumes_operatorText (power : Power) :
    Resumes room (fun _ => operatorText power) fun _ => True := by
  refine resumes_token (fun kind => (Tables.standard.tighter? power kind).isSome) Token.value
    "operator" rfl fun c => ?_
  change (if (Tables.standard.tighter? power c.kind).isSome then text else _ : Parse String) c = _
  split <;> rfl

theorem ne_dot_of_tighter {power own : Power} {operation : Operation} {kind : Kind}
    (h : Tables.standard.tighter? power kind = some (own, operation)) : kind ≠ .dot := by
  rintro rfl
  cases h

/-- What binds no tighter than a power binds no tighter than one that is tighter itself. -/
theorem tighter?_eq_none_of_tighter {power own : Power} {operation : Operation} {kind kind' : Kind}
    (h : Tables.standard.tighter? power kind = some (own, operation))
    (h' : Tables.standard.tighter? power kind' = none) :
    Tables.standard.tighter? own kind' = none := by
  simp only [Tables.tighter?, Option.filter_eq_some_iff, Option.filter_eq_none_iff,
    decide_eq_true_eq] at h h' ⊢
  intro entry hentry hlt
  exact h' entry hentry (Nat.lt_trans h.2 hlt)

theorem innerEnds_of_startsInner {power : Power} {c : Cursor} (h : c.kind.startsInner = true) :
    InnerEnds power c :=
  innerEnds_of_kind rfl (Tables.operator?_of_startsInner h).1 (Tables.operator?_of_startsInner h).2

theorem innerEnds_of_closes {power : Power} {c : Cursor} (h : c.kind.closes = true) :
    InnerEnds power c :=
  innerEnds_of_kind rfl (Tables.operator?_of_closes h).1 (Tables.operator?_of_closes h).2

theorem startsInner_of_closes {kind : Kind} (h : kind.closes = true) :
    kind.startsInner = false := by
  cases kind <;> first | rfl | cases h

/-- Where an operand that may be called is called, and where operators follow it. -/
def callTail (g : Grammar) (callee : Node) : Parse Node := do
  if (← kind).startsInner then return applyArguments callee [] (← g.arguments)
  else g.operatorTail callee .loosest

theorem callTail_of_closes {nested : Nested} {callee : Node} {c : Cursor}
    (h : c.kind.closes = true) : callTail (ofNested .standard nested) callee c = .ok callee c := by
  refine (kind_bind_eq rfl _).trans ((congrFun (if_neg ?_) _).trans ?_)
  · rw [startsInner_of_closes h]
    exact Bool.false_ne_true
  · exact bind_of_ok (collect_of_none (congrArg (Option.map _) (innerEnds_of_closes h).1))

theorem startsInner_of_application {nested : Nested} (hn : nested.Exact room) {v : Node}
    {c c' : Cursor} (hrun : (ofNested .standard nested).application c = .ok v c') :
    c.kind.startsInner = true := by
  by_cases happlied : (c.kind = .identifier || c.kind = .openParen) = true
  · simp only [Bool.or_eq_true, decide_eq_true_eq] at happlied
    rcases happlied with hkind | hkind <;> simp [hkind, Kind.startsInner]
  · have hinner : nested.inner .loosest c = .ok v c' :=
      ((kind_bind_eq rfl _).trans (congrFun (if_neg happlied) _)).symm.trans hrun
    rw [c.kind_eq_nextKind]
    exact ((hn.inner .loosest).sound trivial hinner).startsInner_of_inner

/-- An expression without a keyword of its own ends like an operand. -/
theorem endsWith_of_application {nested : Nested} (hn : nested.Exact room) {v : Node}
    {c c' : Cursor} (hrun : (ofNested .standard nested).application c = .ok v c') :
    c.Reaches c' ∧ EndsWith Kind.endsOperand c.ahead c'.ahead := by
  have hkind : c.kind ≠ .kwFn ∧ c.kind ≠ .kwMatch ∧ c.kind ≠ .kwDo := by
    have hstarts := startsInner_of_application hn hrun
    refine ⟨?_, ?_, ?_⟩ <;> intro hkind <;> rw [hkind] at hstarts <;> cases hstarts
  have haccepts := accepts_application (P := fun _ => True) hn
  have hreads := haccepts.sound ⟨trivial, hkind⟩ hrun
  refine ⟨haccepts.reaches ⟨trivial, hkind⟩ hrun, ?_⟩
  rw [c.kind_eq_nextKind] at hkind
  exact hreads.endsOperand_of_expression hkind.1 hkind.2.2

section Levels

variable (h : Completable room)
include h

theorem resumes_operand :
    Resumes room (fun nested => (ofNested .standard nested).operand) fun c => c.kind ≠ .dot := by
  refine .byKind fun kind => ?_
  cases kind with
  | number | string | boolean =>
    exact .consuming (productive_literal.toResumes.mono fun _ _ => trivial)
      (fun hc => kind_bind_eq hc _) fun _ _ _ => takes_literal
  | identifier => exact .own productive_accessor.toResumes fun hc => kind_bind_eq hc _
  | openParen => exact .own (productive_grouping h).toResumes fun hc => kind_bind_eq hc _
  | openBracket =>
    have harray := productive_array h
    simp only [array_eq] at harray
    refine .own (harray.toResumes.mono fun _ _ => trivial) fun hc => (kind_bind_eq hc _).trans ?_
    exact congrFun (array_eq _) _
  | openCurly =>
    have hobject := productive_object h
    simp only [object_eq] at hobject
    refine .own (hobject.toResumes.mono fun _ _ => trivial) fun hc => (kind_bind_eq hc _).trans ?_
    exact congrFun (object_eq _) _
  | kwIf =>
    exact .own ((productive_conditional h).toResumes.mono fun _ _ => trivial)
      fun hc => kind_bind_eq hc _
  | openQuote =>
    exact .own ((productive_quotation h).toResumes.mono fun _ _ => trivial)
      fun hc => kind_bind_eq hc _
  | ampersand =>
    exact .own ((productive_splice h).toResumes.mono fun _ _ => trivial)
      fun hc => kind_bind_eq hc _
  | _ => exact .refusal fun hc => kind_bind_eq hc _

/-- The loop of the operators that bind tighter than a power. -/
theorem loop_operations (power : Power) : Loop room
    (fun nested c => (Tables.standard.tighter? power c.kind).map fun (own, operation) => do
      let operator ← text
      let right ← nested.inner own
      return (operation, operator, right))
    (fun c => Tables.standard.tighter? power c.kind)
    (fun (own, operation) nested => do
      let operator ← operatorText power
      let right ← nested.inner own
      return (operation, operator, right))
    (fun (own, _) => InnerEnds own) (InnerEnds power) where
  progresses limit room :=
    progresses_of_takes (takes_nextOperation (Grammar.local_within (Q := Eq) .standard limit room))
  stops hlook := by rw [hlook, Option.map_none]
  finds {nested c i} hlook := by
    refine ⟨_, by rw [hlook, Option.map_some], bind_congr_left ?_⟩
    change _ = (if (Tables.standard.tighter? power c.kind).isSome then text else _ : Parse String) c
    rw [hlook, Option.isSome_some, if_pos rfl]
  resumes i := (resumes_operatorText power).bind
    (fun operator => (h.inner i.1).bindPure fun right => (i.2, operator, right))
    fun _ _ _ _ _ _ _ _ => trivial
  again hlook _ hkind _ := by rwa [hkind]
  chain {limit c v c' d i j} _ hrun hlook _ _ hkind := by
    obtain ⟨operator, c₁, -, hrun⟩ := bind_eq_ok.1 hrun
    obtain ⟨right, c₂, hright, hrun⟩ := bind_eq_ok.1 hrun
    cases hrun
    have hreads := ((Nested.exact_within limit room).inner i.1).sound trivial hright
    have hstop := hreads.tighter?_of_inner
    rw [← c'.kind_eq_nextKind, ← hkind] at hstop
    exact ⟨hstop, hkind ▸ ne_dot_of_tighter hlook⟩
  ends hc := hc.1
  last hlook hd := ⟨tighter?_eq_none_of_tighter hlook hd.1, hd.2⟩

theorem productive_operations (power : Power) :
    Productive room (fun nested => (ofNested .standard nested).operations power)
      (InnerEnds power) :=
  (loop_operations h power).productive

theorem follows_operations (power : Power) :
    Follows (fun nested => (ofNested .standard nested).operations power) (InnerEnds power)
      fun c => c.kind ≠ .dot :=
  (loop_operations h power).follows (fun _ hc => hc.2) fun c hlook => by
    obtain ⟨i, hlook⟩ := Option.isSome_iff_exists.1 hlook
    exact ne_dot_of_tighter hlook

theorem productive_operatorTail (left : Node) (power : Power) :
    Productive room (fun nested => (ofNested .standard nested).operatorTail left power)
      (InnerEnds power) :=
  (productive_operations h power).bindPure (applyOperations left)

theorem follows_operatorTail (left : Node) (power : Power) :
    Follows (fun nested => (ofNested .standard nested).operatorTail left power) (InnerEnds power)
      fun c => c.kind ≠ .dot :=
  (follows_operations h power).bindPure (applyOperations left)

theorem resumes_innerBody (power : Power) :
    Resumes room (fun nested => (ofNested .standard nested).innerBody power) (InnerEnds power) :=
  (resumes_operand h).bind (fun left => productive_operatorTail h left power)
    fun left => follows_operatorTail h left power

theorem loop_arguments : Loop room
    (fun nested c => if !c.kind.startsInner then none
      else if atEmptyPair c then some (do emptyPair; return none)
      else some (some <$> nested.inner .loosest))
    (fun c => if !c.kind.startsInner then none else some (atEmptyPair c))
    (fun empty nested => if empty then
      expect .openParen >>= fun _ => expect .closeParen >>= fun _ => pure none
      else some <$> nested.inner .loosest)
    (fun _ => InnerEnds .loosest) fun c => InnerEnds .loosest c ∧ c.kind.startsInner = false := by
  refine loop_orEmptyPair (s := fun c => c.kind.startsInner) (h.inner .loosest)
    (fun limit room => (Nested.local_within .standard limit room).inner .loosest)
    (fun c hpair => ?_) (fun {limit room c v c'} hrun => ?_) fun c d hstarts hkind => ?_
  · rw [c.kind_eq_nextKind, ((atEmptyPair_iff c).1 hpair).1]
    rfl
  · have hreads := ((Nested.exact_within limit room).inner .loosest).sound trivial hrun
    refine ⟨c.kind_eq_nextKind ▸ hreads.startsInner_of_inner, ?_⟩
    rw [Bool.eq_false_iff, Ne, atEmptyPair_iff]
    exact hreads.not_emptyPairAhead_of_inner
  · exact innerEnds_of_startsInner (hkind ▸ hstarts)

/-- What follows the operand that an expression begins with, where the operand may be called. -/
theorem productive_callTail (callee : Node) :
    Productive room (fun nested => callTail (ofNested .standard nested) callee)
      fun c => c.kind.closes = true where
  toResumes := by
    refine .byKind fun kind => ?_
    cases hstarts : kind.startsInner with
    | true =>
      have harguments := (loop_arguments h).productive.bindPure (applyArguments callee [])
      refine ⟨_, harguments.toResumes.mono fun c hc => ?_, fun hc => ?_,
        fun {limit room c v} hrun hc => ?_⟩
      · exact ⟨innerEnds_of_closes hc, startsInner_of_closes hc⟩
      · exact (kind_bind_eq hc _).trans (congrFun (if_pos hstarts) _)
      · rw [bind_of_ok (collect_of_none (by simp [startsInner_of_closes hc]))] at hrun
        cases hrun
        exact callTail_of_closes hc
    | false =>
      have htail := (productive_operatorTail h callee .loosest).toResumes
      refine ⟨_, htail.mono fun c hc => innerEnds_of_closes hc, fun {_ c} hc => ?_,
        fun {_ _ c v} hrun hc => ?_⟩
      · exact (kind_bind_eq hc _).trans
          (congrFun (if_neg (by rw [hstarts]; exact Bool.false_ne_true)) _)
      · refine (kind_bind_eq rfl _).trans ((congrFun (if_neg ?_) _).trans hrun)
        rw [startsInner_of_closes hc]
        exact Bool.false_ne_true
  fills before := by
    refine ⟨0, callee, [], nofun, fun _ {_ _ c} _ _ hpasses hc => ?_⟩
    rw [hpasses.eq]
    exact callTail_of_closes hc

theorem follows_callTail (callee : Node) :
    Follows (fun nested => callTail (ofNested .standard nested) callee)
      (fun c => c.kind.closes = true) fun c => c.kind ≠ .dot := by
  intro limit room c v c' hrun hc hdot
  have htail : (ofNested .standard (.within .standard limit room)).operatorTail callee .loosest c =
      .ok v c' := by
    refine Eq.trans ?_ hrun
    exact ((kind_bind_eq hdot _).trans (congrFun (if_neg (by decide)) _)).symm
  exact follows_operatorTail h callee .loosest htail (innerEnds_of_closes hc) hdot

theorem resumes_application_of_closes :
    Resumes room (fun nested => (ofNested .standard nested).application)
      fun c => c.kind.closes = true := by
  have operand_eq {nested : Nested} {c : Cursor} {operand : Parse Node}
      (happlied : (c.kind = .identifier || c.kind = .openParen) = true)
      (heq : (ofNested .standard nested).operand c = operand c) :
      (ofNested .standard nested).application c =
        (operand >>= callTail (ofNested .standard nested)) c :=
    (kind_bind_eq rfl _).trans ((congrFun (if_pos happlied) _).trans (bind_congr_left heq))
  refine .byKind fun kind => ?_
  by_cases hident : kind = .identifier
  · subst hident
    refine .own (f := fun name nested => accessTail (.identifier name.value) >>=
      callTail (ofNested .standard nested)) (Productive.expectThen (by decide) fun name =>
        (productive_accessTail _).bind (productive_callTail h) (follows_callTail h)).toResumes ?_
    intro nested c hc
    have hoperand : (ofNested .standard nested).operand c = accessor c := kind_bind_eq hc _
    rw [operand_eq (by simp [hc]) hoperand, accessor, bind_assoc]
  by_cases hopen : kind = .openParen
  · subst hopen
    refine .own (f := fun _ nested => nested.expression >>= fun inner => expect .closeParen >>=
      fun _ => accessTail inner >>= callTail (ofNested .standard nested)) ?_ ?_
    · exact (Productive.expectThen (by decide) fun _ => h.expression.bindExpect (by decide)
        (fun _ hc => mayEnd_of_kind hc rfl) fun inner _ => (productive_accessTail inner).bind
          (productive_callTail h) (follows_callTail h)).toResumes
    · intro nested c hc
      have hoperand : (ofNested .standard nested).operand c =
        (ofNested .standard nested).grouping c := kind_bind_eq hc _
      rw [operand_eq (by simp [hc]) hoperand]
      simp only [grouping, bind_assoc]
      rfl
  · refine .consuming ((h.inner .loosest).toResumes.mono fun _ => innerEnds_of_closes)
      (fun hc => ?_) fun limit room => (Nested.local_within .standard limit room).inner .loosest
    exact (kind_bind_eq hc _).trans (congrFun (if_neg (by simp [hident, hopen])) _)

theorem resumes_application :
    Resumes room (fun nested => (ofNested .standard nested).application) MayEnd :=
  (resumes_application_of_closes h).mayEnd fun {limit room _ _ _} hrun =>
    endsWith_of_application (Nested.exact_within limit room) hrun

end Levels

end Offside.Production
