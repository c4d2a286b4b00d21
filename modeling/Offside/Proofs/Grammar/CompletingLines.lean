import Offside.Proofs.Grammar.CompletingBodies

/-! # Completing lines

Declarations, lines and blocks can be completed if the productions of the next level can.
-/

namespace Offside.Production

open Parse Cursor Grammar

variable {room : Nat}

theorem kind_of_skipTerminators {α : Type} {f : Token → Parse α} {c c' : Cursor} {v : α}
    (hrun : (skipTerminators >>= fun _ => expect .outdent >>= f) c = .ok v c') :
    (c.skip .terminator).kind = .outdent := by
  obtain ⟨_, c₁, hskip, hrun⟩ := bind_eq_ok.1 hrun
  cases hskip
  exact kind_of_expectAs hrun

theorem follows_skipTerminators {α : Type} (f : Token → Production α) (F : Cursor → Prop) :
    Follows (fun nested => skipTerminators >>= fun _ => expect .outdent >>= fun token =>
      f token nested) F MayEnd := by
  intro limit room c v c' hrun _
  exact mayEnd_of_skip (mayEnd_of_kind (kind_of_skipTerminators hrun) rfl)

theorem productive_variants (indented : Bool) :
    Productive room (fun _ => variants indented) (EndsVariants indented) := by
  have hloop := @loop_variants room indented
  refine productive_variant.bind (fun first => hloop.productive.bindPure _)
    fun first => .bindPure ?_ _
  refine hloop.follows (fun c hc => hc.1) fun c hlook => ?_
  by_cases hpipe : c.kind = .pipe
  · simp [EndsParams, hpipe]
  · by_cases hterminator : c.kind = .terminator
    · simp [EndsParams, hterminator]
    · simp [hpipe, hterminator] at hlook

theorem endsVariants_of_closes {c : Cursor} (h : c.kind.closes = true) : EndsVariants false c := by
  refine ⟨⟨?_, ?_⟩, ?_, fun hline => Bool.false_ne_true hline.1⟩ <;>
    · intro hkind
      rw [hkind] at h
      cases h

/-- An outdent behind the ends of lines leaves no variant to come. -/
theorem endsVariants_of_skip {c : Cursor} (h : (c.skip .terminator).kind = .outdent) :
    EndsVariants true c := by
  by_cases hkind : c.kind = .terminator
  · refine ⟨by simp [EndsParams, hkind], by simp [hkind], fun hline => ?_⟩
    have hnext : c.next.kind = .pipe := by
      rw [← peek_one_of_ne (by simp [hkind])]
      exact hline.2.2
    rw [(skip_of_eq hkind (by decide)).1, skip_of_ne (by simp [hnext]), hnext] at h
    cases h
  · rw [skip_of_ne hkind] at h
    simp [EndsVariants, EndsParams, h]

/-- What follows the assignment of a declaration of a type. -/
def dataTail (name : String) (params : List Param) : Parse Node := do
  if (← kind) = .indent then
    let _ ← advance
    let variants ← variants true
    let _ ← skipTerminators
    let _ ← expect .outdent
    return .dataType name params variants
  else return .dataType name params (← variants false)

theorem productive_dataTail (name : String) (params : List Param) :
    Productive room (fun _ => dataTail name params) fun c => c.kind.closes = true := by
  have hflat := ((@productive_variants room false).bindPure
    fun variants => Node.dataType name params variants).mono fun _ => endsVariants_of_closes
  have hindented : Productive room (fun _ => expect .indent >>= fun _ => variants true >>=
      fun variants => skipTerminators >>= fun _ => expect .outdent >>= fun _ =>
        pure (Node.dataType name params variants)) fun c => c.kind.closes = true := by
    refine .expectThen (by decide) fun _ => (productive_variants true).bind
      (fun _ => productive_skipTerminators.bindExpect (by decide) (fun _ hc => by simp [hc])
        fun _ _ => .pure _) ?_
    intro _ limit room c v c' hrun _
    exact endsVariants_of_skip (kind_of_skipTerminators hrun)
  refine ⟨.byKind fun kind => ?_, ?_⟩
  · by_cases hkind : kind = .indent
    · subst hkind
      exact .own hindented.toResumes fun hc =>
        (kind_bind_eq hc _).trans (advance_bind_eq hc _)
    · refine .consuming hflat.toResumes
        (fun hc => (kind_bind_eq hc _).trans (congrFun (if_neg hkind) _)) fun _ _ _ => ?_
      exact takes_variants.bindPure _
  · refine hflat.fills.of_case fun {_ _ c _ _} hrun _ => ?_
    obtain ⟨variants, c₁, hvariants, -⟩ := bind_eq_ok.1 hrun
    have hkind : c.kind = .identifier := by
      have hreads := (accepts_variants (P := fun _ => True) false).sound trivial hvariants
      rw [c.kind_eq_nextKind]
      generalize c.ahead = input at hreads
      cases hreads <;> assumption
    exact ((kind_bind_eq hkind _).trans (congrFun (if_neg (by decide)) _)).trans hrun

theorem resumes_dataDeclaration :
    Resumes room (fun _ => dataDeclaration) MayEnd := by
  have hcloses : Productive room (fun _ => dataDeclaration) fun c => c.kind.closes = true :=
    .expectThen (by decide) fun _ => (productive_declaredName _).bind (fun name =>
      productive_optionalParams.bindExpect (by decide) (fun _ hc => by simp [EndsParams, hc])
        fun params _ => productive_dataTail name params) fun _ _ _ _ _ _ _ _ => trivial
  refine hcloses.toResumes.mayEnd fun {_ _ c v c'} hrun => ?_
  have hkind : c.kind = .kwData := kind_of_expectAs hrun
  have haccepts : dataDeclaration.AcceptsOn _ fun node => Reads 0 (.line false node) :=
    accepts_dataDeclaration (P := fun _ => True)
  refine ⟨haccepts.reaches ⟨trivial, hkind⟩ hrun, ?_⟩
  exact (haccepts.sound ⟨trivial, hkind⟩ hrun).endsOperand_of_data (c.kind_eq_nextKind ▸ hkind)

/-- What follows the name of a binding. -/
def valueTail (g : Grammar) (name : String) : Parse Node := do
  let type? ← optionalType
  let _ ← expect .assignment
  let value ← g.boundValue
  return .letValue name type? value

/-- What follows the name that a `let` introduces. -/
def letTail (g : Grammar) (name : String) : Parse Node := do
  let next ← kind
  if next = .identifier || next = .openParen then g.functionTail (some name)
  else valueTail g name

theorem letTail_eq_of_valueTail {g : Grammar} {name : String} {v : Node} {c c' : Cursor}
    (hrun : valueTail g name c = .ok v c') : letTail g name c = valueTail g name c := by
  refine (kind_bind_eq rfl _).trans (congrFun (if_neg ?_) _)
  rcases kind_of_optionalType hrun with hkind | hkind <;> simp [hkind]

section Levels

variable (h : Completable room)
include h

theorem productive_boundValue :
    Productive room (fun nested => (ofNested .standard nested).boundValue) MayEnd where
  toResumes := by
    refine .byKind fun kind => ?_
    by_cases hkind : kind = .indent
    · subst hkind
      have hindented : Productive room (fun nested => expect .indent >>= fun _ =>
          nested.expression >>= fun value => skipTerminators >>= fun _ => expect .outdent >>=
            fun _ => pure value) fun _ => True :=
        .expectThen (by decide) fun _ => h.expression.bind
          (fun value => productive_skipTerminators.bindExpect (by decide) (fun _ hc => by simp [hc])
            fun _ _ => .pure value) fun value => follows_skipTerminators (fun _ _ => pure value) _
      exact .own (hindented.toResumes.mono fun _ _ => trivial) fun hc =>
        (kind_bind_eq hc _).trans (advance_bind_eq hc _)
    · exact .consuming h.expression.toResumes
        (fun hc => (kind_bind_eq hc _).trans (congrFun (if_neg hkind) _))
        fun limit room => (Nested.local_within .standard limit room).expression
  fills := by
    refine h.expression.fills.of_case fun {limit room c _ _} hrun _ => ?_
    have hreads := (Nested.exact_within limit room).expression.sound trivial hrun
    have hkind : c.kind ≠ .indent := c.kind_eq_nextKind ▸ hreads.nextKind_ne rfl
    exact ((kind_bind_eq rfl _).trans (congrFun (if_neg hkind) _)).trans hrun

theorem productive_valueTail (name : String) :
    Productive room (fun nested => valueTail (ofNested .standard nested) name) MayEnd :=
  productive_optionalType.bindExpect (by decide) (fun _ hc => by simp [hc]) fun _ _ =>
    (productive_boundValue h).bindPure _

theorem productive_letTail (name : String) :
    Productive room (fun nested => letTail (ofNested .standard nested) name) MayEnd := by
  refine ⟨.byKind fun kind => ?_, (productive_valueTail h name).fills.of_case fun hrun _ => ?_⟩
  · by_cases hkind : (kind = .identifier || kind = .openParen) = true
    · refine .consuming (productive_functionTail h (some name)).toResumes
        (fun hc => (kind_bind_eq hc _).trans (congrFun (if_pos hkind) _)) fun limit room _ => ?_
      exact takes_functionTail (Grammar.local_within .standard limit room) (some name)
    · exact ⟨_, (productive_valueTail h name).toResumes,
        fun hc => (kind_bind_eq hc _).trans (congrFun (if_neg hkind) _),
        fun hrun _ => (letTail_eq_of_valueTail hrun).trans hrun⟩
  · exact (letTail_eq_of_valueTail hrun).trans hrun

theorem productive_letDeclaration :
    Productive room (fun nested => (ofNested .standard nested).letDeclaration) MayEnd :=
  .expectThen (by decide) fun _ => (productive_declaredName _).bind
    (fun name => productive_letTail h name) fun _ _ _ _ _ _ _ _ => trivial

theorem productive_macroDeclaration :
    Productive room (fun nested => (ofNested .standard nested).macroDeclaration) MayEnd :=
  .expectThen (by decide) fun _ => (productive_declaredName _).bindExpect (by decide)
    (fun _ _ => trivial) fun _ _ => (productive_blockOrExpression h).bindPure _

theorem resumes_line : Resumes room (fun nested => (ofNested .standard nested).line) MayEnd := by
  refine .byKind fun kind => ?_
  have comment : Productive room (fun _ => expect .comment >>= fun token =>
      pure (Node.comment token.value)) fun _ => True :=
    (productive_expectAs (by decide) _).bindPure fun token => Node.comment token.value
  cases kind with
  | comment =>
    exact .own (comment.toResumes.mono fun _ _ => trivial) fun hc =>
      (kind_bind_eq hc _).trans (text_bind_eq hc _)
  | kwLet =>
    exact .own (productive_letDeclaration h).toResumes fun hc => kind_bind_eq hc _
  | kwData => exact .own resumes_dataDeclaration fun hc => kind_bind_eq hc _
  | kwMacro =>
    exact .own (productive_macroDeclaration h).toResumes fun hc => kind_bind_eq hc _
  | _ =>
    exact .consuming h.expression.toResumes (fun hc => kind_bind_eq hc _)
      fun limit room => (Nested.local_within .standard limit room).expression

theorem resumes_sequenceLine :
    Resumes room (fun nested => (ofNested .standard nested).sequenceLine) MayEnd := by
  have bind : Productive room (fun nested => expect .kwBind >>= fun _ =>
      expect .identifier >>= fun name => expect .assignment >>= fun _ =>
        nested.expression >>= fun value => pure (Node.bind name.value value)) MayEnd :=
    .expectThen (by decide) fun _ => .expectThen (by decide) fun name =>
      .expectThen (by decide) fun _ => h.expression.bindPure fun value => Node.bind name.value value
  have result : Productive room (fun nested => expect .kwReturn >>= fun _ =>
      nested.expression >>= fun value => pure (Node.result value)) MayEnd :=
    .expectThen (by decide) fun _ => h.expression.bindPure Node.result
  refine .byKind fun kind => ?_
  cases kind with
  | kwBind =>
    exact .own bind.toResumes fun hc => (kind_bind_eq hc _).trans (advance_bind_eq hc _)
  | kwReturn =>
    exact .own result.toResumes fun hc => (kind_bind_eq hc _).trans (advance_bind_eq hc _)
  | _ =>
    exact .consuming (resumes_line h) (fun hc => kind_bind_eq hc _)
      fun limit room _ => takes_line (Grammar.local_within .standard limit room)

end Levels

/-- What follows the indent of a `do`. -/
def sequenceTail (g : Grammar) : Parse (List Node) := do
  if (← kind) = .outdent then layoutError "do block has no lines"
  else
    let body ← linesUntil .outdent g.sequenceLine
    let _ ← expect .outdent
    return body

theorem reads_operand_name (name : Token) {rest : List Token} (hname : name.kind = .identifier)
    (hdot : nextKind rest ≠ .dot) :
    Reads room (.operand (.identifier name.value)) (name :: rest) rest :=
  .accessor hname (.nil hdot)

/-- A name is an expression. -/
theorem reads_name (name : Token) {rest : List Token} (hname : name.kind = .identifier)
    (hcloses : (nextKind rest).closes = true) :
    Reads (room + 1) (.expression (.identifier name.value)) (name :: rest) rest := by
  obtain ⟨hoperator, hdot⟩ := Tables.operator?_of_closes hcloses
  change Reads _ (.expression (applyOperations (.identifier _) [])) _ _
  exact .operation (.inl hname) (reads_operand_name name hname hdot)
    (startsInner_of_closes hcloses) (.noOperation (Tables.tighter?_eq_none hoperator _))

/-- A name is a line before an outdent. -/
theorem reads_lines_name (name outdent : Token) (rest : List Token)
    (hname : name.kind = .identifier) (houtdent : outdent.kind = .outdent) :
    Reads (room + 1) (.lines true .outdent [.identifier name.value]) (name :: outdent :: rest)
      (outdent :: rest) := by
  have hline : Reads (room + 1) (.line true (.identifier name.value)) (name :: outdent :: rest)
      (outdent :: rest) :=
    .expressionLine (reads_name name hname (by rw [nextKind_cons, houtdent]; rfl))
  have hafter : afterTerminators (outdent :: rest) = outdent :: rest :=
    afterTerminators_of_ne (by simp [houtdent])
  refine .consLine (by simp [hname]) hline (.inr ?_) ?_ <;> rw [hafter]
  · exact houtdent
  · exact .noLine houtdent

/-- The loop of lines up to a token. -/
theorem loop_linesUntil (stop : Kind) {line : Production Node} (hline : Resumes room line MayEnd)
    (htakes : ∀ limit room c, TakesAt Eq (line (.within .standard limit room)) c)
    (hcloses : stop.closes = true) (hne : stop ≠ .terminator) : Loop room
    (fun nested c => if c.kind = stop then none
      else some (do
        let node ← line nested
        let ended ← endLine
        if !ended && (← kind) != stop then unexpected "end of line" else return node))
    (fun c => if c.kind = stop then none else some ())
    (fun _ nested => do
      let node ← line nested
      let ended ← endLine
      if !ended && (← kind) != stop then unexpected "end of line" else return node)
    (fun _ => LineEnds stop) fun c => c.kind = stop where
  progresses limit room := progresses_of_takes (takes_nextLine (htakes limit room))
  stops {_ c} hlook := by
    split at hlook
    · next hkind => exact if_pos hkind
    · cases hlook
  finds {_ c _} hlook := by
    split at hlook
    · cases hlook
    · next hkind => exact ⟨_, if_neg hkind, rfl⟩
  resumes _ := hline.bind (fun node => productive_lineEnd _ _ node)
    fun node => follows_lineEnd _ _ node hcloses
  again hlook _ hkind _ := by rwa [hkind]
  chain {_ c v c' d _ _} _ hrun _ _ hbefore hkind := by
    obtain ⟨node, c₁, -, hend⟩ := bind_eq_ok.1 hrun
    have hends := (lineEnds_of_run hend).2
    rwa [LineEnds, hbefore, hkind]
  ends hc := if_pos hc
  last _ hd := ⟨by rw [hd]; exact hne, .inr hd⟩

section Levels

variable (h : Completable room)
include h

theorem productive_bodyUntil {stop : Kind} (hcloses : stop.closes = true)
    (hne : stop ≠ .terminator) :
    Productive room (fun nested => (ofNested .standard nested).bodyUntil stop)
      fun c => c.kind = stop :=
  (loop_linesUntil stop (resumes_line h)
    (fun limit room _ => takes_line (Grammar.local_within .standard limit room)) hcloses
    hne).productive

theorem productive_blockBody :
    Productive room (fun nested => (ofNested .standard nested).blockBody) fun _ => True :=
  .expectThen (by decide) fun _ => (productive_bodyUntil h rfl (by decide)).bindExpect (by decide)
    (fun _ => id) fun _ _ => .pure _

theorem productive_sequenceTail :
    Productive room (fun nested => sequenceTail (ofNested .standard nested)) fun _ => True where
  toResumes := by
    refine .byKind fun kind => ?_
    by_cases hkind : kind = .outdent
    · exact ⟨fun _ => layoutError "do block has no lines", resumes_layoutError _,
        fun hc => (kind_bind_eq hc _).trans (congrFun (if_pos hkind) _), nofun⟩
    · have hlines := (loop_linesUntil .outdent (resumes_sequenceLine h)
        (fun limit room _ => takes_sequenceLine (Grammar.local_within .standard limit room)) rfl
        (by decide)).productive.bindExpect (by decide) (fun _ => id)
          fun nodes _ => Productive.pure (F := fun _ => True) nodes
      refine .consuming hlines.toResumes
        (fun hc => (kind_bind_eq hc _).trans (congrFun (if_neg hkind) _))
        fun limit room c => ?_
      have hline (c : Cursor) := takes_sequenceLine (c := c)
        (Grammar.local_within (Q := Eq) .standard limit room)
      exact .bindRight (local_linesUntil hline .outdent c) fun _ _ _ =>
        .expectThen (by decide) fun _ => .pure _
  fills before := by
    let name : Token := ⟨.identifier, "x", default⟩
    let outdent : Token := ⟨.outdent, "", default⟩
    refine ⟨1, [.identifier "x"], [name, outdent], .of_accepts (P := fun _ => True)
      (fun limit room _ => accepts_sequenceTail (Nested.exact_within limit room)) (by decide)
      (fun _ => trivial) fun room c hroom _ _ => ?_⟩
    obtain ⟨room, rfl⟩ : ∃ levels, room = levels + 1 := ⟨room - 1, by omega⟩
    exact ⟨nofun, outdent, reads_lines_name name outdent c.ahead rfl rfl, rfl⟩

theorem productive_sequenceBody :
    Productive room (fun nested => (ofNested .standard nested).sequenceBody) fun _ => True :=
  .expectThen (by decide) fun _ => productive_sequenceTail h

end Levels

end Offside.Production
