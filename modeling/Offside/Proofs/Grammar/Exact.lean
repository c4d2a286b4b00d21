import Offside.Parsing
import Offside.Proofs.Grammar.LineReadings

/-! # Parsing is exact

Blocks close the circle: on every level the productions read exactly what the grammar says. So a
token list stands for a program if and only if the relation says so.
-/

namespace Offside

namespace Grammar

open Parse

variable {nested : Nested} {room : Nat} {sequence : Bool} {P : Cursor → Prop}

theorem accepts_line (hn : nested.Exact room) :
    (ofNested .standard nested).line.AcceptsOn
      (fun c => P c ∧ (sequence = true → c.kind ≠ .kwBind ∧ c.kind ≠ .kwReturn))
      fun node => Reads room (.line sequence node) := by
  refine .byKind fun kind => .ite (fun hkind => ?_) fun hkind => ?_
  · refine .congrKind ((acceptsOn_text ?_).bind fun _ => accepts_pure _) ?_
    · rintro c ⟨-, rfl⟩
      simp [hkind]
    · rintro node input rest rfl
      constructor
      · rintro ⟨_, _, ⟨token, rfl, rfl⟩, rfl, rfl⟩
        exact .comment hkind
      · intro h
        cases h with
        | comment => exact ⟨_, _, ⟨_, rfl, rfl⟩, rfl, rfl⟩
        | expressionLine h =>
          exact absurd hkind (h.nextKind_ne rfl)
        | _ => simp_all
  · have expression (hlet : kind ≠ .kwLet) (hdata : kind ≠ .kwData) (hdefine : kind ≠ .kwMacro) :
        nested.expression.AcceptsOn (fun c => (P c ∧
          (sequence = true → c.kind ≠ .kwBind ∧ c.kind ≠ .kwReturn)) ∧ c.kind = kind)
          fun node => Reads room (.line sequence node) := by
      refine hn.expression.on.congrOn ?_
      rintro c node rest ⟨⟨-, hsequence⟩, rfl⟩
      rw [c.kind_eq_nextKind] at hkind hlet hdata hdefine hsequence
      generalize c.ahead = input at hkind hlet hdata hdefine hsequence
      constructor
      · exact .expressionLine
      · intro h
        cases h with
        | expressionLine h => exact h
        | _ => simp_all
    cases kind with
    | kwLet => exact accepts_letDeclaration hn
    | kwData => exact accepts_dataDeclaration
    | kwMacro => exact accepts_macroDeclaration hn
    | _ => exact expression (by decide) (by decide) (by decide)

theorem accepts_sequenceLine (hn : nested.Exact room) :
    (ofNested .standard nested).sequenceLine.AcceptsOn P
      fun node => Reads room (.line true node) := by
  refine .byKind fun kind => ?_
  split
  · refine .congrKind ((acceptsOn_advance ?_).bind fun _ => (accepts_expect (by decide)).bind
      fun _ => (accepts_expect (by decide)).bind fun _ => hn.expression.bind fun _ =>
        accepts_pure _) ?_
    · rintro c ⟨-, hkind⟩
      simp [hkind]
    · intro node input rest hkind
      constructor
      · rintro ⟨_, _, rfl, name, _, ⟨rfl, hname⟩, _, _, ⟨rfl, hassign⟩, _, _, hnode, rfl, rfl⟩
        exact .bind hkind hname hassign hnode
      · intro h
        cases h with
        | bind _ hname hassign hnode =>
          exact ⟨_, _, rfl, _, _, ⟨rfl, hname⟩, _, _, ⟨rfl, hassign⟩, _, _, hnode, rfl, rfl⟩
        | expressionLine h =>
          exact absurd hkind (h.nextKind_ne rfl)
        | _ => simp_all
  · refine .congrKind ((acceptsOn_advance ?_).bind fun _ => hn.expression.bind fun _ =>
      accepts_pure _) ?_
    · rintro c ⟨-, hkind⟩
      simp [hkind]
    · intro node input rest hkind
      constructor
      · rintro ⟨_, _, rfl, _, _, hnode, rfl, rfl⟩
        exact .result hkind hnode
      · intro h
        cases h with
        | result _ hnode => exact ⟨_, _, rfl, _, _, hnode, rfl, rfl⟩
        | expressionLine h =>
          exact absurd hkind (h.nextKind_ne rfl)
        | _ => simp_all
  · next hbind hreturn =>
    refine (accepts_line (P := P) hn).mono ?_
    rintro c ⟨hc, rfl⟩
    exact ⟨hc, fun _ => ⟨hbind, hreturn⟩⟩

/-- A line that has ended, or that nothing follows before the token to stop at. -/
def OneLine (room : Nat) (sequence : Bool) (stop : Kind) : Reading Node := fun node input rest =>
  ∃ mid, Reads room (.line sequence node) input mid ∧ rest = afterTerminators mid ∧
    (lineEnded input rest = true ∨ nextKind rest = stop)

theorem line_consumes : Reading.Consumes fun node => Reads room (.line sequence node) :=
  fun h => h.length_lt rfl

theorem many_oneLine_iff {stop : Kind} {nodes : List Node} {input rest : List Token} :
    (OneLine room sequence stop).Many (nextKind · ≠ stop) nodes input rest ↔
      Reads room (.lines sequence stop nodes) input rest := by
  constructor
  · intro h
    induction h with
    | nil hstop => exact .noLine (not_not.1 hstop)
    | cons hgo hline _ ih =>
      obtain ⟨mid, hline, rfl, hend⟩ := hline
      exact .consLine hgo hline hend ih
  · intro h
    induction nodes generalizing input with
    | nil =>
      cases h with
      | noLine hstop => exact .nil (not_not.2 hstop)
    | cons node nodes ih =>
      cases h with
      | consLine hgo hline hend h => exact .cons hgo ⟨_, hline, rfl, hend⟩ (ih h)

theorem accepts_linesUntil {line : Parse Node}
    (hline : line.Accepts fun node => Reads room (.line sequence node)) (stop : Kind) :
    (linesUntil stop line).AcceptsOn P fun nodes => Reads room (.lines sequence stop nodes) := by
  have lineEnd (node : Node) (c : Cursor) :=
    acceptsOn_endLine_unless c (fun ended kind => !ended && kind != stop) "end of line" node
  refine .congr (acceptsOn_collect (P := fun _ => True) (R := OneLine room sequence stop)
    (G := (nextKind · ≠ stop)) (fun _ _ => trivial) ?_ ?_ ?_).on fun _ _ _ => many_oneLine_iff
  · rintro node input _ ⟨mid, h, rfl, -⟩
    exact Nat.lt_of_le_of_lt (length_afterTerminators_le mid) (line_consumes h)
  · intro c _
    simp [c.kind_eq_nextKind]
  · intro c item _ h
    split at h
    · cases h
    · cases h
      refine .congr (hline.on.bindAfter (S := fun node start result input rest => result = node ∧
        rest = afterTerminators input ∧ (!lineEnded start rest && nextKind rest != stop) = false)
        line_consumes lineEnd) ?_
      intro node input rest
      simp only [Bool.and_eq_false_iff, Bool.not_eq_eq_eq_not, Bool.not_false, bne_eq_false_iff_eq]
      constructor
      · rintro ⟨_, mid, h, rfl, rfl, hend⟩
        exact ⟨mid, h, rfl, hend⟩
      · rintro ⟨mid, h, rfl, hend⟩
        exact ⟨node, mid, h, rfl, rfl, hend⟩

theorem accepts_bodyUntil (hn : nested.Exact room) (stop : Kind) :
    ((ofNested .standard nested).bodyUntil stop).AcceptsOn P
      fun nodes => Reads room (.lines false stop nodes) := by
  have line_accepts : (ofNested .standard nested).line.Accepts
      fun node => Reads room (.line false node) :=
    (accepts_line (P := fun _ => True) hn).mono fun _ _ => ⟨trivial, nofun⟩
  exact accepts_linesUntil line_accepts stop

theorem accepts_blockBody (hn : nested.Exact room) :
    (ofNested .standard nested).blockBody.AcceptsOn P
      fun nodes => Reads (room + 1) (.block nodes) := by
  refine .congr ((accepts_expect (by decide)).bind fun _ => (accepts_bodyUntil hn _).bind fun _ =>
    (accepts_expect (by decide)).bind fun _ => accepts_pure _) ?_
  intro nodes input rest
  constructor
  · rintro ⟨_, _, ⟨rfl, hindent⟩, _, _, hlines, _, _, ⟨rfl, houtdent⟩, rfl, rfl⟩
    exact .block hindent hlines houtdent
  · intro h
    cases h with
    | block hindent hlines houtdent =>
      exact ⟨_, _, ⟨rfl, hindent⟩, _, _, hlines, _, _, ⟨rfl, houtdent⟩, rfl, rfl⟩

/-- What follows the indent of a `do`, which has at least one line. -/
theorem accepts_sequenceTail (hn : nested.Exact room) :
    (do
      if (← kind) = .outdent then layoutError "do block has no lines"
      else
        let body ← linesUntil .outdent (ofNested .standard nested).sequenceLine
        let _ ← expect .outdent
        return body : Parse (List Node)).Accepts fun nodes input rest =>
      nextKind input ≠ .outdent ∧ ∃ outdent,
        Reads room (.lines true .outdent nodes) input (outdent :: rest) ∧
          outdent.kind = .outdent := by
  refine .byKind fun kind => .ite (fun hkind => ?_) fun hkind => ?_
  · refine acceptsOn_of_fails (fun c v c' _ => layoutError_ne_ok _ c v c') ?_
    rintro c nodes rest ⟨-, rfl⟩ ⟨h, -⟩
    exact h (c.kind_eq_nextKind ▸ hkind)
  · refine .congrKind ((accepts_linesUntil (accepts_sequenceLine hn) .outdent).bind fun _ =>
      (accepts_expect (by decide)).bind fun _ => accepts_pure _) ?_
    rintro nodes input rest rfl
    constructor
    · rintro ⟨_, _, hlines, outdent, _, ⟨rfl, houtdent⟩, rfl, rfl⟩
      exact ⟨hkind, outdent, hlines, houtdent⟩
    · rintro ⟨-, outdent, hlines, houtdent⟩
      exact ⟨_, _, hlines, outdent, _, ⟨rfl, houtdent⟩, rfl, rfl⟩

theorem accepts_sequenceBody (hn : nested.Exact room) :
    (ofNested .standard nested).sequenceBody.AcceptsOn P
      fun nodes => Reads (room + 1) (.sequenceBlock nodes) := by
  refine .congr ((accepts_expect (by decide)).bind fun _ => accepts_sequenceTail hn) ?_
  intro nodes input rest
  constructor
  · rintro ⟨_, _, ⟨rfl, hindent⟩, hfirst, outdent, hlines, houtdent⟩
    exact .sequenceBlock hindent hfirst hlines houtdent
  · intro h
    cases h with
    | sequenceBlock hindent hfirst hlines houtdent =>
      exact ⟨_, _, ⟨rfl, hindent⟩, hfirst, _, hlines, houtdent⟩

end Grammar

open Grammar Parse

theorem refuse_ne_ok {α : Type} (limit : Nat) (c : Cursor) (v : α) (c' : Cursor) :
    (Nested.refuse limit : Parse α) c ≠ .ok v c' := nofun

/-- Where no level is left to open, nothing is read that opens one. -/
theorem Nested.exact_exhausted (limit : Nat) : (exhausted limit).Exact 0 where
  expression := acceptsOn_of_fails (fun c v c' _ => refuse_ne_ok limit c v c') fun _ _ _ _ => nofun
  inner _ := acceptsOn_of_fails (fun c v c' _ => refuse_ne_ok limit c v c') fun _ _ _ _ => nofun
  block := acceptsOn_of_fails (fun c v c' _ => refuse_ne_ok limit c v c') fun _ _ _ _ => nofun
  sequenceBlock :=
    acceptsOn_of_fails (fun c v c' _ => refuse_ne_ok limit c v c') fun _ _ _ _ => nofun

theorem Nested.exact_within (limit room : Nat) :
    (Nested.within .standard limit room).Exact room := by
  induction room with
  | zero => exact exact_exhausted limit
  | succ room ih =>
    exact ⟨accepts_expressionBody ih, accepts_innerBody ih, accepts_blockBody ih,
      accepts_sequenceBody ih⟩

theorem accepts_program (limit : Nat) :
    (Grammar.program limit).Accepts fun nodes => Reads limit (.lines false .eof nodes) :=
  accepts_bodyUntil (Nested.exact_within limit limit) .eof

theorem ahead_ofTokens (tokens : List Token) (file : String) :
    (Cursor.ofTokens tokens file).ahead = tokens.takeWhile (·.kind != .eof) := by
  unfold Cursor.ofTokens
  split <;> rfl

/-- The lines of a program are read to the first end-of-file token. -/
theorem program_eq_ok_iff {tokens : List Token} {body : List Node} (limit : Nat) (file : String) :
    (∃ c, Grammar.program limit (Cursor.ofTokens tokens file) = .ok body c) ↔
      Reads limit (.lines false .eof body) (tokens.takeWhile (·.kind != .eof)) [] := by
  have haccepts := accepts_program limit
  rw [← ahead_ofTokens tokens file]
  constructor
  · rintro ⟨c, hrun⟩
    have hreads := haccepts.sound trivial hrun
    have hend : c.ahead = [] := by
      rw [← c.kind_eq_eof_iff, c.kind_eq_nextKind, hreads.nextKind_of_lines]
    rwa [hend] at hreads
  · intro h
    obtain ⟨c, hrun, -⟩ := haccepts.complete trivial h
    exact ⟨c, hrun⟩

/-- A token list stands for a program if its lines are read to the end-of-file token, and nothing
but such tokens follows. -/
theorem parse_eq_ok_iff {tokens : List Token} {file : String} {limit : Nat} {program : Program} :
    parse tokens file limit = .ok program ↔ trailing? tokens = none ∧
      Reads limit (.lines false .eof program.body) (tokens.takeWhile (·.kind != .eof)) [] := by
  rw [← program_eq_ok_iff limit file]
  obtain ⟨body⟩ := program
  unfold parse
  split
  · next token h => simp [h]
  · next h =>
    rw [EStateM.run]
    cases Grammar.program limit (Cursor.ofTokens tokens file) <;> simp [h]

end Offside
