import Offside.Proofs.Grammar.CompletingLines
import Offside.Proofs.Grammar.FirstError

/-! # Errors are never late

What is passed before an error is the beginning of a program.
-/

namespace Offside

namespace Production

open Parse Cursor Grammar

variable {α : Type} {n room : Nat} {p q : Production α} {F : Cursor → Prop}
  {before : Option Kind} {v : α} {text : List Token}

/-- One level further out, a production needs one more level. -/
theorem Takes.succ (h : Takes n q F before v text)
    (heq : ∀ limit room,
      p (.within .standard limit (room + 1)) = q (.within .standard limit room)) :
    Takes (n + 1) p F before v text where
  content := h.content
  run limit {room _ _} hroom hbefore hpasses hc := by
    obtain ⟨room, rfl⟩ : ∃ levels, room = levels + 1 := ⟨room - 1, by omega⟩
    rw [heq]
    exact h.run limit (by omega) hbefore hpasses hc

theorem Resumes.succ (h : Resumes room q F)
    (heq : ∀ limit room,
      p (.within .standard limit (room + 1)) = q (.within .standard limit room)) :
    Resumes (room + 1) p F where
  moves limit {c v c'} hrun := by
    rw [heq] at hrun
    obtain ⟨text, hpasses, htakes⟩ := h.moves limit hrun
    exact ⟨text, hpasses, htakes.succ heq⟩
  completes limit {c error c'} hrun hdeep := by
    rw [heq] at hrun
    exact (h.completes limit hrun hdeep).imp fun _ _ htakes => ⟨_, _, htakes.succ heq⟩

/-- Where no level is left, a run fails for want of one. -/
theorem resumes_refused (heq : ∀ limit, p (.within .standard limit 0) = Nested.refuse limit) :
    Resumes 0 p F where
  moves limit {c v c'} hrun := by
    rw [heq] at hrun
    cases hrun
  completes limit {c error c'} hrun hdeep := by
    rw [heq] at hrun
    cases hrun
    exact absurd rfl (hdeep limit)

theorem fills_expression : Fills (fun nested => nested.expression) MayEnd := by
  intro before
  let name : Token := ⟨.identifier, "x", default⟩
  refine ⟨1, .identifier "x", [name], .of_accepts (P := fun _ => True)
    (fun limit room _ => (Nested.exact_within limit room).expression) (by decide)
    (fun _ => trivial) fun room c hroom hc hbefore => ?_⟩
  obtain ⟨room, rfl⟩ : ∃ levels, room = levels + 1 := ⟨room - 1, by omega⟩
  refine reads_name name rfl (c.kind_eq_nextKind ▸ hc.resolve_left fun hterminator => ?_)
  rw [hbefore] at hterminator
  cases hterminator

theorem fills_inner (power : Power) :
    Fills (fun nested => nested.inner power) (InnerEnds power) := by
  intro before
  let name : Token := ⟨.identifier, "x", default⟩
  refine ⟨1, .identifier "x", [name], .of_accepts (P := fun _ => True)
    (fun limit room _ => (Nested.exact_within limit room).inner power) (by decide)
    (fun _ => trivial) fun room c hroom hc _ => ?_⟩
  obtain ⟨room, rfl⟩ : ∃ levels, room = levels + 1 := ⟨room - 1, by omega⟩
  rw [InnerEnds, c.kind_eq_nextKind] at hc
  change Reads _ (.inner power (applyOperations (.identifier name.value) [])) (name :: c.ahead) _
  exact .inner (reads_operand_name name rfl hc.2) (.noOperation hc.1)

theorem fills_block : Fills (fun nested => nested.block) fun _ => True := by
  intro before
  let indent : Token := ⟨.indent, "", default⟩
  let outdent : Token := ⟨.outdent, "", default⟩
  refine ⟨1, [], [indent, outdent], .of_accepts (P := fun _ => True)
    (fun limit room _ => (Nested.exact_within limit room).block) (by decide)
    (fun _ => trivial) fun room c hroom _ _ => ?_⟩
  obtain ⟨room, rfl⟩ : ∃ levels, room = levels + 1 := ⟨room - 1, by omega⟩
  have hlines : Reads room (.lines false .outdent []) (outdent :: c.ahead) (outdent :: c.ahead) :=
    .noLine rfl
  exact .block rfl hlines rfl

theorem fills_sequenceBlock : Fills (fun nested => nested.sequenceBlock) fun _ => True := by
  intro before
  let indent : Token := ⟨.indent, "", default⟩
  let name : Token := ⟨.identifier, "x", default⟩
  let outdent : Token := ⟨.outdent, "", default⟩
  refine ⟨2, [.identifier "x"], [indent, name, outdent], .of_accepts (P := fun _ => True)
    (fun limit room _ => (Nested.exact_within limit room).sequenceBlock) (by decide)
    (fun _ => trivial) fun room c hroom _ _ => ?_⟩
  obtain ⟨room, rfl⟩ : ∃ levels, room = levels + 2 := ⟨room - 2, by omega⟩
  exact .sequenceBlock rfl nofun (reads_lines_name name outdent c.ahead rfl rfl) rfl

/-- The productions of every level can be completed. -/
theorem completable (room : Nat) : Completable room := by
  induction room with
  | zero => exact {
      expression := ⟨resumes_refused fun _ => rfl, fills_expression⟩
      inner power := ⟨resumes_refused fun _ => rfl, fills_inner power⟩
      block := ⟨resumes_refused fun _ => rfl, fills_block⟩
      sequenceBlock := ⟨resumes_refused fun _ => rfl, fills_sequenceBlock⟩ }
  | succ room ih => exact {
      expression := ⟨(resumes_expressionBody ih).succ fun _ _ => rfl, fills_expression⟩
      inner power := ⟨(resumes_innerBody ih power).succ fun _ _ => rfl, fills_inner power⟩
      block := ⟨(productive_blockBody ih).toResumes.succ fun _ _ => rfl, fills_block⟩
      sequenceBlock :=
        ⟨(productive_sequenceBody ih).toResumes.succ fun _ _ => rfl, fills_sequenceBlock⟩ }

theorem productive_program (room : Nat) :
    Productive room (fun nested => (ofNested .standard nested).bodyUntil .eof)
      fun c => c.kind = .eof :=
  productive_bodyUntil (completable room) rfl (by decide)

end Production

/-- How many tokens come before the one that an error is raised at, which is the current token
unless it is a number that was passed already. -/
def SyntaxError.place (error : SyntaxError) (index : Nat) : Nat :=
  match error.cause with
  | .invalidNumber _ => index - 1
  | _ => index

open Cursor (Passes)

theorem Production.Blamed.length_passed {error : SyntaxError} {place ending : Cursor}
    (h : Blamed error place ending) : place.passed.length = error.place ending.passed.length := by
  cases hcause : error.cause with
  | invalidNumber =>
    simp only [Blamed, SyntaxError.place, hcause] at h ⊢
    obtain ⟨token, hpasses⟩ := h
    rw [hpasses.2.1]
    rfl
  | _ =>
    simp only [Blamed, SyntaxError.place, hcause] at h ⊢
    rw [h]

variable {tokens : List Token} {file : String} {limit index : Nat} {error : SyntaxError}

/-- What is taken as the lines of a program is a program. -/
theorem parse_of_takes {n : Nat} {body : List Node} {text : List Token}
    (h : Production.Takes n (fun nested => (Grammar.ofNested .standard nested).bodyUntil .eof)
      (fun c => c.kind = .eof) none body text) (file : String) :
    parse text file n = .ok ⟨body⟩ := by
  have hahead := Parse.ahead_ofTokens_of_content h.content file
  obtain ⟨c, hpasses, hrest⟩ := Passes.exists_of_ahead
    (hahead.trans (List.append_nil text).symm)
  have hrun : Grammar.program n (Cursor.ofTokens text file) = .ok body c := by
    refine h.run n (Nat.le_refl n) ?_ hpasses (c.kind_eq_eof_iff.2 hrest)
    rw [Cursor.previous?, Parse.passed_ofTokens]
    rfl
  have htrailing : trailing? text = none := by
    have hdrop := Parse.dropWhile_content h.content []
    rw [List.append_nil] at hdrop
    rw [trailing?, hdrop]
    rfl
  exact parse_eq_ok_iff.2 ⟨htrailing, (program_eq_ok_iff n file).1 ⟨c, hrun⟩⟩

/-- What comes before the token that an error is raised at is the beginning of a program, unless the
error is that nothing may nest deeper. -/
theorem exists_completion (hends : EndsOnce tokens) (h : parse tokens file limit = .error error)
    (hdeep : ∀ missed, error.cause ≠ .nestingTooDeep missed) :
    ∃ index, FailsAt tokens file limit error index ∧ ∃ rest limit' program,
      parse (tokens.take (error.place index) ++ rest) file limit' = .ok program := by
  obtain ⟨index, hfails⟩ := hends.exists_failsAt h
  refine ⟨index, hfails, ?_⟩
  obtain ⟨-, c, hrun, rfl⟩ := hfails
  obtain ⟨text, place, hpasses, hblamed, hmore⟩ :=
    (Production.productive_program limit).completes limit hrun hdeep
  have hplace : tokens.take (error.place c.passed.length) = text := by
    rw [← hblamed.length_passed, hpasses.2.1, Parse.passed_ofTokens, List.append_nil,
      List.length_reverse]
    have hbegins : text <+: tokens.takeWhile (·.kind != .eof) :=
      ⟨place.ahead, by rw [← hpasses.1, ahead_ofTokens]⟩
    exact (List.prefix_iff_eq_take.1 (hbegins.trans (List.takeWhile_prefix _))).symm
  rw [hplace]
  by_cases hne : text = []
  · exact ⟨[], 0, ⟨[]⟩, by rw [hne]; rfl⟩
  · obtain ⟨n, body, more, htakes⟩ := hmore hne
    refine ⟨more, n, ⟨body⟩, parse_of_takes ?_ file⟩
    rwa [Cursor.previous?, Parse.passed_ofTokens] at htakes

/-- An argument that begins with a comma is refused, and a closing parenthesis would have made a
program of what comes before it. -/
theorem exists_completion_argument :
    let tokens : List Token := [⟨.identifier, "f", default⟩, ⟨.openParen, "(", default⟩,
      ⟨.comma, ",", default⟩, .eof default]
    let error : SyntaxError := ⟨.unexpected "," .comma "expression", default⟩
    EndsOnce tokens ∧ parse tokens "" 8 = .error error ∧
      ∃ index, FailsAt tokens "" 8 error index ∧ ∃ rest limit' program,
        parse (tokens.take (error.place index) ++ rest) "" limit' = .ok program := by
  intro tokens error
  have hends : EndsOnce tokens :=
    ⟨[⟨.identifier, "f", default⟩, ⟨.openParen, "(", default⟩, ⟨.comma, ",", default⟩], _, rfl,
      by decide, rfl⟩
  have hfails : parse tokens "" 8 = .error error := rfl
  exact ⟨hends, hfails, exists_completion hends hfails nofun⟩

end Offside
