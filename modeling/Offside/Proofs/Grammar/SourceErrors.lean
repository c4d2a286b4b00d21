import Mathlib
import Offside.Proofs.Grammar.OpaqueTexts
import Offside.Proofs.Token.Ends

/-! # Errors of sources

The tokens of a source have a numeral wherever they have a number, and nothing behind their end. So
what can be wrong with a token list in these respects is never wrong with a source.
-/

namespace Offside

variable {tokens : List Token} {source file : String} {limit : Nat} {error : SyntaxError}

/-- The lines of a program end only where the tokens do. -/
theorem atEnd_of_program {c c' : Cursor} {body : List Node}
    (hrun : Grammar.program limit c = .ok body c') : c'.atEnd = true := by
  have hreads := (accepts_program limit).sound trivial hrun
  rw [Cursor.atEnd, c'.kind_eq_nextKind, hreads.nextKind_of_lines]
  rfl

/-- An error of the grammar fits one of the tokens, or the end of the input. -/
theorem exists_fits_of_program {c c' : Cursor}
    (hrun : Grammar.program limit c = .error error c') :
    ∃ token ∈ c.visible, error.cause.Fits token := by
  -- A run is compared with itself, so tokens that correspond are tokens of the stream.
  let r : Renaming := ⟨id, Function.injective_id, fun token _ => token ∈ c.visible⟩
  have hahead : List.Forall₂ (Token.Renamed r) c.ahead c.ahead :=
    List.forall₂_same.2 fun token hmem =>
      ⟨rfl, (Kind.renameText_id _ _).symm, List.mem_append_left _ hmem⟩
  have hcursor : c.Renamed r c := ⟨rfl, hahead, List.mem_append_right _ List.mem_cons_self⟩
  have hruns := renames_program limit c hcursor
  rw [hrun] at hruns
  cases hruns with
  | error herror =>
    obtain ⟨-, token, _, hmem, hfits, -⟩ := herror
    exact ⟨token, hmem, hfits⟩

/-- Where nothing follows the end of the stream, the error fits a token of the list. -/
theorem EndsOnce.exists_fits (hends : EndsOnce tokens)
    (h : parse tokens file limit = .error error) : ∃ token ∈ tokens, error.cause.Fits token := by
  obtain ⟨-, -, c, hrun, -⟩ := hends.exists_failsAt h
  have hfits := exists_fits_of_program hrun
  rwa [hends.visible_ofTokens] at hfits

theorem Numeral.not_fits_invalidNumber {token : Token} {text : String}
    (h : token.kind = .number → Numeral token.value.toList) :
    ¬ (Cause.invalidNumber text).Fits token := by
  rintro ⟨hnumber, rfl, hread⟩
  obtain ⟨value, hvalue⟩ := (h hnumber).exists_read?
  rw [hread] at hvalue
  cases hvalue

/-- No source is refused for a number that cannot be read, or because its input should have ended.
The lines of a program are never left before the end, so nothing is missed by not looking for it. -/
theorem cause_of_parseSource (source file : String) (limit : Nat) :
    (∀ error, parseSource source file limit = .error error →
      (∀ text, error.cause ≠ .invalidNumber text) ∧
      (∀ text kind, error.cause ≠ .unexpected text kind "end of input") ∧
      error.cause ≠ .unexpectedEnd "end of input") ∧
    ∀ (c c' : Cursor) (body : List Node),
      Grammar.program limit c = .ok body c' → c'.atEnd = true := by
  refine ⟨fun error h => ?_, fun c c' body hrun => atEnd_of_program hrun⟩
  unfold parseSource at h
  cases htokenize : tokenize source file with
  | error refused =>
    rw [htokenize] at h
    cases h
    rcases cause_of_tokensOfLines htokenize with ⟨text, hcause⟩ | ⟨message, hcause⟩
    · rw [hcause]
      exact ⟨nofun, nofun, nofun⟩
    · rw [hcause]
      exact ⟨nofun, nofun, nofun⟩
  | ok tokens =>
    rw [htokenize] at h
    obtain ⟨token, hmem, hfits⟩ := (endsOnce_of_tokensOfLines htokenize).exists_fits h
    refine ⟨fun text hcause => ?_, fun text kind hcause => ?_, fun hcause => ?_⟩
    · rw [hcause] at hfits
      exact Numeral.not_fits_invalidNumber (numeral_of_tokensOfLines htokenize hmem) hfits
    · rw [hcause] at hfits
      exact hfits.2.2 rfl
    · rw [hcause] at hfits
      exact hfits.2 rfl

/-- A numeral where a name is declared. -/
theorem cause_of_parseSource_numeral :
    let source := "let 1 = 2"
    let error : SyntaxError := ⟨.unexpected "1" .number "let name", ⟨4, 1, 5, "f"⟩⟩
    parseSource source "f" 8 = .error error ∧ error.cause ≠ .unexpectedEnd "end of input" := by
  intro source error
  have h : parseSource source "f" 8 = .error error := by cbv
  exact ⟨h, ((cause_of_parseSource source "f" 8).1 error h).2.2⟩

end Offside
