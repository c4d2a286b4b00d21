import Offside.Proofs.Grammar.FirstError
import Offside.Proofs.Lexeme.Numerals

/-! # Ends of streams

The end of a source is the last token of its stream and the only one of its kind, and every number
token has a numeral for its text.
-/

namespace Offside

variable {file : String} {widths : List Nat} {last : Position} {lines : List Line}
  {tokens content following : List Token} {error : SyntaxError}

theorem Kind.ne_eof_of_isContent {kind : Kind} (h : kind.isContent = true) : kind ≠ .eof := by
  rintro rfl
  cases h

theorem ne_eof_of_mem_marks {marks : List Layout.Mark} {position : Position} :
    ∀ token ∈ marks.map (·.token position), token.kind ≠ .eof := by
  intro token hmem
  obtain ⟨mark, -, rfl⟩ := List.mem_map.1 hmem
  cases mark <;> exact nofun

theorem EndsOnce.append (hcontent : ∀ token ∈ content, token.kind ≠ .eof)
    (h : EndsOnce following) : EndsOnce (content ++ following) := by
  obtain ⟨more, stop, rfl, hmore, hstop⟩ := h
  exact ⟨content ++ more, stop, (List.append_assoc ..).symm,
    List.forall_mem_append.2 ⟨hcontent, hmore⟩, hstop⟩

theorem endsOnce_of_tokensOfLines (h : tokensOfLines file widths last lines = .ok tokens) :
    EndsOnce tokens := by
  induction lines generalizing widths tokens with
  | nil =>
    cases h
    exact .append ne_eof_of_mem_marks ⟨[], .eof last, rfl, List.forall_mem_nil _, rfl⟩
  | cons line lines ih =>
    rcases tokensOfLines_cons_eq_ok h with
      ⟨-, hrest⟩ | ⟨-, marks, opened, content, inside, following, -, hcontent, hrest, rfl⟩
    · exact ih hrest
    · refine .append ne_eof_of_mem_marks (.append (fun token hmem => ?_) (ih hrest))
      exact Kind.ne_eof_of_isContent (Line.isContent_of_tokens hcontent token hmem)

theorem numeral_of_tokensOfLines (h : tokensOfLines file widths last lines = .ok tokens)
    {token : Token} (hmem : token ∈ tokens) (hnumber : token.kind = .number) :
    Numeral token.value.toList := by
  rcases origin_of_mem h hmem with ⟨hkind, -⟩ | ⟨line, -, content, hcontent, hmem⟩
  · rw [hnumber] at hkind
    cases hkind
  · exact Line.numeral_of_tokens hcontent hmem hnumber

/-- A source without tokens has a character that starts no lexeme, or a line that fits no block. -/
theorem cause_of_tokensOfLines (h : tokensOfLines file widths last lines = .error error) :
    (∃ text, error.cause = .unrecognised text) ∨
      ∃ message, error.cause = .malformedLayout message := by
  obtain ⟨line, -, -, rfl | hcontent⟩ := error_of_tokensOfLines h
  · exact .inr ⟨_, rfl⟩
  · exact .inl (Line.cause_of_tokens hcontent)

end Offside
