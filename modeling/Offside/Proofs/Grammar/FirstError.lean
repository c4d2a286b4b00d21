import Offside.Proofs.Grammar.LookaheadProductions

/-! # The first error

A token list that is refused is refused at the token where the cursor is left, and nothing beyond
the token after it has a say: a list that begins with the same tokens is refused with the same error
at the same place.
-/

namespace Offside

/-- The last token ends the stream, and no other does. -/
def EndsOnce (tokens : List Token) : Prop :=
  ∃ content stop, tokens = content ++ [stop] ∧ (∀ token ∈ content, token.kind ≠ .eof) ∧
    stop.kind = .eof

/-- Parsing fails with an error, and so many tokens are passed by then. -/
def FailsAt (tokens : List Token) (file : String) (limit : Nat) (error : SyntaxError)
    (index : Nat) : Prop :=
  parse tokens file limit = .error error ∧
    ∃ c, Grammar.program limit (Cursor.ofTokens tokens file) = .error error c ∧
      c.passed.length = index

variable {tokens tokens' : List Token} {file : String} {limit index : Nat} {error : SyntaxError}

namespace EndsOnce

theorem trailing?_eq (h : EndsOnce tokens) : trailing? tokens = none := by
  obtain ⟨content, stop, rfl, hcontent, hstop⟩ := h
  rw [trailing?, Parse.dropWhile_content hcontent]
  simp [hstop]

theorem visible_ofTokens (h : EndsOnce tokens) (file : String) :
    (Cursor.ofTokens tokens file).visible = tokens := by
  obtain ⟨content, stop, rfl, hcontent, hstop⟩ := h
  exact Parse.visible_ofTokens_of_eof hcontent hstop [] file

/-- Where nothing follows the end of the stream, only the lines of the program can be refused. -/
theorem exists_failsAt (h : EndsOnce tokens) (hparse : parse tokens file limit = .error error) :
    ∃ index, FailsAt tokens file limit error index := by
  have hrun := hparse
  unfold parse at hrun
  rw [h.trailing?_eq] at hrun
  cases hprogram : Grammar.program limit (Cursor.ofTokens tokens file) with
  | ok body c => simp [EStateM.run, hprogram] at hrun
  | error error' c =>
    obtain rfl : error' = error := by simpa [EStateM.run, hprogram] using hrun
    exact ⟨_, hparse, c, hprogram, rfl⟩

/-- No such list begins another one. -/
theorem eq_of_prefix (h : EndsOnce tokens) (h' : EndsOnce tokens') (hagree : tokens <+: tokens') :
    tokens = tokens' := by
  obtain ⟨content, stop, rfl, -, hstop⟩ := h
  obtain ⟨content', stop', rfl, hcontent', -⟩ := h'
  obtain ⟨rest, hrest⟩ := hagree
  rcases List.eq_nil_or_concat' rest with rfl | ⟨rest, last, rfl⟩
  · rwa [List.append_nil] at hrest
  · rw [← List.append_assoc] at hrest
    have hmem : stop ∈ content' := by
      rw [← (List.append_inj' hrest rfl).1]
      simp
    exact absurd hstop (hcontent' stop hmem)

/-- Two lists that agree on the first tokens, or on all of the first list. -/
theorem take_eq (h : EndsOnce tokens) (h' : EndsOnce tokens') {n : Nat}
    (hagree : tokens.take n <+: tokens') : tokens.take n = tokens'.take n := by
  rcases Nat.lt_or_ge tokens.length n with hlt | hge
  · rw [List.take_of_length_le (Nat.le_of_lt hlt)] at hagree
    rw [h.eq_of_prefix h' hagree]
  · have := List.prefix_iff_eq_take.1 hagree
    rwa [List.length_take, Nat.min_eq_left hge] at this

end EndsOnce

/-- The first error is settled by the tokens up to the one after the current token. -/
theorem failsAt_of_prefix (hends : EndsOnce tokens) (hends' : EndsOnce tokens')
    (h : FailsAt tokens file limit error index) (hagree : tokens.take (index + 2) <+: tokens') :
    FailsAt tokens' file limit error index := by
  obtain ⟨-, c, hrun, hindex⟩ := h
  have hlocal := local_program (Q := Eq) limit (Cursor.ofTokens tokens file)
  have hpassed : (Cursor.ofTokens tokens file).ahead.length - c.ahead.length = index := by
    obtain ⟨text, hahead, hpassed, -⟩ := hrun ▸ hlocal.reaches
    rw [Parse.passed_ofTokens] at hpassed
    simp only [Parse.ending] at hahead hpassed
    rw [hahead, ← hindex, hpassed]
    simp
  have halike : (Cursor.ofTokens tokens file).Alike Eq (index + 2)
      (Cursor.ofTokens tokens' file) := by
    refine ⟨by rw [Parse.passed_ofTokens, Parse.passed_ofTokens],
      by rw [Cursor.previous?, Cursor.previous?, Parse.passed_ofTokens, Parse.passed_ofTokens], ?_⟩
    rw [hends.visible_ofTokens, hends'.visible_ofTokens, hends.take_eq hends' hagree]
    exact List.forall₂_same.2 fun _ _ => ⟨rfl, rfl, rfl⟩
  have hsame := hlocal.alike (Nat.le_refl 2) (by rw [hrun]; exact hpassed ▸ halike)
  rw [hrun] at hsame
  cases hrun' : Grammar.program limit (Cursor.ofTokens tokens' file) with
  | ok body c' => rw [hrun'] at hsame; exact hsame.elim
  | error error' c' =>
    rw [hrun'] at hsame
    obtain ⟨⟨hcause, hposition⟩, hcursor⟩ := hsame
    obtain rfl : error = error' := by
      cases error
      cases error'
      simp_all
    refine ⟨?_, c', hrun', hcursor.length_passed.trans hindex⟩
    unfold parse
    rw [hends'.trailing?_eq]
    simp only [EStateM.run, hrun']

/-- An argument that begins with a comma is refused in the same way whether its parentheses are
closed or not. -/
theorem failsAt_of_prefix_argument :
    let call : List Token := [⟨.identifier, "f", default⟩, ⟨.openParen, "(", default⟩,
      ⟨.comma, ",", default⟩, ⟨.identifier, "x", default⟩]
    let error : SyntaxError := ⟨.unexpected "," .comma "expression", default⟩
    FailsAt (call ++ [.eof default]) "" 8 error 2 ∧
      FailsAt (call ++ [⟨.closeParen, ")", default⟩, .eof default]) "" 8 error 2 := by
  intro call error
  have hfails : FailsAt (call ++ [.eof default]) "" 8 error 2 := ⟨rfl, _, rfl, rfl⟩
  have hends : EndsOnce (call ++ [.eof default]) := ⟨call, _, rfl, by decide, rfl⟩
  have hends' : EndsOnce (call ++ [⟨.closeParen, ")", default⟩, .eof default]) :=
    ⟨call ++ [⟨.closeParen, ")", default⟩], _, rfl, by decide, rfl⟩
  exact ⟨hfails, failsAt_of_prefix hends hends' hfails
    ⟨[⟨.closeParen, ")", default⟩, .eof default], rfl⟩⟩

end Offside
