import Offside.Proofs.Grammar.FirstError
import Offside.Proofs.Grammar.Threshold

/-! # The offending token

An error is raised at a token that no program has there, behind the tokens before it. The one
exception is an opening parenthesis. Whether it begins a parameter is seen from the token behind it,
and where that one is at fault the parenthesis is refused, although another token behind it would
have been accepted.
-/

namespace Offside

open Parse

section Levels

variable {c c' : Cursor} {limit limit' : Nat} (hle : limit ≤ limit')
include hle

/-- From twice the tokens on, more levels make no difference to a run. -/
theorem program_eq_of_le (hdeep : 2 * c.ahead.length + 2 ≤ limit) :
    Grammar.program limit c = Grammar.program limit' c := by
  rcases agrees_program hle c with ⟨hreason, -⟩ | ⟨hsame, -⟩
  · omega
  · exact hsame

theorem program_eq_ok_of_le {body : List Node} (hrun : Grammar.program limit c = .ok body c') :
    Grammar.program limit' c = .ok body c' := by
  rcases agrees_program hle c with ⟨-, position, c'', hlack⟩ | ⟨hsame, -⟩
  · rw [hrun] at hlack
    cases hlack
  · rw [← hsame, hrun]

end Levels

section Visible

theorem take_past (text : List Token) (token : Token) (rest : List Token) :
    (text ++ token :: rest).take (text.length + 1) = text ++ [token] := by
  rw [List.append_cons, List.take_left' (by simp)]

theorem drop_past (text : List Token) (token : Token) (rest : List Token) :
    (text ++ token :: rest).drop (text.length + 1) = rest := by
  rw [List.append_cons, List.drop_left' (by simp)]

variable {text : List Token} {token : Token} (htext : ∀ token ∈ text, token.kind ≠ .eof)
include htext

/-- Of what stands behind a token, at least the kind of the first one is seen. -/
theorem exists_visible_ofTokens (token : Token) (more : List Token) (file : String) :
    ∃ rest, (Cursor.ofTokens (text ++ token :: more) file).visible = text ++ token :: rest ∧
      (token.kind ≠ .eof → nextKind rest = nextKind more) := by
  by_cases heof : token.kind = .eof
  · exact ⟨[], visible_ofTokens_of_eof htext heof more file, fun hne => absurd heof hne⟩
  · let cursor := Cursor.ofTokens (text ++ token :: more) file
    refine ⟨more.takeWhile (·.kind != .eof) ++ [cursor.stop], ?_, fun _ => ?_⟩
    · rw [Cursor.visible, ahead_ofTokens, takeWhile_content htext,
        List.takeWhile_cons_of_pos (by simpa using heof), List.append_assoc, List.cons_append]
    · rcases more with _ | ⟨first, rest⟩
      · exact cursor.kind_stop
      · by_cases hfirst : first.kind = .eof
        · simp [hfirst, cursor.kind_stop]
        · simp [hfirst]

/-- Token lists that begin alike, unless they open a parenthesis there and differ behind it. -/
theorem resembles_ofTokens {more more' : List Token}
    (hopened : token.kind = .openParen → (nextKind more').opened = (nextKind more).opened)
    (file file' : String) :
    (Cursor.ofTokens (text ++ token :: more) file).Resembles Eq (text.length + 1)
      (Cursor.ofTokens (text ++ token :: more') file') := by
  obtain ⟨rest, hvisible, hrest⟩ := exists_visible_ofTokens htext token more file
  obtain ⟨rest', hvisible', hrest'⟩ := exists_visible_ofTokens htext token more' file'
  refine ⟨⟨by rw [passed_ofTokens, passed_ofTokens],
    by rw [Cursor.previous?, Cursor.previous?, passed_ofTokens, passed_ofTokens], ?_⟩, ?_⟩
  · rw [hvisible, hvisible', take_past, take_past]
    exact List.forall₂_same.2 fun _ _ => ⟨rfl, rfl, rfl⟩
  · rw [hvisible, hvisible', take_past, drop_past, drop_past, List.getLast?_append]
    intro hlast
    have hkind : token.kind = .openParen := by simpa using hlast
    have hne : token.kind ≠ .eof := by simp [hkind]
    rw [hrest hne, hrest' hne, hopened hkind]

end Visible

variable {tokens more : List Token} {file file' : String} {limit limit' index : Nat}
  {error : SyntaxError} {program : Program}

/-- A cursor stands at one of the tokens of a list that ends. -/
theorem EndsOnce.exists_text {c : Cursor} (hends : EndsOnce tokens)
    (h : (Cursor.ofTokens tokens file).Reaches c) :
    ∃ text, (Cursor.ofTokens tokens file).ahead = text ++ c.ahead ∧ tokens = text ++ c.visible ∧
      c.passed.length = text.length := by
  obtain ⟨text, hahead, hpassed, hstop, -⟩ := h
  refine ⟨text, hahead, ?_, ?_⟩
  · rw [Cursor.visible, ← List.append_assoc, ← hahead, hstop]
    exact (hends.visible_ofTokens file).symm
  · rw [hpassed, passed_ofTokens, List.append_nil, List.length_reverse]

/-- An error is raised at a token that no program has behind the tokens before it, unless it is an
opening parenthesis and what stands behind that is of another sort. -/
theorem opened_ne_of_parse (hends : EndsOnce tokens) (hlimit : 2 * tokenCount tokens + 2 ≤ limit)
    (h : FailsAt tokens file limit error index)
    (haccepted : parse (tokens.take (index + 1) ++ more) file' limit' = .ok program) :
    ∃ paren, tokens[index]? = some paren ∧ paren.kind = .openParen ∧
      (nextKind more).opened ≠ (nextKind (tokens.drop (index + 1))).opened := by
  obtain ⟨-, c, hrun, rfl⟩ := h
  -- Under a limit that neither list exceeds, one run fails and the other one does not.
  have hlocal := local_program (Q := Eq) (max limit limit') (Cursor.ofTokens tokens file)
  have hcount := length_ahead_le_tokenCount tokens file
  rw [program_eq_of_le (Nat.le_max_left limit limit') (by omega)] at hrun
  obtain ⟨c', hrun'⟩ := (program_eq_ok_iff limit' file').2 (parse_eq_ok_iff.1 haccepted).2
  replace hrun' := program_eq_ok_of_le (Nat.le_max_right limit limit') hrun'
  have hreaches := hlocal.reaches
  rw [hrun] at hreaches
  obtain ⟨text, hahead, htokens, hlength⟩ := hends.exists_text (c := c) hreaches
  have htext : ∀ token ∈ text, token.kind ≠ .eof := fun token hmem =>
    Cursor.kind_ne_eof_of_mem_ahead _ token (hahead ▸ List.mem_append_left _ hmem)
  rw [c.visible_eq_cons] at htokens
  have hindex : tokens[c.passed.length]? = some c.current := by
    rw [htokens, hlength]
    simp
  have htake : tokens.take (c.passed.length + 1) = text ++ [c.current] := by
    rw [htokens, hlength, take_past]
  have hdrop : tokens.drop (c.passed.length + 1) = c.visible.tail := by
    rw [htokens, hlength, drop_past]
  rw [htake, List.append_assoc, List.singleton_append] at hrun'
  have hsort : ¬ (c.current.kind = .openParen →
      (nextKind more).opened = (nextKind c.visible.tail).opened) := by
    intro hopened
    have hresembles := resembles_ofTokens htext hopened file file'
    rw [← htokens] at hresembles
    have hview : (Cursor.ofTokens tokens file).ahead.length - c.ahead.length + 1 =
        text.length + 1 := by
      rw [hahead, List.length_append, Nat.add_sub_cancel]
    have halike := hlocal.resembling (Nat.le_refl 1) (by rw [hrun]; exact hview ▸ hresembles)
    rw [hrun, hrun'] at halike
    exact halike
  rw [hindex, hdrop]
  exact ⟨c.current, rfl, Classical.not_imp.1 hsort⟩

/-- A function up to its first parenthesis. -/
def openedFunction : List Token :=
  [⟨.kwLet, "let", default⟩, ⟨.identifier, "f", default⟩, ⟨.openParen, "(", default⟩]

theorem failsAt_openedFunction :
    FailsAt (openedFunction ++ [⟨.number, "1", default⟩, .eof default]) "" 10
      ⟨.unexpected "(" .openParen "parameter", default⟩ 2 :=
  ⟨rfl, _, rfl, rfl⟩

theorem parse_openedFunction :
    parse (openedFunction ++ [⟨.closeParen, ")", default⟩, ⟨.assignment, "=", default⟩,
      ⟨.identifier, "x", default⟩, .eof default]) "" 10 =
        .ok ⟨[.function (some "f") [] none [.identifier "x"]]⟩ :=
  rfl

theorem endsOnce_openedFunction :
    EndsOnce (openedFunction ++ [⟨.number, "1", default⟩, .eof default]) :=
  ⟨openedFunction ++ [⟨.number, "1", default⟩], _, rfl, by decide, rfl⟩

/-- A number is refused as a parameter at the parenthesis before it, where an empty pair could have
stood. -/
theorem opened_ne_of_parse_function :
    let tokens : List Token := openedFunction ++ [⟨.number, "1", default⟩, .eof default]
    let more : List Token := [⟨.closeParen, ")", default⟩, ⟨.assignment, "=", default⟩,
      ⟨.identifier, "x", default⟩, .eof default]
    ∃ paren, tokens[2]? = some paren ∧ paren.kind = .openParen ∧
      (nextKind more).opened ≠ (nextKind (tokens.drop 3)).opened := by
  intro tokens more
  exact opened_ne_of_parse endsOnce_openedFunction (by decide) failsAt_openedFunction
    parse_openedFunction

/-- So a program may have the token that is blamed. -/
theorem not_unaccepted_of_failsAt :
    ¬ ∀ (tokens : List Token) (file : String) (limit : Nat) (error : SyntaxError) (index : Nat)
      (value : String) (kind : Kind) (expected : String),
      EndsOnce tokens → 2 * tokenCount tokens + 2 ≤ limit →
      FailsAt tokens file limit error index → error.cause = .unexpected value kind expected →
      ∀ (tokens' : List Token) (file' : String) (limit' : Nat) (program : Program),
        tokens.take (index + 1) <+: tokens' → parse tokens' file' limit' ≠ .ok program := by
  intro h
  exact h _ _ _ _ _ _ _ _ endsOnce_openedFunction (by decide) failsAt_openedFunction rfl _ _ _ _
    (List.prefix_append openedFunction _) parse_openedFunction

end Offside
