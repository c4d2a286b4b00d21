import Mathlib
import Offside.Proofs.Lexeme.Munch
import Offside.Proofs.Lexeme.OneLine
import Offside.Proofs.Token.Literals

/-! # Tokens alone

The text that a token covers, tokenized alone, gives the token again and the end of the source. The
piece of the token is the longest match where it stands, so it is a match where nothing follows.
-/

namespace Offside

open Pattern (first?)

variable {file : String} {line : Line} {token : Token}

/-- What a token covers is tokenized to the token and the end of the source. -/
def Token.Relexes (source : List Char) (token : Token) : Prop :=
  ∃ text, Excerpt source token.start token.stop text ∧
    ∀ file, ∃ relexed, tokenize (String.ofList text) file = .ok relexed ∧
      relexed.map letter = [token.letter, (.eof, "EOF")]

theorem Lexeme.relexes_of_token {source : List Char} {lexeme : Lexeme}
    (hlength : byteLength source < UInt32.size) (hline : line ∈ Line.ofSource source)
    (hmem : lexeme ∈ cut 0 line.text) (h : lexeme.token line file = .ok token) :
    token.Relexes source := by
  obtain ⟨hmeaning, hspan⟩ := of_token h
  obtain ⟨pattern, hpattern, hbreak, -⟩ := pattern_of_meaning? hmeaning
  obtain ⟨before, after, -, -, -, hfirst⟩ := exists_of_mem_cut hmem
  have halone : first? (lexeme.text ++ []) = some (pattern, lexeme.text.length) := by
    rw [List.append_nil]
    exact Pattern.first?_alone (hfirst pattern hpattern) (Nat.le_refl _)
  have hfeed := lineFeed_not_mem_text hmem hpattern hbreak
  have hexcerpt := (Line.excerpt_of_mem hline).trans (excerpt_of_mem_cut hmem)
  refine ⟨lexeme.text, ?_, fun other => ?_⟩
  · have hle := hexcerpt.stop_le
    have hstop := hexcerpt.stop_eq
    rw [Token.start, Token.stop, hspan, Line.toNat_offset_position (by omega),
      Line.toNat_offset_position (by omega)]
    exact hexcerpt
  · have hpiece : meaning? ⟨some pattern, lexeme.text, 0⟩ =
        some (token.kind, token.value.toList) := by
      rw [← hmeaning, meaning?, meaning?, hpattern]
    obtain ⟨last, hrelexed⟩ := tokenize_only hfeed (.inl rfl) halone hpiece other
    rw [List.append_nil] at hrelexed
    refine ⟨_, hrelexed, ?_⟩
    simp [Token.letter, Token.eof]

theorem relexes_of_tokenize {source file : String} {tokens : List Token}
    (hlength : byteLength source.toList < UInt32.size) (h : tokenize source file = .ok tokens)
    (hmem : token ∈ tokens) (hcontent : token.kind.isContent = true) :
    token.Relexes source.toList := by
  rcases origin_of_mem h hmem with ⟨hempty, -⟩ | ⟨line, hline, content, htokens, htoken⟩
  · rw [hempty] at hcontent
    cases hcontent
  · obtain ⟨lexeme, -, hlexeme, hpiece⟩ :=
      exists_of_forall₂ (Line.forall₂_tokens htokens).flip htoken
    exact Lexeme.relexes_of_token hlength hline (line.lexemes_sublist.mem hlexeme) hpiece

/-- The first pattern of the table that matches a text takes as much of it as any. And a token
covers a text that is tokenized to it, in a source with offsets that 32 bits hold. A choice between
symbols is written in the table as one pattern for each of them. -/
theorem longest_and_relexed :
    (∀ text before pattern after, Pattern.table = before ++ pattern :: after →
      pattern.reach text ≠ 0 → (∀ other ∈ before, other.reach text = 0) →
      ∀ other ∈ Pattern.table, other.reach text ≤ pattern.reach text) ∧
    ∀ (source file : String) (tokens : List Token), byteLength source.toList < UInt32.size →
      tokenize source file = .ok tokens →
      ∀ token ∈ tokens, token.kind.isContent = true → token.Relexes source.toList :=
  ⟨fun _ _ _ _ => Pattern.reach_le_of_first,
    fun _ _ _ hlength h _ hmem hcontent => relexes_of_tokenize hlength h hmem hcontent⟩

/-- A comparison, which the sign of an assignment begins, behind a name. -/
theorem longest_and_relexed_compare :
    let text := ['=', '=', '1']
    let pattern := Pattern.symbol ['=', '='] .compare
    let token : Token := ⟨.compare, "==", ⟨⟨1, 1, 2, ""⟩, ⟨3, 1, 4, ""⟩⟩⟩
    let tokens : List Token :=
      [⟨.identifier, "a", ⟨⟨0, 1, 1, ""⟩, ⟨1, 1, 2, ""⟩⟩⟩, token,
       ⟨.number, "1", ⟨⟨3, 1, 4, ""⟩, ⟨4, 1, 5, ""⟩⟩⟩, .eof ⟨4, 1, 5, ""⟩]
    (Pattern.table = Pattern.table.take 14 ++ pattern :: Pattern.table.drop 15 ∧
      pattern.reach text ≠ 0 ∧ (∀ other ∈ Pattern.table.take 14, other.reach text = 0) ∧
      ∀ other ∈ Pattern.table, other.reach text ≤ pattern.reach text) ∧
    byteLength "a==1".toList < UInt32.size ∧ tokenize "a==1" "" = .ok tokens ∧ token ∈ tokens ∧
      token.kind.isContent = true ∧ token.Relexes "a==1".toList := by
  intro text pattern token tokens
  have htable : Pattern.table = Pattern.table.take 14 ++ pattern :: Pattern.table.drop 15 := rfl
  have hreach : pattern.reach text ≠ 0 := by decide
  have hbefore : ∀ other ∈ Pattern.table.take 14, other.reach text = 0 := by decide
  have hlength : byteLength "a==1".toList < UInt32.size := by decide
  have htokens : tokenize "a==1" "" = .ok tokens := by cbv
  have hmem : token ∈ tokens := .tail _ (.head _)
  exact ⟨⟨htable, hreach, hbefore, longest_and_relexed.1 _ _ _ _ htable hreach hbefore⟩, hlength,
    htokens, hmem, rfl, longest_and_relexed.2 _ _ _ hlength htokens _ hmem rfl⟩

/-- The token of a literal of 4294967296 bytes begins and ends at 0, and so covers a text without
tokens. -/
theorem not_relexes_literal :
    let letters := List.replicate 4294967294 'a'
    let token : Token := ⟨.string, String.ofList letters, ⟨.first "f", ⟨0, 1, 1, "f"⟩⟩⟩
    (∃ last, tokenize (String.ofList (Escape.quote letters)) "f" = .ok [token, .eof last]) ∧
      token.kind.isContent = true ∧ ¬ token.Relexes (Escape.quote letters) := by
  intro letters token
  have hwrites : Escape.Writes letters letters :=
    Escape.writes_replicate (by decide) (by decide) (by decide) _
  obtain ⟨last, htokens⟩ := tokenize_literal hwrites (.inl rfl) "f"
  rw [List.append_nil, Escape.byteLength_quote, byteLength_replicate] at htokens
  refine ⟨⟨last, htokens⟩, rfl, ?_⟩
  rintro ⟨text, hexcerpt, hrelexed⟩
  have hnil : text = [] := by
    by_contra hne
    have hpos := byteLength_pos hne
    have hstop : 0 + byteLength text = 0 := hexcerpt.stop_eq
    omega
  have hempty : tokenize (String.ofList []) "f" = .ok [.eof (.first "f")] := by cbv
  obtain ⟨relexed, htext, hletters⟩ := hrelexed "f"
  rw [hnil, hempty] at htext
  cases htext
  cases hletters

end Offside
