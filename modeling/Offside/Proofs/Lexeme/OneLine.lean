import Offside.Proofs.Lexeme.Extents
import Offside.Proofs.Lexeme.Matches

/-! # Pieces of one line

Only a line break takes a line feed. Any other pattern stops before it, so a piece that stands for
a token lies on one line.
-/

namespace Offside

theorem Escape.Body.lineFeed_not_mem {body : List Char} (h : Body body) : '\n' ∉ body := by
  induction h with
  | nil => exact List.not_mem_nil
  | escape single _ ih =>
    simp only [List.mem_cons, not_or]
    exact ⟨by decide, Ne.symm single, ih⟩
  | plain _ _ single _ ih =>
    rw [List.mem_cons, not_or]
    exact ⟨Ne.symm single, ih⟩

namespace Pattern

theorem of_mem_take_reachWhile {test : Char → Bool} {text : List Char} {c : Char}
    (h : c ∈ text.take (reachWhile test text)) : test c = true := by
  have htake := List.prefix_iff_eq_take.1 (List.takeWhile_prefix (l := text) test)
  rw [reachWhile, ← htake] at h
  exact List.mem_takeWhile_imp h

theorem lineFeed_not_mem_take_word (text : List Char) : '\n' ∉ text.take (reachWord text) := by
  cases text with
  | nil => exact List.not_mem_nil
  | cons c rest =>
    rw [reachWord]
    split
    · next hc =>
      rw [Nat.add_comm, List.take_succ_cons, List.mem_cons, not_or]
      refine ⟨?_, fun hmem => absurd (of_mem_take_reachWhile hmem) (by decide)⟩
      rintro rfl
      cases hc
    · exact List.not_mem_nil

theorem lineFeed_not_mem_take_numeral (text : List Char) :
    '\n' ∉ text.take (reachNumeral text) := by
  have hdigits (text : List Char) : '\n' ∉ text.take (reachWhile Char.isDigit text) :=
    fun hmem => absurd (of_mem_take_reachWhile hmem) (by decide)
  unfold reachNumeral
  dsimp only
  split
  · exact List.not_mem_nil
  · split
    · next rest hrest =>
      split
      · exact hdigits text
      · rw [Nat.add_assoc, List.take_add, hrest, List.mem_append, not_or, Nat.add_comm 1,
          List.take_succ_cons, List.mem_cons, not_or]
        exact ⟨hdigits text, by decide, hdigits rest⟩
    · exact hdigits text

theorem lineFeed_not_mem_take {pattern : Pattern} (hmem : pattern ∈ table)
    (hbreak : pattern ≠ lineBreak) (text : List Char) :
    '\n' ∉ text.take (pattern.reach text) := by
  by_cases hnone : pattern.reach text = 0
  · rw [hnone]
    exact List.not_mem_nil
  obtain ⟨matched, rest, rfl, hlength, hextent⟩ := pattern.exists_extent hnone
  cases pattern with
  | lineBreak => exact absurd rfl hbreak
  | blanks => exact fun hfeed => absurd (of_mem_take_reachWhile hfeed) (by decide)
  | comment =>
    obtain ⟨said, rfl, hsaid, -⟩ := hextent
    rw [← hlength, List.take_left]
    simp [hsaid]
  | word => exact lineFeed_not_mem_take_word _
  | numeral => exact lineFeed_not_mem_take_numeral _
  | quoted =>
    obtain ⟨body, hbody, rfl⟩ := hextent
    rw [← hlength, List.take_left]
    simp [hbody.lineFeed_not_mem]
  | symbol written kind =>
    rw [reach]
    split
    · next hprefix =>
      rw [← List.prefix_iff_eq_take.1 (List.isPrefixOf_iff_prefix.1 hprefix)]
      exact lineFeed_not_mem_symbol hmem
    · exact List.not_mem_nil

end Pattern

namespace Lexeme

/-- A piece is as much of a text as its pattern reaches. -/
theorem text_eq_take {offset : Nat} {source : List Char} {lexeme : Lexeme} {pattern : Pattern}
    (h : lexeme ∈ cut offset source) (hpattern : lexeme.pattern? = some pattern) :
    pattern ∈ Pattern.table ∧ ∃ text, pattern.reach text ≠ 0 ∧
      lexeme.text = text.take (pattern.reach text) := by
  obtain ⟨before, after, -, -, -, hfirst⟩ := exists_of_mem_cut h
  obtain ⟨hlisted, hreach, hpos⟩ := Pattern.of_first? (hfirst pattern hpattern)
  exact ⟨hlisted, lexeme.text ++ after, by omega, by rw [hreach, List.take_left]⟩

theorem lineFeed_not_mem_text {offset : Nat} {source : List Char} {lexeme : Lexeme}
    (h : lexeme ∈ cut offset source) {pattern : Pattern} (hpattern : lexeme.pattern? = some pattern)
    (hbreak : pattern ≠ .lineBreak) : '\n' ∉ lexeme.text := by
  obtain ⟨hlisted, text, -, htext⟩ := text_eq_take h hpattern
  rw [htext]
  exact Pattern.lineFeed_not_mem_take hlisted hbreak text

end Lexeme

end Offside
