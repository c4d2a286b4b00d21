import Offside.Proofs.Token.Origins

/-! # Content lines

The lines of a source on which something is left without the line break and the indentation. They
are the lines that are not blank, and each of them has tokens where a carriage return stands nowhere
but in a line break.
-/

namespace Offside

/-- Whether every carriage return stands directly before a line feed. -/
def breaksLines : List Char → Bool
  | [] => true
  | c :: rest => (c != '\r' || rest.head? == some '\n') && breaksLines rest

namespace Line

/-- A text without the line break at its end. A carriage return before the line feed belongs to
it. -/
def withoutBreak : List Char → List Char
  | [] | ['\n'] | ['\r', '\n'] => []
  | c :: rest => c :: withoutBreak rest

/-- Whether anything is left of a line without its break and its leading spaces and tabs. -/
def hasContent (line : Line) : Bool :=
  !((withoutBreak line.text).dropWhile isIndentation).isEmpty

/-- The content lines of a source. -/
def contentLines (source : List Char) : List Line :=
  (ofSource source).filter (·.hasContent)

/-- Blank lines are the lines without content. -/
theorem isEmpty_dropWhile_withoutBreak {text : List Char} (h : '\n' ∉ text.dropLast) :
    ((withoutBreak text).dropWhile isIndentation).isEmpty =
      ((text.dropWhile isIndentation).isEmpty ||
        Pattern.reachLineBreak (text.dropWhile isIndentation) != 0) := by
  fun_induction withoutBreak text with
  | case1 | case2 | case3 => decide
  | case4 c rest hfeed hreturn ih =>
    by_cases hc : isIndentation c = true
    · rw [List.dropWhile_cons_of_pos hc, List.dropWhile_cons_of_pos hc]
      refine ih fun hmem => h ?_
      rw [List.dropLast_cons_of_ne_nil (List.ne_nil_of_mem (List.dropLast_subset _ hmem))]
      exact List.mem_cons_of_mem c hmem
    · have hreach : Pattern.reachLineBreak (c :: rest) = 0 := by
        unfold Pattern.reachLineBreak
        split
        · next heq =>
          obtain ⟨rfl, rfl⟩ := List.cons_eq_cons.1 heq
          exact (hfeed rfl (eq_nil_of_lineFeed h (List.nil_append _).symm)).elim
        · next more heq =>
          obtain ⟨rfl, rfl⟩ := List.cons_eq_cons.1 heq
          obtain rfl : more = [] := eq_nil_of_lineFeed h (List.singleton_append ..).symm
          exact (hreturn rfl rfl).elim
        · rfl
      rw [List.dropWhile_cons_of_neg hc, List.dropWhile_cons_of_neg hc, hreach]
      rfl

variable {source : List Char} {line : Line}

theorem hasContent_eq (h : line ∈ ofSource source) : line.hasContent = !line.isBlank := by
  rw [hasContent, isEmpty_dropWhile_withoutBreak (lineFeed_not_mem_dropLast h)]
  rfl

theorem head?_of_breaksLines {before rest : List Char}
    (h : breaksLines (before ++ '\r' :: rest) = true) : rest.head? = some '\n' := by
  induction before with
  | nil =>
    simp only [List.nil_append, breaksLines, Bool.and_eq_true] at h
    simpa using h.1
  | cons c before ih =>
    simp only [List.cons_append, breaksLines, Bool.and_eq_true] at h
    exact ih h.2

/-- The line feed behind a carriage return is on the same line. -/
theorem head?_of_return (hsource : breaksLines source = true) (hmem : line ∈ ofSource source)
    {before more : List Char} (htext : line.text = before ++ '\r' :: more) :
    more.head? = some '\n' := by
  obtain ⟨earlier, later, hlines, hstart, hstop⟩ := excerpt_of_mem hmem
  have hfeed : (more ++ later).head? = some '\n' := by
    rw [hlines, htext, List.append_assoc, List.cons_append, ← List.append_assoc] at hsource
    exact head?_of_breaksLines hsource
  cases more with
  | cons c rest => exact hfeed
  | nil =>
    exfalso
    rcases ends_of_mem hmem with hend | ⟨body, hbody⟩
    · have hlength := congrArg byteLength hlines
      simp only [byteLength_append] at hlength
      have hlater : later ≠ [] := by
        rintro rfl
        cases hfeed
      have hpos := byteLength_pos hlater
      omega
    · have hlast := congrArg List.getLast? (htext.symm.trans hbody)
      simp at hlast

/-- A line with content has a character that is no blank. -/
theorem exists_not_isGap (hsource : breaksLines source = true) (hmem : line ∈ ofSource source)
    (hcontent : line.hasContent = true) : ∃ c ∈ line.text, ¬ IsGap c := by
  rw [hasContent_eq hmem, Bool.not_eq_true', isBlank, Bool.or_eq_false_iff,
    bne_eq_false_iff_eq] at hcontent
  obtain ⟨hne, hbreak⟩ := hcontent
  have htext : line.text.takeWhile isIndentation ++ line.text.dropWhile isIndentation =
      line.text := List.takeWhile_append_dropWhile
  have hhead := List.head?_dropWhile_not isIndentation line.text
  cases hrest : line.text.dropWhile isIndentation with
  | nil => simp [hrest] at hne
  | cons c more =>
    rw [hrest] at htext hbreak hhead
    refine ⟨c, htext ▸ List.mem_append_right _ List.mem_cons_self, fun hgap => ?_⟩
    simp only [isIndentation, List.head?_cons, Bool.or_eq_false_iff, beq_eq_false_iff_ne] at hhead
    simp only [IsGap, List.mem_cons, List.not_mem_nil, or_false, hhead.1, hhead.2,
      false_or] at hgap
    rcases hgap with rfl | rfl
    · have hfeed : more.head? = some '\n' := head?_of_return hsource hmem htext.symm
      obtain ⟨rest, rfl⟩ := List.head?_eq_some_iff.1 hfeed
      cases hbreak
    · cases hbreak

/-- A line with a character that is no blank has a token, if its pieces are known. -/
theorem tokens_ne_nil_of_not_isGap (hink : ∃ c ∈ line.text, ¬ IsGap c) {file : String}
    {content : List Token} (h : line.tokens file = .ok content) : content ≠ [] := by
  obtain ⟨c, hc, hgap⟩ := hink
  rintro rfl
  have hnone : line.lexemes = [] := List.forall₂_nil_right_iff.1 (forall₂_tokens h)
  rw [← Lexeme.flatten_cut 0 line.text] at hc
  obtain ⟨text, htext, hc⟩ := List.mem_flatten.1 hc
  obtain ⟨lexeme, hlexeme, rfl⟩ := List.mem_map.1 htext
  obtain ⟨before, after, -, -, htaken⟩ := Lexeme.taken_of_mem_cut hlexeme
  rcases not_mem_lexemes hlexeme (by simp [hnone]) with hspacing | ⟨-, first, hfirst, -⟩
  · exact hgap (htaken.isGap hspacing c hc)
  · rw [hnone] at hfirst
    cases hfirst

/-- A line with content has a token, if its pieces are known. -/
theorem tokens_ne_nil (hsource : breaksLines source = true) (hmem : line ∈ contentLines source)
    {file : String} {content : List Token} (h : line.tokens file = .ok content) : content ≠ [] := by
  obtain ⟨hmem, hcontent⟩ := List.mem_filter.1 hmem
  exact tokens_ne_nil_of_not_isGap (exists_not_isGap hsource hmem hcontent) h

/-- A line that is not blank and has tokens unless one of its characters is refused. -/
structure Solid (file : String) (line : Line) : Prop where
  not_blank : line.isBlank = false
  nonempty : ∀ {content}, line.tokens file = .ok content → content ≠ []

theorem solid_of_mem (hsource : breaksLines source = true) (file : String) :
    ∀ line ∈ contentLines source, Solid file line := by
  intro line hmem
  obtain ⟨hline, hcontent⟩ := List.mem_filter.1 hmem
  rw [hasContent_eq hline, Bool.not_eq_true'] at hcontent
  exact ⟨hcontent, tokens_ne_nil hsource hmem⟩

end Line

theorem tokensOfLines_filter {file : String} {widths : List Nat} {last : Position}
    (lines : List Line) :
    tokensOfLines file widths last (lines.filter (!·.isBlank)) =
      tokensOfLines file widths last lines := by
  induction lines generalizing widths with
  | nil => rfl
  | cons line lines ih =>
    by_cases hblank : line.isBlank = true
    · rw [List.filter_cons_of_neg (by simp [hblank]), ih, tokensOfLines, if_pos hblank]
    · rw [List.filter_cons_of_pos (by simpa using hblank), tokensOfLines, if_neg hblank,
        tokensOfLines, if_neg hblank]
      simp only [ih]

/-- Only the content lines of a source matter. -/
theorem tokenize_eq_contentLines (source file : String) :
    tokenize source file = tokensOfLines file [] (endPosition file (Line.ofSource source.toList))
      (Line.contentLines source.toList) := by
  have hlines : Line.contentLines source.toList =
      (Line.ofSource source.toList).filter (!·.isBlank) :=
    List.filter_congr fun line hmem => Line.hasContent_eq hmem
  rw [hlines, tokensOfLines_filter]
  rfl

end Offside
