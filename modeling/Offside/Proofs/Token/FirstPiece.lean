import Offside.Proofs.Lexeme.FirstLine
import Offside.Proofs.Token.Origins

/-! # The first piece of a source

What a source begins with, unless it is blank, is its first token, and what the source is refused
for then stands behind it. A source is refused at its first character if no pattern claims this. A
source that is one piece has one token.
-/

namespace Offside

open Pattern (first?)

variable {text piece after : List Char} {pattern : Pattern} {kind : Kind} {value : List Char}
  {source file : String} {line : Line} {c : Char}

namespace Line

/-- A line that begins with something other than blanks is not blank. -/
theorem isBlank_of_head {rest : List Char} (htext : line.text = c :: rest)
    (hline : Pattern.reachLineBreak (c :: rest) = 0) (hspacing : Pattern.isSpacing c = false) :
    line.isBlank = false := by
  have hindent : ¬ isIndentation c = true := by
    simp only [Pattern.isSpacing, Bool.or_eq_false_iff] at hspacing
    simp [isIndentation, hspacing]
  rw [isBlank, htext, List.dropWhile_cons_of_neg hindent, hline]
  rfl

theorem isBlank_of_first? {size : Nat} (h : first? line.text = some (pattern, size))
    (hbreak : pattern ≠ .lineBreak) (hblanks : pattern ≠ .blanks) : line.isBlank = false := by
  obtain ⟨c, rest, htext⟩ : ∃ c rest, line.text = c :: rest := by
    refine List.exists_cons_of_ne_nil fun hnil => ?_
    rw [hnil] at h
    cases h
  rw [htext] at h
  obtain ⟨hline, hspacing⟩ := Pattern.head_of_first? h hbreak hblanks
  exact isBlank_of_head htext hline hspacing

theorem isBlank_of_unclaimed {rest : List Char} (htext : line.text = c :: rest)
    (h : first? (c :: rest) = none) : line.isBlank = false := by
  have hnone := Pattern.first?_eq_none_iff.1 h
  exact isBlank_of_head htext (hnone .lineBreak (by decide))
    (Pattern.reachWhile_eq_zero_iff.1 (hnone .blanks (by decide)))

/-- The pieces behind the first one that stands for something, comments left out. -/
theorem lexemes_of_first? (htext : line.text = piece ++ after)
    (h : first? line.text = some (pattern, piece.length)) (hbreak : pattern ≠ .lineBreak)
    (hblanks : pattern ≠ .blanks) :
    line.lexemes = ⟨some pattern, piece, 0⟩ ::
      ((Lexeme.cut (byteLength piece) after).filter (!·.isSpacing)).filter (!·.isComment) := by
  have hspacing : (⟨some pattern, piece, 0⟩ : Lexeme).isSpacing = false := by
    simp [Lexeme.isSpacing, hbreak, hblanks]
  rw [htext] at h
  rw [lexemes, htext, Lexeme.cut_append h rfl, List.filter_cons_of_pos (by simp [hspacing]),
    Nat.zero_add]

theorem le_of_mem {source : List Char} (h : line ∈ ofSource source) {bytes : Nat}
    (hbytes : bytes ≤ byteLength line.text) : line.start + bytes ≤ byteLength source :=
  Nat.le_trans (Nat.add_le_add_left hbytes _) (excerpt_of_mem h).stop_le

/-- A line is refused at its start or where one of its pieces begins. -/
theorem position_of_error {error : SyntaxError}
    (h : error = line.layoutError file ∨ line.tokens file = .error error) :
    ∃ bytes ≤ byteLength line.text, error.position = line.position file bytes := by
  rcases h with rfl | htokens
  · exact ⟨0, Nat.zero_le _, rfl⟩
  · obtain ⟨lexeme, hlexeme, -, rfl⟩ := exists_of_tokens_eq_error htokens
    have hstop := (Lexeme.excerpt_of_mem_cut (line.lexemes_sublist.mem hlexeme)).stop_le
    exact ⟨lexeme.offset, by omega, rfl⟩

/-- A piece at the start of a line that stands for something is no reason to refuse the line. -/
theorem position_of_tokens_eq_error {rest : List Lexeme}
    (hlexemes : line.lexemes = ⟨some pattern, piece, 0⟩ :: rest)
    (hmeaning : Lexeme.meaning? ⟨some pattern, piece, 0⟩ = some (kind, value)) {error : SyntaxError}
    (h : line.tokens file = .error error) :
    ∃ bytes, byteLength piece ≤ bytes ∧ bytes ≤ byteLength line.text ∧
      error.position = line.position file bytes := by
  obtain ⟨lexeme, hlexeme, hnone, rfl⟩ := exists_of_tokens_eq_error h
  have hstop := (Lexeme.excerpt_of_mem_cut (line.lexemes_sublist.mem hlexeme)).stop_le
  have hapart := line.lexemes_apart
  rw [hlexemes] at hlexeme hapart
  rcases List.mem_cons.1 hlexeme with rfl | hlater
  · rw [hmeaning] at hnone
    cases hnone
  · have hle := List.rel_of_pairwise_cons hapart hlater
    dsimp only at hle
    exact ⟨lexeme.offset, by omega, by omega, rfl⟩

end Line

/-! ## The first line -/

section FirstLine

variable (hsource : source.toList = piece ++ after) (hfeed : '\n' ∉ piece)
  (h : first? source.toList = some (pattern, piece.length))
  (hmeaning : Lexeme.meaning? ⟨some pattern, piece, 0⟩ = some (kind, value))

include hsource hfeed h in
theorem exists_first_line : ∃ more lines,
    Line.ofSource source.toList = ⟨1, 0, piece ++ more⟩ :: lines ∧
      first? (piece ++ more) = some (pattern, piece.length) := by
  obtain ⟨more, texts, hcut⟩ := Line.exists_cut after
  have hlines := Line.cut_append_eq_cons hfeed hcut
  rw [← hsource] at hlines
  refine ⟨more, Line.ofTexts 2 (0 + byteLength (piece ++ more)) texts, ?_, ?_⟩
  · rw [Line.ofSource, hlines]
    rfl
  · rw [← Pattern.first?_of_cut hlines, h]

include hsource hfeed h hmeaning in
/-- A source that begins with a piece that stands for something has the token of this first. -/
theorem head?_of_tokenize {tokens : List Token} (htokens : tokenize source file = .ok tokens) :
    tokens.head? = some ⟨kind, String.ofList value, ⟨.first file,
      ⟨(byteLength piece).toUInt32, 1, (byteLength piece + 1).toUInt32, file⟩⟩⟩ := by
  obtain ⟨more, lines, hlines, hfirst⟩ := exists_first_line hsource hfeed h
  obtain ⟨_, ⟨⟩, hbreak, hblanks⟩ := Lexeme.pattern_of_meaning? hmeaning
  rw [tokenize, hlines] at htokens
  have hsolid : (⟨1, 0, piece ++ more⟩ : Line).isBlank = false :=
    Line.isBlank_of_first? hfirst hbreak hblanks
  rcases tokensOfLines_cons_eq_ok htokens with
    ⟨hblank, -⟩ | ⟨-, marks, opened, content, inside, following, henter, hcontent, -, rfl⟩
  · rw [hsolid] at hblank
    cases hblank
  · cases henter
    rw [Line.tokens, Line.lexemes_of_first? rfl hfirst hbreak hblanks] at hcontent
    cases forall₂_of_mapM hcontent with
    | cons htoken _ =>
      rw [Lexeme.token, hmeaning] at htoken
      cases htoken
      simp [Line.position, Position.first]

include hsource hfeed h hmeaning in
/-- What a source is refused for stands behind a piece that the source begins with. -/
theorem offset_of_tokenize_eq_error {error : SyntaxError}
    (herror : tokenize source file = .error error) :
    ∃ place, byteLength piece ≤ place ∧ place ≤ byteLength source.toList ∧
      error.position.offset = place.toUInt32 := by
  obtain ⟨more, lines, hlines, hfirst⟩ := exists_first_line hsource hfeed h
  obtain ⟨_, ⟨⟩, hbreak, hblanks⟩ := Lexeme.pattern_of_meaning? hmeaning
  have htiles := Line.tiles_ofSource source.toList
  have hmem : ∀ line ∈ (⟨1, 0, piece ++ more⟩ : Line) :: lines,
      line ∈ Line.ofSource source.toList :=
    fun line hline => hlines ▸ hline
  rw [tokenize, hlines] at herror
  rw [hlines] at htiles
  rcases tokensOfLines_cons_eq_error herror with ⟨-, ⟨henter, -⟩ | hcontent⟩ | ⟨inside, hrest⟩
  · cases henter
  · obtain ⟨bytes, hle, hbytes, hposition⟩ :=
      Line.position_of_tokens_eq_error
        (Line.lexemes_of_first? rfl hfirst hbreak hblanks) hmeaning hcontent
    refine ⟨0 + bytes, by omega, Line.le_of_mem (hmem _ (.head _)) hbytes, ?_⟩
    rw [hposition]
    rfl
  · obtain ⟨line, hline, -, hrefused⟩ := error_of_tokensOfLines hrest
    obtain ⟨bytes, hbytes, hposition⟩ := Line.position_of_error hrefused
    have hle := htiles.2.le_start line hline
    rw [byteLength_append] at hle
    refine ⟨line.start + bytes, by omega, Line.le_of_mem (hmem line (.tail _ hline)) hbytes, ?_⟩
    rw [hposition]
    rfl

end FirstLine

/-- A source is refused at its first character where no pattern claims this. -/
theorem tokenize_eq_error_of_first? {rest : List Char} (h : first? (c :: rest) = none)
    (file : String) :
    tokenize (String.ofList (c :: rest)) file =
      .error ⟨.unrecognised (String.ofList [c]), .first file⟩ := by
  have hfeed : '\n' ∉ [c] := by
    rw [List.mem_singleton]
    rintro rfl
    exact absurd (Pattern.first?_eq_none_iff.1 h .lineBreak (by decide)) Nat.one_ne_zero
  obtain ⟨more, texts, hcut⟩ := Line.exists_cut rest
  have hlines : Line.cut [] (c :: rest) = (c :: more) :: texts :=
    Line.cut_append_eq_cons hfeed hcut
  have hfirst : first? (c :: more) = none := by rw [← Pattern.first?_of_cut hlines, h]
  have hsolid : (⟨1, 0, c :: more⟩ : Line).isBlank = false := Line.isBlank_of_unclaimed rfl hfirst
  obtain ⟨lexemes, hlexemes⟩ : ∃ lexemes,
      (⟨1, 0, c :: more⟩ : Line).lexemes = ⟨none, [c], 0⟩ :: lexemes := by
    rw [Line.lexemes, Lexeme.cut, hfirst]
    exact ⟨_, rfl⟩
  have htokens : (⟨1, 0, c :: more⟩ : Line).tokens file =
      .error ⟨.unrecognised (String.ofList [c]), .first file⟩ := by
    rw [Line.tokens, hlexemes, List.mapM_cons]
    rfl
  rw [tokenize, String.toList_ofList, Line.ofSource, hlines, Line.ofTexts, tokensOfLines, hsolid,
    if_neg Bool.false_ne_true, htokens]
  rfl

/-! ## The only piece -/

/-- Nothing comes of blank lines but the end. -/
theorem tokensOfLines_blanks {lines : List Line} (h : ∀ line ∈ lines, line.isBlank = true)
    (widths : List Nat) (last : Position) :
    tokensOfLines file widths last lines = tokensOfLines file widths last [] := by
  induction lines with
  | nil => rfl
  | cons line lines ih =>
    obtain ⟨hblank, hrest⟩ := List.forall_mem_cons.1 h
    exact (if_pos hblank).trans (ih hrest)

/-- The only line that is not blank has its tokens and no layout. -/
theorem tokensOfLines_only {content : List Token} {rest : List Line}
    (hblank : line.isBlank = false) (hcontent : line.tokens file = .ok content)
    (hrest : ∀ other ∈ rest, other.isBlank = true) (last : Position) :
    tokensOfLines file [] last (line :: rest) = .ok (content ++ [.eof last]) := by
  rw [tokensOfLines, hblank, if_neg Bool.false_ne_true, hcontent]
  simp only [Layout.enter?, bind, Except.bind, tokensOfLines_blanks hrest]
  cases content with
  | nil => rfl
  | cons first others => rfl

section Only

variable (hfeed : '\n' ∉ piece) (hafter : after = [] ∨ after = ['\n'])
  (h : first? (piece ++ after) = some (pattern, piece.length))
  (hmeaning : Lexeme.meaning? ⟨some pattern, piece, 0⟩ = some (kind, value))

include hfeed hafter in
theorem exists_only_line : ∃ rest,
    Line.ofSource (piece ++ after) = ⟨1, 0, piece ++ after⟩ :: rest ∧
      ∀ line ∈ rest, line.isBlank = true := by
  rcases hafter with rfl | rfl
  · exact ⟨[], by rw [List.append_nil, Line.ofSource_of_not_mem hfeed], List.forall_mem_nil _⟩
  · refine ⟨[⟨2, 0 + byteLength (piece ++ ['\n']), []⟩], ?_, ?_⟩
    · rw [Line.ofSource, Line.cut_lineFeed hfeed]
      rfl
    · rw [List.forall_mem_singleton]
      rfl

include hafter h hmeaning in
theorem tokens_only (file : String) :
    (⟨1, 0, piece ++ after⟩ : Line).tokens file = .ok [⟨kind, String.ofList value, ⟨.first file,
      ⟨(byteLength piece).toUInt32, 1, (byteLength piece + 1).toUInt32, file⟩⟩⟩] := by
  obtain ⟨_, ⟨⟩, hbreak, hblanks⟩ := Lexeme.pattern_of_meaning? hmeaning
  have hspacing : (Lexeme.cut (byteLength piece) after).filter (!·.isSpacing) = [] := by
    rcases hafter with rfl | rfl
    · rw [Lexeme.cut]
      rfl
    · have hfirst : first? ['\n'] = some (.lineBreak, 1) := rfl
      rw [Lexeme.cut, hfirst]
      simp [Lexeme.cut, Lexeme.isSpacing]
  rw [Line.tokens, Line.lexemes_of_first? rfl h hbreak hblanks, hspacing, List.filter_nil,
    List.mapM_cons, Lexeme.token, hmeaning]
  simp only [Line.position, Nat.zero_add]
  rfl

include hfeed hafter h hmeaning in
/-- A text that one piece takes up, but for a line feed behind it, has one token. -/
theorem tokenize_only (file : String) :
    ∃ last, tokenize (String.ofList (piece ++ after)) file =
      .ok [⟨kind, String.ofList value, ⟨.first file,
        ⟨(byteLength piece).toUInt32, 1, (byteLength piece + 1).toUInt32, file⟩⟩⟩, .eof last] := by
  obtain ⟨_, ⟨⟩, hbreak, hblanks⟩ := Lexeme.pattern_of_meaning? hmeaning
  obtain ⟨rest, hsource, hrest⟩ := exists_only_line hfeed hafter
  have hsolid : (⟨1, 0, piece ++ after⟩ : Line).isBlank = false :=
    Line.isBlank_of_first? h hbreak hblanks
  rw [tokenize, String.toList_ofList, hsource]
  exact ⟨_, tokensOfLines_only hsolid (tokens_only hafter h hmeaning file) hrest _⟩

end Only

end Offside
