import Mathlib
import Offside.Proofs.Token.Origins

/-! # Nothing is lost

The tokens of a source that is no longer than offsets can count say where each part of it went. What
no token covers is blank, or a comment behind a token on the same line.
-/

namespace Offside

/-- Two slashes and the rest of their line stand between two offsets. -/
structure IsRemark (source : List Char) (start stop : Nat) (text : List Char) : Prop where
  excerpt : Excerpt source start stop text
  slashes : ['/', '/'] <+: text
  single : '\n' ∉ text
  ends : stop = byteLength source ∨ Excerpt source stop (stop + 1) ['\n']

/-- Between two offsets stands a comment that no token overlaps, behind a token on the same line. -/
structure IsDropped (source : List Char) (tokens : List Token) (start stop : Nat) : Prop where
  remark : ∃ text, IsRemark source start stop text
  behind : ∃ token ∈ tokens, token.kind.isContent = true ∧
    ∃ gap, Excerpt source token.stop start gap ∧ '\n' ∉ gap
  apart : ∀ token ∈ tokens, token.kind.isContent = true → token.stop ≤ start ∨ stop ≤ token.start

/-- The tokens of a source account for all of it. -/
structure Lossless (source : List Char) (tokens : List Token) : Prop where
  ordered : tokens.Pairwise fun a b => a.start ≤ b.start
  empty : ∀ token ∈ tokens, token.kind.isContent = false → token.span.start = token.span.stop
  bounds : ∀ token ∈ tokens, token.kind.isContent = true →
    token.start < token.stop ∧ token.stop ≤ byteLength source
  apart : (tokens.filter (·.kind.isContent)).Pairwise fun a b => a.stop ≤ b.start
  spelled : ∀ token ∈ tokens, token.kind.isContent = true →
    ∃ text, Excerpt source token.start token.stop text ∧
      token.kind.Spells text token.value.toList ∧
      (token.kind = .comment → IsRemark source token.start token.stop text)
  covered : ∀ offset < byteLength source,
    (∃ token ∈ tokens, token.kind.isContent = true ∧ token.start ≤ offset ∧ offset < token.stop) ∨
    (∃ c, IsGap c ∧ Excerpt source offset (offset + 1) [c]) ∨
    ∃ start stop, start ≤ offset ∧ offset < stop ∧ IsDropped source tokens start stop

/-! ## Pieces in a source -/

section Pieces

variable {source : List Char} {line : Line} {lexeme : Lexeme}

/-- A comment of a line runs to the end of the line in the source. -/
theorem isRemark_of_isComment (hline : line ∈ Line.ofSource source)
    (hmem : lexeme ∈ Lexeme.cut 0 line.text) (hcomment : lexeme.isComment = true) :
    IsRemark source (line.start + lexeme.offset)
      (line.start + (lexeme.offset + byteLength lexeme.text)) lexeme.text := by
  obtain ⟨before, after, htext, hoffset, htaken⟩ := Lexeme.taken_of_mem_cut hmem
  obtain ⟨remark, hslashes, hsingle, hafter⟩ := htaken.remark hcomment
  have hexcerpt := Line.excerpt_of_mem hline
  have hfeed : '\n' ∉ lexeme.text := by
    rw [hslashes]
    simp [hsingle]
  refine ⟨hexcerpt.trans (Lexeme.excerpt_of_mem_cut hmem), ⟨remark, hslashes.symm⟩, hfeed, ?_⟩
  rcases hafter with rfl | ⟨more, rfl⟩
  · -- A line that ends with the comment has no line feed, so it is the last one.
    rw [List.append_nil] at htext
    rcases Line.ends_of_mem hline with hend | ⟨body, hbody⟩
    · left
      rw [← hend, Line.stop, htext, byteLength_append]
      omega
    · have hlast : lexeme.text.getLast? = some '\n' := by
        rw [← List.getLast?_append_of_ne_nil before htaken.nonempty, ← htext, hbody,
          List.getLast?_concat]
      exact absurd (List.mem_of_getLast? hlast) hfeed
  · right
    refine hexcerpt.trans ⟨before ++ lexeme.text, more, by simp [htext], ?_, rfl⟩
    rw [byteLength_append]
    omega

theorem isGap_of_isBlank (hline : line ∈ Line.ofSource source) (hblank : line.isBlank = true) :
    ∀ c ∈ line.text, IsGap c := by
  have hindent : ∀ c ∈ line.text.takeWhile Line.isIndentation, IsGap c := by
    intro c hmem
    have hc := List.mem_takeWhile_imp hmem
    simp only [Line.isIndentation, Bool.or_eq_true, beq_iff_eq] at hc
    rcases hc with rfl | rfl <;> decide
  have hfeed := Line.lineFeed_not_mem_dropLast hline
  unfold Line.isBlank at hblank
  dsimp only at hblank
  have htext : line.text.takeWhile Line.isIndentation ++ line.text.dropWhile Line.isIndentation =
      line.text := List.takeWhile_append_dropWhile
  generalize line.text.dropWhile Line.isIndentation = rest at hblank htext
  rw [← htext, List.forall_mem_append]
  refine ⟨hindent, ?_⟩
  rw [Bool.or_eq_true, List.isEmpty_iff, bne_iff_ne] at hblank
  rcases hblank with rfl | hbreak
  · exact List.forall_mem_nil _
  · unfold Pattern.reachLineBreak at hbreak
    split at hbreak
    · obtain rfl := Line.eq_nil_of_lineFeed hfeed htext.symm
      exact forall_isGap_lineFeed
    · next more =>
      have hreturn : line.text =
          line.text.takeWhile Line.isIndentation ++ ['\r'] ++ '\n' :: more := by
        rw [List.append_assoc, List.singleton_append, htext]
      obtain rfl := Line.eq_nil_of_lineFeed hfeed hreturn
      exact forall_isGap_return
    · exact absurd rfl hbreak

/-- A blank takes one byte, so every byte of blanks is one of them. -/
theorem Excerpt.exists_isGap {text part : List Char} {start stop offset : Nat}
    (h : Excerpt text start stop part) (hgaps : ∀ c ∈ part, IsGap c) (hle : start ≤ offset)
    (hlt : offset < stop) : ∃ c, IsGap c ∧ Excerpt text offset (offset + 1) [c] := by
  have hbytes := h.stop_eq
  obtain ⟨within, rfl⟩ := Nat.exists_eq_add_of_le hle
  obtain ⟨c, place, hmem, hchar, hle, hlt⟩ :=
    exists_char_at (show within < byteLength part by omega)
  have hsize : c.utf8Size = 1 := by
    have hgap := hgaps c hmem
    simp only [IsGap, List.mem_cons, List.not_mem_nil, or_false] at hgap
    rcases hgap with rfl | rfl | rfl | rfl <;> rfl
  rw [hsize] at hchar hlt
  obtain rfl : place = within := by omega
  exact ⟨c, hgaps c hmem, h.trans hchar⟩

/-- What stands between an earlier part of a text and a later one. -/
theorem Excerpt.exists_gap {text before rest part : List Char} {start stop : Nat}
    (h : Excerpt text start stop part) (htext : text = before ++ rest)
    (hle : stop ≤ byteLength before) :
    ∃ gap, gap ⊆ before ∧ Excerpt text stop (byteLength before) gap := by
  obtain ⟨before', after, hpart, rfl, rfl⟩ := h
  rw [htext, ← List.append_assoc, List.append_eq_append_iff] at hpart
  rcases hpart with ⟨extra, hextra, hafter⟩ | ⟨gap, rfl, -⟩
  · have hlength := congrArg byteLength hextra
    simp only [byteLength_append] at hlength
    have hnothing : byteLength extra = 0 := by omega
    obtain rfl : extra = [] := by
      by_contra hne
      exact absurd hnothing (Nat.ne_of_gt (byteLength_pos hne))
    refine ⟨[], List.nil_subset _, before, rest, htext, ?_, ?_⟩
    all_goals
      simp only [byteLength_nil] at hlength ⊢
      omega
  · refine ⟨gap, List.subset_append_right _ _, before' ++ part, rest, ?_, ?_, ?_⟩
    · rw [htext, List.append_assoc]
    · rw [byteLength_append]
    · simp only [byteLength_append]

end Pieces

/-! ## Streams -/

section Stream

variable {source : List Char} {file : String} {widths : List Nat} {last : Position}
  {tokens : List Token} {token : Token} {line : Line} {lexeme : Lexeme}

/-- A token tells of a piece of a line in the source. -/
theorem exists_piece (hlength : byteLength source < UInt32.size)
    (h : tokensOfLines file widths last (Line.ofSource source) = .ok tokens)
    (hmem : token ∈ tokens) (hcontent : token.kind.isContent = true) :
    ∃ line ∈ Line.ofSource source, ∃ lexeme ∈ line.lexemes, lexeme.Tells line token := by
  rcases origin_of_mem h hmem with ⟨hempty, -⟩ | ⟨line, hline, content, htokens, htoken⟩
  · rw [hempty] at hcontent
    cases hcontent
  · have hstop := (Line.excerpt_of_mem hline).stop_le
    obtain ⟨lexeme, -, hlexeme, htells⟩ :=
      exists_of_forall₂ (Line.tells_tokens (by omega) htokens).flip htoken
    exact ⟨line, hline, lexeme, hlexeme, htells⟩

/-- Every piece that counts, on a line that is not blank, has a token. -/
theorem exists_token (hlength : byteLength source < UInt32.size)
    (h : tokensOfLines file widths last (Line.ofSource source) = .ok tokens)
    (hline : line ∈ Line.ofSource source) (hsolid : line.isBlank = false)
    (hlexeme : lexeme ∈ line.lexemes) :
    ∃ token ∈ tokens, token.kind.isContent = true ∧ lexeme.Tells line token := by
  obtain ⟨content, htokens, hsubset⟩ := exists_tokens_of_mem h hline hsolid
  have hstop := (Line.excerpt_of_mem hline).stop_le
  obtain ⟨token, htoken, -, htells⟩ :=
    exists_of_forall₂ (Line.tells_tokens (by omega) htokens) hlexeme
  obtain ⟨before, after, -, -, htaken⟩ :=
    Lexeme.taken_of_mem_cut (line.lexemes_sublist.mem hlexeme)
  exact ⟨token, hsubset htoken, (htaken.spells htells.meaning).1, htells⟩

/-- A token stands in the source as its piece, spelled as its kind asks. -/
theorem spelled_of_tells (hline : line ∈ Line.ofSource source) (hlexeme : lexeme ∈ line.lexemes)
    (htells : lexeme.Tells line token) :
    Excerpt source token.start token.stop lexeme.text ∧ lexeme.text ≠ [] ∧
      token.kind.Spells lexeme.text token.value.toList ∧
      (token.kind = .comment → IsRemark source token.start token.stop lexeme.text) := by
  have hcut := line.lexemes_sublist.mem hlexeme
  obtain ⟨before, after, -, -, htaken⟩ := Lexeme.taken_of_mem_cut hcut
  obtain ⟨-, hspells, hcomment⟩ := htaken.spells htells.meaning
  rw [htells.stop_eq, htells.start_eq, Nat.add_assoc]
  exact ⟨(Line.excerpt_of_mem hline).trans (Lexeme.excerpt_of_mem_cut hcut), htaken.nonempty,
    hspells, fun hkind => isRemark_of_isComment hline hcut (hcomment hkind)⟩

/-- A piece that was left out overlaps no token. -/
theorem apart_of_not_mem (hlength : byteLength source < UInt32.size)
    (h : tokensOfLines file widths last (Line.ofSource source) = .ok tokens)
    (hline : line ∈ Line.ofSource source) (hcut : lexeme ∈ Lexeme.cut 0 line.text)
    (hout : lexeme ∉ line.lexemes) (hmem : token ∈ tokens)
    (hcontent : token.kind.isContent = true) :
    token.stop ≤ line.start + lexeme.offset ∨
      line.start + (lexeme.offset + byteLength lexeme.text) ≤ token.start := by
  obtain ⟨line', hline', lexeme', hlexeme', htells⟩ := exists_piece hlength h hmem hcontent
  have hcut' := line'.lexemes_sublist.mem hlexeme'
  rw [htells.stop_eq, htells.start_eq]
  rcases (Line.tiles_ofSource source).eq_or_apart hline hline' with rfl | hlines
  · rcases (Lexeme.tiles_cut 0 line.text).eq_or_apart hcut hcut' with rfl | hpieces
    · exact absurd hlexeme' hout
    · omega
  · have hstop := (Lexeme.excerpt_of_mem_cut hcut).stop_le
    have hstop' := (Lexeme.excerpt_of_mem_cut hcut').stop_le
    omega

/-- A comment that was left out is a comment behind a token on its line. -/
theorem isDropped_of_isComment (hlength : byteLength source < UInt32.size)
    (h : tokensOfLines file widths last (Line.ofSource source) = .ok tokens)
    (hline : line ∈ Line.ofSource source) (hsolid : line.isBlank = false)
    (hcut : lexeme ∈ Lexeme.cut 0 line.text)
    (hout : lexeme ∉ line.lexemes) (hcomment : lexeme.isComment = true) {first : Lexeme}
    (hfirst : first ∈ line.lexemes) (hle : first.offset + byteLength first.text ≤ lexeme.offset) :
    IsDropped source tokens (line.start + lexeme.offset)
      (line.start + (lexeme.offset + byteLength lexeme.text)) := by
  obtain ⟨token, hmem, hcontent, htells⟩ := exists_token hlength h hline hsolid hfirst
  obtain ⟨before, after, htext, hoffset, htaken⟩ := Lexeme.taken_of_mem_cut hcut
  rw [Nat.zero_add] at hoffset
  obtain ⟨gap, hsubset, hgap⟩ :=
    (Lexeme.excerpt_of_mem_cut (line.lexemes_sublist.mem hfirst)).exists_gap htext
      (hoffset ▸ hle)
  have hfeed := Line.lineFeed_not_mem_dropLast hline
  rw [htext, List.dropLast_append_of_ne_nil (by simp [htaken.nonempty]), List.mem_append,
    not_or] at hfeed
  refine ⟨⟨lexeme.text, isRemark_of_isComment hline hcut hcomment⟩,
    ⟨token, hmem, hcontent, gap, ?_, fun hmem => hfeed.1 (hsubset hmem)⟩,
    fun other hother hkind => apart_of_not_mem hlength h hline hcut hout hother hkind⟩
  rw [htells.stop_eq, htells.start_eq, Nat.add_assoc, ← hoffset]
  exact (Line.excerpt_of_mem hline).trans hgap

theorem covered_of_tokensOfLines (hlength : byteLength source < UInt32.size)
    (h : tokensOfLines file widths last (Line.ofSource source) = .ok tokens) {offset : Nat}
    (hlt : offset < byteLength source) :
    (∃ token ∈ tokens, token.kind.isContent = true ∧ token.start ≤ offset ∧ offset < token.stop) ∨
    (∃ c, IsGap c ∧ Excerpt source offset (offset + 1) [c]) ∨
    ∃ start stop, start ≤ offset ∧ offset < stop ∧ IsDropped source tokens start stop := by
  obtain ⟨line, hline, hle, hstop⟩ :=
    (Line.tiles_ofSource source).exists_mem (Nat.zero_le offset)
      (by rwa [Line.flatten_ofSource, Nat.zero_add])
  obtain ⟨place, rfl⟩ := Nat.exists_eq_add_of_le hle
  have hplace : place < byteLength line.text := by omega
  have blank {text : List Char} {start stop : Nat} (htext : Excerpt line.text start stop text)
      (hgaps : ∀ c ∈ text, IsGap c) (hle : start ≤ place) (hlt : place < stop) :
      ∃ c, IsGap c ∧ Excerpt source (line.start + place) (line.start + place + 1) [c] := by
    obtain ⟨c, hgap, hchar⟩ := htext.exists_isGap hgaps hle hlt
    exact ⟨c, hgap, (Line.excerpt_of_mem hline).trans hchar⟩
  by_cases hblank : line.isBlank = true
  · have hwhole : Excerpt line.text 0 (byteLength line.text) line.text :=
      ⟨[], [], (List.append_nil _).symm, rfl, Nat.zero_add _⟩
    exact .inr (.inl (blank hwhole (isGap_of_isBlank hline hblank) (Nat.zero_le _) hplace))
  · obtain ⟨lexeme, hcut, hle, hlt⟩ :=
      (Lexeme.tiles_cut 0 line.text).exists_mem (Nat.zero_le place)
        (by rwa [Lexeme.flatten_cut, Nat.zero_add])
    have hsolid := Bool.of_not_eq_true hblank
    by_cases hin : lexeme ∈ line.lexemes
    · obtain ⟨token, hmem, hcontent, htells⟩ := exists_token hlength h hline hsolid hin
      refine .inl ⟨token, hmem, hcontent, ?_⟩
      rw [htells.stop_eq, htells.start_eq]
      omega
    · rcases Line.not_mem_lexemes hcut hin with hspacing | ⟨hcomment, first, hfirst, hbehind⟩
      · obtain ⟨before, after, -, -, htaken⟩ := Lexeme.taken_of_mem_cut hcut
        exact .inr (.inl (blank (Lexeme.excerpt_of_mem_cut hcut) (htaken.isGap hspacing) hle hlt))
      · exact .inr (.inr ⟨_, _, by omega, by omega,
          isDropped_of_isComment hlength h hline hsolid hcut hin hcomment hfirst hbehind⟩)

end Stream

theorem toNat_offset_endPosition {source : List Char} (file : String)
    (hlength : byteLength source < UInt32.size) :
    (endPosition file (Line.ofSource source)).offset.toNat = byteLength source := by
  unfold endPosition
  cases hlast : (Line.ofSource source).getLast? with
  | none =>
    have hsource := Line.flatten_ofSource source
    rw [List.getLast?_eq_none_iff.1 hlast] at hsource
    rw [← hsource]
    rfl
  | some line =>
    obtain ⟨before, hlines⟩ := List.getLast?_eq_some_iff.1 hlast
    have hstart := (hlines ▸ Line.tiles_ofSource source).start_eq
    have hsource := congrArg byteLength (Line.flatten_ofSource source)
    rw [hlines, List.map_append, List.flatten_append, byteLength_append] at hsource
    simp only [List.map_cons, List.map_nil, List.flatten_cons, List.flatten_nil,
      List.append_nil] at hsource
    have hend : line.start + byteLength line.text = byteLength source := by omega
    rw [← hend] at hlength ⊢
    exact Line.toNat_offset_position hlength

/-- The tokens of a source account for all of it. -/
theorem lossless_of_tokenize {source file : String} {tokens : List Token}
    (hlength : byteLength source.toList < UInt32.size) (h : tokenize source file = .ok tokens) :
    Lossless source.toList tokens := by
  unfold tokenize at h
  have hlast := toNat_offset_endPosition file hlength
  obtain ⟨hplaces, hapart⟩ := inOrder_of_tokensOfLines h (Line.tiles_ofSource source.toList)
    (by rw [hlast, Line.flatten_ofSource, Nat.zero_add])
  have spelled {token : Token} (hmem : token ∈ tokens) (hcontent : token.kind.isContent = true) :
      ∃ text, Excerpt source.toList token.start token.stop text ∧ text ≠ [] ∧
        token.kind.Spells text token.value.toList ∧
        (token.kind = .comment → IsRemark source.toList token.start token.stop text) := by
    obtain ⟨line, hline, lexeme, hlexeme, htells⟩ := exists_piece hlength h hmem hcontent
    exact ⟨lexeme.text, spelled_of_tells hline hlexeme htells⟩
  refine ⟨?ordered, ?empty, ?bounds, hapart.filter _, ?spelled, ?covered⟩
  case ordered =>
    exact hapart.imp_of_mem fun ha _ hle => Nat.le_trans (hplaces _ ha).2 hle
  case empty =>
    intro token hmem hkind
    rcases origin_of_mem h hmem with ⟨-, hspan⟩ | ⟨line, hline, content, htokens, htoken⟩
    · exact hspan
    · rw [Line.isContent_of_tokens htokens token htoken] at hkind
      cases hkind
  case bounds =>
    intro token hmem hcontent
    obtain ⟨text, hexcerpt, hne, -⟩ := spelled hmem hcontent
    refine ⟨?_, hexcerpt.stop_le⟩
    rw [← hexcerpt.stop_eq]
    exact Nat.lt_add_of_pos_right (byteLength_pos hne)
  case spelled =>
    intro token hmem hcontent
    obtain ⟨text, hexcerpt, -, hspells, hremark⟩ := spelled hmem hcontent
    exact ⟨text, hexcerpt, hspells, hremark⟩
  case covered => exact fun offset hlt => covered_of_tokensOfLines hlength h hlt

/-- A comment behind a name, and a literal with an escape. -/
theorem lossless_of_tokenize_comment :
    let source := "x // c\n\"\\n\"\n"
    let tokens : List Token :=
      [⟨.identifier, "x", ⟨⟨0, 1, 1, ""⟩, ⟨1, 1, 2, ""⟩⟩⟩,
       ⟨.terminator, "newline", .empty ⟨7, 2, 1, ""⟩⟩,
       ⟨.string, "\n", ⟨⟨7, 2, 1, ""⟩, ⟨11, 2, 5, ""⟩⟩⟩,
       ⟨.eof, "EOF", .empty ⟨12, 3, 1, ""⟩⟩]
    tokenize source "" = .ok tokens ∧ Lossless source.toList tokens := by
  intro source tokens
  have hlength : byteLength source.toList < UInt32.size := by decide
  have h : tokenize source "" = .ok tokens := by cbv
  exact ⟨h, lossless_of_tokenize hlength h⟩

end Offside
