import Mathlib
import Offside.Proofs.Grammar.FirstError
import Offside.Proofs.Lexeme.FirstLine
import Offside.Proofs.Source.Numbering
import Offside.Proofs.Token.Origins

/-! # Positions

Where tokens begin and end and what errors are blamed on. A token stands on one line, so the line
and the column that it was given are those of its offset, and an error of the grammar is blamed on
the start of some token.
-/

namespace Offside

/-- Both ends of a token are true of a source. -/
structure Token.PointsInto (source : List Char) (file : String) (token : Token) : Prop where
  start : token.span.start.PointsInto source file
  stop : token.span.stop.PointsInto source file

variable {source : List Char} {file : String} {line : Line} {tokens content : List Token}

theorem Token.pointsInto_of_empty {position : Position} (h : position.PointsInto source file)
    {token : Token} (hspan : token.span = .empty position) : token.PointsInto source file := by
  constructor <;> rw [hspan] <;> exact h

/-! ## The tokens of a source -/

namespace Line

/-- The place of a piece is true, and so is the place behind it if it stands for something. -/
theorem pointsInto_piece (file : String) (hlength : byteLength source + 1 < UInt32.size)
    (hmem : line ∈ ofSource source) {lexeme : Lexeme} (hpiece : lexeme ∈ Lexeme.cut 0 line.text) :
    (line.position file lexeme.offset).PointsInto source file ∧
      (lexeme.meaning?.isSome →
        (line.position file (lexeme.offset + byteLength lexeme.text)).PointsInto source file) := by
  obtain ⟨before, after, htext, hoffset, htaken⟩ := Lexeme.taken_of_mem_cut hpiece
  rw [Nat.zero_add] at hoffset
  have hbefore : '\n' ∉ before := by
    intro hfeed
    obtain ⟨earlier, later, rfl⟩ := List.append_of_mem hfeed
    rw [List.append_assoc, List.cons_append] at htext
    have hend := eq_nil_of_lineFeed (lineFeed_not_mem_dropLast hmem) htext
    simp [htaken.nonempty] at hend
  constructor
  · rw [← hoffset]
    exact pointsInto file hlength hmem htext hbefore
  · intro hmeaning
    obtain ⟨meaning, hsome⟩ := Option.isSome_iff_exists.1 hmeaning
    obtain ⟨pattern, hpattern, hbreak, -⟩ := Lexeme.pattern_of_meaning? hsome
    have hsingle := Lexeme.lineFeed_not_mem_text hpiece hpattern hbreak
    rw [← hoffset, ← byteLength_append]
    apply pointsInto file hlength hmem (htext.trans (List.append_assoc ..).symm)
    rw [List.mem_append, not_or]
    exact ⟨hbefore, hsingle⟩

theorem pointsInto_start (file : String) (hlength : byteLength source + 1 < UInt32.size)
    (hmem : line ∈ ofSource source) : (line.position file 0).PointsInto source file :=
  pointsInto file hlength hmem (List.nil_append line.text).symm List.not_mem_nil

theorem pointsInto_tokens (hlength : byteLength source + 1 < UInt32.size)
    (hmem : line ∈ ofSource source) (h : line.tokens file = .ok content) :
    ∀ token ∈ content, token.PointsInto source file := by
  intro token htoken
  obtain ⟨lexeme, -, hlexeme, htells⟩ := exists_of_forall₂ (forall₂_tokens h).flip htoken
  obtain ⟨hmeaning, hspan⟩ := Lexeme.of_token htells
  obtain ⟨hstart, hstop⟩ :=
    pointsInto_piece file hlength hmem (line.lexemes_sublist.mem hlexeme)
  constructor
  · rw [hspan]
    exact hstart
  · rw [hspan]
    exact hstop (by rw [hmeaning]; rfl)

/-- A line is refused where a piece begins. -/
theorem pointsInto_of_tokens_eq_error (hlength : byteLength source + 1 < UInt32.size)
    (hmem : line ∈ ofSource source) {error : SyntaxError} (h : line.tokens file = .error error) :
    error.position.PointsInto source file := by
  obtain ⟨lexeme, hlexeme, -, rfl⟩ := exists_of_tokens_eq_error h
  exact (pointsInto_piece file hlength hmem (line.lexemes_sublist.mem hlexeme)).1

end Line

theorem pointsInto_endPosition (hlength : byteLength source + 1 < UInt32.size) :
    (endPosition file (Line.ofSource source)).PointsInto source file := by
  obtain ⟨texts, last, hcut, -, hlast⟩ := Line.exists_cut_append [] source
  have htexts := Line.map_text_ofTexts 1 0 (Line.cut [] source)
  rw [← Line.ofSource, hcut] at htexts
  rcases List.eq_nil_or_concat' (Line.ofSource source) with hnil | ⟨lines, line, hlines⟩
  · simp [hnil] at htexts
  · rw [hlines, List.map_append, List.map_singleton] at htexts
    obtain ⟨-, htext⟩ := List.append_inj' htexts rfl
    rw [List.singleton_inj] at htext
    have hmem : line ∈ Line.ofSource source := hlines ▸ List.mem_append_right _ List.mem_cons_self
    rw [endPosition, hlines, List.getLast?_concat]
    apply Line.pointsInto file hlength hmem (List.append_nil line.text).symm
    rw [htext]
    exact hlast List.not_mem_nil

variable {widths : List Nat} {last : Position} {lines : List Line} {error : SyntaxError}

/-- All that the lines of a source are turned into has true positions. -/
theorem pointsInto_tokensOfLines (hlength : byteLength source + 1 < UInt32.size)
    (hlast : last.PointsInto source file) (hlines : ∀ line ∈ lines, line ∈ Line.ofSource source)
    (h : tokensOfLines file widths last lines = .ok tokens) :
    ∀ token ∈ tokens, token.PointsInto source file := by
  have marks {marks : List Layout.Mark} {position : Position}
      (h : position.PointsInto source file) :
      ∀ token ∈ marks.map (·.token position), token.PointsInto source file :=
    fun token hmem => Token.pointsInto_of_empty h (of_mem_marks hmem).2
  induction lines generalizing widths tokens with
  | nil =>
    cases h
    rw [List.forall_mem_append, List.forall_mem_singleton]
    exact ⟨marks hlast, Token.pointsInto_of_empty hlast rfl⟩
  | cons line lines ih =>
    obtain ⟨hline, hlines⟩ := List.forall_mem_cons.1 hlines
    have hstart := Line.pointsInto_start file hlength hline
    rcases tokensOfLines_cons_eq_ok h with
      ⟨-, hrest⟩ | ⟨-, before, opened, content, inside, following, -, hcontent, hrest, rfl⟩
    · exact ih hlines hrest
    · rw [List.forall_mem_append, List.forall_mem_append]
      exact ⟨marks hstart, Line.pointsInto_tokens hlength hline hcontent, ih hlines hrest⟩

/-- So has what they are refused for. -/
theorem pointsInto_of_tokensOfLines_eq_error (hlength : byteLength source + 1 < UInt32.size)
    (hlines : ∀ line ∈ lines, line ∈ Line.ofSource source)
    (h : tokensOfLines file widths last lines = .error error) :
    error.position.PointsInto source file := by
  obtain ⟨line, hmem, -, rfl | hcontent⟩ := error_of_tokensOfLines h
  · exact Line.pointsInto_start file hlength (hlines line hmem)
  · exact Line.pointsInto_of_tokens_eq_error hlength (hlines line hmem) hcontent

/-- A source of blanks has no token but its end. -/
theorem tokenize_indentation {text : List Char} (h : ∀ c ∈ text, Line.isIndentation c = true)
    (file : String) :
    tokenize (String.ofList text) file =
      .ok [.eof ((⟨1, 0, text⟩ : Line).position file text.length)] := by
  have hblank : (⟨1, 0, text⟩ : Line).isBlank = true := by
    simp [Line.isBlank, List.dropWhile_eq_nil_iff.2 h]
  rw [tokenize, String.toList_ofList,
    Line.ofSource_of_not_mem (Line.lineFeed_not_mem_of_isIndentation h), tokensOfLines,
    if_pos hblank, ← Line.byteLength_of_isIndentation h]
  rfl

/-! ## Errors of the grammar -/

theorem exists_eof_of_tokensOfLines (h : tokensOfLines file widths last lines = .ok tokens) :
    ∃ token ∈ tokens, token.kind = .eof := by
  induction lines generalizing widths tokens with
  | nil =>
    cases h
    exact ⟨.eof last, by simp, rfl⟩
  | cons line lines ih =>
    rcases tokensOfLines_cons_eq_ok h with
      ⟨-, hrest⟩ | ⟨-, before, opened, content, inside, following, -, -, hrest, rfl⟩
    · exact ih hrest
    · obtain ⟨token, hmem, hkind⟩ := ih hrest
      exact ⟨token, by simp [hmem], hkind⟩

/-- In a stream with an end, the tokens that may become the current one are tokens of the
stream. -/
theorem visible_subset (h : ∃ token ∈ tokens, token.kind = .eof) (file : String) :
    (Cursor.ofTokens tokens file).visible ⊆ tokens := by
  intro token hmem
  rcases List.mem_append.1 hmem with hahead | hstop
  · rw [ahead_ofTokens] at hahead
    exact List.takeWhile_subset _ hahead
  · rw [List.mem_singleton.1 hstop]
    obtain ⟨stop, hmem, hkind⟩ := h
    unfold Cursor.ofTokens
    split
    · next hnil =>
      have hcontent := List.dropWhile_eq_nil_iff.1 hnil stop hmem
      simp [hkind] at hcontent
    · next first beyond hcons =>
      exact List.dropWhile_subset _ (hcons ▸ List.mem_cons_self)

/-- A stream with an end is refused at the start of one of its tokens. -/
theorem exists_start_of_parse {limit : Nat} (hends : ∃ token ∈ tokens, token.kind = .eof)
    (h : parse tokens file limit = .error error) :
    ∃ token ∈ tokens, error.position = token.span.start := by
  unfold parse at h
  split at h
  · next token htrailing =>
    cases h
    have hmem := List.mem_of_find?_eq_some htrailing
    exact ⟨token, List.dropWhile_subset _ hmem, rfl⟩
  · -- A run is compared with itself, so the places that an error may name are those of its tokens.
    let Q : Position → Position → Prop := fun position _ =>
      ∃ token ∈ tokens, position = token.span.start
    let c := Cursor.ofTokens tokens file
    have halike (n : Nat) : c.Alike Q n c := by
      refine ⟨rfl, rfl, List.forall₂_same.2 fun token hmem => ⟨rfl, rfl, token, ?_, rfl⟩⟩
      exact visible_subset hends file (List.take_subset _ _ hmem)
    have hsame := (local_program limit c).alike (Nat.le_refl 2) (halike _)
    cases hrun : Grammar.program limit c with
    | ok body c' =>
      rw [EStateM.run, hrun] at h
      cases h
    | error error' c' =>
      rw [EStateM.run, hrun] at h
      cases h
      rw [hrun] at hsame
      exact hsame.1.position

/-- All positions that are reported are true: those of the tokens of a source, and those of the
errors that it is refused with. The source is short enough for 32 bits to hold the column behind its
last byte. -/
theorem pointsInto_of_source {source file : String}
    (hlength : byteLength source.toList + 1 < UInt32.size) :
    (∀ tokens, tokenize source file = .ok tokens →
      ∀ token ∈ tokens, token.PointsInto source.toList file) ∧
    ∀ limit error, parseSource source file limit = .error error →
      error.position.PointsInto source.toList file := by
  have htokens (tokens : List Token) (h : tokenize source file = .ok tokens) :
      ∀ token ∈ tokens, token.PointsInto source.toList file :=
    pointsInto_tokensOfLines hlength (pointsInto_endPosition hlength) (fun _ hline => hline) h
  refine ⟨htokens, fun limit error h => ?_⟩
  unfold parseSource at h
  cases htokenize : tokenize source file with
  | error refused =>
    rw [htokenize] at h
    cases h
    exact pointsInto_of_tokensOfLines_eq_error hlength (fun _ hline => hline) htokenize
  | ok tokens =>
    rw [htokenize] at h
    obtain ⟨token, hmem, hposition⟩ :=
      exists_start_of_parse (exists_eof_of_tokensOfLines htokenize) h
    rw [hposition]
    exact (htokens tokens htokenize token hmem).start

/-- A bracket that is closed without being opened, on the second line behind a character of two
bytes. -/
theorem pointsInto_of_source_bracket :
    let source := "x\r\n\"\u00e9\" ]"
    byteLength source.toList + 1 < UInt32.size ∧
      parseSource source "f" 8 =
        .error ⟨.unexpected "]" .closeBracket "end of line", ⟨8, 2, 6, "f"⟩⟩ ∧
      (⟨8, 2, 6, "f"⟩ : Position).PointsInto source.toList "f" := by
  intro source
  have hlength : byteLength source.toList + 1 < UInt32.size := by decide
  have h : parseSource source "f" 8 =
      .error ⟨.unexpected "]" .closeBracket "end of line", ⟨8, 2, 6, "f"⟩⟩ := by cbv
  exact ⟨hlength, h, (pointsInto_of_source hlength).2 8 _ h⟩

/-- The end of 4294967295 blanks is in the column behind as many, which 32 bits cut to 0. -/
theorem not_pointsInto_blanks :
    let source := String.ofList (List.replicate 4294967295 ' ')
    let token : Token := .eof ⟨4294967295, 1, 0, "f"⟩
    byteLength source.toList < UInt32.size ∧ tokenize source "f" = .ok [token] ∧
      ¬ token.PointsInto source.toList "f" := by
  intro source token
  have hblanks : ∀ c ∈ List.replicate 4294967295 ' ', Line.isIndentation c = true := by
    intro c hmem
    rw [List.eq_of_mem_replicate hmem]
    rfl
  have htokens := tokenize_indentation hblanks "f"
  rw [List.length_replicate] at htokens
  refine ⟨?_, htokens, fun hpoints => ?_⟩
  · rw [String.toList_ofList, Line.byteLength_of_isIndentation hblanks, List.length_replicate]
    decide
  · obtain ⟨line, -, -, hcolumn⟩ := hpoints.stop.exists_line
    exact Nat.succ_ne_zero _ hcolumn.symm

end Offside
