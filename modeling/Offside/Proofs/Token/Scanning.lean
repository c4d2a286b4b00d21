import Mathlib
import Offside.Proofs.Token.Ends
import Offside.Proofs.Token.Standing

/-! # Scans never fail to answer

A step of a scan that succeeds passes a byte at least, and leaves what is to come as it is. So a
scan ends, and its answer is the stream of the source.
-/

namespace Offside

namespace Scanner

variable {source : List Char} {file : String} {s : Scanner} {before left rest : List Char}
  {texts : List (List Char)} {result : Except SyntaxError (List Token)}

/-! ## Steps -/

section Match

variable {matched more : List Char} {pattern : Pattern}

theorem after_skip (s : Scanner) (part rest : List Char) (texts : List (List Char))
    (content : List Token) :
    (s.skip (byteLength part)).after rest texts content = s.after (part ++ rest) texts content := by
  simp only [after, byteLength_append, ← Nat.add_assoc]
  rfl

/-- It is the same whether a token was added or is still to come. -/
theorem after_cons (s : Scanner) (token : Token) (rest : List Char) (texts : List (List Char))
    (content : List Token) :
    { s with tokens := token :: s.tokens }.after rest texts content =
      s.after rest texts (token :: content) := by
  simp only [after, List.reverse_cons, List.append_assoc, List.isEmpty_cons, Bool.and_false]
  rfl

theorem byteLength_pos_of_first? {text : List Char}
    (h : Pattern.first? text = some (pattern, matched.length)) : 0 < byteLength matched :=
  byteLength_pos (List.ne_nil_of_length_pos (Pattern.of_first? h).2.2)

theorem goes_skip (h : s.Placed source file before (matched ++ more)) (hfeed : '\n' ∉ matched)
    (hcut : Line.cut [] more = rest :: texts)
    (hfirst : Pattern.first? (matched ++ rest) = some (pattern, matched.length))
    (hkept : ∀ pieces, Lexeme.kept s.atLineStart
      (⟨some pattern, matched, s.offset - s.lineStart⟩ :: pieces) =
        Lexeme.kept s.atLineStart pieces) :
    Goes source file (s.offset + 1) (s.outcome (matched ++ rest) texts)
      (some (.ok (s.skip (byteLength matched)))) := by
  have hbytes := byteLength_pos_of_first? hfirst
  refine .moved (Nat.add_le_add_left hbytes _) ⟨_, rest, texts, h.skip hfeed, hcut, ?_⟩
  rw [outcome, outcome, Lexeme.cut_append hfirst rfl, hkept, ← h.column_skip]
  simp only [after_skip]
  rfl

theorem push?_eq (h : s.Placed source file before (matched ++ more)) (hfeed : '\n' ∉ matched)
    (kind : Kind) (value : List Char) :
    s.push? kind value (byteLength matched) = some { s.skip (byteLength matched) with
      tokens := ⟨kind, String.ofList value,
        ⟨s.current.position s.file (s.offset - s.lineStart),
          s.current.position s.file (s.offset - s.lineStart + byteLength matched)⟩⟩ ::
        s.tokens } := by
  have hstop : (s.skip (byteLength matched)).position? =
      some (s.current.position s.file (s.offset - s.lineStart + byteLength matched)) := by
    rw [← h.column_skip]
    exact (h.skip hfeed).position?_eq
  rw [push?, h.position?_eq, hstop]
  rfl

theorem goes_push? (h : s.Placed source file before (matched ++ more)) (hfeed : '\n' ∉ matched)
    (hcut : Line.cut [] more = rest :: texts)
    (hfirst : Pattern.first? (matched ++ rest) = some (pattern, matched.length))
    {kind : Kind} {value : List Char}
    (hmeaning : Lexeme.meaning? ⟨some pattern, matched, s.offset - s.lineStart⟩ =
      some (kind, value))
    (hcomment : s.atLineStart = false → pattern ≠ .comment) :
    Goes source file (s.offset + 1) (s.outcome (matched ++ rest) texts)
      (.ok <$> s.push? kind value (byteLength matched)) := by
  generalize hpiece : (⟨some pattern, matched, s.offset - s.lineStart⟩ : Lexeme) = piece at hmeaning
  have hpieces : Lexeme.cut (s.offset - s.lineStart) (matched ++ rest) =
      piece :: Lexeme.cut ((s.skip (byteLength matched)).offset - s.lineStart) rest := by
    rw [Lexeme.cut_append hfirst rfl, hpiece, h.column_skip]
  obtain ⟨-, behind, -, -, htaken⟩ := Lexeme.taken_of_mem_cut (hpieces ▸ List.mem_cons_self)
  obtain ⟨hcontent, -, -⟩ := htaken.spells hmeaning
  have hpush := push?_eq h hfeed kind value
  generalize htoken : (⟨kind, String.ofList value, _⟩ : Token) = token at hpush
  have hpieceToken : piece.token s.current s.file = pure token := by
    rw [Lexeme.token, hmeaning, ← hpiece, ← htoken]
    rfl
  -- Behind a token the line is no longer fresh, which is when comments stop to count.
  let s' : Scanner := { s.skip (byteLength matched) with tokens := token :: s.tokens }
  have hplaced : s'.Placed source file (before ++ matched) more :=
    { h.skip hfeed with length_widths := fun hnil => absurd hnil (List.cons_ne_nil _ _) }
  have hfresh : s'.atLineStart = false := atLineStart_of_isContent rfl (htoken ▸ hcontent)
  have hkept : Lexeme.kept s.atLineStart (Lexeme.cut (s.offset - s.lineStart) (matched ++ rest)) =
      piece :: Lexeme.kept s'.atLineStart (Lexeme.cut (s'.offset - s'.lineStart) rest) := by
    rw [hpieces, hfresh]
    refine Lexeme.kept_solid (Lexeme.isSpacing_of_meaning? hmeaning) (fun hfresh => ?_) _
    rw [← hpiece, Lexeme.isComment, decide_eq_false_iff_not, Option.some_inj]
    exact hcomment hfresh
  have hbytes := byteLength_pos_of_first? hfirst
  rw [hpush]
  refine .moved (Nat.add_le_add_left hbytes _) ⟨_, rest, texts, hplaced, hcut, ?_⟩
  rw [outcome, outcome, hkept, List.mapM_cons, hpieceToken]
  simp only [pure_bind, bind_assoc]
  refine bind_congr fun content => ?_
  rw [← after_skip]
  exact after_cons (s.skip (byteLength matched)) token rest texts content

theorem goes_lineBreak (h : s.Placed source file before (matched ++ more))
    (hcut : Line.cut [] (matched ++ more) = rest :: texts)
    (hfirst : Pattern.first? (matched ++ more) = some (.lineBreak, matched.length)) :
    Goes source file (s.offset + 1) (s.outcome rest texts)
      ((s.skip (byteLength matched)).newLine?.bind enterLine?) := by
  obtain ⟨-, hreach, hpos⟩ := Pattern.of_first? hfirst
  rw [Pattern.reach] at hreach
  have hlines := Pattern.cut_of_reachLineBreak (hreach ▸ Nat.ne_of_gt hpos)
  rw [hreach, List.take_left, List.drop_left, hcut] at hlines
  obtain ⟨rfl, rfl⟩ := List.cons_eq_cons.1 hlines
  rw [Pattern.first?_of_cut hcut] at hfirst
  have hkept : Lexeme.kept s.atLineStart (Lexeme.cut (s.offset - s.lineStart) rest) = [] :=
    Lexeme.kept_cut_eq_nil hfirst (.inl rfl) _
  rw [outcome_of_kept_eq_nil hkept, h.newLine?_eq hcut, Option.bind_some,
    ← h.toNat_newLine hcut]
  exact (goes_enterLine? (h.newLine hcut)).mono
    (Nat.add_le_add_left (byteLength_pos_of_first? hfirst) _)

/-- A character that no pattern claims ends the scan. -/
theorem goes_unrecognised {c : Char} (h : s.Placed source file before (c :: more))
    (hcut : Line.cut [] (c :: more) = rest :: texts) (hfirst : Pattern.first? (c :: more) = none) :
    Goes source file (s.offset + 1) (s.outcome rest texts) s.step? := by
  obtain ⟨rest, rfl⟩ := List.head?_eq_some_iff.1 (Line.head?_of_cut hcut).symm
  have hstep : s.step? = some (.error ⟨.unrecognised (String.ofList [c]),
      s.current.position s.file (s.offset - s.lineStart)⟩) := by
    rw [step?, h.remainder?_eq, Option.bind_eq_bind, Option.bind_some, hfirst, h.position?_eq]
    rfl
  rw [Pattern.first?_of_cut hcut] at hfirst
  rw [hstep]
  refine .failed ?_
  rw [outcome, Lexeme.cut, hfirst, Lexeme.kept_solid rfl (fun _ => rfl), List.mapM_cons]
  rfl

/-- A match on the line is passed, and added if it stands for a token. -/
theorem goes_handle? (h : s.Placed source file before (matched ++ more)) (hfeed : '\n' ∉ matched)
    (hcut : Line.cut [] more = rest :: texts)
    (hfirst : Pattern.first? (matched ++ rest) = some (pattern, matched.length))
    (hextent : pattern.Extent matched more) (hbreak : pattern ≠ .lineBreak) :
    Goes source file (s.offset + 1) (s.outcome (matched ++ rest) texts)
      (s.handle? matched pattern) := by
  cases pattern with
  | lineBreak => exact absurd rfl hbreak
  | blanks => exact goes_skip h hfeed hcut hfirst (Lexeme.kept_spacing rfl _)
  | comment =>
    rw [handle?]
    cases hfresh : s.atLineStart with
    | false =>
      refine goes_skip h hfeed hcut hfirst fun pieces => ?_
      rw [hfresh, Lexeme.kept_comment rfl rfl]
    | true => exact goes_push? h hfeed hcut hfirst rfl (by simp [hfresh])
  | word => exact goes_push? h hfeed hcut hfirst rfl (by simp)
  | numeral => exact goes_push? h hfeed hcut hfirst rfl (by simp)
  | quoted =>
    obtain ⟨body, -, rfl⟩ := hextent
    rw [handle?, slice?_quotes]
    refine goes_push? h hfeed hcut hfirst ?_ (by simp)
    rw [Lexeme.meaning?, List.tail_cons, List.dropLast_concat]
  | symbol written kind =>
    obtain rfl := Pattern.written_eq_of_first? hfirst
    exact goes_push? h hfeed hcut hfirst rfl (by simp)

end Match

/-- Each step passes a byte at least. -/
theorem goes_step? (h : s.Stands source file left result) (hmore : s.atEnd = false) :
    Goes source file (s.offset + 1) result s.step? := by
  obtain ⟨before, rest, texts, hplaced, hcut, rfl⟩ := h
  have hleft : left ≠ [] := by
    rintro rfl
    rw [hplaced.atEnd_iff.2 rfl] at hmore
    cases hmore
  cases hfirst : Pattern.first? left with
  | none =>
    obtain ⟨c, more, rfl⟩ := List.exists_cons_of_ne_nil hleft
    exact goes_unrecognised hplaced hcut hfirst
  | some found =>
    obtain ⟨pattern, size⟩ := found
    obtain ⟨matched, more, rfl, rfl, hmem, hextent⟩ := Pattern.exists_of_first? hfirst
    have hstep : s.step? = s.handle? matched pattern := by
      rw [step?, hplaced.remainder?_eq, Option.bind_eq_bind, Option.bind_some, hfirst]
      simp only [List.take_left]
    rw [hstep]
    by_cases hbreak : pattern = .lineBreak
    · subst hbreak
      exact goes_lineBreak hplaced hcut hfirst
    · have hfeed : '\n' ∉ matched := by
        have hline := Pattern.lineFeed_not_mem_take hmem hbreak (matched ++ more)
        rwa [(Pattern.of_first? hfirst).2.1, List.take_left] at hline
      obtain ⟨behind, texts', hmore⟩ := Line.exists_cut more
      have hwhole := Line.cut_append_eq_cons hfeed hmore
      rw [hcut] at hwhole
      obtain ⟨rfl, rfl⟩ := List.cons_eq_cons.1 hwhole
      rw [Pattern.first?_of_cut hcut] at hfirst
      exact goes_handle? hplaced hfeed hmore hfirst hextent hbreak

/-! ## Runs -/

theorem finish?_eq (h : s.Stands source file [] result) :
    ∃ tokens, s.finish? = some tokens ∧ result = .ok tokens := by
  obtain ⟨before, rest, texts, hplaced, hcut, rfl⟩ := h
  obtain ⟨rfl, rfl⟩ : [] = rest ∧ [] = texts := List.cons_eq_cons.1 hcut
  have hlast : endPosition s.file (Line.ofSource s.source) =
      s.current.position s.file (s.offset - s.lineStart) := by
    obtain ⟨lines, hlines⟩ := hplaced.lines
    rw [Line.cut, List.reverse_reverse, Line.ofTexts, Line.ofTexts] at hlines
    rw [endPosition, hplaced.source_eq, ← hlines, List.getLast?_concat, hplaced.column_eq]
    rfl
  have hleave : Layout.leave s.opened = Layout.leave s.widths := by
    unfold opened
    cases htokens : s.tokens with
    | nil =>
      rw [Layout.leave, Layout.leave, hplaced.length_widths htokens]
      rfl
    | cons token tokens => rfl
  have hkept : Lexeme.kept s.atLineStart (Lexeme.cut (s.offset - s.lineStart) []) = [] := by
    rw [Lexeme.cut, Lexeme.kept_nil]
  refine ⟨_, by rw [finish?, hplaced.position?_eq]; rfl, ?_⟩
  rw [outcome_of_kept_eq_nil hkept, Line.ofTexts, tokensOfLines, hlast, hleave]
  rfl

/-- A scan has steps enough if it may make one for each byte that is left. -/
theorem run?_eq (h : s.Stands source file left result) {turns : Nat}
    (hturns : byteLength left < turns) : s.run? turns = some result := by
  induction turns generalizing s left with
  | zero => cases hturns
  | succ turns ih =>
    obtain ⟨before, hplaced⟩ := h.exists_placed
    rw [run?]
    cases hend : s.atEnd with
    | true =>
      obtain rfl := hplaced.atEnd_iff.1 hend
      obtain ⟨tokens, hfinish, rfl⟩ := finish?_eq h
      rw [hfinish]
      rfl
    | false =>
      have hgoes := goes_step? h hend
      generalize s.step? = next at hgoes
      cases hgoes with
      | failed herror =>
        rw [herror]
        rfl
      | @moved s' left' hoffset hstands =>
        obtain ⟨before', hplaced'⟩ := hstands.exists_placed
        have hadd := hplaced.offset_add
        have hadd' := hplaced'.offset_add
        exact ih hstands (by omega)

theorem placed_ofSource (hfeeds : source.count '\n' + 1 < UInt32.size) (file : String) :
    (ofSource source file).Placed source file [] source where
  source_eq := rfl
  file_eq := rfl
  text := ⟨[], rfl, rfl⟩
  offset_eq := rfl
  lines := List.suffix_rfl
  room := (Nat.add_comm ..).trans_lt hfeeds
  widths_ne_nil := List.cons_ne_nil _ _
  length_widths := fun _ => rfl

theorem pending_ofSource (source : String) (file : String) :
    (ofSource source.toList file).pending source.toList = tokenize source file := by
  simp only [pending, ofSource, opened, List.isEmpty_nil, if_true, List.reverse_nil,
    List.nil_append, bind_pure]
  rfl

theorem scan?_eq (hfeeds : source.count '\n' + 1 < UInt32.size) (file : String) :
    scan? source file = some ((ofSource source file).pending source) := by
  have hplaced := placed_ofSource hfeeds file
  have hgoes := goes_enterLine? hplaced
  rw [scan?]
  generalize (ofSource source file).enterLine? = next at hgoes
  cases hgoes with
  | failed herror =>
    rw [herror]
    rfl
  | @moved s left hoffset hstands =>
    obtain ⟨before, hplaced⟩ := hstands.exists_placed
    have hadd := hplaced.offset_add
    exact run?_eq hstands (by omega)

theorem Visited.exists_stands (h : Visited source file s)
    (hfeeds : source.count '\n' + 1 < UInt32.size) :
    ∃ left, s.Stands source file left ((ofSource source file).pending source) := by
  induction h with
  | first henter =>
    have hgoes := goes_enterLine? (placed_ofSource hfeeds file)
    rw [henter] at hgoes
    cases hgoes with
    | moved _ hstands => exact ⟨_, hstands⟩
  | next _ hmore hstep ih =>
    obtain ⟨left, hstands⟩ := ih
    have hgoes := goes_step? hstands hmore
    rw [hstep] at hgoes
    cases hgoes with
    | moved _ hstands => exact ⟨_, hstands⟩

/-- Line feeds run over the count of the lines if there are as many of them as it has numbers left.
No number of turns gets a scanner past them. -/
theorem skipBlank?_lineFeeds {passed : List Char} {feeds : Nat}
    (hsource : s.source = passed ++ List.replicate feeds '\n')
    (hoffset : s.offset = byteLength passed) (hline : s.line.toNat + feeds = UInt32.size)
    (turns : Nat) : skipBlank? turns s = none := by
  induction turns generalizing s passed feeds with
  | zero => rfl
  | succ turns ih =>
    cases feeds with
    | zero => exact absurd hline (Nat.ne_of_lt s.line.toNat_lt)
    | succ feeds =>
      have hrest : s.remainder? = some ('\n' :: List.replicate feeds '\n') := by
        rw [Reader.remainder?, hsource, hoffset, dropBytes?_append, List.replicate_succ]
      have hskip : skipBlank? (turns + 1) s = (s.skip 1).newLine?.bind (skipBlank? turns) := by
        rw [skipBlank?, hrest]
        rfl
      rw [hskip, newLine?]
      split
      · next hroom =>
        have hnumber : (s.skip 1).newLine.line.toNat = s.line.toNat + 1 := toNat_newLine hroom
        have hnext : (s.skip 1).newLine.source = (passed ++ ['\n']) ++ List.replicate feeds '\n' :=
          hsource.trans (List.append_cons ..)
        have hbehind : (s.skip 1).newLine.offset = byteLength (passed ++ ['\n']) := by
          rw [byteLength_append, ← hoffset]
          rfl
        exact ih hnext hbehind (by omega)
      · rfl

theorem scan?_lineFeeds {feeds : Nat} (h : feeds + 1 = UInt32.size) (file : String) :
    scan? (List.replicate feeds '\n') file = none := by
  have hskip : ∀ turns, skipBlank? turns (ofSource (List.replicate feeds '\n') file) = none :=
    skipBlank?_lineFeeds (List.nil_append _).symm rfl ((Nat.add_comm ..).trans h)
  rw [scan?, enterLine?, hskip]
  rfl

end Scanner

/-- The stream of a source is what a scan of it answers, which is never stuck and makes no more
steps than there are bytes. Between two steps a scanner stands between two characters, not before
the start of its line. Unless it is at the end, its next step fails or passes a byte at least. The
stream ends with the only token that stands for the end. All this takes a source whose lines can be
counted in 32 bits, which are one more than its line feeds. -/
theorem tokenize_eq_scan (source file : String)
    (hfeeds : source.toList.count '\n' + 1 < UInt32.size) :
    scan? source.toList file = some (tokenize source file) ∧
    (∀ s : Scanner, s.Visited source.toList file →
      s.remainder?.isSome ∧ s.lineStart ≤ s.offset ∧
      (s.atEnd = false →
        ∃ next, s.step? = some next ∧ ∀ s', next = .ok s' → s.offset < s'.offset)) ∧
    ∀ tokens, tokenize source file = .ok tokens → EndsOnce tokens := by
  refine ⟨?_, fun s hvisited => ?_, fun tokens => endsOnce_of_tokensOfLines⟩
  · rw [Scanner.scan?_eq hfeeds, Scanner.pending_ofSource]
  · obtain ⟨left, hstands⟩ := hvisited.exists_stands hfeeds
    obtain ⟨before, hplaced⟩ := hstands.exists_placed
    refine ⟨?_, hplaced.lineStart_le, fun hmore => ?_⟩
    · rw [hplaced.remainder?_eq]
      rfl
    · have hgoes := Scanner.goes_step? hstands hmore
      generalize s.step? = next at hgoes ⊢
      cases hgoes with
      | failed herror => exact ⟨_, rfl, nofun⟩
      | moved hoffset hstands' =>
        refine ⟨_, rfl, fun s' hnext => ?_⟩
        cases hnext
        exact hoffset

/-- Behind 4294967295 line feeds a line begins whose number has no room in 32 bits, and the scan is
stuck there. -/
theorem scan_lineFeeds_eq_none :
    let source := String.ofList (List.replicate 4294967295 '\n')
    source.toList.count '\n' + 1 = UInt32.size ∧ scan? source.toList "shell" = none := by
  intro source
  have hsource : source.toList = List.replicate 4294967295 '\n' := String.toList_ofList
  rw [hsource, List.count_replicate_self]
  exact ⟨rfl, Scanner.scan?_lineFeeds rfl "shell"⟩

/-- Behind a literal with a character of two bytes, at the end of the first line. -/
theorem tokenize_eq_scan_literal :
    let source := "\"\u00e9\"\r\n \n// \u00fc"
    let literal : Token := ⟨.string, "\u00e9", ⟨⟨0, 1, 1, "shell"⟩, ⟨4, 1, 5, "shell"⟩⟩⟩
    let tokens : List Token :=
      [literal,
       ⟨.terminator, "newline", .empty ⟨8, 3, 1, "shell"⟩⟩,
       ⟨.comment, "\u00fc", ⟨⟨8, 3, 1, "shell"⟩, ⟨13, 3, 6, "shell"⟩⟩⟩,
       ⟨.eof, "EOF", .empty ⟨13, 3, 6, "shell"⟩⟩]
    let s : Scanner := ⟨⟨source.toList, "shell", 4⟩, 1, 0, [0], [literal]⟩
    source.toList.count '\n' + 1 < UInt32.size ∧
      scan? source.toList "shell" = some (.ok tokens) ∧ EndsOnce tokens ∧
      s.Visited source.toList "shell" ∧ s.atEnd = false ∧
      ∃ next, s.step? = some next ∧ ∀ s', next = .ok s' → 4 < s'.offset := by
  intro source literal tokens s
  have htokens : tokenize source "shell" = .ok tokens := by cbv
  have hfirst : (Scanner.ofSource source.toList "shell").enterLine? =
      some (.ok (Scanner.ofSource source.toList "shell")) := by cbv
  have hstep : (Scanner.ofSource source.toList "shell").step? = some (.ok s) := by
    simp only [s]
    cbv
  have hvisited : s.Visited source.toList "shell" := .next (.first hfirst) (by decide) hstep
  have hmore : s.atEnd = false := by decide
  have hfeeds : source.toList.count '\n' + 1 < UInt32.size := by decide
  obtain ⟨hscan, hvisits, hends⟩ := tokenize_eq_scan source "shell" hfeeds
  refine ⟨hfeeds, ?_, hends tokens htokens, hvisited, hmore, (hvisits s hvisited).2.2 hmore⟩
  exact hscan.trans (congrArg some htokens)

end Offside
