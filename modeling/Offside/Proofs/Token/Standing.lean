import Offside.Proofs.Lexeme.FirstLine
import Offside.Proofs.Lexeme.Pieces
import Offside.Proofs.Token.Scanner

/-! # Where a scan stands

A scanner that stands between two characters knows what it will answer: what the lines that are left
are turned into. Passing characters keeps it so, and so do blank lines and the marks before the line
behind them.
-/

namespace Offside

/-! ## The pieces that count -/

namespace Lexeme

/-- The pieces of the rest of a line that count. A comment does where nothing stands before it. -/
def kept (fresh : Bool) (pieces : List Lexeme) : List Lexeme :=
  let solid := pieces.filter (!·.isSpacing)
  if fresh then solid.take 1 ++ (solid.drop 1).filter (!·.isComment)
  else solid.filter (!·.isComment)

variable {piece : Lexeme} {pieces : List Lexeme} {fresh : Bool}

theorem isSpacing_of_meaning? {meaning : Kind × List Char} (h : piece.meaning? = some meaning) :
    piece.isSpacing = false := by
  obtain ⟨pattern, hpattern, hbreak, hblanks⟩ := pattern_of_meaning? h
  simp [isSpacing, hpattern, hbreak, hblanks]

theorem lexemes_eq_kept (line : Line) : line.lexemes = kept true (cut 0 line.text) := by
  unfold Line.lexemes kept
  split <;> next h => rw [h]; rfl

theorem kept_nil (fresh : Bool) : kept fresh [] = [] := by
  cases fresh <;> rfl

theorem kept_spacing (h : piece.isSpacing = true) (fresh : Bool) (pieces : List Lexeme) :
    kept fresh (piece :: pieces) = kept fresh pieces := by
  rw [kept, kept, List.filter_cons_of_neg (by simp [h])]

theorem kept_comment (hspacing : piece.isSpacing = false) (hcomment : piece.isComment = true)
    (pieces : List Lexeme) : kept false (piece :: pieces) = kept false pieces := by
  simp [kept, hspacing, hcomment]

/-- A piece that counts, behind which comments do not. -/
theorem kept_solid (hspacing : piece.isSpacing = false)
    (hcomment : fresh = false → piece.isComment = false) (pieces : List Lexeme) :
    kept fresh (piece :: pieces) = piece :: kept false pieces := by
  cases fresh with
  | true => simp [kept, hspacing]
  | false => simp [kept, hspacing, hcomment]

/-- Nothing counts in a text that is one piece of spacing. -/
theorem kept_cut_eq_nil {text : List Char} {pattern : Pattern}
    (h : Pattern.first? text = some (pattern, text.length))
    (hspacing : pattern = .lineBreak ∨ pattern = .blanks) (offset : Nat) :
    kept fresh (cut offset text) = [] := by
  have hpiece : (⟨some pattern, text, offset⟩ : Lexeme).isSpacing = true := by
    simpa [isSpacing] using hspacing
  rw [← List.append_nil text] at h
  rw [← List.append_nil text, cut_append h (by simp), kept_spacing hpiece, cut, kept_nil]

end Lexeme

namespace Scanner

/-! ## What is to come -/

/-- The line a scanner is on, as far as positions go by it. -/
def current (s : Scanner) : Line :=
  ⟨s.line.toNat, s.lineStart, []⟩

/-- The stream that follows, given the tokens of the rest of the line and the lines behind it. -/
def after (s : Scanner) (rest : List Char) (texts : List (List Char)) (content : List Token) :
    Except SyntaxError (List Token) := do
  let inside := if s.tokens.isEmpty && content.isEmpty then [] else s.widths
  let following ← tokensOfLines s.file inside (endPosition s.file (Line.ofSource s.source))
    (Line.ofTexts (s.line.toNat + 1) (s.offset + byteLength rest) texts)
  return s.tokens.reverse ++ (content ++ following)

/-- The stream that is to come of a scanner with the given rest of its line and texts of the lines
behind it. -/
def outcome (s : Scanner) (rest : List Char) (texts : List (List Char)) :
    Except SyntaxError (List Token) := do
  let pieces := Lexeme.cut (s.offset - s.lineStart) rest
  let content ← (Lexeme.kept s.atLineStart pieces).mapM (·.token s.current s.file)
  s.after rest texts content

/-- The stream that is to come of a scanner at the start of a line whose marks are not added. -/
def pending (s : Scanner) (left : List Char) : Except SyntaxError (List Token) := do
  let following ← tokensOfLines s.file s.opened (endPosition s.file (Line.ofSource s.source))
    (Line.ofTexts s.line.toNat s.lineStart (Line.cut [] left))
  return s.tokens.reverse ++ following

/-- A scanner stands between two characters, with `before` on its line and `left` in the source
from there on. It knows the line it is on, and has room to count the lines that are left. -/
structure Placed (source : List Char) (file : String) (s : Scanner) (before left : List Char) :
    Prop where
  source_eq : s.source = source
  file_eq : s.file = file
  text : ∃ passed, source = passed ++ (before ++ left) ∧ byteLength passed = s.lineStart
  offset_eq : s.offset = s.lineStart + byteLength before
  lines : Line.ofTexts s.line.toNat s.lineStart (Line.cut before.reverse left) <:+
    Line.ofSource source
  room : s.line.toNat + left.count '\n' < UInt32.size
  widths_ne_nil : s.widths ≠ []
  length_widths : s.tokens = [] → s.widths.length = 1

/-- A scanner stands well, and a stream is to come of it. -/
def Stands (source : List Char) (file : String) (s : Scanner) (left : List Char)
    (result : Except SyntaxError (List Token)) : Prop :=
  ∃ before rest texts, s.Placed source file before left ∧ Line.cut [] left = rest :: texts ∧
    s.outcome rest texts = result

/-- A scan goes on from a given offset, or fails, as the stream says that is to come of it. It is
not stuck. -/
inductive Goes (source : List Char) (file : String) (offset : Nat)
    (result : Except SyntaxError (List Token)) : Option (Except SyntaxError Scanner) → Prop where
  | failed {error : SyntaxError} : result = .error error →
      Goes source file offset result (some (.error error))
  | moved {s : Scanner} {left : List Char} : offset ≤ s.offset → s.Stands source file left result →
      Goes source file offset result (some (.ok s))

variable {source : List Char} {file : String} {s : Scanner} {before left rest : List Char}
  {texts : List (List Char)} {result : Except SyntaxError (List Token)}

theorem Stands.exists_placed (h : s.Stands source file left result) :
    ∃ before, s.Placed source file before left := by
  obtain ⟨before, -, -, hplaced, -⟩ := h
  exact ⟨before, hplaced⟩

theorem Goes.mono {offset offset' : Nat} {next : Option (Except SyntaxError Scanner)}
    (h : Goes source file offset result next) (hle : offset' ≤ offset) :
    Goes source file offset' result next := by
  cases h with
  | failed herror => exact .failed herror
  | moved hoffset hstands => exact .moved (Nat.le_trans hle hoffset) hstands

theorem outcome_of_kept_eq_nil
    (h : Lexeme.kept s.atLineStart (Lexeme.cut (s.offset - s.lineStart) rest) = []) :
    s.outcome rest texts = (do
      let following ← tokensOfLines s.file s.opened (endPosition s.file (Line.ofSource s.source))
        (Line.ofTexts (s.line.toNat + 1) (s.offset + byteLength rest) texts)
      return s.tokens.reverse ++ following) := by
  rw [outcome, h]
  simp only [List.mapM_nil, pure_bind, after, opened, List.isEmpty_nil, Bool.and_true,
    List.nil_append]

namespace Placed

theorem lineStart_le (h : s.Placed source file before left) : s.lineStart ≤ s.offset := by
  rw [h.offset_eq]
  exact Nat.le_add_right _ _

theorem column_eq (h : s.Placed source file before left) :
    s.offset - s.lineStart = byteLength before := by
  rw [h.offset_eq, Nat.add_sub_cancel_left]

theorem column_skip (h : s.Placed source file before left) (bytes : Nat) :
    (s.skip bytes).offset - s.lineStart = s.offset - s.lineStart + bytes :=
  Nat.sub_add_comm h.lineStart_le

theorem remainder?_eq (h : s.Placed source file before left) : s.remainder? = some left := by
  obtain ⟨passed, hsource, hpassed⟩ := h.text
  rw [Reader.remainder?, h.source_eq, hsource, h.offset_eq, ← hpassed, ← byteLength_append,
    ← List.append_assoc, dropBytes?_append]

theorem offset_add (h : s.Placed source file before left) :
    s.offset + byteLength left = byteLength source := by
  obtain ⟨passed, hsource, hpassed⟩ := h.text
  rw [h.offset_eq, hsource, byteLength_append, byteLength_append, hpassed, Nat.add_assoc]

theorem atEnd_iff (h : s.Placed source file before left) : s.atEnd = true ↔ left = [] := by
  have hadd := h.offset_add
  rw [Reader.atEnd, h.source_eq, decide_eq_true_eq]
  constructor
  · intro hle
    by_contra hleft
    have := byteLength_pos hleft
    omega
  · rintro rfl
    rw [byteLength_nil] at hadd
    omega

theorem position?_eq (h : s.Placed source file before left) :
    s.position? = some (s.current.position s.file (s.offset - s.lineStart)) := by
  have hle := h.lineStart_le
  rw [position?, if_pos hle]
  simp only [Line.position, current, Nat.add_sub_cancel' hle, Nat.toUInt32_eq, UInt32.ofNat_toNat]

/-- Passing a part of the line that ends behind a character. -/
theorem skip {part : List Char} (h : s.Placed source file before (part ++ left))
    (hpart : '\n' ∉ part) :
    (s.skip (byteLength part)).Placed source file (before ++ part) left where
  source_eq := h.source_eq
  file_eq := h.file_eq
  text := by
    obtain ⟨passed, hsource, hpassed⟩ := h.text
    exact ⟨passed, by rw [hsource, List.append_assoc], hpassed⟩
  offset_eq := by
    rw [byteLength_append, ← Nat.add_assoc]
    exact congrArg (· + byteLength part) h.offset_eq
  lines := by
    have hlines := h.lines
    rw [Line.cut_append_of_not_mem hpart] at hlines
    rwa [List.reverse_append]
  room := by
    have hroom := h.room
    rwa [List.count_append, List.count_eq_zero.2 hpart, Nat.zero_add] at hroom
  widths_ne_nil := h.widths_ne_nil
  length_widths := h.length_widths

section NewLine

variable {more : List Char} (h : s.Placed source file before (rest ++ more))
  (hcut : Line.cut [] (rest ++ more) = rest :: Line.cut [] more)

include h hcut

/-- There is room to count the line behind the rest of the line, which ends with a line feed. -/
theorem succ_line_add_lt : s.line.toNat + 1 + more.count '\n' < UInt32.size := by
  have hroom := h.room
  rw [List.count_append, Line.count_of_cut hcut] at hroom
  omega

theorem succ_line_lt : s.line.toNat + 1 < UInt32.size :=
  Nat.lt_of_le_of_lt (Nat.le_add_right _ _) (h.succ_line_add_lt hcut)

theorem toNat_newLine : (s.skip (byteLength rest)).newLine.line.toNat = s.line.toNat + 1 :=
  Scanner.toNat_newLine (h.succ_line_lt hcut)

theorem newLine?_eq :
    (s.skip (byteLength rest)).newLine? = some (s.skip (byteLength rest)).newLine :=
  if_pos (h.succ_line_lt hcut)

/-- Passing the rest of the line. -/
theorem newLine : ((s.skip (byteLength rest)).newLine).Placed source file [] more where
  source_eq := h.source_eq
  file_eq := h.file_eq
  text := by
    obtain ⟨passed, hsource, hpassed⟩ := h.text
    refine ⟨passed ++ (before ++ rest), by simp [hsource], ?_⟩
    change _ = s.offset + byteLength rest
    rw [byteLength_append, byteLength_append, hpassed, h.offset_eq, Nat.add_assoc]
  offset_eq := rfl
  lines := by
    have hlines := h.lines
    rw [Line.cut_eq_cons hcut, List.reverse_reverse, Line.ofTexts, byteLength_append,
      ← Nat.add_assoc, ← h.offset_eq, ← h.toNat_newLine hcut] at hlines
    exact (List.suffix_cons _ _).trans hlines
  room := by
    rw [h.toNat_newLine hcut]
    exact h.succ_line_add_lt hcut
  widths_ne_nil := h.widths_ne_nil
  length_widths := h.length_widths

end NewLine

end Placed

/-! ## Line starts -/

theorem atLineStart_of_marks {marks : List Layout.Mark} {position : Position}
    {earlier : List Token} (h : s.tokens = (marks.map (·.token position)).reverse ++ earlier)
    (hnone : marks = [] → earlier = []) : s.atLineStart = true := by
  unfold atLineStart
  rcases List.eq_nil_or_concat' marks with rfl | ⟨init, mark, rfl⟩
  · rw [h, hnone rfl]
    rfl
  · rw [h]
    cases mark <;> simp [Layout.Mark.token, Layout.Mark.kind]

theorem atLineStart_of_isContent {token : Token} {tokens : List Token}
    (h : s.tokens = token :: tokens) (hcontent : token.kind.isContent = true) :
    s.atLineStart = false := by
  have hkind : ∀ kind : Kind, kind.isContent = true →
      (kind = .terminator || kind = .indent || kind = .outdent) = false := by
    intro kind hcontent
    cases kind <;> first | rfl | cases hcontent
  rw [atLineStart, h]
  exact hkind _ hcontent

theorem opened_eq_nil_iff (h : s.Placed source file before left) :
    s.opened = [] ↔ s.tokens = [] := by
  unfold opened
  cases s.tokens with
  | nil => simp
  | cons token tokens => simpa using h.widths_ne_nil

theorem widths_of_enter? {widths opened : List Nat} {width : Nat} {marks : List Layout.Mark}
    (h : Layout.enter? widths width = some (marks, opened)) :
    opened ≠ [] ∧ (widths = [] → marks = [] ∧ opened.length = 1) ∧ (marks = [] → widths = []) := by
  unfold Layout.enter? at h
  split at h
  · cases h
    simp
  · next top outer =>
    split at h
    · cases h
      simp
    · split at h
      · cases h
        simp
      · next hwider hsame =>
        dsimp only at h
        split at h
        · next hhead =>
          cases h
          have hinner : width < top := by omega
          refine ⟨?_, nofun, fun hmarks => ?_⟩
          · intro hnil
            rw [hnil] at hhead
            cases hhead
          · rw [List.takeWhile_cons_of_pos (by simpa using hinner), List.length_cons,
              Layout.closing] at hmarks
            cases hmarks
        · cases h

/-- Before a line that is not blank, the marks are those of the layout. -/
theorem goes_layout? (h : s.Placed source file [] left) (hcut : Line.cut [] left = rest :: texts)
    (hblank : (⟨s.line.toNat, s.lineStart, rest⟩ : Line).isBlank = false) :
    Goes source file s.offset (s.pending left)
      (s.layout? (⟨s.line.toNat, s.lineStart, rest⟩ : Line).width) := by
  generalize hline : (⟨s.line.toNat, s.lineStart, rest⟩ : Line) = line at hblank
  have hoffset : s.offset = s.lineStart := h.offset_eq
  have hposition : s.position? = some (line.position s.file 0) := by
    rw [h.position?_eq, h.column_eq, ← hline]
    rfl
  rw [pending, hcut, Line.ofTexts, hline, ← hoffset, tokensOfLines, if_neg (by simp [hblank]),
    layout?, hposition]
  cases henter : Layout.enter? s.opened line.width with
  | none => exact .failed rfl
  | some entered =>
    obtain ⟨marks, widths⟩ := entered
    obtain ⟨hwidths, hfirst, hmarks⟩ := widths_of_enter? henter
    -- Tokens were or are now added unless this is the first line with content. So whether the
    -- blocks count as open behind the marks is what it was before them.
    have hopened := opened_eq_nil_iff h
    let s' : Scanner := { s with
      widths
      tokens := (marks.map (·.token (line.position s.file 0))).reverse ++ s.tokens }
    have hnone : s'.tokens = [] ↔ s.opened = [] := by
      simp only [s', List.append_eq_nil_iff, List.reverse_eq_nil_iff, List.map_eq_nil_iff,
        ← hopened, and_iff_right_iff_imp]
      exact fun hnil => (hfirst hnil).1
    have hplaced : s'.Placed source file [] left :=
      { h with
        widths_ne_nil := hwidths
        length_widths := fun hnil => (hfirst (hnone.1 hnil)).2 }
    have hfresh : s'.atLineStart = true :=
      atLineStart_of_marks rfl fun hnil => hopened.1 (hmarks hnil)
    have hcontent : (Lexeme.kept s'.atLineStart (Lexeme.cut (s'.offset - s'.lineStart) rest)).mapM
        (·.token s'.current s'.file) = line.tokens s.file := by
      rw [hfresh, hplaced.column_eq, Line.tokens, Lexeme.lexemes_eq_kept, ← hline]
      rfl
    have hempty : s'.tokens.isEmpty = s.opened.isEmpty := by
      rw [Bool.eq_iff_iff, List.isEmpty_iff, List.isEmpty_iff, hnone]
    have hreverse : s'.tokens.reverse =
        s.tokens.reverse ++ marks.map (·.token (line.position s.file 0)) := by
      simp [s']
    refine .moved (Nat.le_refl _) ⟨[], rest, texts, hplaced, hcut, ?_⟩
    rw [outcome, hcontent]
    simp only [bind_assoc, pure_bind]
    refine bind_congr fun content => ?_
    rw [after, hempty, hreverse]
    simp only [List.append_assoc]

/-! ## Blank lines -/

theorem skipBlank?_succ (h : s.Placed source file before left) (turns : Nat) :
    skipBlank? (turns + 1) s =
      let after := left.dropWhile Line.isIndentation
      let width := (left.takeWhile Line.isIndentation).length
      if after.isEmpty then some (s, none)
      else if Pattern.reachLineBreak after = 0 then some (s, some width)
      else (s.skip (width + Pattern.reachLineBreak after)).newLine?.bind (skipBlank? turns) := by
  have hdrop : dropBytes? (left.takeWhile Line.isIndentation).length left =
      some (left.dropWhile Line.isIndentation) := by
    have hdrop := dropBytes?_append (left.takeWhile Line.isIndentation)
      (left.dropWhile Line.isIndentation)
    rwa [List.takeWhile_append_dropWhile,
      Line.byteLength_of_isIndentation (Line.isIndentation_takeWhile left)] at hdrop
  rw [skipBlank?, h.remainder?_eq]
  simp only [bind, Option.bind, hdrop]
  rfl

theorem tokensOfLines_blank {line : Line} {lines : List Line} {widths : List Nat} {last : Position}
    (h : line.isBlank = true) :
    tokensOfLines file widths last (line :: lines) = tokensOfLines file widths last lines := by
  rw [tokensOfLines, if_pos h]

theorem pending_newLine {more : List Char} (h : s.Placed source file [] (rest ++ more))
    (hcut : Line.cut [] (rest ++ more) = rest :: Line.cut [] more)
    (hblank : (⟨s.line.toNat, s.lineStart, rest⟩ : Line).isBlank = true) :
    (s.skip (byteLength rest)).newLine.pending more = s.pending (rest ++ more) := by
  have hstart : s.offset = s.lineStart := h.offset_eq
  rw [pending, pending, hcut, Line.ofTexts, tokensOfLines_blank hblank, ← hstart,
    h.toNat_newLine hcut]
  rfl

/-- What comes of blank lines is nothing. -/
theorem exists_skipBlank? {turns : Nat} (h : s.Placed source file [] left)
    (hturns : byteLength left < turns) :
    ∃ s' left' width?, skipBlank? turns s = some (s', width?) ∧ s.offset ≤ s'.offset ∧
      s'.Placed source file [] left' ∧ s'.pending left' = s.pending left ∧
      match width? with
      | none => ∀ c ∈ left', Line.isIndentation c = true
      | some width => ∃ rest texts, Line.cut [] left' = rest :: texts ∧
          (⟨s'.line.toNat, s'.lineStart, rest⟩ : Line).isBlank = false ∧
          (⟨s'.line.toNat, s'.lineStart, rest⟩ : Line).width = width := by
  -- Each blank line takes a turn and at least one byte, and there are more turns than bytes.
  induction turns generalizing s left with
  | zero => cases hturns
  | succ turns ih =>
    rw [skipBlank?_succ h]
    dsimp only
    by_cases hend : left.dropWhile Line.isIndentation = []
    · rw [if_pos (List.isEmpty_iff.2 hend)]
      exact ⟨s, left, none, rfl, Nat.le_refl _, h, rfl, List.dropWhile_eq_nil_iff.1 hend⟩
    · rw [if_neg (mt List.isEmpty_iff.1 hend)]
      by_cases hbreak : Pattern.reachLineBreak (left.dropWhile Line.isIndentation) = 0
      · rw [if_pos hbreak]
        obtain ⟨rest, texts, hcut⟩ := Line.exists_cut left
        obtain ⟨hindent, -⟩ := Line.indentation_of_cut hcut
        refine ⟨s, left, _, rfl, Nat.le_refl _, h, rfl, rest, texts, hcut, ?_, ?_⟩
        · simp [Line.isBlank_of_cut hcut, hend, hbreak]
        · rw [Line.width, hindent]
      · rw [if_neg hbreak]
        obtain ⟨rest, more, rfl, hcut, hbytes⟩ := Line.exists_blank hbreak
        rw [← hbytes, h.newLine?_eq hcut, Option.bind_some]
        have hblank : (⟨s.line.toNat, s.lineStart, rest⟩ : Line).isBlank = true := by
          simp [Line.isBlank_of_cut hcut, hbreak]
        have hpos : 0 < byteLength rest := by omega
        rw [byteLength_append] at hturns
        obtain ⟨s', left', width?, hskip, hoffset, hplaced, hpending, hwidth⟩ :=
          ih (h.newLine hcut) (by omega)
        refine ⟨s', left', width?, hskip, ?_, hplaced, ?_, hwidth⟩
        · exact Nat.le_trans (Nat.le_add_right _ _) hoffset
        · exact hpending.trans (pending_newLine h hcut hblank)

/-- Where indentation alone is left of the source, only the end is to come. -/
theorem outcome_of_indentation (hleft : ∀ c ∈ left, Line.isIndentation c = true) :
    s.outcome left [] = s.pending left := by
  have hblank : (⟨s.line.toNat, s.lineStart, left⟩ : Line).isBlank = true := by
    simp [Line.isBlank, List.dropWhile_eq_nil_iff.2 hleft]
  have hkept : Lexeme.kept s.atLineStart (Lexeme.cut (s.offset - s.lineStart) left) = [] := by
    by_cases hnil : left = []
    · rw [hnil, Lexeme.cut, Lexeme.kept_nil]
    · exact Lexeme.kept_cut_eq_nil (Pattern.first?_indentation hnil hleft) (.inr rfl) _
  have hcut : Line.cut [] left = [left] :=
    Line.cut_of_not_mem (Line.lineFeed_not_mem_of_isIndentation hleft) []
  rw [outcome_of_kept_eq_nil hkept, pending, hcut, Line.ofTexts, Line.ofTexts, Line.ofTexts,
    tokensOfLines_blank hblank]

theorem goes_enterLine? (h : s.Placed source file [] left) :
    Goes source file s.offset (s.pending left) s.enterLine? := by
  have hturns : byteLength left < byteLength s.source + 1 := by
    have hadd := h.offset_add
    rw [h.source_eq]
    omega
  obtain ⟨s', left', width?, hskip, hoffset, hplaced, hpending, hwidth⟩ :=
    exists_skipBlank? h hturns
  rw [enterLine?, hskip, ← hpending]
  cases width? with
  | none =>
    have hcut : Line.cut [] left' = [left'] :=
      Line.cut_of_not_mem (Line.lineFeed_not_mem_of_isIndentation hwidth) []
    exact .moved hoffset ⟨[], left', [], hplaced, hcut, outcome_of_indentation hwidth⟩
  | some width =>
    obtain ⟨rest, texts, hcut, hblank, rfl⟩ := hwidth
    exact (goes_layout? hplaced hcut hblank).mono hoffset

end Scanner

end Offside
