import Offside.Proofs.Lexeme.OneLine
import Offside.Proofs.Lexeme.Trailing

/-! # The first line of a text

Nothing behind the first line of a text has a part in its first match or in its indentation. So a
text may be read as a whole or line by line.
-/

namespace Offside

namespace Pattern

variable {text matched more line : List Char} {texts : List (List Char)}

theorem reachClosing_lineFeed (passed : Nat) (part more : List Char) :
    reachClosing passed (part ++ '\n' :: more) = reachClosing passed (part ++ ['\n']) := by
  fun_induction reachClosing passed part with
  | case1 passed => cases more <;> simp [reachClosing]
  | case2 passed => simp [reachClosing]
  | case3 passed c hc => cases more <;> simp [reachClosing, hc]
  | case4 passed => simp [reachClosing]
  | case5 passed => simp [reachClosing]
  | case6 passed => simp [reachClosing]
  | case7 passed d rest hd _ _ ih => simpa [reachClosing, hd] using ih
  | case8 passed c d rest hc hfeed hslash ih => simpa [reachClosing, hc, hfeed, hslash] using ih

theorem isPrefixOf_lineFeed {written : List Char} (h : '\n' ∉ written) (part more : List Char) :
    written.isPrefixOf (part ++ '\n' :: more) = written.isPrefixOf part := by
  induction written generalizing part with
  | nil => simp
  | cons c written ih =>
    rw [List.mem_cons, not_or] at h
    cases part with
    | nil => simp [List.isPrefixOf, Ne.symm h.1]
    | cons d part => rw [List.cons_append, List.isPrefixOf, List.isPrefixOf, ih h.2]

theorem reachLineBreak_lineFeed (part more : List Char) :
    reachLineBreak (part ++ '\n' :: more) = reachLineBreak (part ++ ['\n']) := by
  rcases part with _ | ⟨c, _ | ⟨d, part⟩⟩
  · rfl
  · simp only [List.cons_append, List.nil_append]
    unfold reachLineBreak
    split <;> simp_all
  · simp only [List.cons_append]
    unfold reachLineBreak
    split <;> simp_all

/-- No pattern looks behind a line feed. -/
theorem reach_lineFeed {pattern : Pattern} (hmem : pattern ∈ table) (part more : List Char) :
    pattern.reach (part ++ '\n' :: more) = pattern.reach (part ++ ['\n']) := by
  cases pattern with
  | lineBreak => exact reachLineBreak_lineFeed part more
  | blanks =>
    rw [reach, reach, reachWhile_append_stop rfl, reachWhile_append_stop rfl]
  | comment =>
    rw [reach, reach]
    rcases part with _ | ⟨c, _ | ⟨d, part⟩⟩
    · rfl
    · simp [reachComment]
    · simp only [List.cons_append]
      unfold reachComment
      split
      · next hslashes =>
        simp only [List.cons.injEq] at hslashes
        obtain ⟨rfl, rfl, rfl⟩ := hslashes
        exact congrArg (2 + ·)
          ((reachWhile_append_stop rfl part more).trans (reachWhile_append_stop rfl part []).symm)
      · next hslashes => simp_all
  | word =>
    by_cases hpart : part = []
    · rw [hpart]
      rfl
    · rw [reach, reach, reachWord_append hpart rfl, reachWord_append hpart rfl]
  | numeral =>
    rw [reach, reach, reachNumeral_append rfl (by decide), reachNumeral_append rfl (by decide)]
  | quoted =>
    rw [reach, reach]
    cases part with
    | nil => rfl
    | cons c part =>
      by_cases hc : c = '"'
      · subst hc
        exact reachClosing_lineFeed 1 part more
      · simp [reachQuoted, hc]
  | symbol written kind =>
    have hwritten := lineFeed_not_mem_symbol hmem
    rw [reach, reach, isPrefixOf_lineFeed hwritten, isPrefixOf_lineFeed hwritten]

theorem first?_lineFeed (part more : List Char) :
    first? (part ++ '\n' :: more) = first? (part ++ ['\n']) := by
  rw [first?, first?, ← List.head?_filterMap, ← List.head?_filterMap]
  refine congrArg List.head? (List.filterMap_congr fun pattern hmem => ?_)
  rw [reach_lineFeed hmem]

/-- The first match of a text is that of its first line. -/
theorem first?_of_cut (h : Line.cut [] text = line :: texts) : first? text = first? line :=
  Line.congr_of_cut first?_lineFeed h

theorem reachLineBreak_of_cut (h : Line.cut [] text = line :: texts) :
    reachLineBreak text = reachLineBreak line :=
  Line.congr_of_cut reachLineBreak_lineFeed h

/-- A line break at the start of a text is all there is of its first line. -/
theorem cut_of_reachLineBreak (h : reachLineBreak text ≠ 0) :
    Line.cut [] text =
      text.take (reachLineBreak text) :: Line.cut [] (text.drop (reachLineBreak text)) := by
  revert h
  unfold reachLineBreak
  split
  · next more => exact fun _ => Line.cut_lineFeed List.not_mem_nil [] more
  · next more =>
    have hreturn : '\n' ∉ ['\r'] := by decide
    exact fun _ => Line.cut_lineFeed hreturn [] more
  · exact absurd rfl

theorem byteLength_take_reachLineBreak (h : reachLineBreak text ≠ 0) :
    byteLength (text.take (reachLineBreak text)) = reachLineBreak text := by
  revert h
  unfold reachLineBreak
  split
  · exact fun _ => rfl
  · exact fun _ => rfl
  · exact absurd rfl

/-- The first match of a text is a part that the text begins with. -/
theorem exists_of_first? {pattern : Pattern} {size : Nat}
    (h : first? text = some (pattern, size)) :
    ∃ matched more, text = matched ++ more ∧ matched.length = size ∧ pattern ∈ table ∧
      pattern.Extent matched more := by
  obtain ⟨hmem, rfl, hpos⟩ := of_first? h
  obtain ⟨matched, more, htext, hlength, hextent⟩ := pattern.exists_extent (Nat.ne_of_gt hpos)
  exact ⟨matched, more, htext, hlength, hmem, hextent⟩

/-- A symbol is written as it stands in the text. -/
theorem written_eq_of_first? {written : List Char} {kind : Kind}
    (h : first? (matched ++ more) = some (symbol written kind, matched.length)) :
    written = matched := by
  obtain ⟨-, hreach, hpos⟩ := of_first? h
  rw [reach] at hreach
  split at hreach
  · next hwritten =>
    obtain ⟨rest, htext⟩ := List.isPrefixOf_iff_prefix.1 hwritten
    exact List.append_inj_left htext hreach
  · exact absurd hreach (Nat.ne_of_lt hpos)

/-- Indentation is made of blanks. -/
theorem first?_indentation (htext : text ≠ [])
    (h : ∀ c ∈ text, Line.isIndentation c = true) : first? text = some (blanks, text.length) := by
  have hbreak : reachLineBreak text = 0 := by
    cases text with
    | nil => rfl
    | cons c rest =>
      have hc := h c List.mem_cons_self
      simp only [Line.isIndentation, Bool.or_eq_true, beq_iff_eq] at hc
      rcases hc with rfl | rfl <;> rfl
  have hspacing : ∀ c ∈ text, isSpacing c = true := fun c hmem => by
    rw [isSpacing, Bool.or_eq_true]
    exact .inl (h c hmem)
  have hreach : reachWhile isSpacing text = text.length := by
    rw [reachWhile, List.takeWhile_eq_self_iff.2 hspacing]
  exact first?_eq_some (show table = [lineBreak] ++ blanks :: table.drop 2 from rfl)
    (List.forall_mem_singleton.2 hbreak) hreach (List.length_pos_of_ne_nil htext)

end Pattern

/-! ## Indentation -/

namespace Line

variable {text line : List Char} {texts : List (List Char)}

theorem lineFeed_not_mem_of_isIndentation (h : ∀ c ∈ text, isIndentation c = true) :
    '\n' ∉ text :=
  fun hmem => absurd (h _ hmem) (by decide)

theorem isIndentation_takeWhile (text : List Char) :
    ∀ c ∈ text.takeWhile isIndentation, isIndentation c = true :=
  fun _ => List.mem_takeWhile_imp

/-- In an indentation each character is one byte. -/
theorem byteLength_of_isIndentation (h : ∀ c ∈ text, isIndentation c = true) :
    byteLength text = text.length := by
  induction text with
  | nil => rfl
  | cons c text ih =>
    obtain ⟨hc, htext⟩ := List.forall_mem_cons.1 h
    have hsize : c.utf8Size = 1 := by
      simp only [isIndentation, Bool.or_eq_true, beq_iff_eq] at hc
      rcases hc with rfl | rfl <;> rfl
    rw [byteLength_cons, ih htext, hsize, List.length_cons, Nat.add_comm]

/-- The indentation of a text is that of its first line. -/
theorem indentation_of_cut (h : cut [] text = line :: texts) :
    line.takeWhile isIndentation = text.takeWhile isIndentation ∧
      cut [] (text.dropWhile isIndentation) = line.dropWhile isIndentation :: texts := by
  obtain ⟨line', texts', hcut⟩ := exists_cut (text.dropWhile isIndentation)
  have hindent := isIndentation_takeWhile text
  have hwhole := cut_append_eq_cons (lineFeed_not_mem_of_isIndentation hindent) hcut
  rw [List.takeWhile_append_dropWhile, h] at hwhole
  obtain ⟨rfl, rfl⟩ := List.cons_eq_cons.1 hwhole
  have hhead := List.head?_dropWhile_not isIndentation text
  rw [head?_of_cut hcut] at hhead
  have hstops : line'.takeWhile isIndentation = [] ∧ line'.dropWhile isIndentation = line' := by
    cases line' with
    | nil => exact ⟨rfl, rfl⟩
    | cons c line' =>
      have hc : ¬ isIndentation c = true := by simpa using hhead
      exact ⟨List.takeWhile_cons_of_neg hc, List.dropWhile_cons_of_neg hc⟩
  constructor
  · rw [List.takeWhile_append_of_pos hindent, hstops.1, List.append_nil]
  · rw [List.dropWhile_append_of_pos hindent, hstops.2, hcut]

/-- Whether the first line of a text is blank. -/
theorem isBlank_of_cut (h : cut [] text = line :: texts) (number start : Nat) :
    (⟨number, start, line⟩ : Line).isBlank = ((text.dropWhile isIndentation).isEmpty ||
      Pattern.reachLineBreak (text.dropWhile isIndentation) != 0) := by
  obtain ⟨-, hcut⟩ := indentation_of_cut h
  have hempty : (line.dropWhile isIndentation).isEmpty =
      (text.dropWhile isIndentation).isEmpty := by
    rw [Bool.eq_iff_iff, List.isEmpty_iff, List.isEmpty_iff, ← List.head?_eq_none_iff,
      ← head?_of_cut hcut, List.head?_eq_none_iff]
  rw [isBlank, hempty, Pattern.reachLineBreak_of_cut hcut]

/-- A line that is blank and ended is made of its indentation and a line break. -/
theorem exists_blank
    (h : Pattern.reachLineBreak (text.dropWhile isIndentation) ≠ 0) :
    ∃ line more, text = line ++ more ∧ cut [] text = line :: cut [] more ∧
      byteLength line = (text.takeWhile isIndentation).length +
        Pattern.reachLineBreak (text.dropWhile isIndentation) := by
  have hindent := isIndentation_takeWhile text
  have hcut := cut_append_eq_cons (lineFeed_not_mem_of_isIndentation hindent)
    (Pattern.cut_of_reachLineBreak h)
  rw [List.takeWhile_append_dropWhile] at hcut
  refine ⟨_, _, ?_, hcut, ?_⟩
  · rw [List.append_assoc, List.take_append_drop, List.takeWhile_append_dropWhile]
  · rw [byteLength_append, byteLength_of_isIndentation hindent,
      Pattern.byteLength_take_reachLineBreak h]

end Line

end Offside
