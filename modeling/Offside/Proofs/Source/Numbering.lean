import Mathlib.Data.List.Basic
import Offside.Proofs.Source.Parts

/-! # Numbered lines

On which line of a source a place falls, counted from the text before it: its number is that of the
line feeds before it, and it begins just after the last one of them. The line that is looked up for
the offset of the place is the same one.
-/

namespace Offside

/-! ## Texts before a place -/

/-- The offset just after the last line feed of a text. -/
def lineStart (text : List Char) : Nat :=
  byteLength (text.reverse.dropWhile (· != '\n'))

theorem byteLength_reverse (text : List Char) : byteLength text.reverse = byteLength text := by
  induction text with
  | nil => rfl
  | cons c text ih =>
    rw [List.reverse_cons, byteLength_append, ih, byteLength_cons, byteLength_cons, byteLength_nil]
    omega

theorem length_le_byteLength (text : List Char) : text.length ≤ byteLength text := by
  induction text with
  | nil => exact Nat.le_refl 0
  | cons c text ih =>
    have hpos := c.utf8Size_pos
    rw [List.length_cons, byteLength_cons]
    omega

theorem count_le_byteLength (c : Char) (text : List Char) : text.count c ≤ byteLength text :=
  Nat.le_trans List.count_le_length (length_le_byteLength text)

namespace Line

/-- Whether a line begins behind a text: at the start of the source or after a line feed. -/
def BeginsAfter (before : List Char) : Prop :=
  before = [] ∨ ∃ earlier, before = earlier ++ ['\n']

/-- Whether a line ends before a text: at the end of the source or before a line feed. -/
def EndsAt (after : List Char) : Prop :=
  after = [] ∨ ∃ more, after = '\n' :: more

theorem exists_last_line (source : List Char) :
    ∃ before line, source = before ++ line ∧ BeginsAfter before ∧ '\n' ∉ line := by
  induction source with
  | nil => exact ⟨[], [], rfl, .inl rfl, List.not_mem_nil⟩
  | cons c source ih =>
    obtain ⟨before, line, rfl, rfl | ⟨earlier, rfl⟩, hline⟩ := ih
    · by_cases hc : c = '\n'
      · exact ⟨['\n'], line, by rw [hc]; rfl, .inr ⟨[], rfl⟩, hline⟩
      · refine ⟨[], c :: line, rfl, .inl rfl, ?_⟩
        rw [List.mem_cons, not_or]
        exact ⟨Ne.symm hc, hline⟩
    · exact ⟨c :: (earlier ++ ['\n']), line, rfl, .inr ⟨c :: earlier, rfl⟩, hline⟩

theorem lineStart_append {before part : List Char} (h : BeginsAfter before) (hfeed : '\n' ∉ part) :
    lineStart (before ++ part) = byteLength before := by
  have hpart : ∀ c ∈ part.reverse, (c != '\n') = true := by
    intro c hmem
    rw [bne_iff_ne]
    rintro rfl
    exact hfeed (List.mem_reverse.1 hmem)
  rw [lineStart, List.reverse_append, List.dropWhile_append_of_pos hpart]
  rcases h with rfl | ⟨earlier, rfl⟩
  · rfl
  · rw [List.reverse_append, List.reverse_singleton, List.singleton_append,
      List.dropWhile_cons_of_neg (by decide), ← List.reverse_concat, byteLength_reverse]

/-! ## The lines before a line -/

theorem ofTexts_append (number start : Nat) (texts more : List (List Char)) :
    ofTexts number start (texts ++ more) = ofTexts number start texts ++
      ofTexts (number + texts.length) (start + byteLength texts.flatten) more := by
  induction texts generalizing number start with
  | nil => rfl
  | cons text texts ih =>
    rw [List.cons_append, ofTexts, ofTexts, ih, List.cons_append, List.length_cons,
      List.flatten_cons, byteLength_append, Nat.add_assoc, Nat.add_assoc, Nat.add_comm 1]

variable {source : List Char} {line : Line}

/-- What stands before a line of a source: the lines before it, each up to its line feed. -/
structure Behind (source : List Char) (line : Line) (earlier : List Line) (later : List Line) :
    Prop where
  lines_eq : ofSource source = earlier ++ line :: later
  number_eq : line.number = 1 + earlier.length
  start_eq : line.start = byteLength (earlier.map text).flatten
  ended : ∀ other ∈ earlier, ∃ body, other.text = body ++ ['\n'] ∧ '\n' ∉ body
  source_eq : source = (earlier.map text).flatten ++ (line.text ++ (later.map text).flatten)

theorem behind_of_eq {earlier later : List Line}
    (hlines : ofSource source = earlier ++ line :: later) : Behind source line earlier later := by
  have htexts := map_text_ofTexts 1 0 (cut [] source)
  rw [← ofSource, hlines, List.map_append, List.map_cons] at htexts
  have hsource := flatten_ofSource source
  rw [hlines, List.map_append, List.map_cons, List.flatten_append, List.flatten_cons] at hsource
  have hplaced := hlines
  rw [ofSource, ← htexts, ofTexts_append, ofTexts] at hplaced
  have hlength (number start : Nat) (texts : List (List Char)) :
      (ofTexts number start texts).length = texts.length := by
    have hmap := congrArg List.length (map_text_ofTexts number start texts)
    rwa [List.length_map] at hmap
  obtain ⟨-, hcons⟩ := List.append_inj hplaced (by rw [hlength, List.length_map])
  obtain ⟨hline, -⟩ := List.cons_eq_cons.1 hcons
  refine ⟨hlines, ?_, ?_, fun other hmem => ?_, hsource.symm⟩
  · rw [← hline, List.length_map]
  · rw [← hline, Nat.zero_add]
  · obtain ⟨before, between, rfl⟩ := List.append_of_mem hmem
    rw [List.map_append, List.map_cons, List.append_assoc, List.cons_append] at htexts
    obtain ⟨hbody, hnil | ⟨body, hother⟩⟩ := of_cut_eq List.not_mem_nil htexts.symm
    · simp at hnil
    · rw [hother, List.dropLast_concat] at hbody
      exact ⟨body, hother, hbody⟩

theorem exists_behind (h : line ∈ ofSource source) :
    ∃ earlier later, Behind source line earlier later := by
  obtain ⟨earlier, later, hlines⟩ := List.append_of_mem h
  exact ⟨earlier, later, behind_of_eq hlines⟩

namespace Behind

variable {earlier later : List Line}

/-- As many line feeds stand before a line as there are lines before it. -/
theorem count_eq (h : Behind source line earlier later) :
    ((earlier.map text).flatten).count '\n' = earlier.length := by
  have hended := h.ended
  clear h
  induction earlier with
  | nil => rfl
  | cons other earlier ih =>
    obtain ⟨⟨body, hother, hbody⟩, hrest⟩ := List.forall_mem_cons.1 hended
    rw [List.map_cons, List.flatten_cons, List.count_append, ih hrest, hother, List.count_append,
      List.count_eq_zero.2 hbody, List.count_singleton_self, List.length_cons]
    omega

theorem beginsAfter (h : Behind source line earlier later) :
    BeginsAfter (earlier.map text).flatten := by
  rcases List.eq_nil_or_concat' earlier with rfl | ⟨before, last, rfl⟩
  · exact .inl rfl
  · obtain ⟨body, hlast, -⟩ := h.ended last (by simp)
    refine .inr ⟨(before.map text).flatten ++ body, ?_⟩
    simp [hlast]

/-- Only the last line of a source has no line feed. -/
theorem eq_nil_or_exists_body (h : Behind source line earlier later) :
    '\n' ∉ line.text.dropLast ∧ (later = [] ∨ ∃ body, line.text = body ++ ['\n']) := by
  have htexts := map_text_ofTexts 1 0 (cut [] source)
  rw [← ofSource, h.lines_eq, List.map_append, List.map_cons] at htexts
  obtain ⟨hfeed, hlast⟩ := of_cut_eq List.not_mem_nil htexts.symm
  exact ⟨hfeed, hlast.imp_left List.map_eq_nil_iff.1⟩

/-- A line is found at the offsets of its bytes. The last one is found just behind them as well. -/
theorem at?_eq_of_le (h : Behind source line earlier later) {offset : Nat}
    (hstart : line.start ≤ offset)
    (hstop : offset < line.stop ∨ later = [] ∧ offset = line.stop) :
    at? source offset = some line := by
  have hlength := congrArg byteLength h.source_eq
  simp only [byteLength_append, ← h.start_eq] at hlength
  have hearlier : earlier.find? (fun other => offset < other.stop) = none := by
    rw [List.find?_eq_none]
    intro other hmem
    have hpairs := (tiles_ofSource source).pairwise
    rw [h.lines_eq] at hpairs
    have hle := (List.pairwise_append.1 hpairs).2.2 other hmem line List.mem_cons_self
    rw [decide_eq_true_eq, stop]
    omega
  have hend : ¬ byteLength source < offset := by
    simp only [stop] at hstop
    rcases hstop with hstop | ⟨-, hstop⟩ <;> omega
  rw [at?, if_neg hend, h.lines_eq]
  dsimp only
  rw [List.find?_append, hearlier, Option.none_or]
  rcases hstop with hstop | ⟨rfl, hstop⟩
  · rw [List.find?_cons_of_pos (by simpa using hstop), Option.some_or]
  · have hnot : ¬ offset < line.stop := Nat.not_lt.2 (Nat.le_of_eq hstop.symm)
    rw [List.find?_cons_of_neg (by simpa using hnot), List.find?_nil, Option.none_or,
      List.getLast?_concat]

/-- The line is found at each place on it that no line feed stands before. -/
theorem at?_eq (h : Behind source line earlier later) {part rest : List Char}
    (htext : line.text = part ++ rest) (hfeed : '\n' ∉ part) :
    at? source (line.start + byteLength part) = some line := by
  refine h.at?_eq_of_le (Nat.le_add_right _ _) ?_
  rw [stop, htext, byteLength_append]
  cases rest with
  | cons c rest =>
    have hpos := byteLength_pos (List.cons_ne_nil c rest)
    exact .inl (by omega)
  | nil =>
    -- Without a line feed the line is the last one, and the place is the end of the source.
    rw [List.append_nil] at htext
    refine .inr ⟨h.eq_nil_or_exists_body.2.resolve_right ?_, rfl⟩
    rintro ⟨body, hbody⟩
    rw [← htext, hbody] at hfeed
    exact hfeed (List.mem_append_right _ List.mem_cons_self)

end Behind

end Line

/-! ## Positions -/

/-- A position is true of a source: it tells the bytes and line feeds of the text before it, and it
lies on the line that is found for its offset. -/
structure Position.PointsInto (source : List Char) (file : String) (position : Position) :
    Prop where
  file_eq : position.file = file
  exists_before : ∃ before after, source = before ++ after ∧
    position.offset.toNat = byteLength before ∧
    position.line.toNat = 1 + before.count '\n' ∧
    position.column.toNat = position.offset.toNat - lineStart before + 1
  exists_line : ∃ line, Line.at? source position.offset.toNat = some line ∧
    position.line.toNat = line.number ∧
    position.column.toNat = position.offset.toNat - line.start + 1

/-- A place on a line that no line feed stands before has a true position. The column behind the
last byte is one more than the bytes are, and so must have room in 32 bits. -/
theorem Line.pointsInto {source : List Char} {line : Line} (file : String)
    (hlength : byteLength source + 1 < UInt32.size) (hmem : line ∈ ofSource source)
    {part rest : List Char} (htext : line.text = part ++ rest) (hfeed : '\n' ∉ part) :
    (line.position file (byteLength part)).PointsInto source file := by
  obtain ⟨earlier, later, h⟩ := exists_behind hmem
  have hbytes := congrArg byteLength h.source_eq
  simp only [byteLength_append, ← h.start_eq, htext] at hbytes
  have hoffset : (line.position file (byteLength part)).offset.toNat =
      line.start + byteLength part := UInt32.toNat_ofNat_of_lt' (by omega)
  have hcount : 1 + earlier.length < UInt32.size := by
    have hle := count_le_byteLength '\n' (earlier.map text).flatten
    rw [h.count_eq, ← h.start_eq] at hle
    omega
  have hnumber : (line.position file (byteLength part)).line.toNat = 1 + earlier.length := by
    rw [← h.number_eq] at hcount ⊢
    exact UInt32.toNat_ofNat_of_lt' hcount
  have hcolumn : (line.position file (byteLength part)).column.toNat =
      line.start + byteLength part - line.start + 1 := by
    rw [Nat.add_sub_cancel_left]
    exact UInt32.toNat_ofNat_of_lt' (by omega)
  refine ⟨rfl, ⟨(earlier.map text).flatten ++ part, rest ++ (later.map text).flatten, ?_, ?_, ?_,
    ?_⟩, line, ?_, ?_, ?_⟩
  · rw [List.append_assoc, ← List.append_assoc part, ← htext]
    exact h.source_eq
  · rw [hoffset, byteLength_append, h.start_eq]
  · rw [List.count_append, h.count_eq, List.count_eq_zero.2 hfeed]
    exact hnumber
  · rw [hoffset, lineStart_append h.beginsAfter hfeed, ← h.start_eq]
    exact hcolumn
  · rw [hoffset]
    exact h.at?_eq htext hfeed
  · rw [h.number_eq]
    exact hnumber
  · rw [hoffset]
    exact hcolumn

end Offside
