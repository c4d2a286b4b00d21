import Offside.Source.Line

/-! # Parts of a text

Where a part stands in a text, in bytes. The lines of a source tile it: each stands right behind the
one before, and only the last one does without a line feed.
-/

namespace Offside

/-- A part stands between two offsets of a text. -/
def Excerpt (text : List Char) (start stop : Nat) (part : List Char) : Prop :=
  ∃ before after, text = before ++ (part ++ after) ∧ byteLength before = start ∧
    start + byteLength part = stop

namespace Excerpt

variable {text middle part : List Char} {start stop start' stop' : Nat}

theorem of_append (before part after : List Char) :
    Excerpt (before ++ (part ++ after)) (byteLength before)
      (byteLength before + byteLength part) part :=
  ⟨before, after, rfl, rfl, rfl⟩

theorem trans (h : Excerpt text start stop middle) (h' : Excerpt middle start' stop' part) :
    Excerpt text (start + start') (start + stop') part := by
  obtain ⟨before, after, rfl, rfl, rfl⟩ := h
  obtain ⟨before', after', rfl, rfl, rfl⟩ := h'
  refine ⟨before ++ before', after' ++ after, by simp, by simp, by omega⟩

theorem stop_eq (h : Excerpt text start stop part) : start + byteLength part = stop := by
  obtain ⟨-, -, -, -, hstop⟩ := h
  exact hstop

theorem stop_le (h : Excerpt text start stop part) : stop ≤ byteLength text := by
  obtain ⟨before, after, rfl, rfl, rfl⟩ := h
  simp only [byteLength_append]
  omega

end Excerpt

theorem byteLength_pos {text : List Char} (h : text ≠ []) : 0 < byteLength text := by
  obtain ⟨c, rest, rfl⟩ := List.exists_cons_of_ne_nil h
  rw [byteLength_cons]
  exact Nat.add_pos_left c.utf8Size_pos _

theorem byteLength_replicate (n : Nat) (c : Char) :
    byteLength (List.replicate n c) = n * c.utf8Size := by
  induction n with
  | zero => exact (Nat.zero_mul _).symm
  | succ n ih => rw [List.replicate_succ, byteLength_cons, ih, Nat.succ_mul, Nat.add_comm]

/-- Every byte of a text belongs to one of its characters. -/
theorem exists_char_at {text : List Char} {offset : Nat} (h : offset < byteLength text) :
    ∃ c start, c ∈ text ∧ Excerpt text start (start + c.utf8Size) [c] ∧ start ≤ offset ∧
      offset < start + c.utf8Size := by
  induction text generalizing offset with
  | nil => exact absurd h (Nat.not_lt_zero _)
  | cons c rest ih =>
    rw [byteLength_cons] at h
    by_cases hfirst : offset < c.utf8Size
    · exact ⟨c, 0, List.mem_cons_self, ⟨[], rest, rfl, rfl, by simp⟩, Nat.zero_le _, by omega⟩
    · obtain ⟨d, start, hmem, ⟨before, after, rfl, hstart, hstop⟩, hle, hlt⟩ :=
        ih (show offset - c.utf8Size < byteLength rest by omega)
      refine ⟨d, c.utf8Size + start, List.mem_cons_of_mem c hmem,
        ⟨c :: before, after, rfl, ?_, ?_⟩, by omega, by omega⟩
      · rw [byteLength_cons, hstart]
      · omega

/-! ## Tiles -/

section Tiles

variable {α : Type} {start : α → Nat} {text : α → List Char}

/-- Parts that stand right behind one another, from an offset on. -/
def Tiles (start : α → Nat) (text : α → List Char) : Nat → List α → Prop
  | _, [] => True
  | offset, part :: rest =>
    start part = offset ∧ Tiles start text (offset + byteLength (text part)) rest

namespace Tiles

variable {offset : Nat} {parts : List α}

theorem le_start (h : Tiles start text offset parts) : ∀ part ∈ parts, offset ≤ start part := by
  induction parts generalizing offset with
  | nil => exact List.forall_mem_nil _
  | cons part rest ih =>
    obtain ⟨hstart, hrest⟩ := h
    refine List.forall_mem_cons.2 ⟨Nat.le_of_eq hstart.symm, fun other hmem => ?_⟩
    exact Nat.le_trans (Nat.le_add_right _ _) (ih hrest other hmem)

/-- No part begins before the end of an earlier one. -/
theorem pairwise (h : Tiles start text offset parts) :
    parts.Pairwise fun a b => start a + byteLength (text a) ≤ start b := by
  induction parts generalizing offset with
  | nil => exact .nil
  | cons part rest ih =>
    obtain ⟨rfl, hrest⟩ := h
    exact .cons hrest.le_start (ih hrest)

theorem eq_or_apart (h : Tiles start text offset parts) {a b : α} (ha : a ∈ parts)
    (hb : b ∈ parts) :
    a = b ∨ start a + byteLength (text a) ≤ start b ∨ start b + byteLength (text b) ≤ start a := by
  induction parts generalizing offset with
  | nil => cases ha
  | cons part rest ih =>
    obtain ⟨rfl, hrest⟩ := h
    rcases List.mem_cons.1 ha with rfl | ha' <;> rcases List.mem_cons.1 hb with rfl | hb'
    · exact .inl rfl
    · exact .inr (.inl (hrest.le_start b hb'))
    · exact .inr (.inr (hrest.le_start a ha'))
    · exact ih hrest ha' hb'

theorem start_eq {before after : List α} {part : α}
    (h : Tiles start text offset (before ++ part :: after)) :
    start part = offset + byteLength (before.map text).flatten := by
  induction before generalizing offset with
  | nil => exact h.1
  | cons first before ih =>
    rw [ih h.2, List.map_cons, List.flatten_cons, byteLength_append]
    omega

theorem excerpt (h : Tiles start text 0 parts) {part : α} (hmem : part ∈ parts) :
    Excerpt (parts.map text).flatten (start part) (start part + byteLength (text part))
      (text part) := by
  obtain ⟨before, after, rfl⟩ := List.append_of_mem hmem
  rw [h.start_eq, List.map_append, List.flatten_append, List.map_cons, List.flatten_cons,
    Nat.zero_add]
  exact .of_append _ _ _

/-- The parts leave no gaps. -/
theorem exists_mem (h : Tiles start text offset parts) {place : Nat} (hle : offset ≤ place)
    (hlt : place < offset + byteLength (parts.map text).flatten) :
    ∃ part ∈ parts, start part ≤ place ∧ place < start part + byteLength (text part) := by
  induction parts generalizing offset with
  | nil => exact absurd hlt (Nat.not_lt.2 hle)
  | cons part rest ih =>
    obtain ⟨rfl, hrest⟩ := h
    rw [List.map_cons, List.flatten_cons, byteLength_append] at hlt
    by_cases hhere : place < start part + byteLength (text part)
    · exact ⟨part, List.mem_cons_self, hle, hhere⟩
    · obtain ⟨other, hmem, hother⟩ := ih hrest (Nat.not_lt.1 hhere) (by omega)
      exact ⟨other, List.mem_cons_of_mem part hmem, hother⟩

end Tiles

end Tiles

/-! ## Lines -/

namespace Line

theorem tiles_ofTexts (number start : Nat) (texts : List (List Char)) :
    Tiles Line.start Line.text start (ofTexts number start texts) := by
  induction texts generalizing number start with
  | nil => trivial
  | cons text rest ih => exact ⟨rfl, ih _ _⟩

theorem tiles_ofSource (source : List Char) : Tiles Line.start Line.text 0 (ofSource source) :=
  tiles_ofTexts 1 0 _

/-- A line feed stands at the end of a line or nowhere in it, and only the last line has none. -/
theorem of_cut_eq {read source text : List Char} {before after : List (List Char)}
    (hread : '\n' ∉ read) (h : cut read source = before ++ text :: after) :
    '\n' ∉ text.dropLast ∧ (after = [] ∨ ∃ body, text = body ++ ['\n']) := by
  induction source generalizing read before with
  | nil =>
    rw [cut, List.singleton_eq_append_iff] at h
    rcases h with ⟨rfl, htext⟩ | ⟨-, htext⟩
    · obtain ⟨rfl, rfl⟩ := List.cons_eq_cons.1 htext
      exact ⟨fun hmem => hread (List.mem_reverse.1 (List.dropLast_subset _ hmem)), .inl rfl⟩
    · cases htext
  | cons c rest ih =>
    rw [cut] at h
    split at h
    · next hfeed =>
      subst hfeed
      cases before with
      | nil =>
        obtain ⟨rfl, -⟩ := List.cons_eq_cons.1 h
        rw [List.reverse_cons, List.dropLast_concat]
        exact ⟨fun hmem => hread (List.mem_reverse.1 hmem), .inr ⟨_, rfl⟩⟩
      | cons first before => exact ih List.not_mem_nil (List.cons_eq_cons.1 h).2
    · next hfeed =>
      refine ih ?_ h
      rw [List.mem_cons, not_or]
      exact ⟨fun heq => hfeed heq.symm, hread⟩

/-- The text of the last line of a source goes on with what stands behind the source. -/
theorem exists_cut_append (read before : List Char) :
    ∃ texts last, cut read before = texts ++ [last] ∧
      (∀ after, cut read (before ++ after) = texts ++ cut last.reverse after) ∧
        ('\n' ∉ read → '\n' ∉ last) := by
  induction before generalizing read with
  | nil => exact ⟨[], read.reverse, rfl, by simp, by simp⟩
  | cons c before ih =>
    simp only [List.cons_append, cut]
    split
    · next hc =>
      obtain ⟨texts, last, hcut, hafter, hlast⟩ := ih []
      refine ⟨(c :: read).reverse :: texts, last, by rw [hcut]; rfl, fun after => ?_,
        fun _ => hlast List.not_mem_nil⟩
      rw [hafter, List.cons_append]
    · next hc =>
      obtain ⟨texts, last, hcut, hafter, hlast⟩ := ih (c :: read)
      refine ⟨texts, last, hcut, hafter, fun hread => hlast ?_⟩
      simpa [eq_comm, hc] using hread

theorem mem_of_mem_cut {source text : List Char} (h : text ∈ cut [] source) {c : Char}
    (hmem : c ∈ text) : c ∈ source := by
  have hflat := flatten_cut [] source
  rw [List.reverse_nil, List.nil_append] at hflat
  rw [← hflat]
  exact List.mem_flatten_of_mem h hmem

theorem eq_nil_of_lineFeed {text before rest : List Char} (h : '\n' ∉ text.dropLast)
    (htext : text = before ++ '\n' :: rest) : rest = [] := by
  cases rest with
  | nil => rfl
  | cons c more =>
    rw [htext, List.dropLast_append_cons, List.dropLast_cons_cons] at h
    exact absurd (List.mem_append_right before List.mem_cons_self) h

section FirstLine

variable {text part line : List Char} {texts : List (List Char)}

/-- A text is one line, or it goes on behind its first line feed. -/
theorem eq_or_exists_lineFeed (text : List Char) :
    '\n' ∉ text ∨ ∃ part more, text = part ++ '\n' :: more ∧ '\n' ∉ part := by
  by_cases h : '\n' ∈ text
  · obtain ⟨part, more, htext, hpart⟩ := List.eq_append_cons_of_mem h
    exact .inr ⟨part, more, htext, hpart⟩
  · exact .inl h

theorem cut_append_of_not_mem (hpart : '\n' ∉ part) (read more : List Char) :
    cut read (part ++ more) = cut (part.reverse ++ read) more := by
  induction part generalizing read with
  | nil => rfl
  | cons c part ih =>
    rw [List.mem_cons, not_or] at hpart
    rw [List.cons_append, cut, if_neg (Ne.symm hpart.1), ih hpart.2]
    simp

theorem cut_of_not_mem (h : '\n' ∉ text) (read : List Char) :
    cut read text = [read.reverse ++ text] := by
  rw [← List.append_nil text, cut_append_of_not_mem h, cut]
  simp

theorem cut_lineFeed (hpart : '\n' ∉ part) (read more : List Char) :
    cut read (part ++ '\n' :: more) = (read.reverse ++ (part ++ ['\n'])) :: cut [] more := by
  rw [cut_append_of_not_mem hpart, cut, if_pos rfl]
  simp

theorem exists_cut (left : List Char) : ∃ rest texts, cut [] left = rest :: texts := by
  rcases eq_or_exists_lineFeed left with hfeed | ⟨part, more, rfl, hpart⟩
  · exact ⟨_, _, cut_of_not_mem hfeed []⟩
  · exact ⟨_, _, cut_lineFeed hpart [] more⟩

theorem cut_eq_cons (h : cut [] text = line :: texts) (read : List Char) :
    cut read text = (read.reverse ++ line) :: texts := by
  rcases eq_or_exists_lineFeed text with hfeed | ⟨part, more, rfl, hpart⟩
  · rw [cut_of_not_mem hfeed] at h ⊢
    obtain ⟨rfl, rfl⟩ := List.cons_eq_cons.1 h
    rfl
  · rw [cut_lineFeed hpart] at h ⊢
    obtain ⟨rfl, rfl⟩ := List.cons_eq_cons.1 h
    rfl

theorem cut_append_eq_cons (hpart : '\n' ∉ part) (h : cut [] text = line :: texts) :
    cut [] (part ++ text) = (part ++ line) :: texts := by
  rw [cut_append_of_not_mem hpart, List.append_nil, cut_eq_cons h, List.reverse_reverse]

/-- The first of several lines has one line feed. -/
theorem count_of_cut {more : List Char} (h : cut [] text = line :: cut [] more) :
    line.count '\n' = 1 := by
  obtain ⟨rest, texts, hmore⟩ := exists_cut more
  have hfirst : cut [] text = [] ++ line :: cut [] more := h
  obtain ⟨hfeed, hnil | ⟨body, rfl⟩⟩ := of_cut_eq List.not_mem_nil hfirst
  · rw [hmore] at hnil
    cases hnil
  · rw [List.dropLast_concat] at hfeed
    rw [List.count_append, List.count_eq_zero.2 hfeed, List.count_singleton_self]

theorem ofSource_of_not_mem (h : '\n' ∉ text) : ofSource text = [⟨1, 0, text⟩] := by
  rw [ofSource, cut_of_not_mem h]
  rfl

/-- What does not look behind a line feed sees no more of a text than its first line. -/
theorem congr_of_cut {β : Type} {f : List Char → β}
    (hf : ∀ part more, f (part ++ '\n' :: more) = f (part ++ ['\n']))
    (h : cut [] text = line :: texts) : f text = f line := by
  rcases eq_or_exists_lineFeed text with hfeed | ⟨part, more, rfl, hpart⟩
  · rw [cut_of_not_mem hfeed] at h
    obtain ⟨rfl, -⟩ := List.cons_eq_cons.1 h
    rfl
  · rw [cut_lineFeed hpart] at h
    obtain ⟨rfl, -⟩ := List.cons_eq_cons.1 h
    exact hf part more

theorem head?_of_cut (h : cut [] text = line :: texts) : text.head? = line.head? :=
  congr_of_cut (fun part more => by cases part <;> rfl) h

end FirstLine

variable {source : List Char} {line : Line}

theorem excerpt_of_mem (h : line ∈ ofSource source) :
    Excerpt source line.start line.stop line.text := by
  have hexcerpt := (tiles_ofSource source).excerpt h
  rwa [flatten_ofSource] at hexcerpt

theorem lineFeed_not_mem_dropLast (h : line ∈ ofSource source) : '\n' ∉ line.text.dropLast := by
  have hmem : line.text ∈ cut [] source := by
    rw [← map_text_ofTexts 1 0 (cut [] source)]
    exact List.mem_map_of_mem h
  obtain ⟨before, after, hcut⟩ := List.append_of_mem hmem
  exact (of_cut_eq List.not_mem_nil hcut).1

/-- A line without a line feed ends the source. -/
theorem ends_of_mem (h : line ∈ ofSource source) :
    line.stop = byteLength source ∨ ∃ body, line.text = body ++ ['\n'] := by
  obtain ⟨before, after, hlines⟩ := List.append_of_mem h
  have htexts := map_text_ofTexts 1 0 (cut [] source)
  rw [ofSource] at hlines
  rw [hlines, List.map_append, List.map_cons] at htexts
  rcases (of_cut_eq List.not_mem_nil htexts.symm).2 with hafter | hfeed
  · have hstart := (hlines ▸ tiles_ofTexts 1 0 (cut [] source)).start_eq
    have hsource := flatten_ofSource source
    rw [ofSource, hlines, List.map_append, List.map_cons, hafter] at hsource
    left
    rw [stop, hstart, ← hsource]
    simp
  · exact .inr hfeed

end Line

end Offside
