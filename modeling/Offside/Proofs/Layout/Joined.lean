import Offside.Proofs.Layout.Letters
import Offside.Proofs.Lexeme.Trailing

/-! # Joined sources

One source behind another, with a line feed between them. The shapes of the lines of both are those
of the joined source, and where both begin at the left margin, the marks between them end whatever
the first source left open.
-/

namespace Offside

namespace Line

/-! ## The lines of a joined source -/

/-- The shape of a line with a given text, if it has content. -/
def shape? (text : List Char) : Option (Nat × List (Option (Kind × String))) :=
  let line : Line := ⟨0, 0, text⟩
  if line.hasContent then some line.shape else none

theorem shapes_eq (source : List Char) : shapes source = (cut [] source).filterMap shape? := by
  rw [shapes, contentLines, ← map_text_ofTexts 1 0 (cut [] source), ← ofSource]
  induction ofSource source with
  | nil => rfl
  | cons line lines ih =>
    have hshape : shape? line.text = if line.hasContent then some line.shape else none := rfl
    rw [List.map_cons, List.filterMap_cons, ← ih, hshape]
    by_cases hcontent : line.hasContent = true
    · rw [List.filter_cons_of_pos hcontent, if_pos hcontent]
      rfl
    · rw [List.filter_cons_of_neg hcontent, if_neg hcontent]

theorem withoutBreak_eq_self {text : List Char} (hfeed : '\n' ∉ text) :
    withoutBreak text = text := by
  fun_induction withoutBreak text with
  | case1 => rfl
  | case2 | case3 => simp at hfeed
  | case4 c more _ _ ih => rw [ih fun hmem => hfeed (List.mem_cons_of_mem c hmem)]

theorem withoutBreak_lineFeed {text : List Char} (hfeed : '\n' ∉ text) (hreturn : '\r' ∉ text) :
    withoutBreak (text ++ ['\n']) = text := by
  induction text with
  | nil => rfl
  | cons c text ih =>
    simp only [List.mem_cons, not_or] at hfeed hreturn
    rw [List.cons_append, withoutBreak, ih hfeed.2 hreturn.2]
    · rintro rfl
      exact absurd rfl hfeed.1
    · rintro rfl
      exact absurd rfl hreturn.1

/-- The line feed at its end makes no difference for a line. -/
theorem shape?_lineFeed {text : List Char} (hfeed : '\n' ∉ text) (hreturn : '\r' ∉ text) :
    shape? (text ++ ['\n']) = shape? text := by
  have hcontent :
      (⟨0, 0, text ++ ['\n']⟩ : Line).hasContent = (⟨0, 0, text⟩ : Line).hasContent := by
    rw [hasContent, hasContent, withoutBreak_lineFeed hfeed hreturn, withoutBreak_eq_self hfeed]
  have hwidth : (⟨0, 0, text ++ ['\n']⟩ : Line).width = (⟨0, 0, text⟩ : Line).width :=
    Pattern.reachWhile_append_stop (by decide) text []
  have hpieces : (⟨0, 0, text ++ ['\n']⟩ : Line).lexemes = (⟨0, 0, text⟩ : Line).lexemes := by
    unfold lexemes
    rw [Lexeme.cut_append_stop hfeed hreturn List.not_mem_nil (.inl rfl), List.filter_append,
      Lexeme.filter_cut_lineBreak, List.append_nil]
  rw [shape?, shape?, shape, shape, letters, letters, hcontent, hwidth, hpieces]

theorem shapes_append {before after : List Char} (hreturn : '\r' ∉ before) :
    shapes (before ++ '\n' :: after) = shapes before ++ shapes after := by
  obtain ⟨texts, last, hcut, hafter, hlast⟩ := exists_cut_append [] before
  have hlineFeed := shape?_lineFeed (hlast List.not_mem_nil) fun hmem =>
    hreturn (mem_of_mem_cut (by simp [hcut]) hmem)
  rw [shapes_eq, shapes_eq, shapes_eq, hcut, hafter, cut, if_pos rfl, List.reverse_cons,
    List.reverse_reverse, List.filterMap_append, List.filterMap_append, List.append_assoc]
  cases hshape : shape? last <;> simp [hlineFeed, hshape]

end Line

namespace Layout

variable {levels widths : List Nat} {marks : List (List Mark)} {final : List Mark}

/-! ## The marks of a joined source -/

/-- The levels that are open where the left margin is the base. -/
def AtMargin (levels : List Nat) : Prop :=
  ∃ inner, levels = inner ++ [0] ∧ ∀ width ∈ inner, 0 < width

theorem AtMargin.next? (h : AtMargin levels) {width : Nat} {before : List Mark} {left : List Nat}
    (hnext : next? levels width = some (before, left)) : AtMargin left := by
  obtain ⟨inner, rfl, hinner⟩ := h
  obtain ⟨top, outer, hlevels⟩ :=
    List.exists_cons_of_ne_nil (List.append_ne_nil_of_right_ne_nil inner (List.cons_ne_nil 0 []))
  have hdrop : (inner ++ [0]).dropWhile (width < ·) = inner.dropWhile (width < ·) ++ [0] := by
    rw [List.dropWhile_append]
    split
    · next hempty => rw [List.isEmpty_iff.1 hempty]; rfl
    · rfl
  rw [← enter?_eq_next?, hlevels, enter?, ← hlevels, hdrop] at hnext
  split at hnext
  · next hwider =>
    cases hnext
    refine ⟨width :: inner, rfl, List.forall_mem_cons.2 ⟨by omega, hinner⟩⟩
  · split at hnext
    · cases hnext
      exact ⟨inner, rfl, hinner⟩
    · dsimp only at hnext
      split at hnext
      · cases hnext
        exact ⟨_, rfl, fun other hmem => hinner other (List.dropWhile_subset _ hmem)⟩
      · cases hnext

/-- What is left open between two runs of lines. -/
theorem exists_left (h : AtMargin levels) (hfold : fold? levels widths = some (marks, final)) :
    ∃ left, AtMargin left ∧ final = endAll left ∧ ∀ following,
      fold? levels (widths ++ following) =
        (fold? left following).map fun (more, last) => (marks ++ more, last) := by
  induction widths generalizing levels marks with
  | nil =>
    cases hfold
    exact ⟨levels, h, rfl, fun following => by simp⟩
  | cons width widths ih =>
    obtain ⟨before, opened, more, hnext, hmore, rfl⟩ := fold?_cons_eq_some_iff.1 hfold
    obtain ⟨left, hleft, hfinal, hfollowing⟩ := ih (h.next? hnext) hmore
    refine ⟨left, hleft, hfinal, fun following => ?_⟩
    rw [List.cons_append, fold?, hnext]
    simp only [hfollowing, Option.map_map]
    rfl

/-- The marks between a source and another one behind it, where these marks end the first one. -/
def between (final : List Mark) : List Mark :=
  if final = [] then [.terminator] else final

/-- A line at the margin ends every block, or is set apart from a line of its own width. -/
theorem AtMargin.next?_zero (h : AtMargin levels) :
    Layout.next? levels 0 = some (between (endAll levels), [0]) := by
  obtain ⟨inner, rfl, hinner⟩ := h
  cases inner with
  | nil => rfl
  | cons top inner =>
    have hends : endAll (top :: inner ++ [0]) = closing (top :: inner).length := by
      rw [← leave_eq_endAll]
      simp [leave]
    rw [hends, between, if_neg (by simp [closing]), ← enter?_eq_next?]
    exact enter?_pending (List.cons_ne_nil _ _) hinner []

/-- Behind the last line, some number of blocks is ended. -/
theorem exists_closing (h : fold? levels widths = some (marks, final)) :
    ∃ blocks, final = closing blocks := by
  induction widths generalizing levels marks with
  | nil =>
    cases h
    exact ⟨_, (leave_eq_endAll levels).symm⟩
  | cons width widths ih =>
    obtain ⟨before, opened, more, -, hmore, rfl⟩ := fold?_cons_eq_some_iff.1 h
    exact ih hmore

theorem weave_append {marks marks' : List (List Mark)}
    {contents contents' : List (List (Kind × String))} (hlength : marks.length = contents.length) :
    weave (marks ++ marks') (contents ++ contents') =
      weave marks contents ++ weave marks' contents' := by
  induction marks generalizing contents with
  | nil =>
    obtain rfl := List.length_eq_zero_iff.1 hlength.symm
    simp [weave]
  | cons first marks ih =>
    obtain ⟨content, contents, rfl⟩ := List.exists_cons_of_length_eq_add_one hlength.symm
    simp [weave, ih (Nat.succ_injective hlength)]

namespace LaidOut

variable {shapes shapes' : List (Nat × List (Option (Kind × String)))}
  {shape : Nat × List (Option (Kind × String))} {marks' : List (List Mark)}
  {contents contents' : List (List (Kind × String))} {final' : List Mark}

theorem length_eq (h : LaidOut shapes marks contents final) : marks.length = contents.length := by
  have hmarks := length_of_fold? h.fold
  have hcontents := congrArg List.length h.letters
  simp only [List.length_map] at hmarks hcontents
  omega

/-- Nothing stands before the first line, whose width is the base. -/
theorem exists_cons (h : LaidOut (shape :: shapes) marks contents final) :
    ∃ more content rest, marks = [] :: more ∧ contents = content :: rest ∧
      shape.2 = content.map some ∧ shapes.map Prod.snd = rest.map (·.map some) ∧
        fold? [shape.1] (shapes.map Prod.fst) = some (more, final) := by
  obtain ⟨first, left, more, hnext, hmore, rfl⟩ := fold?_cons_eq_some_iff.1 h.fold
  cases hnext
  obtain ⟨content, rest, rfl, hcontent, hrest⟩ := List.map_eq_cons_iff.1 h.letters.symm
  exact ⟨more, content, rest, rfl, rfl, hcontent.symm, hrest.symm, hmore⟩

/-- A source without content has no letters. -/
theorem letters_eq_nil (h : LaidOut [] marks contents final) :
    weave marks contents ++ final.map Mark.letter = [] := by
  cases h.fold
  rfl

/-- Between two sources that begin at the margin stand the marks that end the first one, with
a terminator if there are none. -/
theorem append (h : LaidOut shapes marks contents final)
    (h' : LaidOut shapes' marks' contents' final') (hne : shapes ≠ []) (hne' : shapes' ≠ [])
    (hmargin : ∀ shape ∈ shapes.head?, shape.1 = 0)
    (hmargin' : ∀ shape ∈ shapes'.head?, shape.1 = 0) :
    ∃ all, LaidOut (shapes ++ shapes') all (contents ++ contents') final' ∧
      weave all (contents ++ contents') =
        weave marks contents ++ ((between final).map Mark.letter ++ weave marks' contents') := by
  obtain ⟨⟨width, letters⟩, shapes, rfl⟩ := List.exists_cons_of_ne_nil hne
  obtain ⟨⟨width', letters'⟩, shapes', rfl⟩ := List.exists_cons_of_ne_nil hne'
  obtain rfl : width = 0 := hmargin _ rfl
  obtain rfl : width' = 0 := hmargin' _ rfl
  have hlength := h.length_eq
  have hletters := h.letters
  have hletters' := h'.letters
  obtain ⟨more, content, rest, rfl, rfl, -, -, hfold⟩ := h.exists_cons
  obtain ⟨more', content', rest', rfl, rfl, -, -, hfold'⟩ := h'.exists_cons
  have hbase : AtMargin [0] := ⟨[], rfl, List.forall_mem_nil _⟩
  obtain ⟨left, hleft, rfl, hfollowing⟩ := exists_left hbase hfold
  refine ⟨([] :: more) ++ between (endAll left) :: more', ⟨?_, ?_⟩, ?_⟩
  · have hsecond : fold? left (0 :: shapes'.map Prod.fst) =
        some (between (endAll left) :: more', final') :=
      fold?_cons_eq_some_iff.2 ⟨_, [0], more', hleft.next?_zero, hfold', rfl⟩
    refine fold?_cons_eq_some_iff.2 ⟨[], [0], _, rfl, ?_, rfl⟩
    rw [List.append_eq, List.map_append, List.map_cons]
    exact (hfollowing _).trans (congrArg _ hsecond)
  · rw [List.map_append, List.map_append, hletters, hletters']
  · rw [weave_append hlength]
    simp [weave]

end LaidOut

end Layout

end Offside
