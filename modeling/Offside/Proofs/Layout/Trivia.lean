import Mathlib.Logic.Relation
import Offside.Proofs.Layout.Tails
import Offside.Proofs.Source.Numbering

/-! # Trivia

Lines of blanks, blanks at the end of a line, a comment behind the last token of a line and carriage
returns before line feeds. None of them changes what a source is cut into: the shapes of its lines
are the same with them as without.
-/

namespace Offside

/-! ## One line -/

namespace Line

open Lexeme (counted isRemark)

variable {text : List Char}

theorem lettersOf_eq_nil (h : text.all isIndentation = true) : lettersOf text = [] := by
  have hgaps : ∀ c ∈ text, IsGap c := fun c hmem =>
    isGap_of_isIndentation (List.all_eq_true.1 h c hmem)
  rw [lettersOf_eq_counted, Lexeme.spelt_eq_nil hgaps, counted]

theorem takeWhile_append_of_not_all (h : ¬ text.all isIndentation = true) (rest : List Char) :
    (text ++ rest).takeWhile isIndentation = text.takeWhile isIndentation := by
  rw [List.takeWhile_append, if_neg]
  intro hlength
  apply h
  rw [List.all_eq_true]
  intro c hmem
  rw [← (List.takeWhile_prefix isIndentation).eq_of_length hlength] at hmem
  exact List.mem_takeWhile_imp hmem

theorem shape?_of_not_mem (hfeed : '\n' ∉ text) (hreturn : '\r' ∉ text) :
    shape? text = if text.all isIndentation then none
      else some ((text.takeWhile isIndentation).length, lettersOf text) := by
  have hshape := shape?_append (List.mem_cons_self : [] ∈ breaks) hfeed hreturn
  rwa [List.append_nil] at hshape

/-- Blanks at the end of a line make no difference for it. -/
theorem shape?_blanks (hfeed : '\n' ∉ text) (hreturn : '\r' ∉ text) (h : none ∉ lettersOf text)
    {blanks : List Char} (hblanks : ∀ c ∈ blanks, isIndentation c = true) :
    shape? (text ++ blanks) = shape? text := by
  have hgaps : ∀ c ∈ blanks, IsGap c := fun c hmem => isGap_of_isIndentation (hblanks c hmem)
  have hfeed' : '\n' ∉ blanks := fun hmem => absurd (hblanks _ hmem) (by decide)
  have hreturn' : '\r' ∉ blanks := fun hmem => absurd (hblanks _ hmem) (by decide)
  rw [shape?_of_not_mem hfeed hreturn, shape?_of_not_mem (by simp [hfeed, hfeed'])
    (by simp [hreturn, hreturn']), List.all_append, List.all_eq_true.2 hblanks, Bool.and_true]
  by_cases hall : text.all isIndentation = true
  · rw [if_pos hall, if_pos hall]
  · rw [if_neg hall, if_neg hall, takeWhile_append_of_not_all hall, lettersOf_eq_counted,
      lettersOf_eq_counted, (claimed_of_lettersOf h).spelt_gaps hfeed hreturn hgaps]

theorem counted_append {core more : List (Option (Kind × String))} (hcore : core ≠ [])
    (hmore : ∀ letter ∈ more, isRemark letter = true) : counted (core ++ more) = counted core := by
  obtain ⟨first, core, rfl⟩ := List.exists_cons_of_ne_nil hcore
  have hnone : more.filter (!isRemark ·) = [] := by
    rw [List.filter_eq_nil_iff]
    intro letter hmem
    rw [hmore letter hmem]
    decide
  rw [List.cons_append, counted, counted, List.filter_append, hnone, List.append_nil]

/-- Whether a line has a token that is no comment. -/
def HasToken (text : List Char) : Prop :=
  ∃ kind value, some (kind, value) ∈ lettersOf text ∧ kind ≠ .comment

/-- A comment behind the tokens of a line makes no difference for it. -/
theorem shape?_remark (hfeed : '\n' ∉ text) (hreturn : '\r' ∉ text) (h : none ∉ lettersOf text)
    (htoken : HasToken text) {said : List Char} (hfeed' : '\n' ∉ said) (hreturn' : '\r' ∉ said) :
    shape? (text ++ ' ' :: '/' :: '/' :: said) = shape? text := by
  obtain ⟨kind, value, hletter, hkind⟩ := htoken
  have hall : ¬ text.all isIndentation = true := by
    intro hall
    rw [lettersOf_eq_nil hall] at hletter
    cases hletter
  have hall' : ¬ (text ++ ' ' :: '/' :: '/' :: said).all isIndentation = true := by
    rw [List.all_append, Bool.and_eq_true]
    exact fun hboth => hall hboth.1
  obtain ⟨core, more, more', htext, htail, hremarks⟩ :=
    (claimed_of_lettersOf h).spelt_remark hfeed hreturn hfeed'
  rw [List.forall_mem_append] at hremarks
  have hcore : core ≠ [] := by
    rintro rfl
    rw [lettersOf_eq_counted, htext, List.nil_append] at hletter
    have hmem : some (kind, value) ∈ more := by
      cases more with
      | nil => cases hletter
      | cons first rest => exact List.cons_subset_cons first (List.filter_subset_self rest) hletter
    have hremark := hremarks.1 _ hmem
    simp [isRemark, hkind] at hremark
  rw [shape?_of_not_mem hfeed hreturn, shape?_of_not_mem (by simp [hfeed, hfeed'])
    (by simp [hreturn, hreturn']), if_neg hall, if_neg hall', takeWhile_append_of_not_all hall,
    lettersOf_eq_counted, lettersOf_eq_counted, htext, htail, counted_append hcore hremarks.1,
    counted_append hcore hremarks.2]

/-- A carriage return before the line feed makes no difference for a line. -/
theorem shape?_return (hfeed : '\n' ∉ text) (hreturn : '\r' ∉ text) (h : none ∉ lettersOf text) :
    shape? (text ++ ['\r', '\n']) = shape? (text ++ ['\n']) := by
  have hclaimed := claimed_of_lettersOf h
  rw [shape?_append (by simp [breaks]) hfeed hreturn,
    shape?_append (by simp [breaks]) hfeed hreturn, lettersOf_eq_counted, lettersOf_eq_counted,
    hclaimed.spelt_gaps hfeed hreturn forall_isGap_return,
    hclaimed.spelt_gaps hfeed hreturn forall_isGap_lineFeed]

/-! ## The lines of a source -/

/-- Each piece of each line stands for something. -/
def Known (shapes : List (Nat × List (Option (Kind × String)))) : Prop :=
  ∀ shape ∈ shapes, none ∉ shape.2

theorem known_append_iff {shapes shapes' : List (Nat × List (Option (Kind × String)))} :
    Known (shapes ++ shapes') ↔ Known shapes ∧ Known shapes' :=
  List.forall_mem_append

theorem shapes_of_not_mem (hfeed : '\n' ∉ text) : shapes text = (shape? text).toList := by
  have hcut (read : List Char) : cut read text = [read.reverse ++ text] := by
    induction text generalizing read with
    | nil => rw [cut, List.append_nil]
    | cons c text ih =>
      rw [List.mem_cons, not_or] at hfeed
      rw [cut, if_neg (Ne.symm hfeed.1), ih hfeed.2]
      simp
  rw [shapes_eq, hcut, List.reverse_nil, List.nil_append]
  cases hshape : shape? text <;> simp [hshape]

theorem known_lettersOf (hfeed : '\n' ∉ text) (hreturn : '\r' ∉ text) (h : Known (shapes text)) :
    none ∉ lettersOf text := by
  by_cases hall : text.all isIndentation = true
  · rw [lettersOf_eq_nil hall]
    exact List.not_mem_nil
  · rw [shapes_of_not_mem hfeed, shape?_of_not_mem hfeed hreturn, if_neg hall] at h
    exact h _ List.mem_cons_self

theorem shapes_blanks (h : ∀ c ∈ text, isIndentation c = true) : shapes text = [] := by
  have hfeed : '\n' ∉ text := fun hmem => absurd (h _ hmem) (by decide)
  have hreturn : '\r' ∉ text := fun hmem => absurd (h _ hmem) (by decide)
  rw [shapes_of_not_mem hfeed, shape?_of_not_mem hfeed hreturn, if_pos (List.all_eq_true.2 h)]
  rfl

theorem exists_shapes_before {before : List Char} (h : BeginsAfter before)
    (hreturn : '\r' ∉ before) :
    ∃ earlier, ∀ line, shapes (before ++ line) = earlier ++ shapes line := by
  rcases h with rfl | ⟨earlier, rfl⟩
  · exact ⟨[], fun line => rfl⟩
  · refine ⟨shapes earlier, fun line => ?_⟩
    rw [List.append_assoc, List.singleton_append, shapes_append]
    exact fun hmem => hreturn (List.mem_append_left _ hmem)

theorem exists_shapes_behind {after : List Char} (h : EndsAt after) :
    ∃ later, ∀ before, '\r' ∉ before → shapes (before ++ after) = shapes before ++ later := by
  rcases h with rfl | ⟨more, rfl⟩
  · exact ⟨[], fun before _ => by rw [List.append_nil, List.append_nil]⟩
  · exact ⟨shapes more, fun before hreturn => shapes_append hreturn⟩

end Line

/-! ## Changes of a source -/

namespace Layout

open Line (isIndentation HasToken BeginsAfter EndsAt Known)

/-- What may be added to a source: a line of blanks at the start, after a line feed or after the
last line, blanks at the end of a line, and a comment at the end of a line with a token. -/
inductive Pads : List Char → List Char → Prop where
  | firstLine {source blanks : List Char} (spaces : ∀ c ∈ blanks, isIndentation c = true) :
      Pads source (blanks ++ '\n' :: source)
  | line {before after blanks : List Char} (spaces : ∀ c ∈ blanks, isIndentation c = true) :
      Pads (before ++ '\n' :: after) (before ++ '\n' :: (blanks ++ '\n' :: after))
  | lastLine {source blanks : List Char} (spaces : ∀ c ∈ blanks, isIndentation c = true) :
      Pads source (source ++ '\n' :: blanks)
  | blanks {before after blanks : List Char} (spaces : ∀ c ∈ blanks, isIndentation c = true)
      (ends : EndsAt after) : Pads (before ++ after) (before ++ blanks ++ after)
  | remark {before line after said : List Char} (begins : BeginsAfter before)
      (single : '\n' ∉ line) (ends : EndsAt after) (token : HasToken line)
      (noFeed : '\n' ∉ said) (noReturn : '\r' ∉ said) :
      Pads (before ++ line ++ after) (before ++ (line ++ ' ' :: '/' :: '/' :: said) ++ after)

/-- A carriage return is written before some of the line feeds of a source. -/
inductive Returns : List Char → List Char → Prop where
  | nil : Returns [] []
  | keep {source source' : List Char} (c : Char) (more : Returns source source') :
      Returns (c :: source) (c :: source')
  | write {source source' : List Char} (more : Returns source source') :
      Returns ('\n' :: source) ('\r' :: '\n' :: source')

theorem return_not_mem_of_blanks {blanks : List Char}
    (h : ∀ c ∈ blanks, isIndentation c = true) : '\r' ∉ blanks :=
  fun hmem => absurd (h _ hmem) (by decide)

/-- A last line may be exchanged for one with the same shape. -/
theorem shapes_exchange {before line line' after : List Char} (hbegins : BeginsAfter before)
    (hends : EndsAt after) (hfeed : '\n' ∉ line) (hfeed' : '\n' ∉ line')
    (hreturn : '\r' ∉ before ++ line) (hreturn' : '\r' ∉ line')
    (h : none ∉ Line.lettersOf line → Line.shape? line' = Line.shape? line)
    (hknown : Known (Line.shapes (before ++ line ++ after))) :
    Line.shapes (before ++ line' ++ after) = Line.shapes (before ++ line ++ after) := by
  rw [List.mem_append, not_or] at hreturn
  obtain ⟨earlier, hearlier⟩ := Line.exists_shapes_before hbegins hreturn.1
  obtain ⟨later, hlater⟩ := Line.exists_shapes_behind hends
  rw [hlater _ (by simp [hreturn]), hearlier, Line.known_append_iff,
    Line.known_append_iff] at hknown
  have hline := Line.known_lettersOf hfeed hreturn.2 hknown.1.2
  rw [hlater (before ++ line) (by simp [hreturn]),
    hlater (before ++ line') (by simp [hreturn, hreturn']), hearlier, hearlier,
    Line.shapes_of_not_mem hfeed, Line.shapes_of_not_mem hfeed', h hline]

/-- One addition leaves the shapes of the lines as they are. -/
theorem Pads.shapes_eq {source source' : List Char} (h : Pads source source')
    (hreturn : '\r' ∉ source) (hknown : Known (Line.shapes source)) :
    Line.shapes source' = Line.shapes source ∧ '\r' ∉ source' := by
  cases h with
  | @firstLine _ blanks spaces =>
    have hblanks := return_not_mem_of_blanks spaces
    rw [Line.shapes_append hblanks, Line.shapes_blanks spaces, List.nil_append]
    exact ⟨rfl, by simp [hreturn, hblanks]⟩
  | @line before after blanks spaces =>
    have hblanks := return_not_mem_of_blanks spaces
    have hbefore : '\r' ∉ before := fun hmem => hreturn (List.mem_append_left _ hmem)
    have hafter : '\r' ∉ after := fun hmem => hreturn (by simp [hmem])
    rw [Line.shapes_append hbefore, Line.shapes_append hbefore, Line.shapes_append hblanks,
      Line.shapes_blanks spaces, List.nil_append]
    exact ⟨rfl, by simp [hbefore, hafter, hblanks]⟩
  | @lastLine _ blanks spaces =>
    have hblanks := return_not_mem_of_blanks spaces
    rw [Line.shapes_append hreturn, Line.shapes_blanks spaces, List.append_nil]
    exact ⟨rfl, by simp [hreturn, hblanks]⟩
  | @blanks text after blanks spaces ends =>
    have hblanks := return_not_mem_of_blanks spaces
    have hfeed : '\n' ∉ blanks := fun hmem => absurd (spaces _ hmem) (by decide)
    obtain ⟨before, line, rfl, hbegins, hline⟩ := Line.exists_last_line text
    have hbefore : '\r' ∉ before ++ line := fun hmem => hreturn (List.mem_append_left _ hmem)
    have hreturn' : '\r' ∉ line := fun hmem => hbefore (List.mem_append_right _ hmem)
    refine ⟨?_, by simp_all⟩
    rw [List.append_assoc before]
    exact shapes_exchange hbegins ends hline (by simp [hline, hfeed]) hbefore
      (by simp [hreturn', hblanks])
      (fun hknown => Line.shape?_blanks hline hreturn' hknown spaces) hknown
  | @remark before line after said begins single ends token noFeed noReturn =>
    have hbefore : '\r' ∉ before ++ line := fun hmem => hreturn (List.mem_append_left _ hmem)
    have hreturn' : '\r' ∉ line := fun hmem => hbefore (List.mem_append_right _ hmem)
    refine ⟨?_, by simp_all⟩
    exact shapes_exchange begins ends single (by simp [single, noFeed]) hbefore
      (by simp [hreturn', noReturn])
      (fun hknown => Line.shape?_remark single hreturn' hknown token noFeed noReturn) hknown

/-- The same line, or with a carriage return before its line feed. -/
inductive SameLine : List Char → List Char → Prop where
  | refl (line : List Char) : SameLine line line
  | write {text : List Char} (single : '\n' ∉ text) :
      SameLine (text ++ ['\n']) (text ++ ['\r', '\n'])

theorem Returns.behind {source source' : List Char} (before : List Char)
    (h : Returns source source') : Returns (before ++ source) (before ++ source') := by
  induction before with
  | nil => exact h
  | cons c before ih => exact .keep c ih

theorem Returns.refl (source : List Char) : Returns source source := by
  have h := Returns.nil.behind source
  rwa [List.append_nil] at h

theorem cut_of_returns {source source' : List Char} (h : Returns source source')
    {read : List Char} (hread : '\n' ∉ read) :
    List.Forall₂ SameLine (Line.cut read source) (Line.cut read source') := by
  induction h generalizing read with
  | nil => exact .cons (.refl _) .nil
  | keep c _ ih =>
    by_cases hc : c = '\n'
    · rw [Line.cut, Line.cut, if_pos hc, if_pos hc]
      exact .cons (.refl _) (ih List.not_mem_nil)
    · rw [Line.cut, Line.cut, if_neg hc, if_neg hc]
      apply ih
      rw [List.mem_cons, not_or]
      exact ⟨Ne.symm hc, hread⟩
  | @write source source' _ ih =>
    have hcut : Line.cut read ('\n' :: source) =
        (read.reverse ++ ['\n']) :: Line.cut [] source := by
      rw [Line.cut, if_pos rfl, List.reverse_cons]
    have hcut' : Line.cut read ('\r' :: '\n' :: source') =
        (read.reverse ++ ['\r', '\n']) :: Line.cut [] source' := by
      rw [Line.cut, if_neg (by decide), Line.cut, if_pos rfl]
      simp
    rw [hcut, hcut']
    exact .cons (.write (by rwa [List.mem_reverse])) (ih List.not_mem_nil)

theorem SameLine.shape?_eq {line line' : List Char} (h : SameLine line line')
    (hreturn : '\r' ∉ line) (hknown : ∀ shape ∈ Line.shape? line, none ∉ shape.2) :
    Line.shape? line' = Line.shape? line := by
  cases h with
  | refl => rfl
  | @write text single =>
    have hreturn' : '\r' ∉ text := fun hmem => hreturn (List.mem_append_left _ hmem)
    apply Line.shape?_return single hreturn'
    apply Line.known_lettersOf single hreturn'
    rw [Line.shapes_of_not_mem single, ← Line.shape?_lineFeed single hreturn']
    intro shape hshape
    exact hknown shape (Option.mem_toList.1 hshape)

theorem filterMap_shape?_eq {lines lines' : List (List Char)}
    (h : List.Forall₂ SameLine lines lines') (hreturn : ∀ line ∈ lines, '\r' ∉ line)
    (hknown : Known (lines.filterMap Line.shape?)) :
    lines'.filterMap Line.shape? = lines.filterMap Line.shape? := by
  induction h with
  | nil => rfl
  | @cons line line' lines lines' hsame _ ih =>
    rw [List.forall_mem_cons] at hreturn
    have hshapes : (line :: lines).filterMap Line.shape? =
        (Line.shape? line).toList ++ lines.filterMap Line.shape? := by
      rw [List.filterMap_cons]
      cases Line.shape? line <;> rfl
    rw [hshapes, Line.known_append_iff] at hknown
    have hline := hsame.shape?_eq hreturn.1 fun shape hshape =>
      hknown.1 shape (Option.mem_toList.2 hshape)
    rw [List.filterMap_cons, List.filterMap_cons, hline, ih hreturn.2 hknown.2]

theorem Returns.shapes_eq {source source' : List Char} (h : Returns source source')
    (hreturn : '\r' ∉ source) (hknown : Known (Line.shapes source)) :
    Line.shapes source' = Line.shapes source := by
  rw [Line.shapes_eq] at hknown
  rw [Line.shapes_eq, Line.shapes_eq]
  apply filterMap_shape?_eq (cut_of_returns h List.not_mem_nil) _ hknown
  exact fun line hline hmem => hreturn (Line.mem_of_mem_cut hline hmem)

theorem Returns.breaksLines {source source' : List Char} (h : Returns source source')
    (hreturn : '\r' ∉ source) : breaksLines source' = true := by
  induction h with
  | nil => rfl
  | keep c _ ih =>
    rw [List.mem_cons, not_or] at hreturn
    simp [Offside.breaksLines, ih hreturn.2, Ne.symm hreturn.1]
  | write _ ih =>
    rw [List.mem_cons, not_or] at hreturn
    simp [Offside.breaksLines, ih hreturn.2]

theorem LaidOut.known {shapes : List (Nat × List (Option (Kind × String)))}
    {marks : List (List Mark)} {contents : List (List (Kind × String))} {final : List Mark}
    (h : LaidOut shapes marks contents final) : Known shapes := by
  intro shape hshape hnone
  have hmem : shape.2 ∈ shapes.map Prod.snd := List.mem_map_of_mem hshape
  rw [h.letters] at hmem
  obtain ⟨content, -, hcontent⟩ := List.mem_map.1 hmem
  rw [← hcontent, List.mem_map] at hnone
  obtain ⟨_, -, hletter⟩ := hnone
  cases hletter

end Layout

end Offside
