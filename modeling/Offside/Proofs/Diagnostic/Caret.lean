import Mathlib.Data.List.Basic
import Offside.Diagnostic
import Offside.Proofs.Source.Located

/-! # The caret of a diagnostic

A diagnostic ends in three rows whose bars stand in one column. The caret stands as many characters
behind its bar as there are bytes before the place it is for, without the spaces that the line
begins with. This is below the character at the place if those before it take one byte each.
-/

namespace Offside

theorem byteLength_eq_length_iff (text : List Char) :
    byteLength text = text.length ↔ ∀ c ∈ text, c.utf8Size = 1 := by
  induction text with
  | nil => simp
  | cons c text ih =>
    have hpos := c.utf8Size_pos
    have hle := length_le_byteLength text
    rw [List.forall_mem_cons, ← ih, byteLength_cons, List.length_cons]
    omega

/-- The bytes before a place, less the spaces that the line begins with, are those behind these
spaces. There are none where the place is among the spaces. -/
theorem byteLength_sub_spaces (part rest : List Char) :
    byteLength part - ((part ++ rest).takeWhile (· == ' ')).length =
      byteLength (part.dropWhile (· == ' ')) := by
  induction part with
  | nil => exact Nat.zero_sub _
  | cons c part ih =>
    by_cases hc : c = ' '
    · subst hc
      have hone : ' '.utf8Size = 1 := rfl
      rw [List.cons_append, List.takeWhile_cons_of_pos rfl, List.dropWhile_cons_of_pos rfl, ← ih,
        byteLength_cons, List.length_cons]
      omega
    · have hspace : ¬ (c == ' ') = true := by simpa using hc
      rw [List.cons_append, List.takeWhile_cons, List.dropWhile_cons, if_neg hspace, if_neg hspace,
        List.length_nil, Nat.sub_zero]

namespace Diagnostic

open Line (BeginsAfter lastPart firstPart exists_line_around not_mem_parts)

/-! ## Rows -/

/-- A text ends in three rows with a bar in one column. Behind the bar of the second row, which has
the number of a line before it, is what is shown of the line, and behind that of the third row are
dashes that lead to a caret. -/
def ShowsCaret (text : List Char) (number : Nat) (shown : List Char) (dashes : Nat) : Prop :=
  ∃ heading above left below : List Char,
    text = heading ++ (above ++ ['|', '\n']) ++ (left ++ ['|', ' '] ++ shown ++ ['\n']) ++
      (below ++ ['|', ' '] ++ List.replicate dashes '-' ++ ['^', '\n']) ∧
    BeginsAfter heading ∧ left = (toString number).toList ++ [' '] ∧
    above.length = left.length ∧ below.length = left.length ∧
    (∀ c ∈ above ++ left ++ below, c ≠ '|' ∧ c ≠ '\n') ∧ '\n' ∉ shown

theorem beginsAfter_heading (error : SyntaxError) (file : String) :
    BeginsAfter (heading error file).toList :=
  .inr ⟨_, String.toList_append⟩

theorem ne_of_mem_toString {number : Nat} {c : Char} (h : c ∈ (toString number).toList) :
    c ≠ '|' ∧ c ≠ '\n' := by
  rw [Nat.toString_eq_repr, Nat.toList_repr] at h
  have hdigit := Nat.isDigit_of_mem_toDigits (by decide) (by decide) h
  constructor <;> rintro rfl <;> cases hdigit

theorem mem_of_mem_trimEnd {text : List Char} {c : Char} (h : c ∈ trimEnd text) : c ∈ text :=
  List.mem_reverse.1 (List.dropWhile_subset _ (List.mem_reverse.1 h))

theorem trimEnd_lineFeed (text : List Char) : trimEnd (text ++ ['\n']) = trimEnd text := by
  unfold trimEnd
  rw [List.reverse_concat, List.dropWhile_cons_of_pos rfl]

theorem drop_takeWhile (p : Char → Bool) (text : List Char) :
    text.drop (text.takeWhile p).length = text.dropWhile p :=
  calc text.drop (text.takeWhile p).length
      = (text.takeWhile p ++ text.dropWhile p).drop (text.takeWhile p).length := by
        rw [List.takeWhile_append_dropWhile]
    _ = text.dropWhile p := List.drop_left

/-- A line feed at the end of a line is not shown. -/
theorem shown_eq {text body : List Char} (htext : text = body ∨ text = body ++ ['\n']) :
    trimEnd (text.drop (text.takeWhile (· == ' ')).length) =
      trimEnd (body.dropWhile (· == ' ')) := by
  rw [drop_takeWhile]
  rcases htext with rfl | rfl
  · rfl
  · rw [List.dropWhile_append]
    split
    · next hempty =>
      rw [List.isEmpty_iff.1 hempty]
      rfl
    · exact trimEnd_lineFeed _

/-- The rows for a line with its line feed or without one. -/
theorem showsCaret_excerpt {above : List Char} (h : BeginsAfter above) {line : Line}
    {body : List Char} (hbody : '\n' ∉ body) (htext : line.text = body ∨ line.text = body ++ ['\n'])
    (bytes : Nat) :
    ShowsCaret (above ++ (excerpt line bytes).toList) line.number
      (trimEnd (body.dropWhile (· == ' ')))
      (bytes - (line.text.takeWhile (· == ' ')).length) := by
  refine ⟨above, List.replicate ((toString line.number).length + 1) ' ',
    (toString line.number).toList ++ [' '],
    List.replicate ((toString line.number).length + 1) ' ', ?_, h, rfl, ?_, ?_, ?_, ?_⟩
  · rw [← shown_eq htext]
    have hstring (s : String) : toString s = s := rfl
    simp only [excerpt, hstring, String.toList_append, String.toList_ofList]
    simp
  · rw [List.length_replicate, List.length_append, String.length_toList, List.length_singleton]
  · rw [List.length_replicate, List.length_append, String.length_toList, List.length_singleton]
  · simp only [List.mem_append, List.mem_replicate, List.mem_singleton]
    rintro c ((⟨-, rfl⟩ | hnumber | rfl) | ⟨-, rfl⟩)
    · decide
    · exact ne_of_mem_toString hnumber
    · decide
    · decide
  · exact fun hmem => hbody (List.dropWhile_subset _ (mem_of_mem_trimEnd hmem))

/-! ## The caret -/

/-- What stands before a place on its line, without the spaces that the line begins with. -/
def passed (before : List Char) : List Char :=
  (lastPart before).dropWhile (· == ' ')

/-- A diagnostic for a place in its source ends in three rows with a bar in one column, which show
the line of the place without the spaces it begins with. There are as many dashes before the caret
as bytes before the place, which is one for each character if and only if each takes one byte. -/
theorem showsCaret_render (error : SyntaxError) (file : String) {source : String}
    {before after : List Char} (hsource : source.toList = before ++ after)
    (hoffset : error.position.offset.toNat = byteLength before) :
    ShowsCaret (render error source file).toList (1 + before.count '\n')
      (trimEnd ((lastPart before ++ firstPart after).dropWhile (· == ' ')))
      (byteLength (passed before)) ∧
    (byteLength (passed before) = (passed before).length ↔
      ∀ c ∈ passed before, c.utf8Size = 1) := by
  refine ⟨?_, byteLength_eq_length_iff _⟩
  obtain ⟨line, hat, hnumber, hinto, htext⟩ := exists_line_around before after
  have hspaces : byteLength (lastPart before) - (line.text.takeWhile (· == ' ')).length =
      byteLength (passed before) := by
    rcases htext with htext | htext
    · rw [htext, byteLength_sub_spaces, passed]
    · rw [htext, List.append_assoc, byteLength_sub_spaces, passed]
  rw [render, hsource, hoffset, hat, ← hnumber, ← hspaces, ← hinto]
  dsimp only
  rw [String.toList_append]
  exact showsCaret_excerpt (beginsAfter_heading error file) (not_mem_parts before after) htext _

/-- A place behind spaces and four characters. -/
theorem showsCaret_render_indented :
    let error : SyntaxError := ⟨.unexpectedEnd "expression", ⟨10, 2, 7, "m.qs"⟩⟩
    let source := "日\n  a = )\nb\n"
    source.toList = "日\n  a = ".toList ++ ")\nb\n".toList ∧
      error.position.offset.toNat = byteLength "日\n  a = ".toList ∧
      (∀ c ∈ passed "日\n  a = ".toList, c.utf8Size = 1) ∧
      ShowsCaret (render error source "m.qs").toList 2 "a = )".toList 4 := by
  intro error source
  have hsource : source.toList = "日\n  a = ".toList ++ ")\nb\n".toList := by decide
  have hoffset : error.position.offset.toNat = byteLength "日\n  a = ".toList := by decide
  obtain ⟨hrows, hbytes⟩ := showsCaret_render error "m.qs" hsource hoffset
  exact ⟨hsource, hoffset, hbytes.1 (by decide), hrows⟩

/-- Behind a character of two bytes the caret stands one column too far to the right. -/
theorem not_showsCaret_accent :
    ¬ ∀ (error : SyntaxError) (source file : String) (before after : List Char),
      source.toList = before ++ after →
      error.position.offset.toNat = byteLength before →
      ∃ number shown,
        ShowsCaret (render error source file).toList number shown (passed before).length := by
  intro h
  obtain ⟨number, shown, heading, above, left, below, htext, -⟩ :=
    h ⟨.unexpectedEnd "", ⟨2, 1, 3, ""⟩⟩ "é)" "" ['é'] [')'] rfl rfl
  have hlast := congrArg (fun text => text.reverse.take 4) htext
  have hrender : (render ⟨.unexpectedEnd "", ⟨2, 1, 3, ""⟩⟩ "é)" "").toList.reverse.take 4 =
      ['\n', '^', '-', '-'] := by decide
  have hpassed : (passed ['é']).length = 1 := by decide
  rw [hrender, hpassed] at hlast
  simp at hlast

end Diagnostic

end Offside
