import Offside.Proofs.Layout.Block
import Offside.Token.Stream

/-! # Runs over lines

The lines of a block are read one after the other. Each is entered from the widths open before it,
and an induction over the block says what its lines give and what they leave open.
-/

namespace Offside.Layout

/-! ## Entering a line -/

theorem enter?_wider {width inner : Nat} (h : width < inner) (outer : List Nat) :
    enter? (width :: outer) inner = some ([.indent], inner :: width :: outer) := by
  rw [enter?, if_pos h]

theorem enter?_equal (width : Nat) (outer : List Nat) :
    enter? (width :: outer) width = some ([.terminator], width :: outer) := by
  rw [enter?, if_neg (Nat.lt_irrefl width), if_pos rfl]

/-- A line at the width of an open block ends every block inside it. -/
theorem enter?_pending {pending : List Nat} (hne : pending ≠ []) {width : Nat}
    (h : ∀ inner ∈ pending, width < inner) (outer : List Nat) :
    enter? (pending ++ width :: outer) width =
      some (closing pending.length, width :: outer) := by
  have hall : ∀ inner ∈ pending, decide (width < inner) = true := by simpa using h
  have htake : (pending ++ width :: outer).takeWhile (width < ·) = pending := by
    rw [List.takeWhile_append_of_pos hall]
    simp
  have hdrop : (pending ++ width :: outer).dropWhile (width < ·) = width :: outer := by
    rw [List.dropWhile_append_of_pos hall]
    simp
  obtain ⟨top, more, rfl⟩ := List.exists_cons_of_ne_nil hne
  have htop : width < top := h top List.mem_cons_self
  rw [List.cons_append] at htake hdrop ⊢
  rw [enter?, if_neg (by omega), if_neg (by omega), htake, hdrop]
  exact if_pos rfl

/-- The next sibling ends the blocks that an item left open, or is set apart from its line. -/
theorem Item.enter?_next {width : Nat} (item : Item width) (outer : List Nat) :
    enter? (item.pending ++ width :: outer) width =
      some (closing item.pending.length ++ item.separator, width :: outer) := by
  cases item with
  | leaf entry => exact enter?_equal width outer
  | owner entry inner wider block =>
    have hne : (Item.owner entry inner wider block).pending ≠ [] := by simp [Item.pending]
    rw [enter?_pending hne (Item.lt_of_mem_pending _), Item.separator, List.append_nil]

/-! ## Reading lines in a row -/

/-- From the widths that are open before the lines, they give the letters and leave other widths
open. -/
inductive Runs (file : String) : List Nat → List Line → List (Kind × String) → List Nat → Prop where
  | nil (widths : List Nat) : Runs file widths [] [] widths
  | cons {widths opened left : List Nat} {line : Line} {marks : List Mark} {content : List Token}
      {lines : List Line} {letters : List (Kind × String)} (solid : line.isBlank = false)
      (enter : enter? widths line.width = some (marks, opened))
      (tokens : line.tokens file = .ok content) (nonempty : content ≠ [])
      (more : Runs file opened lines letters left) :
      Runs file widths (line :: lines)
        (marks.map Mark.letter ++ (content.map Token.letter ++ letters)) left

namespace Runs

variable {file : String} {widths opened left : List Nat} {lines others : List Line}
  {letters following : List (Kind × String)}

theorem append (h : Runs file widths lines letters opened)
    (h' : Runs file opened others following left) :
    Runs file widths (lines ++ others) (letters ++ following) left := by
  induction h with
  | nil => exact h'
  | cons solid enter tokens nonempty _ ih =>
    rw [List.append_assoc, List.append_assoc]
    exact .cons solid enter tokens nonempty (ih h')

/-- A single line with an entry on it. -/
theorem of_entry {line : Line} {entry : Entry} {width : Nat} {marks : List Mark}
    (h : line.text = entry.print width) (henter : enter? widths width = some (marks, opened)) :
    Runs file widths [line] (marks.map Mark.letter ++ entry.letters) opened := by
  obtain ⟨content, htokens, hletters⟩ := entry.exists_tokens h file
  have hne : content ≠ [] := by
    rintro rfl
    exact entry.letters_ne_nil hletters.symm
  rw [← Entry.width_eq h] at henter
  have hrun := Runs.cons (Entry.isBlank_eq_false h) henter htokens hne (.nil opened)
  rwa [List.append_nil, hletters] at hrun

theorem letter_token (position : Position) (marks : List Mark) :
    (marks.map (·.token position)).map Token.letter = marks.map Mark.letter := by
  rw [List.map_map]
  rfl

end Runs

/-! ## Reading a block -/

mutual

/-- Once the first line is entered, an item gives its letters up to the marks that are due when the
next line is known. -/
theorem Item.runs (file : String) {width : Nat} {widths outer : List Nat} {marks : List Mark}
    {lines : List Line} (henter : enter? widths width = some (marks, width :: outer))
    (item : Item width) (hlines : lines.map Line.text = item.lines) :
    Runs file widths lines (marks.map Mark.letter ++ item.begun)
      (item.pending ++ width :: outer) := by
  match item with
  | .leaf entry =>
    obtain ⟨line, rfl, htext⟩ := List.map_eq_singleton_iff.1 hlines
    exact .of_entry htext henter
  | .owner entry inner wider block =>
    obtain ⟨line, more, rfl, htext, hmore⟩ := List.map_eq_cons_iff.1 hlines
    have hfirst : Runs file widths [line] _ (width :: outer) := .of_entry htext henter
    have hblock := Block.runs file (enter?_wider wider outer) block hmore
    have hrun := hfirst.append hblock
    rw [Item.begun, Item.pending]
    simpa using hrun

theorem Block.runs (file : String) {width : Nat} {widths outer : List Nat} {marks : List Mark}
    {lines : List Line} (henter : enter? widths width = some (marks, width :: outer))
    (block : Block width) (hlines : lines.map Line.text = block.lines) :
    Runs file widths lines (marks.map Mark.letter ++ block.begun)
      (block.pending ++ width :: outer) := by
  match block with
  | .last item => exact Item.runs file henter item hlines
  | .cons item next =>
    obtain ⟨first, more, rfl, hfirst, hmore⟩ := List.map_eq_append_iff.1 hlines
    have hitem := Item.runs file henter item hfirst
    have hnext := Block.runs file (item.enter?_next outer) next hmore
    have hrun := hitem.append hnext
    rw [Block.begun, Block.pending, item.letters_eq]
    simpa using hrun

end

end Offside.Layout
