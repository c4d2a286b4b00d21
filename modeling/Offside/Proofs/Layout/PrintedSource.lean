import Offside.Proofs.Layout.Runs
import Offside.Proofs.Source.Parts

/-! # Tokenizing undoes printing

A printed forest is cut into the lines that were printed. The run over them and the marks that end
the source give the letters of the forest.
-/

namespace Offside

namespace Line

/-- A line feed ends the text and does not occur in it before. -/
def IsWhole (text : List Char) : Prop :=
  ∃ body, text = body ++ ['\n'] ∧ '\n' ∉ body

end Line

namespace Layout

theorem isWhole_print (entry : Entry) (width : Nat) : Line.IsWhole (entry.print width) := by
  refine ⟨List.replicate width ' ' ++ entry.written, ?_, ?_⟩
  · rw [Entry.print, List.append_assoc]
  · rw [List.mem_append, not_or]
    exact ⟨fun hmem => absurd (List.eq_of_mem_replicate hmem) (by decide),
      entry.lineFeed_not_mem_written⟩

mutual

theorem Item.isWhole_of_mem_lines {width : Nat} (item : Item width) :
    ∀ text ∈ item.lines, Line.IsWhole text := by
  match item with
  | .leaf entry => exact List.forall_mem_singleton.2 (isWhole_print entry width)
  | .owner entry inner wider block =>
    exact List.forall_mem_cons.2 ⟨isWhole_print entry width, block.isWhole_of_mem_lines⟩

theorem Block.isWhole_of_mem_lines {width : Nat} (block : Block width) :
    ∀ text ∈ block.lines, Line.IsWhole text := by
  match block with
  | .last item => exact item.isWhole_of_mem_lines
  | .cons item next =>
    exact List.forall_mem_append.2 ⟨item.isWhole_of_mem_lines, next.isWhole_of_mem_lines⟩

end

theorem Forest.isWhole_of_mem_lines (forest : Forest) :
    ∀ text ∈ forest.lines, Line.IsWhole text := by
  cases forest with
  | empty => exact List.forall_mem_nil _
  | block width top => exact top.isWhole_of_mem_lines

end Layout

end Offside
