import Offside.Layout.Basic
import Offside.Proofs.Lexeme.Entry

/-! # Blocks of lines

Lines of one width, each of which may own a wider block. A block is printed on indented lines, and
read in one go it is the letters of its lines with the marks of the layout between them.
-/

namespace Offside.Layout

/-- A mark without its place. -/
def Mark.letter (mark : Mark) : Kind × String :=
  (mark.kind, mark.text)

mutual

/-- A line of a given width, with the block it owns if there is one. -/
inductive Item : Nat → Type where
  | leaf {width : Nat} (entry : Entry) : Item width
  | owner {width : Nat} (entry : Entry) (inner : Nat) (wider : width < inner)
      (block : Block inner) : Item width

/-- Lines of a given width, at least one. -/
inductive Block : Nat → Type where
  | last {width : Nat} (item : Item width) : Block width
  | cons {width : Nat} (item : Item width) (next : Block width) : Block width

end

/-- A source of no lines, or of one block at any width. -/
inductive Forest where
  | empty
  | block (width : Nat) (top : Block width)

/-! ## What is printed -/

mutual

/-- The texts of the lines of an item, each with its line feed. -/
def Item.lines {width : Nat} : Item width → List (List Char)
  | .leaf entry => [entry.print width]
  | .owner entry _ _ block => entry.print width :: block.lines

def Block.lines {width : Nat} : Block width → List (List Char)
  | .last item => item.lines
  | .cons item next => item.lines ++ next.lines

end

def Forest.lines : Forest → List (List Char)
  | .empty => []
  | .block _ top => top.lines

def Forest.print (forest : Forest) : String :=
  String.ofList forest.lines.flatten

/-! ## What is read -/

/-- The mark between a line and its next sibling. The end of an owned block stands for it. -/
def Item.separator {width : Nat} : Item width → List Mark
  | .leaf _ => [.terminator]
  | .owner .. => []

mutual

/-- The letters of an item with the block it owns, which is marked at both ends. -/
def Item.letters {width : Nat} : Item width → List (Kind × String)
  | .leaf entry => entry.letters
  | .owner entry _ _ block =>
    entry.letters ++ Mark.indent.letter ::
      (block.letters ++ [Mark.outdent.letter, Mark.terminator.letter])

def Block.letters {width : Nat} : Block width → List (Kind × String)
  | .last item => item.letters
  | .cons item next => item.letters ++ (item.separator.map Mark.letter ++ next.letters)

end

def Forest.letters : Forest → List (Kind × String)
  | .empty => []
  | .block _ top => top.letters

/-- A comment inside a block, and a line behind the block. -/
example :
    let inside : Block 2 := .last (.leaf (.comment ['h', 'i'] (by decide) (by decide)))
    let opening : Entry := .content (.reserved "do" .kwDo (by decide)) []
    let owner : Item 0 := .owner opening 2 (by decide) inside
    let behind : Item 0 := .leaf (.content (.literal ['a', '"']) [.numeral ['7'] (by decide)])
    let forest := Forest.block 0 (.cons owner (.last behind))
    forest.print = "do\n  // hi\n\"a\\\"\" 7\n" ∧
      forest.letters.map Prod.fst =
        [.kwDo, .indent, .comment, .outdent, .terminator, .string, .number] := by
  decide

/-! ## What is still open behind the last line -/

mutual

/-- The widths of the blocks inside an item that its last line leaves open, innermost first. -/
def Item.pending {width : Nat} : Item width → List Nat
  | .leaf _ => []
  | .owner _ inner _ block => block.pending ++ [inner]

def Block.pending {width : Nat} : Block width → List Nat
  | .last item => item.pending
  | .cons _ next => next.pending

end

mutual

/-- The letters of an item without the marks that end the blocks left open. -/
def Item.begun {width : Nat} : Item width → List (Kind × String)
  | .leaf entry => entry.letters
  | .owner entry _ _ block => entry.letters ++ Mark.indent.letter :: block.begun

def Block.begun {width : Nat} : Block width → List (Kind × String)
  | .last item => item.begun
  | .cons item next => item.letters ++ (item.separator.map Mark.letter ++ next.begun)

end

theorem closing_append (m n : Nat) : closing (m + n) = closing m ++ closing n := by
  induction m with
  | zero => rw [Nat.zero_add, closing, List.nil_append]
  | succ m ih => rw [Nat.succ_add, closing, closing, ih, List.cons_append, List.cons_append]

mutual

theorem Item.letters_eq {width : Nat} (item : Item width) :
    item.letters = item.begun ++ (closing item.pending.length).map Mark.letter := by
  match item with
  | .leaf entry => simp [Item.letters, Item.begun, Item.pending, closing]
  | .owner entry inner wider block =>
    rw [Item.letters, Item.begun, Item.pending, block.letters_eq, List.length_append,
      List.length_singleton, closing_append]
    simp [closing]

theorem Block.letters_eq {width : Nat} (block : Block width) :
    block.letters = block.begun ++ (closing block.pending.length).map Mark.letter := by
  match block with
  | .last item => rw [Block.letters, Block.begun, Block.pending, item.letters_eq]
  | .cons item next =>
    rw [Block.letters, Block.begun, Block.pending, next.letters_eq]
    simp

end

mutual

theorem Item.lt_of_mem_pending {width : Nat} (item : Item width) :
    ∀ inner ∈ item.pending, width < inner := by
  match item with
  | .leaf entry => exact List.forall_mem_nil _
  | .owner entry inner wider block =>
    rw [Item.pending, List.forall_mem_append, List.forall_mem_singleton]
    exact ⟨fun other hmem => Nat.lt_trans wider (block.lt_of_mem_pending other hmem), wider⟩

theorem Block.lt_of_mem_pending {width : Nat} (block : Block width) :
    ∀ inner ∈ block.pending, width < inner := by
  match block with
  | .last item => exact item.lt_of_mem_pending
  | .cons item next => exact next.lt_of_mem_pending

end

end Offside.Layout
