import Offside.Source.Position
import Offside.Text.Bytes

/-! # Lines

A source cut after each of its line feeds. Layout, positions and excerpts all work on these lines.
-/

namespace Offside

/-- A line with its number, the offset of its first byte, and its text up to and with the line
feed that ends it. Only the last line of a source has none. -/
structure Line where
  number : Nat
  start : Nat
  text : List Char
deriving DecidableEq, Inhabited

namespace Line

/-- The offset just after a line. -/
def stop (line : Line) : Nat :=
  line.start + byteLength line.text

/-- The position some bytes into a line. -/
def position (line : Line) (file : String) (bytes : Nat) : Position :=
  ⟨(line.start + bytes).toUInt32, line.number.toUInt32, (bytes + 1).toUInt32, file⟩

/-- The texts of the lines, given the characters of the first one read so far, last one first.
There is always a last text, which holds no line feed. -/
def cut (read : List Char) : List Char → List (List Char)
  | [] => [read.reverse]
  | c :: rest => if c = '\n' then (c :: read).reverse :: cut [] rest else cut (c :: read) rest

/-- Lines with the given texts, one after the other. -/
def ofTexts (number start : Nat) : List (List Char) → List Line
  | [] => []
  | text :: rest => ⟨number, start, text⟩ :: ofTexts (number + 1) (start + byteLength text) rest

/-- The lines of a source. -/
def ofSource (source : List Char) : List Line :=
  ofTexts 1 0 (cut [] source)

/-- The line that holds a byte offset. The end of the source belongs to the last line. -/
def at? (source : List Char) (offset : Nat) : Option Line :=
  if byteLength source < offset then none
  else
    let lines := ofSource source
    (lines.find? fun line => offset < line.stop).or lines.getLast?

theorem flatten_cut (read source : List Char) :
    (cut read source).flatten = read.reverse ++ source := by
  induction source generalizing read with
  | nil => simp [cut]
  | cons c rest ih =>
    rw [cut]
    split <;> simp [ih]

theorem map_text_ofTexts (number start : Nat) (texts : List (List Char)) :
    (ofTexts number start texts).map text = texts := by
  induction texts generalizing number start with
  | nil => rfl
  | cons text rest ih => simp [ofTexts, ih]

/-- Nothing of a source is lost between its lines. -/
theorem flatten_ofSource (source : List Char) :
    ((ofSource source).map text).flatten = source := by
  rw [ofSource, map_text_ofTexts, flatten_cut]
  rfl

end Line

end Offside
