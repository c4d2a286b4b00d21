import Offside.Source.Position
import Offside.Text.Bytes

/-! # Readers

A place in a source that moves forward byte by byte, before the source is cut into lines.
-/

namespace Offside

/-- A source with the number of bytes passed. -/
structure Reader where
  source : List Char
  file : String
  offset : Nat

/-- The text after the given number of bytes, unless they end inside a character or run out. -/
def dropBytes? (bytes : Nat) : List Char → Option (List Char)
  | [] => if bytes = 0 then some [] else none
  | c :: rest =>
    if bytes = 0 then some (c :: rest)
    else if bytes < c.utf8Size then none
    else dropBytes? (bytes - c.utf8Size) rest

namespace Reader

def advance (reader : Reader) (bytes : Nat) : Reader :=
  { reader with offset := reader.offset + bytes }

/-- The position of a reader, which counts no lines. -/
def position (reader : Reader) : Position :=
  ⟨reader.offset.toUInt32, 1, (reader.offset + 1).toUInt32, reader.file⟩

def atEnd (reader : Reader) : Bool :=
  byteLength reader.source ≤ reader.offset

/-- What is left to read, unless the reader stands inside a character or past the end. -/
def remainder? (reader : Reader) : Option (List Char) :=
  dropBytes? reader.offset reader.source

end Reader

end Offside
