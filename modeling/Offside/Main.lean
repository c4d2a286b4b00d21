import Offside.CommandLine.Run

/-! # The program

Reads the file, prints, and ends with the outcome's code.
-/

namespace Offside.CommandLine

/-- Why reading ended in a given error. -/
def ReadFailure.ofError : IO.Error → ReadFailure
  | .noFileOrDirectory .. => .missing
  | .inappropriateType _ code _ => if code = 21 then .directory else .notDirectory
  | error => .other (toString error)

/-- A file as text. -/
def readText (path : String) : IO (Except ReadFailure String) := do
  try
    let bytes ← IO.FS.readBinFile path
    return match String.fromUTF8? bytes with
      | some text => .ok text
      | none => .error .notText
  catch error => return .error (.ofError error)

end Offside.CommandLine

def main (arguments : List String) : IO UInt32 := do
  let outcome ← Offside.CommandLine.run Offside.CommandLine.readText arguments
  IO.print outcome.stdout
  IO.eprint outcome.stderr
  return outcome.code.toUInt32
