import Offside.CommandLine.Arguments
import Offside.Diagnostic
import Offside.Node.Outline

/-! # The command

Prints the tree of a source file, or its tokens, or what is wrong with it.
-/

namespace Offside.CommandLine

/-- Why a file cannot be read. -/
inductive ReadFailure where
  | missing
  | directory
  | notDirectory
  | notText
  | other (reason : String)

def ReadFailure.message : ReadFailure → String
  | missing => "No such file or directory (os error 2)"
  | notDirectory => "Not a directory (os error 20)"
  | directory => "Is a directory (os error 21)"
  | notText => "stream did not contain valid UTF-8"
  | other reason => reason

/-- What the command leaves behind. -/
structure Outcome where
  code : Nat
  stdout : String
  stderr : String

namespace Outcome

def success (stdout : String) : Outcome :=
  ⟨0, stdout, ""⟩

def failure (stderr : String) : Outcome :=
  ⟨1, "", stderr⟩

def misuse (error : UsageError) : Outcome :=
  ⟨2, "", s!"error: {error.message}\n"⟩

end Outcome

def version : String :=
  "quasar 0.1.0\n"

def help : String :=
  String.join <| List.map (· ++ "\n")
    ["Parse a quasar source file and print its syntax tree",
     "",
     "Usage: quasar [OPTIONS] <FILE>",
     "",
     "Arguments:",
     "  <FILE>  Source file to parse",
     "",
     "Options:",
     "  -t, --tokens         Print the token stream instead of the tree",
     "  -v, --verbose        Log parser progress at debug level",
     "      --max-depth <N>  How deeply expressions and blocks may nest [default: 256]",
     "  -h, --help           Print help",
     "  -V, --version        Print version"]

/-- What is printed for a source. -/
def print (options : Options) (source : String) : Except SyntaxError String := do
  let tokens ← tokenize source options.file
  if options.tokens then return String.join (tokens.map (·.summary ++ "\n"))
  else
    let program ← parse tokens options.file options.limit
    return program.outline.deep ++ "\n"

/-- The outcome for a file that holds a given source. -/
def process (options : Options) (source : String) : Outcome :=
  match print options source with
  | .ok text => .success text
  | .error error => .failure (Diagnostic.render error source options.file)

/-- Carries out what the arguments ask for, given how to read a file. -/
def run {m : Type → Type} [Monad m] (read : String → m (Except ReadFailure String))
    (arguments : List String) : m Outcome := do
  match readArguments arguments with
  | .error error => return .misuse error
  | .ok .help => return .success help
  | .ok .version => return .success version
  | .ok (.run options) =>
    match ← read options.file with
    | .ok source => return process options source
    | .error failure => return .failure s!"Failed to read {options.file}: {failure.message}\n"

end Offside.CommandLine
