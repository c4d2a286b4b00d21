import Offside.Parsing

/-! # Arguments

What the arguments of the command line ask for. Options may stand before or after the file, short
ones may be combined, and two dashes alone end them. An argument that may be a value waits until the
next one shows that it is complete, so a fault in it is found only then.
-/

namespace Offside.CommandLine

/-- Why a text is no natural number of 64 bits. -/
inductive NumberFault where
  | empty
  | invalidDigit
  | tooLarge
deriving DecidableEq

def NumberFault.message : NumberFault → String
  | empty => "cannot parse integer from empty string"
  | invalidDigit => "invalid digit found in string"
  | tooLarge => "number too large to fit in target type"

/-- Why the arguments are refused. -/
inductive UsageError where
  | missingFile
  | missingValue (argument : String)
  | unexpectedArgument (text : String)
  | unexpectedValue (value argument : String)
  | invalidValue (value argument : String) (fault : NumberFault)
  | repeated (argument : String)
deriving DecidableEq

def UsageError.message : UsageError → String
  | missingFile => "the following required arguments were not provided:"
  | missingValue argument => s!"a value is required for '{argument}' but none was supplied"
  | unexpectedArgument text => s!"unexpected argument '{text}' found"
  | unexpectedValue value argument =>
    s!"unexpected value '{value}' for '{argument}' found; no more were expected"
  | invalidValue value argument fault =>
    s!"invalid value '{value}' for '{argument}': {fault.message}"
  | repeated argument => s!"the argument '{argument}' cannot be used multiple times"

/-- What to do with a file. -/
structure Options where
  file : String
  tokens : Bool
  verbose : Bool
  limit : Nat
deriving DecidableEq

inductive Request where
  | run (options : Options)
  | help
  | version
deriving DecidableEq

/-- The digits that follow a number. The first fault counts, be it a digit or the size. -/
def readDigits (value : Nat) : List Char → Except NumberFault Nat
  | [] => .ok value
  | c :: rest =>
    if !c.isDigit then .error .invalidDigit
    else
      let next := 10 * value + (c.toNat - '0'.toNat)
      if 2 ^ 64 ≤ next then .error .tooLarge else readDigits next rest

/-- A number of 64 bits. A plus sign may stand before its digits. -/
def readNumber : List Char → Except NumberFault Nat
  | [] => .error .empty
  | ['+'] => .error .invalidDigit
  | '+' :: rest => readDigits 0 rest
  | text => readDigits 0 text

/-- A value that is complete once the next argument is looked at. -/
inductive Waiting where
  | nothing
  | file (path : String)
  /-- The limit, whose value may still be missing. -/
  | limit (value? : Option String)
deriving DecidableEq

/-- What is known after some of the arguments. -/
structure Known where
  file? : Option String
  tokens : Bool
  verbose : Bool
  limit? : Option Nat
  waiting : Waiting

namespace Known

def start : Known :=
  ⟨none, false, false, none, .nothing⟩

def fileName : String :=
  "<FILE>"

def limitName : String :=
  "--max-depth <N>"

/-- Takes the value of the limit. -/
def takeLimit (known : Known) (value : String) : Except UsageError Known :=
  if known.limit?.isSome then .error (.repeated limitName)
  else match readNumber value.toList with
    | .ok limit => .ok { known with limit? := some limit }
    | .error fault => .error (.invalidValue value limitName fault)

/-- Takes what waits. -/
def settle (known : Known) : Except UsageError Known :=
  let settled := { known with waiting := .nothing }
  match known.waiting with
  | .nothing => .ok settled
  | .file path =>
    if path.isEmpty then .error (.missingValue fileName)
    else .ok { settled with file? := some path }
  | .limit none => .error (.missingValue limitName)
  | .limit (some value) => settled.takeLimit value

def takeTokens (known : Known) : Except UsageError Known := do
  let known ← known.settle
  if known.tokens then .error (.repeated "--tokens") else .ok { known with tokens := true }

def takeVerbose (known : Known) : Except UsageError Known := do
  let known ← known.settle
  if known.verbose then .error (.repeated "--verbose") else .ok { known with verbose := true }

/-- Takes an argument that is no option. Only one file is asked for. -/
def takeFile (known : Known) (path : String) : Except UsageError Known :=
  match known.file?, known.waiting with
  | some _, _ | _, .file _ => .error (.unexpectedArgument path)
  | none, _ => do
    let known ← known.settle
    .ok { known with waiting := .file path }

/-- The outcome of one argument: an answer that needs no other, or what is known after it. -/
abbrev Step :=
  Except UsageError (Request ⊕ Known)

/-- Takes the letters behind a single dash. -/
def takeShort (known : Known) : List Char → Step
  | [] => .ok (.inr known)
  | 't' :: rest => do (← known.takeTokens).takeShort rest
  | 'v' :: rest => do (← known.takeVerbose).takeShort rest
  | 'h' :: _ => do
    let _ ← known.settle
    .ok (.inl .help)
  | 'V' :: _ => do
    let _ ← known.settle
    .ok (.inl .version)
  | c :: _ => .error (.unexpectedArgument (String.ofList ['-', c]))

/-- Takes an option behind two dashes, and its value if an equals sign attaches one. -/
def takeLong (known : Known) (name : String) (value? : Option String) : Step :=
  let option := "--" ++ name
  let flag (step : Step) : Step :=
    match value? with
    | some value => .error (.unexpectedValue value option)
    | none => step
  match name with
  | "tokens" => flag (.inr <$> known.takeTokens)
  | "verbose" => flag (.inr <$> known.takeVerbose)
  | "help" => flag (do let _ ← known.settle; .ok (.inl .help))
  | "version" => flag (do let _ ← known.settle; .ok (.inl .version))
  | "max-depth" => do
    let known ← known.settle
    match value? with
    | some value => .inr <$> known.takeLimit value
    | none => .ok (.inr { known with waiting := .limit none })
  | _ => .error (.unexpectedArgument option)

/-- The name and the attached value of an option. -/
def splitValue (text : List Char) : String × Option String :=
  let name := text.takeWhile (· != '=')
  match text.dropWhile (· != '=') with
  | [] => (String.ofList name, none)
  | _ :: value => (String.ofList name, some (String.ofList value))

/-- Takes an argument where options are still possible. -/
def take (known : Known) (argument : String) : Step :=
  match argument.toList with
  | '-' :: '-' :: text =>
    let (name, value?) := splitValue text
    known.takeLong name value?
  | '-' :: c :: text => known.takeShort (c :: text)
  | _ =>
    match known.waiting with
    | .limit none => .ok (.inr { known with waiting := .limit (some argument) })
    | _ => .inr <$> known.takeFile argument

/-- What the arguments ask for, once all are known. -/
def request (known : Known) : Except UsageError Request := do
  let known ← known.settle
  match known.file? with
  | none => .error .missingFile
  | some file =>
    .ok (.run ⟨file, known.tokens, known.verbose, known.limit?.getD defaultLimit⟩)

/-- Takes arguments in order. Once the options are ended, an argument can only be the file. -/
def takeAll (known : Known) (ended : Bool) : List String → Except UsageError Request
  | [] => known.request
  | argument :: rest =>
    if ended then do (← known.takeFile argument).takeAll true rest
    else if argument = "--" then known.takeAll true rest
    else do
      match ← known.take argument with
      | .inl request => .ok request
      | .inr known => known.takeAll false rest

end Known

/-- What a list of arguments asks for. -/
def readArguments (arguments : List String) : Except UsageError Request :=
  Known.start.takeAll false arguments

end Offside.CommandLine
