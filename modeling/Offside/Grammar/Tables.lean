import Offside.Token.Kind

/-! # Tables

Which rule reads an operand or a line that starts with a token of some kind, and which kinds are
operators. The tables are data, so that a grammar can be had with others than the standard ones.
-/

namespace Offside

/-- How tightly an operator binds. Every operator associates to the left. -/
inductive Power where
  /-- Looser than any operator. -/
  | loosest
  | relational
  | additive
  | multiplicative
deriving DecidableEq, Inhabited

namespace Power

def all : List Power :=
  [.loosest, .relational, .additive, .multiplicative]

def rank : Power → Nat
  | loosest => 0
  | relational => 1
  | additive => 2
  | multiplicative => 3

def name : Power → String
  | loosest => "Default"
  | relational => "Relational"
  | additive => "Additive"
  | multiplicative => "Multiplicative"

def ofName? (name : String) : Option Power :=
  all.find? (·.name == name)

end Power

/-- The two families of operators. -/
inductive Operation where
  | arithmetic
  | comparison
deriving DecidableEq, Inhabited

/-- The productions that a table can name. -/
inductive Rule where
  | expression | application | literal | accessor | grouping | splice | quotation | array | object
  | conditional | function | choice | sequence | line | letDeclaration | dataDeclaration
  | macroDeclaration
deriving DecidableEq, Inhabited

/-- The rules of a grammar by the kind of the token they start at, and its operators. -/
structure Tables where
  operand? : Kind → Option Rule
  statement? : Kind → Option Rule
  operator? : Kind → Option (Power × Operation)
deriving Inhabited

namespace Tables

def empty : Tables :=
  ⟨fun _ => none, fun _ => none, fun _ => none⟩

/-- The tables of the language. Only names and parenthesised expressions can be applied, and an
operand is no operator: two operands side by side are a callee and its argument. -/
def standard : Tables where
  operand?
    | .number | .string | .boolean => some .literal
    | .identifier => some .accessor
    | .openParen => some .grouping
    | .openBracket => some .array
    | .openCurly => some .object
    | .kwIf => some .conditional
    | .openQuote => some .quotation
    | .ampersand => some .splice
    | _ => none
  statement?
    | .kwLet => some .letDeclaration
    | .kwData => some .dataDeclaration
    | .kwMacro => some .macroDeclaration
    | _ => none
  operator?
    | .compare => some (.relational, .comparison)
    | .plus | .dash => some (.additive, .arithmetic)
    | .math => some (.multiplicative, .arithmetic)
    | _ => none

/-- The standard tables laid over others. -/
def install (tables : Tables) : Tables where
  operand? kind := (standard.operand? kind).or (tables.operand? kind)
  statement? kind := (standard.statement? kind).or (tables.statement? kind)
  operator? kind := (standard.operator? kind).or (tables.operator? kind)

@[simp] theorem install_empty : empty.install = standard := by
  simp [install, empty]

def setOperand (tables : Tables) (kind : Kind) (rule : Rule) : Tables :=
  { tables with operand? := fun k => if k = kind then some rule else tables.operand? k }

def setStatement (tables : Tables) (kind : Kind) (rule : Rule) : Tables :=
  { tables with statement? := fun k => if k = kind then some rule else tables.statement? k }

def setOperator (tables : Tables) (kind : Kind) (power : Power) (operation : Operation) : Tables :=
  { tables with
    operator? := fun k => if k = kind then some (power, operation) else tables.operator? k }

/-- The operator of a kind, if it binds tighter than a given power. -/
def tighter? (tables : Tables) (power : Power) (kind : Kind) : Option (Power × Operation) :=
  (tables.operator? kind).filter fun (own, _) => power.rank < own.rank

end Tables

end Offside
