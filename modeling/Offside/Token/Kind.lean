/-! # Kinds of token

The alphabet of the grammar: layout marks, literals, punctuation and reserved words.
-/

namespace Offside

inductive Kind where
  | eof
  | terminator | indent | outdent
  | comment | identifier | number | string | boolean
  | openParen | closeParen | openBracket | closeBracket | openCurly | closeCurly
  | comma | colon | dot | assignment | pipe
  | openQuote | closeQuote | ampersand
  | compare | math | plus | dash
  | kwLet | kwData | kwMacro | kwFn | kwMatch | kwCase | kwIf | kwThen | kwElse | kwDo | kwBind
  | kwReturn
deriving DecidableEq, Inhabited

namespace Kind

/-- Every kind, in the order of the declaration. -/
def all : List Kind :=
  [.eof, .terminator, .indent, .outdent, .comment, .identifier, .number, .string, .boolean,
   .openParen, .closeParen, .openBracket, .closeBracket, .openCurly, .closeCurly, .comma, .colon,
   .dot, .assignment, .pipe, .openQuote, .closeQuote, .ampersand, .compare, .math, .plus, .dash,
   .kwLet, .kwData, .kwMacro, .kwFn, .kwMatch, .kwCase, .kwIf, .kwThen, .kwElse, .kwDo, .kwBind,
   .kwReturn]

theorem mem_all (kind : Kind) : kind ∈ all := by
  cases kind <;> decide

/-- The name of a kind in messages. -/
def name : Kind → String
  | eof => "EOF" | terminator => "Terminator" | indent => "Indent" | outdent => "Outdent"
  | comment => "Comment" | identifier => "Identifier" | number => "Number" | string => "String"
  | boolean => "Boolean" | openParen => "OpenParen" | closeParen => "CloseParen"
  | openBracket => "OpenBracket" | closeBracket => "CloseBracket" | openCurly => "OpenCurly"
  | closeCurly => "CloseCurly" | comma => "Comma" | colon => "Colon" | dot => "Dot"
  | assignment => "Assignment" | pipe => "Pipe" | openQuote => "OpenQuote"
  | closeQuote => "CloseQuote" | ampersand => "Ampersand" | compare => "Compare" | math => "Math"
  | plus => "Plus" | dash => "Dash" | kwLet => "Let" | kwData => "Data" | kwMacro => "Macro"
  | kwFn => "Fn" | kwMatch => "Match" | kwCase => "Case" | kwIf => "If" | kwThen => "Then"
  | kwElse => "Else" | kwDo => "Do" | kwBind => "Bind" | kwReturn => "Return"

/-- The kind of a given name. -/
def ofName? (name : String) : Option Kind :=
  all.find? (·.name == name)

theorem ofName?_name (kind : Kind) : ofName? kind.name = some kind := by
  cases kind <;> decide

/-- The reserved words. The two truth values are reserved as well, and are literals. -/
def reserved : List (String × Kind) :=
  [("let", kwLet), ("data", kwData), ("macro", kwMacro), ("fn", kwFn), ("match", kwMatch),
   ("case", kwCase), ("if", kwIf), ("then", kwThen), ("else", kwElse), ("do", kwDo),
   ("bind", kwBind), ("return", kwReturn), ("true", boolean), ("false", boolean)]

/-- The kind of a reserved word. -/
def ofReserved? (word : String) : Option Kind :=
  reserved.lookup word

/-- A word that is not reserved is an identifier. -/
def ofWord (word : String) : Kind :=
  (ofReserved? word).getD identifier

/-- Whether a token of this kind can begin an inner expression, and so an argument. -/
def startsInner : Kind → Bool
  | identifier | number | string | boolean | openParen | openBracket | openCurly | openQuote
  | ampersand | kwIf => true
  | _ => false

/-- Whether a token of this kind may name a field, after a dot or in an object. -/
def namesField : Kind → Bool
  | identifier | kwReturn | kwBind => true
  | _ => false

/-- Whether a token of this kind shows its text in a summary. -/
def showsText : Kind → Bool
  | string | identifier | number | boolean | comment | compare | math => true
  | _ => false

end Kind

end Offside
