import Offside.Grammar.Levels

/-! # Sessions

A parser driven one operation at a time: its tables can be changed between operations, and after a
failure it goes on from the token that caused it. Only the commands for tables change the tables,
and the nesting level is what it was once a command is done.
-/

namespace Offside

/-- One operation. -/
inductive Command where
  | install
  | token
  | advance
  | kind
  | peek (places : Nat)
  | previous
  | atEnd
  | skipTerminators
  | endLine
  | place
  | position
  | unexpected (expected : String)
  | layoutError (message : String)
  | expect (kind : Kind) (refusal? : Option SyntaxError)
  /-- Commands run one nesting level further in. -/
  | nested (commands : List Command)
  | parse (rule : Rule)
  | inner (power : Power)
  | operate (operation : Operation) (power : Power) (left : Node)
  | block
  | blockOrExpression
  | sequenceBlock
  | body (stop : Kind)
  | caseArms
  | caseArm
  | casePattern
  | params
  | optionalParams
  | param
  | optionalType
  | typeName
  | setOperand (kind : Kind) (rule : Rule)
  | setStatement (kind : Kind) (rule : Rule)
  | setOperator (kind : Kind) (power : Power) (operation : Operation)
  | lookUp (kind : Kind)

/-- What an operation answers. -/
inductive Reply where
  | done
  | failed (error : SyntaxError)
  | token (token : Token)
  | kind (kind? : Option Kind)
  | flag (value : Bool)
  | place (line column : UInt32)
  | position (position : Position)
  /-- An error that was asked for, while nothing failed. -/
  | error (error : SyntaxError)
  | node (node : Node)
  | nodes (nodes : List Node)
  | caseArms (arms : List (CasePattern × Node))
  | caseArm (arm : CasePattern × Node)
  | casePattern (pattern : CasePattern)
  | params (params : List Param)
  | param (param : Param)
  | optionalName (name? : Option String)
  | name (name : String)
  /-- Whether a kind starts an operand or a statement, and its power if it is an operator. -/
  | entries (operand statement : Bool) (power? : Option Power)
  /-- The replies to nested commands, each with the token current afterwards. -/
  | nested (replies : List (Reply × Token))

/-- A parser between two operations: its cursor, with the frame that it has built up. -/
abbrev Session := Cursor

namespace Session

/-- A session at the start of a token stream, without any rules and with no level open. -/
def start (tokens : List Token) (file : String) (limit : Nat) : Session :=
  (Cursor.ofTokens tokens file).inFrame ⟨.empty, limit, 0⟩

def grammar (session : Session) : Grammar :=
  .counting session.frame

/-- Runs a parse and answers with its value or its error. The session is what the parse leaves. -/
def run {α : Type} (session : Session) (parse : Parse α) (reply : α → Reply) : Reply × Session :=
  match parse session with
  | .ok value later => (reply value, later)
  | .error error later => (.failed error, later)

/-- Answers without a move. -/
def tell (session : Session) (reply : Reply) : Reply × Session :=
  (reply, session)

def withTables (session : Session) (tables : Tables) : Reply × Session :=
  (.done, session.inFrame { session.frame with tables })

mutual

/-- Carries out a command. -/
def execute (session : Session) : Command → Reply × Session
  | .install => session.withTables session.frame.tables.install
  | .token => session.tell (.token session.current)
  | .advance => session.run Parse.advance .token
  | .kind => session.tell (.kind session.kind)
  | .peek places => session.tell (.kind (session.peek places))
  | .previous => session.tell (.kind session.previous?)
  | .atEnd => session.tell (.flag session.atEnd)
  | .skipTerminators => session.run Parse.skipTerminators .flag
  | .endLine => session.run Parse.endLine .flag
  | .place => session.tell (.place session.position.line session.position.column)
  | .position => session.tell (.position session.position)
  | .unexpected expected => session.tell (.error (session.unexpected expected))
  | .layoutError message => session.tell (.error (session.layoutError message))
  | .expect kind none => session.run (Parse.expect kind) .token
  | .expect kind (some refusal) => session.run (Parse.expectOr kind fun _ => refusal) .token
  | .nested commands =>
    if session.frame.limit ≤ session.frame.depth then
      session.tell (.failed ⟨.nestingTooDeep session.frame.limit, session.position⟩)
    else
      let (replies, later) := executeAll session.enter commands
      (.nested replies, later.leave)
  | .parse rule => session.run (rule.parse session.grammar) .node
  | .inner power => session.run (session.grammar.nested.inner power) .node
  | .operate operation power left =>
    session.run (session.grammar.operate operation power left) .node
  | .block => session.run session.grammar.nested.block .nodes
  | .blockOrExpression => session.run session.grammar.blockOrExpression .nodes
  | .sequenceBlock => session.run session.grammar.nested.sequenceBlock .nodes
  | .body stop => session.run (session.grammar.bodyUntil stop) .nodes
  | .caseArms => session.run session.grammar.caseArms .caseArms
  | .caseArm => session.run session.grammar.caseArm .caseArm
  | .casePattern => session.run Grammar.casePattern .casePattern
  | .params => session.run Grammar.params .params
  | .optionalParams => session.run Grammar.optionalParams .params
  | .param => session.run Grammar.param .param
  | .optionalType => session.run Grammar.optionalType .optionalName
  | .typeName => session.run Grammar.typeName .name
  | .setOperand kind rule => session.withTables (session.frame.tables.setOperand kind rule)
  | .setStatement kind rule => session.withTables (session.frame.tables.setStatement kind rule)
  | .setOperator kind power operation =>
    session.withTables (session.frame.tables.setOperator kind power operation)
  | .lookUp kind =>
    let tables := session.frame.tables
    session.tell <| .entries (tables.operand? kind).isSome (tables.statement? kind).isSome
      ((tables.operator? kind).map (·.1))

/-- Carries out commands in order. -/
def executeAll (session : Session) : List Command → List (Reply × Token) × Session
  | [] => ([], session)
  | command :: rest =>
    let (reply, next) := session.execute command
    let (replies, last) := next.executeAll rest
    ((reply, next.current) :: replies, last)

end

end Session

end Offside
