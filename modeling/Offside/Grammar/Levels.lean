import Offside.Grammar.Lines

/-! # Nesting levels

The grammar is tied together level by level. A level is made of the next one, so parsing recurses
on the number of levels that are left, and the limit on nesting is what ends it. A parser counts the
levels that are open instead, in the frame of its cursor, and takes its tables from there.
-/

namespace Offside

/-- The production that a rule stands for. -/
def Rule.parse (g : Grammar) : Rule → Parse Node
  | expression => g.nested.expression
  | application => g.application
  | literal => Grammar.literal
  | accessor => Grammar.accessor
  | grouping => g.grouping
  | splice => g.splice
  | quotation => g.quotation
  | array => g.array
  | object => g.object
  | conditional => g.conditional
  | function => g.function
  | choice => g.choice
  | sequence => g.sequence
  | line => g.line
  | letDeclaration => g.letDeclaration
  | dataDeclaration => Grammar.dataDeclaration
  | macroDeclaration => g.macroDeclaration

namespace Grammar

/-- Runs a rule that may hand its token on to another rule, a number of times. Under some tables a
token is handed on without end, and parsing it would never return: it is refused as for want of a
level. -/
def runRule (tables : Tables) (nested : Nested) : Nat → Rule → Parse Node
  | 0, _ => Nested.refuse nested.limit
  | turns + 1, rule => rule.parse ⟨tables, nested, runRule tables nested turns⟩

/-- The grammar of a level. Two rules hand on the token they start at, each by a table of its own:
a third in a row would be one of them again, and would go on without end. -/
def ofNested (tables : Tables) (nested : Nested) : Grammar :=
  ⟨tables, nested, runRule tables nested 2⟩

end Grammar

/-- The productions that open a level, where some number of levels is left to open. -/
def Nested.within (tables : Tables) (limit : Nat) : Nat → Nested
  | 0 => exhausted limit
  | room + 1 =>
    { limit
      expression := fun cursor =>
        (Grammar.ofNested tables (within tables limit room)).expressionBody cursor
      inner := fun power cursor =>
        (Grammar.ofNested tables (within tables limit room)).innerBody power cursor
      block := fun cursor =>
        (Grammar.ofNested tables (within tables limit room)).blockBody cursor
      sequenceBlock := fun cursor =>
        (Grammar.ofNested tables (within tables limit room)).sequenceBody cursor }

/-- The grammar with some number of levels left to open. -/
def Grammar.within (tables : Tables) (limit room : Nat) : Grammar :=
  .ofNested tables (.within tables limit room)

/-- Runs a parse one nesting level further in, unless as many levels are open as the limit allows.
The level is counted before the parse and discounted behind it, also where it fails. -/
def Nested.deeper {α : Type} (p : Parse α) : Parse α := fun cursor =>
  if cursor.frame.limit ≤ cursor.frame.depth then refuse cursor.frame.limit cursor
  else
    match p cursor.enter with
    | .ok value later => .ok value later.leave
    | .error error later => .error error later.leave

/-- The productions that open a level, where the open ones are counted. They recurse on a number of
turns. -/
def Nested.counting (limit : Nat) : Nat → Nested
  | 0 => exhausted limit
  | turns + 1 =>
    { limit
      expression := deeper fun cursor =>
        (Grammar.ofNested cursor.frame.tables (counting limit turns)).expressionBody cursor
      inner := fun power => deeper fun cursor =>
        (Grammar.ofNested cursor.frame.tables (counting limit turns)).innerBody power cursor
      block := deeper fun cursor =>
        (Grammar.ofNested cursor.frame.tables (counting limit turns)).blockBody cursor
      sequenceBlock := deeper fun cursor =>
        (Grammar.ofNested cursor.frame.tables (counting limit turns)).sequenceBody cursor }

/-- The grammar of a frame. Of one turn more than levels may be open, the last is never reached. -/
def Grammar.counting (frame : Frame) : Grammar :=
  .ofNested frame.tables (.counting frame.limit (frame.limit + 1))

end Offside
