import Offside.Source.Reader
import Offside.Token.Stream

/-! # Scanning

A source read byte by byte, without being cut into lines first. A scanner holds a byte offset, what
it knows of the line it is on, and the tokens so far. Whatever it takes from the source it takes by
byte indices, and it is stuck where such an index falls inside a character or out of the text. Lines
are counted in 32 bits, and it is stuck as well where that count runs over.
-/

namespace Offside

/-- The part of a text between two byte indices, unless one of them falls inside a character or out
of the text, or they are the wrong way round. -/
def slice? (start stop : Nat) (text : List Char) : Option (List Char) :=
  if start ≤ stop then do
    let rest ← dropBytes? start text
    let behind ← dropBytes? stop text
    return rest.take (rest.length - behind.length)
  else none

theorem dropBytes?_append (before after : List Char) :
    dropBytes? (byteLength before) (before ++ after) = some after := by
  induction before with
  | nil => cases after <;> rfl
  | cons c before ih =>
    have hpos := c.utf8Size_pos
    rw [List.cons_append, dropBytes?, byteLength_cons, if_neg (by omega), if_neg (by omega),
      Nat.add_sub_cancel_left, ih]

theorem slice?_append (before part after : List Char) :
    slice? (byteLength before) (byteLength (before ++ part)) (before ++ (part ++ after)) =
      some part := by
  have hle : byteLength before ≤ byteLength (before ++ part) := by
    rw [byteLength_append]
    exact Nat.le_add_right _ _
  have hbehind := dropBytes?_append (before ++ part) after
  rw [List.append_assoc] at hbehind
  rw [slice?, if_pos hle, dropBytes?_append, hbehind]
  simp

/-- What stands between the quotes of a literal. -/
theorem slice?_quotes (body : List Char) :
    slice? 1 (byteLength ('"' :: (body ++ ['"'])) - 1) ('"' :: (body ++ ['"'])) = some body := by
  have hslice := slice?_append ['"'] body ['"']
  have hquote : byteLength ['"'] = 1 := rfl
  have hstop : byteLength ('"' :: (body ++ ['"'])) - 1 = byteLength (['"'] ++ body) := by
    simp only [byteLength_append, byteLength_cons, byteLength_nil] at hquote ⊢
    omega
  rw [hstop, ← hquote]
  exact hslice

/-- A place in a source, the number and the first offset of the line it is on, the widths of the
open blocks, innermost first, and the tokens, last one first. -/
structure Scanner extends Reader where
  line : UInt32
  lineStart : Nat
  widths : List Nat
  tokens : List Token

namespace Scanner

/-- The scanner before a source. -/
def ofSource (source : List Char) (file : String) : Scanner :=
  ⟨⟨source, file, 0⟩, 1, 0, [0], []⟩

/-- Passes a number of bytes. -/
def skip (s : Scanner) (bytes : Nat) : Scanner :=
  { s with toReader := s.advance bytes }

/-- On the next line, from its first byte on. -/
def newLine (s : Scanner) : Scanner :=
  { s with line := s.line + 1, lineStart := s.offset }

/-- Begins a line, unless the lines before it are as many as 32 bits count. -/
def newLine? (s : Scanner) : Option Scanner :=
  if s.line.toNat + 1 < UInt32.size then some s.newLine else none

theorem toNat_newLine {s : Scanner} (h : s.line.toNat + 1 < UInt32.size) :
    s.newLine.line.toNat = s.line.toNat + 1 :=
  (UInt32.toNat_add ..).trans (Nat.mod_eq_of_lt h)

/-- The position of a scanner. Its column is counted from the start of the line, so it must not be
before that. -/
def position? (s : Scanner) : Option Position :=
  if s.lineStart ≤ s.offset then
    some ⟨s.offset.toUInt32, s.line, (s.offset - s.lineStart + 1).toUInt32, s.file⟩
  else none

/-- Adds a token that covers the next bytes, which are passed. -/
def push? (s : Scanner) (kind : Kind) (value : List Char) (bytes : Nat) : Option Scanner := do
  let start ← s.position?
  let stop ← (s.skip bytes).position?
  return { s.skip bytes with tokens := ⟨kind, String.ofList value, ⟨start, stop⟩⟩ :: s.tokens }

/-- Whether nothing but layout was added since the line began. -/
def atLineStart (s : Scanner) : Bool :=
  match s.tokens with
  | [] => true
  | token :: _ => token.kind = .terminator || token.kind = .indent || token.kind = .outdent

/-- The widths of the blocks that are open. The first line that adds a token opens the first. -/
def opened (s : Scanner) : List Nat :=
  if s.tokens.isEmpty then [] else s.widths

/-- Adds the marks before a line of a given width. -/
def layout? (s : Scanner) (width : Nat) : Option (Except SyntaxError Scanner) := do
  let position ← s.position?
  match Layout.enter? s.opened width with
  | none =>
    return .error ⟨.malformedLayout
      s!"line is indented to column {width + 1} which matches no enclosing block", position⟩
  | some (marks, widths) =>
    return .ok { s with
      widths
      tokens := (marks.map (·.token position)).reverse ++ s.tokens }

/-- Passes the blank lines that come next, and answers with the width of the line behind them if
there is one. The number of characters in an indentation serves as a byte index. -/
def skipBlank? : Nat → Scanner → Option (Scanner × Option Nat)
  | 0, _ => none
  | turns + 1, s => do
    let rest ← s.remainder?
    let width := (rest.takeWhile Line.isIndentation).length
    let after ← dropBytes? width rest
    if after.isEmpty then return (s, none)
    else
      let size := Pattern.reachLineBreak after
      if size = 0 then return (s, some width)
      else skipBlank? turns (← (s.skip (width + size)).newLine?)

/-- Passes blank lines, and adds the marks before the line behind them. -/
def enterLine? (s : Scanner) : Option (Except SyntaxError Scanner) := do
  match ← skipBlank? (byteLength s.source + 1) s with
  | (s, none) => return .ok s
  | (s, some width) => s.layout? width

/-- Handles what a pattern has matched. The quotes of a literal are cut off by byte indices, and a
symbol counts as many bytes as it is written with. -/
def handle? (s : Scanner) (matched : List Char) : Pattern → Option (Except SyntaxError Scanner)
  | .lineBreak => do (← (s.skip (byteLength matched)).newLine?).enterLine?
  | .blanks => some (.ok (s.skip (byteLength matched)))
  | .comment =>
    if s.atLineStart then
      .ok <$> s.push? .comment (Lexeme.remark matched) (byteLength matched)
    else some (.ok (s.skip (byteLength matched)))
  | .word => .ok <$> s.push? (.ofWord (String.ofList matched)) matched (byteLength matched)
  | .numeral => .ok <$> s.push? .number matched (byteLength matched)
  | .quoted => do
    let literal ← slice? 1 (byteLength matched - 1) matched
    .ok <$> s.push? .string (Escape.decode literal) (byteLength matched)
  | .symbol written kind => .ok <$> s.push? kind written (byteLength written)

/-- Handles the first match at the scanner. -/
def step? (s : Scanner) : Option (Except SyntaxError Scanner) := do
  let rest ← s.remainder?
  match Pattern.first? rest with
  | some (pattern, size) => s.handle? (rest.take size) pattern
  | none => return .error ⟨.unrecognised (String.ofList (rest.take 1)), ← s.position?⟩

/-- Closes the blocks that are open, and ends the stream. -/
def finish? (s : Scanner) : Option (List Token) := do
  let position ← s.position?
  return s.tokens.reverse ++ ((Layout.leave s.widths).map (·.token position) ++ [.eof position])

/-- Steps to the end of the source, with so many steps at most. -/
def run? : Nat → Scanner → Option (Except SyntaxError (List Token))
  | 0, _ => none
  | turns + 1, s =>
    if s.atEnd then .ok <$> s.finish?
    else do
      match ← s.step? with
      | .error error => return .error error
      | .ok s => run? turns s

end Scanner

/-- The tokens of a source, by a scan with no more steps than the source has bytes. There is no
answer if the scan is stuck or does not end. -/
def scan? (source : List Char) (file : String) : Option (Except SyntaxError (List Token)) := do
  match ← (Scanner.ofSource source file).enterLine? with
  | .error error => return .error error
  | .ok s => s.run? (byteLength source + 1)

/-- The scanners that a scan of a source stands at between two steps. -/
inductive Scanner.Visited (source : List Char) (file : String) : Scanner → Prop where
  | first {s : Scanner} : (ofSource source file).enterLine? = some (.ok s) →
      Visited source file s
  | next {s s' : Scanner} : Visited source file s → s.atEnd = false →
      s.step? = some (.ok s') → Visited source file s'

end Offside
