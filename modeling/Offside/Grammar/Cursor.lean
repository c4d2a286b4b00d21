import Offside.Error
import Offside.Grammar.Tables
import Offside.Token.Basic

/-! # Cursors

A place in a token stream. The cursor moves forward only and stays at the first end-of-file token;
what follows that token is seen by looking ahead and never reached. A cursor is all the state that a
parse has, so it also holds what does not belong to a place: the tables and the count of the levels
that are open.
-/

namespace Offside

/-- The tables, how many nesting levels may be open at once, and how many are. -/
structure Frame where
  tables : Tables
  limit : Nat
  depth : Nat

namespace Frame

/-- One level more open. -/
def enter (frame : Frame) : Frame :=
  { frame with depth := frame.depth + 1 }

/-- One level closed. -/
def leave (frame : Frame) : Frame :=
  { frame with depth := frame.depth - 1 }

@[simp] theorem leave_enter (frame : Frame) : frame.enter.leave = frame := rfl

end Frame

/-- The tokens passed, last one first; those ahead, up to the token the cursor stops at; and those
beyond it. -/
structure Cursor where
  frame : Frame
  passed : List Token
  ahead : List Token
  stop : Token
  beyond : List Token
  kind_ne_eof_of_mem_ahead : ∀ token ∈ ahead, token.kind ≠ .eof
  kind_stop : stop.kind = .eof

namespace Cursor

/-- The end-of-file token of a stream that has none: at the end of its last token. -/
def impliedEof (tokens : List Token) (file : String) : Token :=
  match tokens.getLast? with
  | some token => .eof token.span.stop
  | none => .eof (.first file)

/-- The cursor at the start of a stream, without tables and without a level to open. -/
def ofTokens (tokens : List Token) (file : String) : Cursor :=
  let ahead := tokens.takeWhile (·.kind != .eof)
  have content : ∀ token ∈ ahead, token.kind ≠ .eof := fun token mem => by
    simpa using List.all_eq_true.1 List.all_takeWhile token mem
  match h : tokens.dropWhile (·.kind != .eof) with
  | [] =>
    have kind_stop : (impliedEof tokens file).kind = .eof := by unfold impliedEof; split <;> rfl
    ⟨⟨.empty, 0, 0⟩, [], ahead, impliedEof tokens file, [], content, kind_stop⟩
  | stop :: beyond =>
    have kind_stop : stop.kind = .eof := by
      have head := List.head?_dropWhile_not (·.kind != .eof) tokens
      simpa [h] using head
    ⟨⟨.empty, 0, 0⟩, [], ahead, stop, beyond, content, kind_stop⟩

/-- The whole stream, wherever the cursor stands in it. -/
def toList (cursor : Cursor) : List Token :=
  cursor.passed.reverse ++ (cursor.ahead ++ cursor.stop :: cursor.beyond)

/-- The token at the cursor. -/
def current (cursor : Cursor) : Token :=
  cursor.ahead.headD cursor.stop

def kind (cursor : Cursor) : Kind :=
  cursor.current.kind

/-- The kind of the token some places ahead, end-of-file past the last one. -/
def peek (cursor : Cursor) (places : Nat) : Kind :=
  match cursor.ahead[places]? with
  | some token => token.kind
  | none =>
    match (cursor.stop :: cursor.beyond)[places - cursor.ahead.length]? with
    | some token => token.kind
    | none => .eof

/-- The kind of the token passed last. -/
def previous? (cursor : Cursor) : Option Kind :=
  cursor.passed.head?.map (·.kind)

def atEnd (cursor : Cursor) : Bool :=
  cursor.kind = .eof

def position (cursor : Cursor) : Position :=
  cursor.current.span.start

/-- The cursor one token further on, unless it is at the end. -/
def next (cursor : Cursor) : Cursor :=
  match h : cursor.ahead with
  | [] => cursor
  | token :: rest =>
    { cursor with
      passed := token :: cursor.passed
      ahead := rest
      kind_ne_eof_of_mem_ahead := fun _ mem =>
        cursor.kind_ne_eof_of_mem_ahead _ (h ▸ List.mem_cons_of_mem _ mem) }

/-- The cursor behind all tokens of one kind that come next. -/
def skip (cursor : Cursor) (kind : Kind) : Cursor :=
  { cursor with
    passed := (cursor.ahead.takeWhile (·.kind = kind)).reverse ++ cursor.passed
    ahead := cursor.ahead.dropWhile (·.kind = kind)
    kind_ne_eof_of_mem_ahead := fun _ mem =>
      cursor.kind_ne_eof_of_mem_ahead _ ((List.dropWhile_sublist _).subset mem) }

/-- The same place in another frame. -/
def inFrame (cursor : Cursor) (frame : Frame) : Cursor :=
  { cursor with frame }

/-- The same place with one level more open. -/
def enter (cursor : Cursor) : Cursor :=
  cursor.inFrame cursor.frame.enter

/-- The same place with one level closed. -/
def leave (cursor : Cursor) : Cursor :=
  cursor.inFrame cursor.frame.leave

/-- The error of a current token that cannot continue what was read. -/
def unexpected (cursor : Cursor) (expected : String) : SyntaxError :=
  let token := cursor.current
  let cause :=
    if token.kind = .eof then .unexpectedEnd expected
    else .unexpected token.value token.kind expected
  ⟨cause, token.span.start⟩

/-- A layout error at the current token. -/
def layoutError (cursor : Cursor) (message : String) : SyntaxError :=
  ⟨.malformedLayout message, cursor.position⟩

@[simp] theorem inFrame_frame (cursor : Cursor) : cursor.inFrame cursor.frame = cursor := rfl

@[simp] theorem frame_inFrame (cursor : Cursor) (frame : Frame) :
    (cursor.inFrame frame).frame = frame := rfl

@[simp] theorem toList_inFrame (cursor : Cursor) (frame : Frame) :
    (cursor.inFrame frame).toList = cursor.toList := rfl

theorem next_inFrame (cursor : Cursor) (frame : Frame) :
    (cursor.inFrame frame).next = cursor.next.inFrame frame := by
  rcases cursor with ⟨own, passed, _ | ⟨token, rest⟩, stop, beyond, content, kind_stop⟩ <;> rfl

@[simp] theorem toList_next (cursor : Cursor) : cursor.next.toList = cursor.toList := by
  unfold next
  split
  · rfl
  · next token rest h => simp [toList, h]

@[simp] theorem toList_skip (cursor : Cursor) (kind : Kind) :
    (cursor.skip kind).toList = cursor.toList := by
  simp only [toList, skip, List.reverse_append, List.reverse_reverse, List.append_assoc]
  rw [← List.append_assoc (List.takeWhile _ _), List.takeWhile_append_dropWhile]

theorem toList_ofTokens (tokens : List Token) (file : String) :
    (ofTokens tokens file).toList = tokens ∨
      (ofTokens tokens file).toList = tokens ++ [impliedEof tokens file] := by
  have whole := List.takeWhile_append_dropWhile (p := (·.kind != .eof)) (l := tokens)
  unfold ofTokens
  split
  · next h =>
    rw [h, List.append_nil] at whole
    exact .inr (by simp [toList, whole])
  · next stop beyond h =>
    rw [h] at whole
    exact .inl (by simpa [toList] using whole)

theorem kind_eq_eof_iff (cursor : Cursor) : cursor.kind = .eof ↔ cursor.ahead = [] := by
  rcases cursor with ⟨frame, passed, _ | ⟨token, rest⟩, stop, beyond, content, kind_stop⟩
  · simp [kind, current, kind_stop]
  · simp [kind, current, content]

end Cursor

end Offside
