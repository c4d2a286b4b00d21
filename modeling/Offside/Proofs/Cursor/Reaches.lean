import Offside.Grammar.Cursor
import Mathlib.Data.List.Basic

/-! # Moving forward

A cursor reaches another if it passes tokens and changes nothing else. What a parse can see then
depends on the list of tokens ahead alone, apart from the kind of the token passed last, which is
the last one between two cursors that differ.
-/

namespace Offside

/-- The kind of the first token, end-of-file if there is none. -/
def nextKind (input : List Token) : Kind :=
  (input.head?.map (·.kind)).getD .eof

@[simp] theorem nextKind_nil : nextKind [] = .eof := rfl

@[simp] theorem nextKind_cons (token : Token) (rest : List Token) :
    nextKind (token :: rest) = token.kind := rfl

theorem eq_cons_of_nextKind {kind : Kind} {input : List Token} (h : nextKind input = kind)
    (hne : kind ≠ .eof) : ∃ token rest, input = token :: rest ∧ token.kind = kind := by
  cases input with
  | nil => exact absurd h.symm hne
  | cons token rest => exact ⟨token, rest, rfl, h⟩

/-- What is left of a list behind the terminators at its start. -/
def afterTerminators (input : List Token) : List Token :=
  input.dropWhile (·.kind = .terminator)

@[simp] theorem afterTerminators_nil : afterTerminators [] = [] := rfl

theorem afterTerminators_cons_of_eq {token : Token} (h : token.kind = .terminator)
    (rest : List Token) : afterTerminators (token :: rest) = afterTerminators rest := by
  simp [afterTerminators, h]

theorem afterTerminators_of_ne {input : List Token} (h : nextKind input ≠ .terminator) :
    afterTerminators input = input := by
  cases input with
  | nil => rfl
  | cons token rest => exact List.dropWhile_cons_of_neg (by simpa using h)

theorem afterTerminators_append {terminators rest : List Token}
    (h : ∀ token ∈ terminators, token.kind = .terminator) (hnext : nextKind rest ≠ .terminator) :
    afterTerminators (terminators ++ rest) = rest :=
  (List.dropWhile_append_of_pos (by simpa using h)).trans (afterTerminators_of_ne hnext)

theorem afterTerminators_suffix (input : List Token) : afterTerminators input <:+ input :=
  List.dropWhile_suffix _

theorem length_afterTerminators_le (input : List Token) :
    (afterTerminators input).length ≤ input.length :=
  (afterTerminators_suffix input).length_le

theorem suffix_of_cons_suffix {token : Token} {input rest : List Token}
    (h : token :: rest <:+ input) : rest <:+ input :=
  (List.suffix_cons token rest).trans h

/-- Whether the last token between two places, the later of which is given by what is left there,
is a terminator. -/
def lineEnded (input rest : List Token) : Bool :=
  (input.take (input.length - rest.length)).getLast?.map (·.kind) = some .terminator

theorem lineEnded_append (text rest : List Token) (token : Token) :
    lineEnded (text ++ token :: rest) rest = decide (token.kind = .terminator) := by
  have h : (text ++ token :: rest).take ((text ++ token :: rest).length - rest.length) =
      text ++ [token] := by
    rw [show text ++ token :: rest = (text ++ [token]) ++ rest by simp]
    exact List.take_left' (by simp only [List.length_append]; omega)
  rw [lineEnded, h]
  simp

/-- It does not matter from how far back it is asked. -/
theorem lineEnded_of_suffix {input mid rest : List Token} (h : mid <:+ input)
    (h' : rest <:+ mid) (hlt : rest.length < mid.length) :
    lineEnded input rest = lineEnded mid rest := by
  obtain ⟨text, rfl⟩ := h
  obtain ⟨text', rfl⟩ := h'
  rcases List.eq_nil_or_concat' text' with rfl | ⟨init, token, rfl⟩
  · simp at hlt
  · rw [List.append_assoc, List.singleton_append, lineEnded_append, ← List.append_assoc,
      lineEnded_append]

namespace Cursor

/-- One cursor is got from another by passing tokens. -/
def Reaches (cursor later : Cursor) : Prop :=
  ∃ text, cursor.ahead = text ++ later.ahead ∧ later.passed = text.reverse ++ cursor.passed ∧
    later.stop = cursor.stop ∧ later.beyond = cursor.beyond ∧ later.frame = cursor.frame

variable {a b c : Cursor}

theorem Reaches.refl (cursor : Cursor) : cursor.Reaches cursor :=
  ⟨[], rfl, rfl, rfl, rfl, rfl⟩

theorem Reaches.trans (h : a.Reaches b) (h' : b.Reaches c) : a.Reaches c := by
  obtain ⟨text, hahead, hpassed, hstop, hbeyond, hframe⟩ := h
  obtain ⟨text', hahead', hpassed', hstop', hbeyond', hframe'⟩ := h'
  refine ⟨text ++ text', ?_, ?_, hstop'.trans hstop, hbeyond'.trans hbeyond,
    hframe'.trans hframe⟩
  · rw [hahead, hahead', List.append_assoc]
  · rw [hpassed', hpassed, List.reverse_append, List.append_assoc]

/-- Where it stands does not depend on the frame. -/
theorem Reaches.inFrame (h : a.Reaches b) (frame : Frame) :
    (a.inFrame frame).Reaches (b.inFrame frame) := by
  obtain ⟨text, hahead, hpassed, hstop, hbeyond, -⟩ := h
  exact ⟨text, hahead, hpassed, hstop, hbeyond, rfl⟩

theorem Reaches.suffix (h : a.Reaches b) : b.ahead <:+ a.ahead := by
  obtain ⟨text, hahead, -⟩ := h
  exact ⟨text, hahead.symm⟩

theorem Reaches.length_le (h : a.Reaches b) : b.ahead.length ≤ a.ahead.length :=
  h.suffix.length_le

theorem Reaches.previous?_eq (h : a.Reaches b) (hlt : b.ahead.length < a.ahead.length) :
    decide (b.previous? = some .terminator) = lineEnded a.ahead b.ahead := by
  obtain ⟨text, hahead, hpassed, -⟩ := h
  rcases List.eq_nil_or_concat' text with rfl | ⟨init, token, rfl⟩
  · simp [hahead] at hlt
  · rw [hahead, List.append_assoc, List.singleton_append, lineEnded_append]
    simp [previous?, hpassed]

theorem kind_eq_nextKind (cursor : Cursor) : cursor.kind = nextKind cursor.ahead := by
  rcases cursor with ⟨frame, passed, _ | ⟨token, rest⟩, stop, beyond, content, kind_stop⟩
  · exact kind_stop
  · rfl

theorem peek_one {cursor : Cursor} (h : cursor.ahead ≠ []) :
    cursor.peek 1 = nextKind cursor.ahead.tail := by
  rcases cursor with
    ⟨frame, passed, _ | ⟨token, _ | ⟨next, rest⟩⟩, stop, beyond, content, kind_stop⟩
  · exact absurd rfl h
  · exact kind_stop
  · rfl

theorem current_of_cons {cursor : Cursor} {token : Token} {rest : List Token}
    (h : cursor.ahead = token :: rest) : cursor.current = token := by
  simp [current, h]

theorem ahead_next (cursor : Cursor) : cursor.next.ahead = cursor.ahead.tail := by
  unfold next
  split
  · next h => simp [h]
  · next h => simp [h]

theorem length_ahead_next {cursor : Cursor} (h : cursor.kind ≠ .eof) :
    cursor.next.ahead.length + 1 = cursor.ahead.length := by
  rw [ahead_next, List.length_tail]
  exact Nat.sub_add_cancel (List.length_pos_iff.2 (mt cursor.kind_eq_eof_iff.2 h))

/-- Where a token can be passed, the kind one token further on is that of the token behind it. -/
theorem peek_one_of_ne {cursor : Cursor} (h : cursor.kind ≠ .eof) :
    cursor.peek 1 = cursor.next.kind := by
  rw [peek_one (mt cursor.kind_eq_eof_iff.2 h), kind_eq_nextKind, ahead_next]

theorem reaches_next (cursor : Cursor) : cursor.Reaches cursor.next := by
  unfold next
  split
  · exact .refl _
  · next token rest h => exact ⟨[token], h, rfl, rfl, rfl, rfl⟩

theorem reaches_skip (cursor : Cursor) (kind : Kind) : cursor.Reaches (cursor.skip kind) :=
  ⟨cursor.ahead.takeWhile (·.kind = kind), List.takeWhile_append_dropWhile.symm, rfl, rfl, rfl,
    rfl⟩

section Skip

variable {k : Kind}

theorem takeWhile_of_ne (hne : c.kind ≠ k) : c.ahead.takeWhile (·.kind = k) = [] := by
  rw [c.kind_eq_nextKind] at hne
  cases h : c.ahead with
  | nil => rfl
  | cons token rest => exact List.takeWhile_cons_of_neg (by simpa [h] using hne)

theorem skip_of_ne (hne : c.kind ≠ k) : c.skip k = c := by
  have hdrop : c.ahead.dropWhile (·.kind = k) = c.ahead := by
    have := List.takeWhile_append_dropWhile (p := fun token : Token => token.kind = k)
      (l := c.ahead)
    rwa [takeWhile_of_ne hne] at this
  simp only [skip, takeWhile_of_ne hne, hdrop]
  rfl

theorem skip_of_eq (heq : c.kind = k) (hk : k ≠ .eof) : c.skip k = c.next.skip k ∧
    c.ahead.takeWhile (·.kind = k) = c.current :: c.next.ahead.takeWhile (·.kind = k) := by
  obtain ⟨token, rest, h⟩ := List.exists_cons_of_ne_nil (mt c.kind_eq_eof_iff.2 (heq ▸ hk))
  rcases c with ⟨frame, passed, ahead, stop, beyond, content, kind_stop⟩
  obtain rfl : ahead = token :: rest := h
  replace heq : token.kind = k := heq
  refine ⟨?_, ?_⟩
  · simp [skip, next, heq]
  · simp [next, current, heq]

theorem length_skip_lt (heq : c.kind = k) (hk : k ≠ .eof) :
    (c.skip k).ahead.length < c.ahead.length := by
  have hlength := length_ahead_next (heq ▸ hk : c.kind ≠ .eof)
  rw [(skip_of_eq heq hk).1, ← hlength]
  exact Nat.lt_succ_of_le (c.next.reaches_skip k).length_le

theorem kind_skip_ne (hk : k ≠ .eof) (c : Cursor) : (c.skip k).kind ≠ k := by
  rw [kind_eq_nextKind]
  intro h
  obtain ⟨token, rest, hahead, hkind⟩ := eq_cons_of_nextKind h hk
  have hhead := List.head?_dropWhile_not (fun token : Token => decide (token.kind = k)) c.ahead
  rw [show c.ahead.dropWhile (·.kind = k) = token :: rest from hahead] at hhead
  simp [hkind] at hhead

end Skip

end Cursor

end Offside
