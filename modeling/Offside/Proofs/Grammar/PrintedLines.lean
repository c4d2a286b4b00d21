import Offside.Proofs.Grammar.Exact
import Offside.Proofs.Grammar.PrintedParts
import Offside.Proofs.Node.Levels

/-! # Reading what is printed: brackets and lines

What is printed for an expression is read back in parentheses, and what is printed for a line where
the line ends. From the one follows what is read in each place an expression may stand, and from the
other what is read of a block.
-/

namespace Offside

theorem Tables.tighter?_of_operator? {kind : Kind} {own power : Power} {operation : Operation}
    (h : standard.operator? kind = some (own, operation)) (hpower : power.rank < own.rank) :
    standard.tighter? power kind = some (own, operation) := by
  simp [tighter?, h, hpower]

open Grammar

namespace Node

variable {room : Nat} {node : Node} {text rest : List Token}

/-- What is printed for an expression is read as the expression in front of a parenthesis. -/
def ReadsBack (node : Node) : Prop :=
  ∀ ⦃room : Nat⦄ ⦃text : List Token⦄ ⦃closing : Token⦄ ⦃rest : List Token⦄,
    Spelled node.print text → node.levels ≤ room → closing.kind = .closeParen →
      Reads room (.expression node) (text ++ closing :: rest) (closing :: rest)

theorem enclosed_spelled {opening closing : Kind} {symbols : List Symbol}
    (h : Spelled (.mark opening :: symbols ++ [.mark closing]) text) :
    ∃ first inner last, text = first :: (inner ++ [last]) ∧ first.kind = opening ∧
      Spelled symbols inner ∧ last.kind = closing := by
  simp only [List.cons_append, spelled_cons_iff, spelled_append_iff, spelled_nil_iff] at h
  obtain ⟨first, _, rfl, hfirst, inner, _, rfl, hinner, last, _, rfl, hlast, rfl⟩ := h
  exact ⟨first, inner, last, rfl, hfirst, hinner, hlast⟩

theorem parenthesized_spelled {symbols : List Symbol} (h : Spelled (parenthesized symbols) text) :
    ∃ opening inner closing, text = opening :: (inner ++ [closing]) ∧ opening.kind = .openParen ∧
      Spelled symbols inner ∧ closing.kind = .closeParen :=
  enclosed_spelled h

theorem nextKind_of_parenthesized {symbols : List Symbol} (h : Spelled (parenthesized symbols) text)
    (rest : List Token) : nextKind (text ++ rest) = .openParen := by
  obtain ⟨opening, inner, closing, rfl, hopening, -⟩ := parenthesized_spelled h
  exact hopening

namespace ReadsBack

variable (hnode : node.ReadsBack)
include hnode

theorem operand (h : Spelled (parenthesized node.print) text) (hroom : node.levels ≤ room)
    (hdot : nextKind rest ≠ .dot) : Reads room (.operand node) (text ++ rest) rest := by
  obtain ⟨opening, inner, closing, rfl, hopening, hinner, hclosing⟩ := parenthesized_spelled h
  simp only [List.cons_append, List.append_assoc, List.nil_append]
  exact .grouping hopening (hnode hinner hroom hclosing) hclosing (.nil hdot)

theorem inner (h : Spelled (parenthesized node.print) text) (hroom : node.levels + 1 ≤ room)
    (hdot : nextKind rest ≠ .dot) (hoperator : Tables.standard.operator? (nextKind rest) = none)
    (power : Power) : Reads room (.inner power node) (text ++ rest) rest := by
  obtain ⟨room, rfl⟩ : ∃ levels, room = levels + 1 := ⟨room - 1, by omega⟩
  have hstop := Tables.tighter?_eq_none hoperator power
  exact .inner (hnode.operand h (by omega) hdot) (.noOperation hstop)

/-- An expression in parentheses is an expression where nothing goes on with it. -/
theorem expression (h : Spelled (parenthesized node.print) text) (hroom : node.levels + 1 ≤ room)
    (hcloses : (nextKind rest).closes = true) :
    Reads room (.expression node) (text ++ rest) rest := by
  have hkind : nextKind rest ≠ .dot ∧ (nextKind rest).startsInner = false ∧
      Tables.standard.operator? (nextKind rest) = none := by
    cases hnext : nextKind rest <;> simp_all [Kind.closes, Kind.startsInner, Tables.standard]
  obtain ⟨hdot, hstarts, hoperator⟩ := hkind
  have hopen := nextKind_of_parenthesized h rest
  obtain ⟨room, rfl⟩ : ∃ levels, room = levels + 1 := ⟨room - 1, by omega⟩
  exact .operation (.inr hopen) (hnode.operand h (by omega) hdot) hstarts
    (.noOperation (Tables.tighter?_eq_none hoperator .loosest))

end ReadsBack

/-- An operand that begins neither with a name nor with a parenthesis is an expression. -/
theorem expression_of_operand {input : List Token} {closing : Token}
    (h : Reads room (.operand node) input (closing :: rest)) (hclosing : closing.kind = .closeParen)
    (hident : nextKind input ≠ .identifier) (hopen : nextKind input ≠ .openParen) :
    Reads (room + 2) (.expression node) input (closing :: rest) := by
  refine .other hident hopen (.inner h (.noOperation (Tables.tighter?_eq_none ?_ .loosest)))
  rw [nextKind_cons, hclosing]
  rfl

/-- The same for one that does. -/
theorem expression_of_callee {input : List Token} {closing : Token}
    (h : Reads room (.operand node) input (closing :: rest)) (hclosing : closing.kind = .closeParen)
    (hstart : nextKind input = .identifier ∨ nextKind input = .openParen) :
    Reads (room + 1) (.expression node) input (closing :: rest) := by
  have hnext : nextKind (closing :: rest) = .closeParen := hclosing
  refine .operation hstart h ?_ (.noOperation (Tables.tighter?_eq_none ?_ .loosest)) <;>
    rw [hnext] <;> rfl

/-- An operand is an expression where a single token, neither a name nor a parenthesis, spells it. -/
theorem readsBack_of_symbol (symbol : Symbol) (kind : Kind) (hprint : node.print = [symbol])
    (hlevels : node.levels = 2) (hident : kind ≠ .identifier) (hopen : kind ≠ .openParen)
    (hsymbol : ∀ {token : Token}, symbol.Spells token → token.kind = kind)
    (hoperand : ∀ {room : Nat} {token : Token} {rest : List Token}, symbol.Spells token →
      Reads room (.operand node) (token :: rest) rest) : node.ReadsBack := by
  intro room text closing rest h hroom hclosing
  rw [hlevels] at hroom
  rw [hprint] at h
  obtain ⟨token, _, rfl, htoken, htext⟩ := spelled_cons_iff.1 h
  obtain rfl := spelled_nil_iff.1 htext
  obtain ⟨room, rfl⟩ : ∃ levels, room = levels + 2 := ⟨room - 2, by omega⟩
  have hkind : nextKind ([token] ++ closing :: rest) = kind := hsymbol htoken
  exact expression_of_operand (hoperand htoken) hclosing (hkind ▸ hident) (hkind ▸ hopen)

/-- What is printed for a line is read as the line where it ends. -/
def LineReadsBack (sequence : Bool) (node : Node) : Prop :=
  ∀ ⦃room : Nat⦄ ⦃text rest : List Token⦄, Spelled node.printLine text →
    node.levelsOfLine ≤ room →
    nextKind rest = .terminator ∨ nextKind rest = .outdent ∨ nextKind rest = .eof →
      Reads room (.line sequence node) (text ++ rest) rest

theorem closes_of_lineEnd {kind : Kind}
    (h : kind = .terminator ∨ kind = .outdent ∨ kind = .eof) : kind.closes = true := by
  rcases h with rfl | rfl | rfl <;> rfl

end Node

namespace Reads

variable {room : Nat} {sequence : Bool} {input rest : List Token}

theorem startsLine {node : Node} (h : Reads room (.line sequence node) input rest) :
    nextKind input ≠ .terminator ∧ nextKind input ≠ .outdent ∧ nextKind input ≠ .eof := by
  cases h with
  | expressionLine h =>
    exact ⟨h.nextKind_ne rfl, h.nextKind_ne rfl, h.nextKind_ne rfl⟩
  | _ => simp_all

theorem nextKind_ne_of_lines {stop : Kind} {nodes : List Node}
    (h : Reads room (.lines sequence stop nodes) input rest) (hne : nodes ≠ []) :
    nextKind input ≠ stop := by
  cases h with
  | noLine => exact absurd rfl hne
  | consLine h => exact h

end Reads

namespace Node

variable {room : Nat} {text rest : List Token}

theorem lines_of_spelled {sequence : Bool} {nodes : List Node} {stop : Kind}
    (hnodes : ∀ node ∈ nodes, node.LineReadsBack sequence)
    (h : Spelled (separate .terminator (nodes.map printLine)) text)
    (hroom : lineLevels nodes ≤ room)
    (hstop : stop = .outdent ∨ stop = .eof) (hnext : nextKind rest = stop) :
    Reads room (.lines sequence stop nodes) (text ++ rest) rest := by
  have hrest : afterTerminators rest = rest := by
    refine afterTerminators_of_ne ?_
    rw [hnext]
    rcases hstop with rfl | rfl <;> decide
  have hend : nextKind rest = .terminator ∨ nextKind rest = .outdent ∨ nextKind rest = .eof :=
    .inr (hstop.imp hnext.trans hnext.trans)
  have starts {node : Node} {input mid : List Token}
      (h : Reads room (.line sequence node) input mid) : nextKind input ≠ stop := by
    rcases hstop with rfl | rfl
    · exact h.startsLine.2.1
    · exact h.startsLine.2.2
  induction nodes generalizing text with
  | nil =>
    rw [List.map_nil, separate, spelled_nil_iff] at h
    subst h
    exact .noLine hnext
  | cons node nodes ih =>
    obtain ⟨hnode, hothers⟩ := List.forall_mem_cons.1 hnodes
    rw [lineLevels, Nat.max_le] at hroom
    cases nodes with
    | nil =>
      have hline := hnode h hroom.1 hend
      exact .consLine (starts hline) hline (.inr (hrest.symm ▸ hnext)) (hrest.symm ▸ .noLine hnext)
    | cons other nodes =>
      rw [separate_map_cons] at h
      simp only [spelled_append_iff, spelled_cons_iff] at h
      obtain ⟨first, _, rfl, hfirst, terminator, others, rfl, hterminator, hlines⟩ := h
      have hkind : terminator.kind = .terminator := hterminator
      have hline := @hnode room first (terminator :: (others ++ rest)) hfirst hroom.1
        (.inl hkind)
      have htail := ih hothers hlines hroom.2
      have hstart : nextKind (others ++ rest) ≠ .terminator := by
        cases htail with
        | consLine _ hline => exact hline.startsLine.1
      have hafter : afterTerminators (terminator :: (others ++ rest)) = others ++ rest := by
        rw [afterTerminators_cons_of_eq hkind, afterTerminators_of_ne hstart]
      rw [List.append_assoc, List.cons_append]
      refine .consLine (starts hline) hline (.inl ?_) (hafter.symm ▸ htail)
      rw [hafter, lineEnded_append]
      exact decide_eq_true hkind

theorem indented_spelled {lines : List (List Symbol)} (h : Spelled (indented lines) text) :
    ∃ indent inner outdent, text = indent :: (inner ++ [outdent]) ∧ indent.kind = .indent ∧
      Spelled (separate .terminator lines) inner ∧ outdent.kind = .outdent :=
  enclosed_spelled h

theorem nextKind_of_indented {lines : List (List Symbol)} (h : Spelled (indented lines) text)
    (rest : List Token) : nextKind (text ++ rest) = .indent := by
  obtain ⟨indent, inner, outdent, rfl, hindent, -⟩ := indented_spelled h
  exact hindent

theorem block_of_spelled {nodes : List Node} (hnodes : ∀ node ∈ nodes, node.LineReadsBack false)
    (h : Spelled (indented (printLines nodes)) text) (hroom : lineLevels nodes + 1 ≤ room) :
    Reads room (.block nodes) (text ++ rest) rest := by
  obtain ⟨indent, inner, outdent, rfl, hindent, hinner, houtdent⟩ := indented_spelled h
  rw [printLines_eq_map] at hinner
  obtain ⟨room, rfl⟩ : ∃ levels, room = levels + 1 := ⟨room - 1, by omega⟩
  simp only [List.cons_append, List.append_assoc, List.nil_append]
  exact .block hindent (lines_of_spelled hnodes hinner (by omega) (.inl rfl) houtdent) houtdent

theorem sequenceBlock_of_spelled {nodes : List Node} (hne : nodes ≠ [])
    (hnodes : ∀ node ∈ nodes, node.LineReadsBack true)
    (h : Spelled (indented (printLines nodes)) text) (hroom : lineLevels nodes + 1 ≤ room) :
    Reads room (.sequenceBlock nodes) (text ++ rest) rest := by
  obtain ⟨indent, inner, outdent, rfl, hindent, hinner, houtdent⟩ := indented_spelled h
  rw [printLines_eq_map] at hinner
  obtain ⟨room, rfl⟩ : ∃ levels, room = levels + 1 := ⟨room - 1, by omega⟩
  simp only [List.cons_append, List.append_assoc, List.nil_append]
  have hlines := @lines_of_spelled room inner (outdent :: rest) true nodes .outdent hnodes hinner
    (by omega) (.inl rfl) houtdent
  exact .sequenceBlock hindent (hlines.nextKind_ne_of_lines hne) hlines houtdent

end Node

end Offside
