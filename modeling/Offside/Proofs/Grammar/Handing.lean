import Offside.Proofs.Grammar.Loops

/-! # Tokens that are handed on

Two rules read nothing themselves of the token they start at, but hand it on to the rule that a
table has for it. Under some tables it is handed on without end, so that such a parse would never
return. The refusal for want of a level stands in for it, whatever the number of turns. Where the
handing on ends, two turns are as good as more.
-/

namespace Offside

open Parse

theorem Parse.kind_bind {α : Type} (f : Kind → Parse α) (c : Cursor) :
    (kind >>= f) c = f c.kind c :=
  rfl

/-- The rule to which a rule hands on a token of some kind. -/
def Rule.handsOn? (tables : Tables) (kind : Kind) : Rule → Option Rule
  | application => if kind = .identifier || kind = .openParen then tables.operand? kind else none
  | line => if kind = .comment then none else tables.statement? kind
  | _ => none

/-- Whether a token comes to a rule that keeps it, if so many rules get it at most. -/
def Rule.EndsIn (tables : Tables) (kind : Kind) : Nat → Rule → Prop
  | 0, _ => False
  | turns + 1, rule => ∀ next, rule.handsOn? tables kind = some next → next.EndsIn tables kind turns

namespace Rule

variable {tables : Tables} {kind : Kind} {rule next : Rule} {turns : Nat}

theorem eq_of_handsOn? (h : rule.handsOn? tables kind = some next) :
    rule = application ∧ tables.operand? kind = some next ∨
      rule = line ∧ tables.statement? kind = some next := by
  cases rule with
  | application =>
    rw [handsOn?] at h
    split at h
    · exact .inl ⟨rfl, h⟩
    · cases h
  | line =>
    rw [handsOn?] at h
    split at h
    · cases h
    · exact .inr ⟨rfl, h⟩
  | _ => cases h

/-- A token that comes back is handed on without end. -/
theorem not_endsIn_of_handsOn? (h : rule.handsOn? tables kind = some next)
    (h' : next.handsOn? tables kind = some rule) :
    ¬ rule.EndsIn tables kind turns ∧ ¬ next.EndsIn tables kind turns := by
  induction turns with
  | zero => exact ⟨id, id⟩
  | succ turns ih => exact ⟨fun hends => ih.2 (hends next h), fun hends => ih.1 (hends rule h')⟩

/-- From a rule of the tables, the third rule to get the token would be the first one again. -/
theorem EndsIn.two (h : rule.EndsIn tables kind turns)
    (hfound : tables.operand? kind = some rule ∨ tables.statement? kind = some rule) :
    rule.EndsIn tables kind 2 := by
  intro next hnext third hthird
  rcases eq_of_handsOn? hnext with ⟨rfl, hoperand⟩ | ⟨rfl, hstatement⟩
  · rcases eq_of_handsOn? hthird with ⟨rfl, -⟩ | ⟨rfl, hstatement⟩
    · exact (not_endsIn_of_handsOn? hnext hnext).1 h
    · have hback : third = application := by simp_all
      exact (not_endsIn_of_handsOn? hnext (hback ▸ hthird)).1 h
  · rcases eq_of_handsOn? hthird with ⟨rfl, hoperand⟩ | ⟨rfl, -⟩
    · have hback : third = line := by simp_all
      exact (not_endsIn_of_handsOn? hnext (hback ▸ hthird)).1 h
    · exact (not_endsIn_of_handsOn? hnext hnext).1 h

end Rule

namespace Grammar

variable {tables : Tables} {nested : Nested} {c : Cursor} {rule : Rule} {turns : Nat}

theorem operand_of_some {g : Grammar} (h : g.tables.operand? c.kind = some rule) :
    g.operand c = g.run rule c := by
  simp only [operand, kind_bind, h]

theorem line_of_some {g : Grammar} (hkind : c.kind ≠ .comment)
    (h : g.tables.statement? c.kind = some rule) : g.line c = g.run rule c := by
  simp only [line, kind_bind, if_neg hkind, h]

/-- A rule uses the others for nothing but to hand on its token. -/
theorem parse_congr {run run' : Rule → Parse Node}
    (h : ∀ next, rule.handsOn? tables c.kind = some next → run next c = run' next c) :
    rule.parse ⟨tables, nested, run⟩ c = rule.parse ⟨tables, nested, run'⟩ c := by
  cases rule with
  | application =>
    change (if _ then _ else _ : Parse Node) c = (if _ then _ else _ : Parse Node) c
    rw [Rule.handsOn?] at h
    split
    · next hkind =>
      rw [if_pos hkind] at h
      refine bind_congr_left ?_
      cases htable : tables.operand? c.kind with
      | none => simp only [operand, kind_bind, htable]
      | some next =>
        rw [operand_of_some htable, operand_of_some htable]
        exact h next htable
    · rfl
  | line =>
    rw [Rule.handsOn?] at h
    by_cases hkind : c.kind = .comment
    · simp only [Rule.parse, line, kind_bind, if_pos hkind]
    · rw [if_neg hkind] at h
      cases htable : tables.statement? c.kind with
      | none => simp only [Rule.parse, line, kind_bind, if_neg hkind, htable]
      | some next =>
        rw [Rule.parse, Rule.parse, line_of_some hkind htable, line_of_some hkind htable]
        exact h next htable
  | _ => rfl

/-- A rule fails if the one does that it hands its token on to. -/
theorem parse_of_error {run : Rule → Parse Node} {next : Rule} {error : SyntaxError}
    (hnext : rule.handsOn? tables c.kind = some next) (h : run next c = .error error c) :
    rule.parse ⟨tables, nested, run⟩ c = .error error c := by
  cases rule with
  | application =>
    change (if _ then _ else _ : Parse Node) c = _
    rw [Rule.handsOn?] at hnext
    split at hnext
    · next hkind =>
      rw [if_pos hkind]
      exact bind_of_error ((operand_of_some hnext).trans h)
    · cases hnext
  | line =>
    rw [Rule.handsOn?] at hnext
    split at hnext
    · cases hnext
    · next hkind => exact (line_of_some hkind hnext).trans h
  | _ => cases hnext

/-- A token that is handed on without end is refused for want of a level. -/
theorem runRule_of_endless (h : ∀ turns, ¬ rule.EndsIn tables c.kind turns) (turns : Nat) :
    runRule tables nested turns rule c =
      .error ⟨.nestingTooDeep nested.limit, c.position⟩ c := by
  induction turns generalizing rule with
  | zero => rfl
  | succ turns ih =>
    obtain ⟨next, hnext⟩ : ∃ next, rule.handsOn? tables c.kind = some next := by
      by_contra hkept
      exact h 1 fun next hnext => (hkept ⟨next, hnext⟩).elim
    refine parse_of_error hnext (ih fun more hends => h (more + 1) fun other hother => ?_)
    rwa [Option.some.inj (hother.symm.trans hnext)]

/-- Where a token comes to a rule that keeps it, more turns change nothing. -/
theorem runRule_of_endsIn (h : rule.EndsIn tables c.kind turns) (more : Nat) :
    runRule tables nested (turns + more) rule c = runRule tables nested turns rule c := by
  induction turns generalizing rule with
  | zero => exact h.elim
  | succ turns ih =>
    rw [Nat.succ_add]
    exact parse_congr fun next hnext => ih (h next hnext)

/-- Two turns are as good as more for a rule that a table has for the current token. -/
theorem runRule_two (more : Nat)
    (hfound : tables.operand? c.kind = some rule ∨ tables.statement? c.kind = some rule) :
    runRule tables nested (2 + more) rule c = runRule tables nested 2 rule c := by
  by_cases h : ∃ turns, rule.EndsIn tables c.kind turns
  · obtain ⟨turns, hends⟩ := h
    exact runRule_of_endsIn (hends.two hfound) more
  · have hendless := not_exists.1 h
    rw [runRule_of_endless hendless, runRule_of_endless hendless]

end Grammar

end Offside
