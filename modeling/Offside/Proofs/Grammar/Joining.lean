import Mathlib.Data.List.TakeWhile
import Offside.Proofs.Grammar.Contexts
import Offside.Proofs.Layout.Joined

/-! # Joining programs

An expression or a line is read from its text, whatever other tokens follow, as long as the text may
end before them. So the lines of two programs can be read one after the other.
-/

namespace Offside

open Cursor (Passes lastKind)

variable {room : Nat} {text rest : List Token}

namespace Reads

/-- A line that is ended by terminators, of its own or behind it, may stand before other lines. -/
theorem lines_cons {node : Node} {nodes : List Node} {terminators mid : List Token}
    (hcontent : ∀ token ∈ text ++ mid, token.kind ≠ .eof)
    (hterminators : ∀ token ∈ terminators, token.kind = .terminator)
    (hlast : lastKind none (text ++ terminators) = some .terminator)
    (hcontent' : ∀ token ∈ rest, token.kind ≠ .eof) (hstart : nextKind rest ≠ .terminator)
    (h : Reads room (.line false node) (text ++ mid) mid)
    (hmore : Reads room (.lines false .eof nodes) rest []) :
    Reads room (.lines false .eof (node :: nodes)) (text ++ (terminators ++ rest)) [] := by
  have hne : text ≠ [] := by
    rintro rfl
    exact absurd (h.length_lt rfl) (by simp)
  have hends : EndsBefore text (terminators ++ rest) := by
    cases terminators with
    | nil => exact .inl (by rwa [List.append_nil] at hlast)
    | cons token more =>
      refine .inr ?_
      rw [List.cons_append, nextKind_cons, hterminators token List.mem_cons_self]
      rfl
  have hall : ∀ token ∈ terminators ++ rest, token.kind ≠ .eof := by
    refine List.forall_mem_append.2 ⟨fun token hmem => ?_, hcontent'⟩
    simp [hterminators token hmem]
  have hskip := afterTerminators_append hterminators hstart
  have hline := h.line_before hcontent hall hends
  have hended : lineEnded (text ++ (terminators ++ rest)) rest = true := by
    rw [← List.append_assoc, lineEnded_append_right]
    exact decide_eq_true hlast
  refine .consLine ?_ hline (.inl (by rwa [hskip])) (by rwa [hskip])
  obtain ⟨token, more, rfl⟩ := List.exists_cons_of_ne_nil hne
  exact hcontent token (by simp)

theorem exists_terminators (input : List Token) : ∃ terminators : List Token,
    (∀ token ∈ terminators, token.kind = .terminator) ∧
      terminators ++ afterTerminators input = input :=
  ⟨input.takeWhile (·.kind = .terminator), fun token hmem => by
    simpa using List.mem_takeWhile_imp hmem, List.takeWhile_append_dropWhile⟩

/-- A line that others follow ends in a terminator. -/
theorem lastKind_of_ended (hne : rest ≠ []) (hcontent : ∀ token ∈ rest, token.kind ≠ .eof)
    (h : lineEnded (text ++ rest) rest = true ∨ nextKind rest = .eof) :
    lastKind none text = some .terminator := by
  refine of_decide_eq_true ((lineEnded_append_right text rest).symm.trans ?_)
  refine h.resolve_right fun hkind => ?_
  obtain ⟨token, more, rfl⟩ := List.exists_cons_of_ne_nil hne
  exact hcontent token List.mem_cons_self hkind

/-- The lines of a program, some terminators, and the lines of another program. -/
theorem lines_append {nodes nodes' : List Node} {input separator following : List Token}
    (hcontent : ∀ token ∈ input, token.kind ≠ .eof)
    (hseparator : ∀ token ∈ separator, token.kind = .terminator)
    (hcontent' : ∀ token ∈ following, token.kind ≠ .eof)
    (hstart : nextKind following ≠ .terminator) (hne : input ≠ [])
    (hlast : lastKind none (input ++ separator) = some .terminator)
    (h : Reads room (.lines false .eof nodes) input [])
    (h' : Reads room (.lines false .eof nodes') following []) :
    Reads room (.lines false .eof (nodes ++ nodes')) (input ++ (separator ++ following)) [] := by
  -- The induction is on the lines of the first program, of which the last one may have been ended
  -- by the end of its tokens only: that line is ended by the separator now.
  induction nodes generalizing input with
  | nil =>
    cases h
    exact absurd rfl hne
  | cons node nodes ih =>
    cases h with
    | @consLine _ _ _ _ _ _ mid _ hstop hline hended hlines =>
    obtain ⟨text, rfl⟩ := hline.suffix
    obtain ⟨terminators, hterminators, hmid⟩ := exists_terminators mid
    have hnext := nextKind_afterTerminators_ne mid
    generalize afterTerminators mid = rest at *
    subst hmid
    by_cases hnil : rest = []
    · subst hnil
      cases hlines with
      | consLine hstop => exact absurd rfl hstop
      | noLine =>
        rw [List.append_nil] at hline hcontent hlast
        have := lines_cons hcontent (List.forall_mem_append.2 ⟨hterminators, hseparator⟩)
          (by rwa [← List.append_assoc]) hcontent' hstart hline h'
        simpa using this
    · have hrest : ∀ token ∈ rest, token.kind ≠ .eof := fun token hmem =>
        hcontent token (by simp [hmem])
      have hended := lastKind_of_ended hnil hrest (by rwa [List.append_assoc])
      have hafter : ∀ token ∈ rest ++ (separator ++ following), token.kind ≠ .eof := by
        refine List.forall_mem_append.2 ⟨hrest, List.forall_mem_append.2 ⟨?_, hcontent'⟩⟩
        intro token hmem
        simp [hseparator token hmem]
      have hnext' : nextKind (rest ++ (separator ++ following)) ≠ .terminator := by
        obtain ⟨token, more, rfl⟩ := List.exists_cons_of_ne_nil hnil
        exact hnext
      have hlast' : lastKind none (rest ++ separator) = some .terminator := by
        rw [← hlast, ← List.append_assoc text, List.append_assoc (text ++ terminators),
          Cursor.lastKind_append none (text ++ terminators)]
        exact lastKind_of_ne_nil (by simp [hnil]) _ _
      have := lines_cons hcontent hterminators hended hafter hnext' hline
        (ih hrest hnil hlast' hlines)
      simpa using this

end Reads

theorem breaksLines_of_not_mem {source : List Char} (h : '\r' ∉ source) :
    breaksLines source = true := by
  induction source with
  | nil => rfl
  | cons c source ih =>
    rw [List.mem_cons, not_or] at h
    simp [breaksLines, ih h.2, Ne.symm h.1]

theorem Reads.eq_nil_of_lines {nodes : List Node} (h : Reads room (.lines false .eof nodes) [] []) :
    nodes = [] := by
  cases h with
  | noLine => rfl
  | consLine hstop => exact absurd rfl hstop

open Layout

end Offside
