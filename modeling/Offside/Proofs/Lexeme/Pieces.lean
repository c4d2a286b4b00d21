import Mathlib.Data.List.Forall2
import Offside.Proofs.Lexeme.Spelling

/-! # Pieces of a printed line

Spellings joined by blanks are cut into one piece each, once the pieces that only separate are left
out. A comment up to the end of its line is one piece.
-/

namespace Offside

namespace Pattern

/-- What neither a line break nor blanks match begins with another character. -/
theorem head_of_first? {c : Char} {rest : List Char} {pattern : Pattern} {size : Nat}
    (h : first? (c :: rest) = some (pattern, size)) (hbreak : pattern ≠ lineBreak)
    (hblanks : pattern ≠ blanks) : reachLineBreak (c :: rest) = 0 ∧ isSpacing c = false := by
  have hline : reachLineBreak (c :: rest) = 0 := by
    by_contra hne
    have hfirst : first? (c :: rest) = some (lineBreak, reachLineBreak (c :: rest)) :=
      first?_eq_some (show table = [] ++ lineBreak :: table.drop 1 from rfl)
        (List.forall_mem_nil _) rfl (Nat.pos_of_ne_zero hne)
    rw [hfirst] at h
    cases h
    exact hbreak rfl
  refine ⟨hline, ?_⟩
  by_contra hspacing
  have hpos : 0 < reachWhile isSpacing (c :: rest) := by
    unfold reachWhile
    rw [List.takeWhile_cons_of_pos (Bool.of_not_eq_false hspacing)]
    exact Nat.succ_pos _
  have hfirst : first? (c :: rest) = some (blanks, reachWhile isSpacing (c :: rest)) :=
    first?_eq_some (show table = [lineBreak] ++ blanks :: table.drop 2 from rfl)
      (List.forall_mem_singleton.2 hline) rfl hpos
  rw [hfirst] at h
  cases h
  exact hblanks rfl

theorem first?_blanks (width : Nat) {c : Char} (hc : isSpacing c = false) (rest : List Char) :
    first? (List.replicate (width + 1) ' ' ++ c :: rest) = some (blanks, width + 1) := by
  have hblank : ∀ d ∈ List.replicate (width + 1) ' ', isSpacing d = true := by
    intro d hmem
    rw [List.eq_of_mem_replicate hmem]
    rfl
  have hreach : reachWhile isSpacing (List.replicate (width + 1) ' ' ++ c :: rest) = width + 1 := by
    rw [reachWhile_append hblank hc, List.length_replicate]
  exact first?_eq_some (show table = [lineBreak] ++ blanks :: table.drop 2 from rfl)
    (List.forall_mem_singleton.2 rfl) hreach (Nat.succ_pos _)

theorem first?_comment {text : List Char} (h : '\n' ∉ text) (rest : List Char) :
    first? ('/' :: '/' :: text ++ '\n' :: rest) = some (comment, text.length + 2) := by
  have hline : ∀ d ∈ text, (d != '\n') = true := by
    intro d hmem
    rw [bne_iff_ne]
    rintro rfl
    exact h hmem
  have hreach : reachComment ('/' :: '/' :: (text ++ '\n' :: rest)) = text.length + 2 := by
    rw [reachComment, reachWhile_append hline rfl, Nat.add_comm]
  exact first?_eq_some (show table = [lineBreak, blanks] ++ comment :: table.drop 3 from rfl)
    (List.forall_mem_cons.2 ⟨rfl, List.forall_mem_singleton.2 rfl⟩) hreach (Nat.succ_pos _)

end Pattern

namespace Lexeme

/-- A text that a pattern claims as a whole is the first piece. -/
theorem cut_append {text rest : List Char} {pattern : Pattern} {size : Nat}
    (h : Pattern.first? (text ++ rest) = some (pattern, size)) (hsize : text.length = size)
    (offset : Nat) :
    cut offset (text ++ rest) =
      ⟨some pattern, text, offset⟩ :: cut (offset + byteLength text) rest := by
  obtain ⟨-, -, hpos⟩ := Pattern.of_first? h
  subst hsize
  obtain ⟨c, more, rfl⟩ := List.exists_cons_of_length_pos hpos
  rw [List.cons_append] at h ⊢
  rw [cut, h]
  simp

/-- The blanks a text begins with do not count. -/
theorem filter_cut_blanks (width : Nat) {c : Char} (hc : Pattern.isSpacing c = false)
    (rest : List Char) (offset : Nat) :
    ∃ start, (cut offset (List.replicate width ' ' ++ c :: rest)).filter (!·.isSpacing) =
      (cut start (c :: rest)).filter (!·.isSpacing) := by
  cases width with
  | zero => exact ⟨offset, rfl⟩
  | succ width =>
    rw [cut_append (Pattern.first?_blanks width hc rest) List.length_replicate,
      List.filter_cons_of_neg (by simp [isSpacing])]
    exact ⟨_, rfl⟩

theorem filter_cut_lineBreak (offset : Nat) :
    (cut offset ['\n']).filter (!·.isSpacing) = [] := by
  have hfirst : Pattern.first? (['\n'] ++ []) = some (.lineBreak, ['\n'].length) := rfl
  rw [← List.append_nil ['\n'], cut_append hfirst rfl, cut]
  rfl

end Lexeme

namespace Spelling

/-- The piece of a spelling. -/
structure Claims (spelling : Spelling) (lexeme : Lexeme) : Prop where
  pattern?_eq : lexeme.pattern? = some spelling.pattern
  text_eq : lexeme.text = spelling.written

theorem pattern_ne (spelling : Spelling) :
    spelling.pattern ≠ .lineBreak ∧ spelling.pattern ≠ .blanks ∧ spelling.pattern ≠ .comment := by
  cases spelling <;> simp [pattern]

theorem Claims.isSpacing_eq_false {spelling : Spelling} {lexeme : Lexeme}
    (h : spelling.Claims lexeme) : lexeme.isSpacing = false := by
  obtain ⟨hbreak, hblanks, -⟩ := spelling.pattern_ne
  simp [Lexeme.isSpacing, h.pattern?_eq, hbreak, hblanks]

theorem Claims.isComment_eq_false {spelling : Spelling} {lexeme : Lexeme}
    (h : spelling.Claims lexeme) : lexeme.isComment = false := by
  obtain ⟨-, -, hcomment⟩ := spelling.pattern_ne
  simp [Lexeme.isComment, h.pattern?_eq, hcomment]

theorem filter_isComment {spellings : List Spelling} {lexemes : List Lexeme}
    (h : List.Forall₂ Claims spellings lexemes) : lexemes.filter (!·.isComment) = lexemes := by
  induction h with
  | nil => rfl
  | cons hclaims _ ih =>
    rw [List.filter_cons_of_pos (by simp [hclaims.isComment_eq_false]), ih]

/-- Spellings with a blank between any two. -/
def join (first : Spelling) : List Spelling → List Char
  | [] => first.written
  | second :: rest => first.written ++ ' ' :: join second rest

theorem lineFeed_not_mem_join (first : Spelling) (rest : List Spelling) :
    '\n' ∉ join first rest := by
  induction rest generalizing first with
  | nil => exact first.lineFeed_not_mem_written
  | cons second rest ih =>
    have hfirst := first.lineFeed_not_mem_written
    simp [join, hfirst, ih]

theorem first?_join (first : Spelling) (rest : List Spelling) :
    Pattern.first? (join first rest ++ ['\n']) =
      some (first.pattern, first.written.length) := by
  cases rest with
  | nil => exact first.first?_written (.inr rfl) []
  | cons second rest =>
    rw [join, List.append_assoc, List.cons_append]
    exact first.first?_written (.inl rfl) _

theorem pieces_join (first : Spelling) (rest : List Spelling) (offset : Nat) :
    List.Forall₂ Claims (first :: rest)
      ((Lexeme.cut offset (join first rest ++ ['\n'])).filter (!·.isSpacing)) := by
  induction rest generalizing first offset with
  | nil =>
    have hclaims : first.Claims ⟨some first.pattern, first.written, offset⟩ := ⟨rfl, rfl⟩
    rw [join, Lexeme.cut_append (first.first?_written (.inr rfl) []) rfl,
      List.filter_cons_of_pos (by simp [hclaims.isSpacing_eq_false]), Lexeme.filter_cut_lineBreak]
    exact .cons hclaims .nil
  | cons second rest ih =>
    have hclaims : first.Claims ⟨some first.pattern, first.written, offset⟩ := ⟨rfl, rfl⟩
    obtain ⟨c, more, hmore⟩ : ∃ c more, join second rest ++ ['\n'] = c :: more :=
      List.exists_cons_of_ne_nil (by simp)
    have hfirst := first?_join second rest
    rw [hmore] at hfirst
    obtain ⟨hbreak, hblanks, -⟩ := second.pattern_ne
    obtain ⟨-, hc⟩ := Pattern.head_of_first? hfirst hbreak hblanks
    obtain ⟨start, hstart⟩ :=
      Lexeme.filter_cut_blanks 1 hc more (offset + byteLength first.written)
    rw [join, List.append_assoc, List.cons_append,
      Lexeme.cut_append (first.first?_written (.inl rfl) _) rfl,
      List.filter_cons_of_pos (by simp [hclaims.isSpacing_eq_false])]
    refine .cons hclaims ?_
    rw [hmore]
    rw [List.replicate_one, List.singleton_append] at hstart
    rw [hstart, ← hmore]
    exact ih second start

end Spelling

end Offside
