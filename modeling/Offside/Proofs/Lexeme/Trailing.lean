import Offside.Proofs.Lexeme.Entry
import Offside.Proofs.Lexeme.Extents

/-! # What stands behind a text

A text is cut into the same pieces with a line feed behind it as without. The same is true of a bar,
unless the text ends with a comment, which would go on, or with an opening bracket, which would make
one symbol with the bar. Blanks go on blanks and comments only.
-/

namespace Offside

namespace Pattern

variable {text : List Char} {d : Char} {rest : List Char}

theorem reachWhile_append_stop {test : Char → Bool} (h : test d = false) (text rest : List Char) :
    reachWhile test (text ++ d :: rest) = reachWhile test text := by
  unfold reachWhile
  induction text with
  | nil => simp [h]
  | cons c text ih =>
    rw [List.cons_append, List.takeWhile_cons, List.takeWhile_cons]
    split
    · rw [List.length_cons, List.length_cons, ih]
    · rfl

theorem reachWord_append (hne : text ≠ []) (h : isWordRest d = false) :
    reachWord (text ++ d :: rest) = reachWord text := by
  obtain ⟨c, text, rfl⟩ := List.exists_cons_of_ne_nil hne
  rw [List.cons_append, reachWord, reachWord, reachWhile_append_stop h]

theorem reachNumeral_append (h : d.isDigit = false) (hpoint : d ≠ '.') :
    reachNumeral (text ++ d :: rest) = reachNumeral text := by
  unfold reachNumeral
  dsimp only
  rw [reachWhile_append_stop h, List.drop_append_of_le_length (reachWhile_le _ _)]
  cases text.drop (reachWhile Char.isDigit text) with
  | nil => simp [hpoint]
  | cons c more =>
    by_cases hc : c = '.'
    · simp only [hc, List.cons_append, reachWhile_append_stop h]
    · simp [hc]

theorem reachClosing_eq_zero (passed : Nat) (h : '"' ∉ text) : reachClosing passed text = 0 := by
  by_contra hne
  obtain ⟨body, more, rfl, -⟩ := reachClosing_extent hne
  exact h (by simp)

theorem reachClosing_append (hquote : '"' ∉ d :: rest) (passed : Nat) (text : List Char) :
    reachClosing passed (text ++ d :: rest) = reachClosing passed text := by
  fun_induction reachClosing passed text with
  | case1 passed => exact reachClosing_eq_zero passed hquote
  | case2 passed => rfl
  | case3 passed c hc => exact reachClosing_eq_zero passed (by simp_all [eq_comm])
  | case4 passed => rfl
  | case5 passed => simp [reachClosing]
  | case6 passed => simp [reachClosing]
  | case7 passed d rest hd _ _ ih => simpa [reachClosing, hd] using ih
  | case8 passed c d rest hc hfeed hslash ih => simpa [reachClosing, hc, hfeed, hslash] using ih

theorem reachClosing_append_of_ne_zero {passed : Nat} {text : List Char}
    (h : reachClosing passed text ≠ 0) (rest : List Char) :
    reachClosing passed (text ++ rest) = reachClosing passed text := by
  fun_induction reachClosing passed text with
  | case1 | case3 | case5 | case6 => exact absurd rfl h
  | case2 passed => cases rest <;> simp [reachClosing]
  | case4 passed => simp [reachClosing]
  | case7 passed d rest hd _ _ ih => simpa [reachClosing, hd] using ih h
  | case8 passed c d rest hc hfeed hslash ih => simpa [reachClosing, hc, hfeed, hslash] using ih h

/-- A character that keeps what stands behind it out of the first match of a text. -/
structure Parts (text : List Char) (d : Char) (rest : List Char) : Prop where
  stops : d ∈ ['\n', '|', ' ', '\t', '\r']
  spacing : isSpacing d = true → reachWhile isSpacing text = 0
  comment : d ≠ '\n' → reachComment text = 0
  bracket : d = '|' → text ≠ ['[']
  quoted : '"' ∈ rest → text.head? = some '"' → reachQuoted text ≠ 0

namespace Parts

theorem isWordRest_eq_false (h : Parts text d rest) : isWordRest d = false := by
  have hall : ['\n', '|', ' ', '\t', '\r'].any isWordRest = false := by decide
  exact Bool.eq_false_iff.2 (List.any_eq_false.1 hall d h.stops)

theorem isDigit_eq_false (h : Parts text d rest) : d.isDigit = false := by
  have hall : ['\n', '|', ' ', '\t', '\r'].any Char.isDigit = false := by decide
  exact Bool.eq_false_iff.2 (List.any_eq_false.1 hall d h.stops)

theorem not_mem (h : Parts text d rest) {c : Char}
    (hc : c ∉ ['\n', '|', ' ', '\t', '\r']) : d ≠ c := by
  rintro rfl
  exact hc h.stops

end Parts

/-- A symbol of two characters ends with a bar only where it begins with a bracket. -/
theorem isPrefixOf_append_stop {written : List Char} {kind : Kind}
    (h : symbol written kind ∈ table) (hne : text ≠ []) (hparts : Parts text d rest) :
    written.isPrefixOf (text ++ d :: rest) = written.isPrefixOf text := by
  have htable : ∀ pattern ∈ table, ∀ written kind, pattern = symbol written kind →
      written.length = 1 ∨ ∃ a b, written = [a, b] ∧ b ∉ ['\n', ' ', '\t', '\r'] ∧
        (b = '|' → a = '[') := by
    simp [table]
  obtain ⟨c, text, rfl⟩ := List.exists_cons_of_ne_nil hne
  rcases htable _ h written kind rfl with hone | ⟨a, b, rfl, hgap, hbar⟩
  · obtain ⟨a, rfl⟩ := List.length_eq_one_iff.1 hone
    simp [List.isPrefixOf]
  · cases text with
    | nil =>
      by_cases hd : b = d
      · subst hd
        obtain rfl : b = '|' := by
          have hstops := hparts.stops
          simp only [List.mem_cons, List.not_mem_nil, or_false] at hstops hgap
          tauto
        have hc : '[' ≠ c := fun hc => hparts.bracket rfl (by rw [hc])
        simp [List.isPrefixOf, hbar rfl, hc]
      · simp [List.isPrefixOf, hd]
    | cons e text => simp [List.isPrefixOf]

/-- What stands behind a text has no part in its first match where a character parts them. -/
theorem reach_append {pattern : Pattern} (hmem : pattern ∈ table) (hne : text ≠ [])
    (hfeed : '\n' ∉ text) (hreturn : '\r' ∉ text) (h : Parts text d rest) :
    pattern.reach (text ++ d :: rest) = pattern.reach text := by
  cases pattern with
  | lineBreak =>
    obtain ⟨c, text, rfl⟩ := List.exists_cons_of_ne_nil hne
    have hfeed : c ≠ '\n' := fun hc => hfeed (by simp [hc])
    have hreturn : c ≠ '\r' := fun hc => hreturn (by simp [hc])
    rw [List.cons_append]
    simp [reach, reachLineBreak, hfeed, hreturn]
  | blanks =>
    by_cases hd : isSpacing d = true
    · obtain ⟨c, text, rfl⟩ := List.exists_cons_of_ne_nil hne
      have hnone := h.spacing hd
      have hc : isSpacing c = false := by
        by_contra hspacing
        simp [reachWhile, hspacing] at hnone
      rw [reach, reach, hnone, reachWhile, List.cons_append,
        List.takeWhile_cons_of_neg (by simp [hc]), List.length_nil]
    · exact reachWhile_append_stop (Bool.not_eq_true _ ▸ hd) _ _
  | comment =>
    obtain ⟨c, text, rfl⟩ := List.exists_cons_of_ne_nil hne
    cases text with
    | nil => simp [reach, reachComment, h.not_mem (show '/' ∉ _ by decide)]
    | cons e text =>
      by_cases hslashes : c = '/' ∧ e = '/'
      · obtain ⟨rfl, rfl⟩ := hslashes
        by_cases hd : d = '\n'
        · subst hd
          exact congrArg (2 + ·) (reachWhile_append_stop (by decide) text rest)
        · have hcomment := h.comment hd
          simp [reachComment] at hcomment
      · have hnone (more : List Char) : reachComment (c :: e :: more) = 0 := by
          unfold reachComment
          split
          · next heq => simp_all
          · rfl
        exact (hnone _).trans (hnone _).symm
  | word => exact reachWord_append hne h.isWordRest_eq_false
  | numeral => exact reachNumeral_append h.isDigit_eq_false (h.not_mem (by decide))
  | quoted =>
    obtain ⟨c, text, rfl⟩ := List.exists_cons_of_ne_nil hne
    by_cases hc : c = '"'
    · subst hc
      by_cases hquote : '"' ∈ rest
      · exact reachClosing_append_of_ne_zero (h.quoted hquote rfl) _
      · refine reachClosing_append ?_ 1 text
        rw [List.mem_cons, not_or]
        exact ⟨(h.not_mem (by decide)).symm, hquote⟩
    · simp [reach, reachQuoted, hc]
  | symbol written kind => rw [reach, reach, isPrefixOf_append_stop hmem hne h]

theorem first?_append (hne : text ≠ []) (hfeed : '\n' ∉ text) (hreturn : '\r' ∉ text)
    (h : Parts text d rest) : first? (text ++ d :: rest) = first? text := by
  rw [first?, first?, ← List.head?_filterMap, ← List.head?_filterMap]
  refine congrArg List.head? (List.filterMap_congr fun pattern hmem => ?_)
  rw [reach_append hmem hne hfeed hreturn h]

/-- Where two slashes come first, a comment does. -/
theorem first?_of_reachComment (h : reachComment text ≠ 0) :
    first? text = some (comment, reachComment text) := by
  obtain ⟨remark, rest, rfl, -⟩ := reachComment_extent h
  exact first?_eq_some (show table = [lineBreak, blanks] ++ comment :: table.drop 3 from rfl)
    (List.forall_mem_cons.2 ⟨rfl, List.forall_mem_singleton.2 rfl⟩) rfl (Nat.pos_of_ne_zero h)

end Pattern

namespace Lexeme

/-- Where a text is cut, unless a bar behind it is taken with its last piece. -/
theorem cut_append_stop {offset : Nat} {text rest : List Char} {d : Char} (hfeed : '\n' ∉ text)
    (hreturn : '\r' ∉ text) (hquote : '"' ∉ rest)
    (hd : d = '\n' ∨ d = '|' ∧ (∀ lexeme ∈ cut offset text, lexeme.isComment = false) ∧
      ∀ lexeme ∈ (cut offset text).getLast?,
        lexeme.pattern? ≠ some (.symbol ['['] .openBracket)) :
    cut offset (text ++ d :: rest) =
      cut offset text ++ cut (offset + byteLength text) (d :: rest) := by
  fun_induction cut offset text with
  | case1 offset => rfl
  | case2 offset c more pattern? size hmatch piece ih =>
    have hparts : Pattern.Parts (c :: more) d rest := by
      refine ⟨?_, ?_, fun hd' => ?_, fun hd' hbracket => ?_, fun hmem => absurd hmem hquote⟩
      · rcases hd with rfl | ⟨rfl, -⟩ <;> decide
      · rcases hd with rfl | ⟨rfl, -⟩ <;> exact fun hspacing => absurd hspacing (by decide)
      · obtain ⟨-, hcomments, -⟩ := hd.resolve_left hd'
        by_contra hcomment
        rw [Pattern.first?_of_reachComment hcomment] at hmatch
        cases hmatch
        cases hcomments _ List.mem_cons_self
      · obtain ⟨-, -, hlast⟩ := hd.resolve_left (by rw [hd']; decide)
        obtain ⟨rfl, rfl⟩ := List.cons_eq_cons.1 hbracket
        cases hmatch
        refine hlast ⟨some (.symbol ['['] .openBracket), piece, offset⟩ ?_ rfl
        simp [cut]
    have hfirst := Pattern.first?_append (List.cons_ne_nil c more) hfeed hreturn hparts
    have hsize : size - 1 ≤ more.length := by
      split at hmatch
      · next hfound =>
        cases hmatch
        have := Pattern.length_of_first? hfound
        rw [List.length_cons] at this
        omega
      · cases hmatch
        exact Nat.zero_le _
    have hsub : ∀ e ∈ more.drop (size - 1), e ∈ c :: more := fun e hmem =>
      List.mem_cons_of_mem c (List.mem_of_mem_drop hmem)
    have hlength :
        byteLength (c :: more) = byteLength piece + byteLength (more.drop (size - 1)) := by
      rw [← byteLength_append]
      simp [piece]
    rw [List.cons_append] at hfirst ⊢
    rw [cut, hfirst, hmatch]
    simp only [List.take_append_of_le_length hsize, List.drop_append_of_le_length hsize]
    rw [ih (fun hmem => hfeed (hsub _ hmem)) (fun hmem => hreturn (hsub _ hmem)) ?_, hlength,
      Nat.add_assoc]
    · rfl
    · refine hd.imp_right ?_
      rintro ⟨hbar, hcomments, hlast⟩
      refine ⟨hbar, fun lexeme hmem => ?_, ?_⟩
      · exact hcomments lexeme (List.mem_cons_of_mem _ hmem)
      · intro lexeme hmem
        refine hlast lexeme ?_
        rw [List.getLast?_cons, Option.mem_def.1 hmem]
        rfl

end Lexeme

end Offside
