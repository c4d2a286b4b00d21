import Offside.Proofs.Lexeme.Trailing

/-! # Maximal munch

The first pattern of the table that matches a text takes as much of it as any other pattern could.
The classes of patterns begin with different characters, but for the blanks, which may begin as a
line break does, and the slash, which begins a comment; and no symbol stands before a longer one
that it begins. So a pattern that claims a text with something behind it claims the text alone.
-/

namespace Offside

namespace Pattern

variable {pattern other : Pattern} {text rest : List Char} {c : Char}

theorem exists_of_reach_ne_zero (h : pattern.reach text ≠ 0) :
    ∃ c rest, text = c :: rest ∧ pattern.starts c = true := by
  cases text with
  | nil => exact absurd pattern.reach_nil h
  | cons c rest =>
    refine ⟨c, rest, rfl, ?_⟩
    by_contra hstarts
    exact h (reach_eq_zero_of_starts (Bool.eq_false_iff.2 hstarts) rest)

/-- A literal is all that a text with a quote in front can begin with. -/
theorem eq_quoted_of_first? {size : Nat} (h : first? ('"' :: rest) = some (pattern, size)) :
    pattern = quoted := by
  obtain ⟨hmem, hreach, hpos⟩ := of_first? h
  have hall : ∀ other ∈ table, other = quoted ∨ other.starts '"' = false := by decide
  rcases hall pattern hmem with hquoted | hstarts
  · exact hquoted
  · rw [reach_eq_zero_of_starts hstarts] at hreach
    omega

/-! ## Order of the table -/

/-- Where a pattern matches, it reaches as far as another one. -/
def Outreaches (pattern other : Pattern) : Prop :=
  ∀ text, pattern.reach text ≠ 0 → other.reach text ≤ pattern.reach text

theorem outreaches_of_starts
    (h : ∀ c, pattern.starts c = true → other.starts c = false) : pattern.Outreaches other := by
  intro text hreach
  obtain ⟨c, rest, rfl, hstarts⟩ := exists_of_reach_ne_zero hreach
  rw [reach_eq_zero_of_starts (h c hstarts) rest]
  exact Nat.zero_le _

/-- The one character that a literal or a symbol begins with. -/
def sign? : Pattern → Option Char
  | quoted => some '"'
  | symbol written _ => written.head?
  | _ => none

def signs : List Char :=
  table.filterMap sign?

theorem mem_signs_of_starts (hmem : other ∈ table.drop 5) (h : other.starts c = true) :
    c ∈ signs := by
  refine List.mem_filterMap.2 ⟨other, List.mem_of_mem_drop hmem, ?_⟩
  cases other with
  | quoted => exact congrArg some (beq_iff_eq.1 h).symm
  | symbol written kind => exact beq_iff_eq.1 h
  | _ => exact absurd hmem (by decide)

theorem outreaches_signs (h : signs.all (!pattern.starts ·) = true)
    (hmem : other ∈ table.drop 5) : pattern.Outreaches other := by
  refine outreaches_of_starts fun c hstarts => Bool.eq_false_iff.2 fun hother => ?_
  exact not_mem_of_all h hstarts (mem_signs_of_starts hmem hother)

theorem gaps_not_start : ∀ c ∈ ['\n', '\r', ' ', '\t'], ∀ other ∈ table.drop 2,
    other.starts c = false := by
  simp [table, starts, isWordStart]

/-- A line break may begin as blanks do, which stop before its line feed. -/
theorem lineBreak_outreaches_blanks : lineBreak.Outreaches blanks := by
  intro text
  simp only [reach]
  unfold reachLineBreak
  split
  · intro _
    rw [reachWhile_eq_zero_iff.2 rfl]
    exact Nat.zero_le _
  · next rest =>
    intro _
    show reachWhile isSpacing (['\r'] ++ '\n' :: rest) ≤ 2
    rw [reachWhile_append_stop rfl]
    decide
  · exact absurd rfl

theorem lineBreak_outreaches (hmem : other ∈ table.drop 1) : lineBreak.Outreaches other := by
  rcases List.mem_cons.1 hmem with rfl | hmem
  · exact lineBreak_outreaches_blanks
  · refine outreaches_of_starts fun c hstarts => gaps_not_start c ?_ other hmem
    simp only [starts, Bool.or_eq_true, beq_iff_eq] at hstarts
    rcases hstarts with rfl | rfl <;> decide

theorem blanks_outreaches (hmem : other ∈ table.drop 2) : blanks.Outreaches other := by
  refine outreaches_of_starts fun c hstarts => gaps_not_start c ?_ other hmem
  simp only [starts, isSpacing, Bool.or_eq_true, beq_iff_eq] at hstarts
  rcases hstarts with (rfl | rfl) | rfl <;> decide

/-- A comment begins with the symbol of division, twice. -/
theorem comment_outreaches (hmem : other ∈ table.drop 3) : comment.Outreaches other := by
  have hslash : ∀ other ∈ table.drop 3,
      other.starts '/' = false ∨ other = symbol ['/'] .math := by
    decide
  rcases hslash other hmem with hstarts | rfl
  · refine outreaches_of_starts fun c hc => ?_
    rwa [beq_iff_eq.1 hc]
  · intro text hreach
    obtain ⟨remark, rest, -, hlength, -⟩ := reachComment_extent hreach
    have hone : (symbol ['/'] .math).reach text ≤ 1 := by
      rw [reach]
      split <;> simp
    rw [reach, ← hlength]
    omega

theorem word_outreaches (hmem : other ∈ table.drop 4) : word.Outreaches other := by
  rcases List.mem_cons.1 hmem with rfl | hmem
  · refine outreaches_of_starts fun c hstarts => Bool.eq_false_iff.2 fun hdigit => ?_
    rw [starts, isWordStart_of_isDigit hdigit] at hstarts
    cases hstarts
  · exact outreaches_signs (by decide) hmem

theorem quoted_outreaches (hmem : other ∈ table.drop 6) : quoted.Outreaches other := by
  have hquote : ∀ other ∈ table.drop 6, other.starts '"' = false := by decide
  refine outreaches_of_starts fun c hc => ?_
  rw [beq_iff_eq.1 hc]
  exact hquote other hmem

theorem symbol_outreaches {written more : List Char} {kind kind' : Kind}
    (h : written <+: more → more.length ≤ written.length) :
    (symbol written kind).Outreaches (symbol more kind') := by
  intro text hreach
  rw [reach] at hreach ⊢
  split at hreach
  · next hwritten =>
    rw [reach, if_pos hwritten]
    split
    · next hmore =>
      rw [List.isPrefixOf_iff_prefix] at hwritten hmore
      rcases List.prefix_or_prefix_of_prefix hwritten hmore with hshort | hlong
      · exact h hshort
      · exact hlong.length_le
    · exact Nat.zero_le _
  · exact absurd rfl hreach

/-- What a symbol is written with. -/
def written? : Pattern → Option (List Char)
  | symbol written _ => some written
  | _ => none

/-- No symbol stands before a longer one that it begins. -/
theorem pairwise_symbols : (table.drop 6).Pairwise Outreaches := by
  have hsymbols : ∀ other ∈ table.drop 6, ∃ written kind, other = symbol written kind := by
    simp [table]
  have hwritten : ((table.drop 6).filterMap written?).Pairwise fun written more =>
      written <+: more → more.length ≤ written.length := by
    decide
  refine (List.pairwise_filterMap.1 hwritten).imp_of_mem fun hmem hmem' h => ?_
  obtain ⟨written, kind, rfl⟩ := hsymbols _ hmem
  obtain ⟨more, kind', rfl⟩ := hsymbols _ hmem'
  exact symbol_outreaches (h _ rfl _ rfl)

/-- A pattern reaches at least as far as those that are tried after it. -/
theorem pairwise_table : table.Pairwise Outreaches :=
  .cons (fun _ => lineBreak_outreaches) <|
  .cons (fun _ => blanks_outreaches) <|
  .cons (fun _ => comment_outreaches) <|
  .cons (fun _ => word_outreaches) <|
  .cons (fun _ => outreaches_signs (by decide)) <|
  .cons (fun _ => quoted_outreaches) pairwise_symbols

/-- The first pattern that matches a text takes as much of it as any. -/
theorem reach_le_of_first {before after : List Pattern}
    (htable : table = before ++ pattern :: after) (hreach : pattern.reach text ≠ 0)
    (hbefore : ∀ other ∈ before, other.reach text = 0) :
    ∀ other ∈ table, other.reach text ≤ pattern.reach text := by
  intro other hmem
  have hpairwise := pairwise_table
  rw [htable] at hmem hpairwise
  rcases List.mem_append.1 hmem with hearlier | hlater
  · rw [hbefore other hearlier]
    exact Nat.zero_le _
  · rcases List.mem_cons.1 hlater with rfl | hlater
    · exact Nat.le_refl _
    · have hrest := (List.pairwise_append.1 hpairwise).2.1
      exact List.rel_of_pairwise_cons hrest hlater text hreach

theorem exists_split_of_first? {size : Nat} (h : first? text = some (pattern, size)) :
    ∃ before after, table = before ++ pattern :: after ∧ pattern.reach text = size ∧ size ≠ 0 ∧
      ∀ other ∈ before, other.reach text = 0 := by
  obtain ⟨before, found, after, htable, hfound, hbefore⟩ := List.findSome?_eq_some_iff.1 h
  dsimp only at hfound
  split at hfound
  · cases hfound
  · next hsize =>
    cases hfound
    exact ⟨before, after, htable, rfl, hsize, fun other hmem => by simpa using hbefore other hmem⟩

theorem reach_le_of_first? {size : Nat} (h : first? text = some (pattern, size)) :
    ∀ other ∈ table, other.reach text ≤ size := by
  obtain ⟨before, after, htable, rfl, hsize, hbefore⟩ := exists_split_of_first? h
  exact reach_le_of_first htable hsize hbefore

/-! ## A match alone

What stands behind a text has no part in a match that ends within the text.
-/

section Alone

theorem reachWhile_alone {test : Char → Bool}
    (h : reachWhile test (text ++ rest) ≤ text.length) :
    reachWhile test (text ++ rest) = reachWhile test text := by
  unfold reachWhile at h ⊢
  rw [List.takeWhile_append] at h ⊢
  split at h
  · next hall =>
    rw [if_pos hall]
    rw [List.length_append] at h ⊢
    omega
  · next hsome => rw [if_neg hsome]

theorem reachLineBreak_alone (h : reachLineBreak (text ++ rest) ≤ text.length) :
    reachLineBreak (text ++ rest) = reachLineBreak text := by
  rcases text with _ | ⟨c, _ | ⟨d, text⟩⟩
  · exact Nat.le_zero.1 h
  · rcases rest with _ | ⟨d, rest⟩
    · rfl
    · by_cases hbreak : c = '\r' ∧ d = '\n'
      · obtain ⟨rfl, rfl⟩ := hbreak
        exact absurd h (by simp [reachLineBreak])
      · rw [List.singleton_append]
        unfold reachLineBreak
        split <;> simp_all
  · rw [List.cons_append, List.cons_append]
    unfold reachLineBreak
    split <;> simp_all

theorem reachComment_alone (h : reachComment (text ++ rest) ≤ text.length) :
    reachComment (text ++ rest) = reachComment text := by
  rcases text with _ | ⟨c, _ | ⟨d, text⟩⟩
  · exact Nat.le_zero.1 h
  · by_contra hne
    have hreach : reachComment ([c] ++ rest) ≠ 0 := by simpa [reachComment] using hne
    obtain ⟨remark, more, -, hlength, -⟩ := reachComment_extent hreach
    rw [← hlength, List.length_singleton] at h
    omega
  · by_cases hslashes : c = '/' ∧ d = '/'
    · obtain ⟨rfl, rfl⟩ := hslashes
      simp only [List.cons_append, reachComment, List.length_cons] at h ⊢
      rw [reachWhile_alone (by omega)]
    · rw [List.cons_append, List.cons_append]
      unfold reachComment
      split <;> simp_all

theorem reachWord_alone (h : reachWord (text ++ rest) ≤ text.length) :
    reachWord (text ++ rest) = reachWord text := by
  cases text with
  | nil => exact Nat.le_zero.1 h
  | cons c text =>
    rw [List.cons_append, reachWord, List.length_cons] at h
    rw [List.cons_append, reachWord, reachWord]
    split at h
    · next hstart => rw [if_pos hstart, if_pos hstart, reachWhile_alone (by omega)]
    · next hstart => rw [if_neg hstart, if_neg hstart]

/-- The point of a numeral and the digits after it. -/
def reachFraction : List Char → Nat
  | '.' :: rest =>
    let part := reachWhile Char.isDigit rest
    if part = 0 then 0 else 1 + part
  | _ => 0

theorem reachNumeral_eq (text : List Char) :
    reachNumeral text =
      let whole := reachWhile Char.isDigit text
      if whole = 0 then 0 else whole + reachFraction (text.drop whole) := by
  unfold reachNumeral
  dsimp only
  split
  · rfl
  · cases text.drop (reachWhile Char.isDigit text) with
    | nil => rfl
    | cons c rest =>
      by_cases hpoint : c = '.'
      · subst hpoint
        show (if reachWhile Char.isDigit rest = 0 then _ else _) =
          _ + if reachWhile Char.isDigit rest = 0 then 0 else 1 + reachWhile Char.isDigit rest
        split
        · rfl
        · rw [Nat.add_assoc]
      · simp [reachFraction, hpoint]

theorem reachFraction_alone (h : reachFraction (text ++ rest) ≤ text.length) :
    reachFraction (text ++ rest) = reachFraction text := by
  cases text with
  | nil => exact Nat.le_zero.1 h
  | cons c text =>
    by_cases hpoint : c = '.'
    · subst hpoint
      simp only [List.cons_append, reachFraction, List.length_cons] at h ⊢
      have hpart : reachWhile Char.isDigit (text ++ rest) ≤ text.length := by
        split at h <;> omega
      rw [reachWhile_alone hpart]
    · simp [reachFraction, hpoint]

theorem reachNumeral_alone (h : reachNumeral (text ++ rest) ≤ text.length) :
    reachNumeral (text ++ rest) = reachNumeral text := by
  simp only [reachNumeral_eq] at h ⊢
  have hle : reachWhile Char.isDigit (text ++ rest) ≤ text.length := by
    split at h <;> omega
  rw [reachWhile_alone hle] at h ⊢
  split at h
  · next hnone => rw [if_pos hnone, if_pos hnone]
  · next hwhole =>
    have hshort := reachWhile_le Char.isDigit text
    rw [List.drop_append_of_le_length hshort] at h ⊢
    rw [if_neg hwhole, if_neg hwhole, reachFraction_alone]
    rw [List.length_drop]
    omega

/-- A literal ends at the first quote behind what may stand between quotes. -/
theorem reachClosing_body {body : List Char} (h : Escape.Body body) (passed : Nat)
    (rest : List Char) :
    reachClosing passed (body ++ '"' :: rest) = passed + body.length + 1 := by
  induction h generalizing passed with
  | nil => exact reachClosing_quote passed rest
  | @escape c body single _ ih =>
    rw [List.cons_append, List.cons_append, reachClosing, if_neg (by decide), if_neg (by decide),
      if_pos rfl, if_neg single, ih, List.length_cons, List.length_cons]
    omega
  | @plain c body quote slash single _ ih =>
    obtain ⟨d, more, hmore⟩ : ∃ d more, body ++ '"' :: rest = d :: more :=
      List.exists_cons_of_ne_nil (by simp)
    rw [List.cons_append, hmore, reachClosing, if_neg quote, if_neg single, if_neg slash, ← hmore,
      ih, List.length_cons]
    omega

theorem reachClosing_alone {passed : Nat}
    (h : reachClosing passed (text ++ rest) ≤ passed + text.length) :
    reachClosing passed (text ++ rest) = reachClosing passed text := by
  by_cases hreach : reachClosing passed (text ++ rest) = 0
  · by_contra hne
    have hclosing : reachClosing passed text ≠ 0 := by omega
    rw [reachClosing_append_of_ne_zero hclosing] at hreach
    exact hclosing hreach
  · obtain ⟨body, more, htext, hbody, hlength⟩ := reachClosing_extent hreach
    have hprefix : body ++ ['"'] <+: text := by
      refine List.prefix_of_prefix_length_le ⟨more, ?_⟩ ⟨rest, rfl⟩ ?_
      · rw [htext, List.append_assoc, List.singleton_append]
      · rw [List.length_append, List.length_singleton]
        omega
    obtain ⟨after, rfl⟩ := hprefix
    rw [← hlength, List.append_assoc, List.singleton_append, reachClosing_body hbody]

/-- What stands behind a text has no part in a match that ends within it. -/
theorem reach_alone (pattern : Pattern) (h : pattern.reach (text ++ rest) ≤ text.length) :
    pattern.reach (text ++ rest) = pattern.reach text := by
  cases pattern with
  | lineBreak => exact reachLineBreak_alone h
  | blanks => exact reachWhile_alone h
  | comment => exact reachComment_alone h
  | word => exact reachWord_alone h
  | numeral => exact reachNumeral_alone h
  | quoted =>
    cases text with
    | nil => exact Nat.le_zero.1 h
    | cons c text =>
      by_cases hquote : c = '"'
      · subst hquote
        refine reachClosing_alone (Nat.le_trans h ?_)
        rw [List.length_cons, Nat.add_comm]
      · rw [List.cons_append, reach, reach]
        simp [reachQuoted, hquote]
  | symbol written kind =>
    simp only [reach, List.isPrefixOf_iff_prefix] at h ⊢
    by_cases hwritten : written <+: text
    · rw [if_pos hwritten, if_pos (hwritten.trans (List.prefix_append text rest))]
    · by_cases hlong : written <+: text ++ rest
      · rw [if_pos hlong] at h
        exact absurd (List.prefix_of_prefix_length_le hlong ⟨rest, rfl⟩ h) hwritten
      · rw [if_neg hwritten, if_neg hlong]

/-- The first pattern that matches a text claims its match alone as well, for none goes further. -/
theorem first?_alone {size : Nat} (h : first? (text ++ rest) = some (pattern, size))
    (hsize : size ≤ text.length) : first? text = some (pattern, size) := by
  rw [← h, first?, first?, ← List.head?_filterMap, ← List.head?_filterMap]
  refine congrArg List.head? (List.filterMap_congr fun other hmem => ?_)
  rw [other.reach_alone (Nat.le_trans (reach_le_of_first? h other hmem) hsize)]

end Alone

end Pattern

end Offside
