import Offside.Proofs.Layout.Quoted
import Offside.Proofs.Lexeme.Munch

/-! # Ends of lines

What may stand behind the last token of a line: blanks leave the letters of a text as they are, and
a comment behind blanks adds a letter that does not count, or goes on with a comment that was there.
-/

namespace Offside

variable {text rest : List Char}

/-! ## Remarks -/

theorem isGap_iff {c : Char} : IsGap c ↔ c = '\n' ∨ Pattern.isSpacing c = true := by
  simp only [IsGap, Pattern.isSpacing, List.mem_cons, List.not_mem_nil, or_false, Bool.or_eq_true,
    beq_iff_eq]
  tauto

theorem isBlank_of_isGap {c : Char} (h : IsGap c) : isBlank c = true := by
  simp only [IsGap, List.mem_cons, List.not_mem_nil, or_false] at h
  rcases h with rfl | rfl | rfl | rfl <;> rfl

/-- Blanks behind a text are trimmed. -/
theorem trim_append {blanks : List Char} (h : ∀ c ∈ blanks, isBlank c = true) (text : List Char) :
    trim (text ++ blanks) = trim text := by
  unfold trim
  rw [List.dropWhile_append]
  split
  · next hempty =>
    have hblanks : blanks.dropWhile isBlank = [] := List.dropWhile_eq_nil_iff.2 h
    rw [List.isEmpty_iff.1 hempty, hblanks]
  · unfold trimEnd
    have hreverse : ∀ c ∈ blanks.reverse, isBlank c = true := fun c hmem =>
      h c (List.mem_reverse.1 hmem)
    rw [List.reverse_append, List.dropWhile_append_of_pos hreverse]

theorem Lexeme.remark_append {gaps : List Char} (h : ∀ c ∈ gaps, IsGap c) (text : List Char) :
    remark (text ++ gaps) = remark text := by
  fun_induction remark text with
  | case1 rest ih => exact ih
  | case2 text hslashes =>
    have hslash : '/' ∉ gaps := fun hmem => absurd (h _ hmem) (by decide)
    unfold remark
    split
    · next more heq =>
      exfalso
      match text with
      | [] => exact hslash (by rw [show gaps = _ from heq]; exact List.mem_cons_self)
      | [c] =>
        obtain ⟨-, rfl⟩ := List.cons_eq_cons.1 heq
        exact hslash List.mem_cons_self
      | c :: d :: more =>
        obtain ⟨rfl, hmore⟩ := List.cons_eq_cons.1 heq
        obtain ⟨rfl, -⟩ := List.cons_eq_cons.1 hmore
        exact hslashes more rfl
    · exact trim_append (fun c hmem => isBlank_of_isGap (h c hmem)) text

/-! ## First matches -/

namespace Pattern

/-- Blanks or a line break come first where a text begins with a gap. -/
theorem first?_of_isGap {c : Char} (h : IsGap c) (rest : List Char) :
    ∃ pattern size, first? (c :: rest) = some (pattern, size) ∧
      (pattern = lineBreak ∨ pattern = blanks) := by
  have hkind := isGap_iff.1 h
  cases hfirst : first? (c :: rest) with
  | none =>
    rw [first?_eq_none_iff] at hfirst
    have hbreak : reachLineBreak (c :: rest) = 0 := hfirst lineBreak (by simp [table])
    have hblanks : reachWhile isSpacing (c :: rest) = 0 := hfirst blanks (by simp [table])
    rcases hkind with rfl | hspacing
    · cases hbreak
    · simp [reachWhile, hspacing] at hblanks
  | some found =>
    obtain ⟨pattern, size⟩ := found
    refine ⟨pattern, size, rfl, ?_⟩
    by_contra hother
    rw [not_or] at hother
    obtain ⟨hbreak, hspacing⟩ := head_of_first? hfirst hother.1 hother.2
    rcases hkind with rfl | hblank
    · cases hbreak
    · rw [hspacing] at hblank
      cases hblank

/-- What begins with a gap has no part in the first match of a text, unless this is a comment or
blanks, which may go on. -/
theorem first?_append_gap {pattern : Pattern} {size : Nat} (h : first? text = some (pattern, size))
    (hbreak : pattern ≠ lineBreak) (hblanks : pattern ≠ blanks) (hcomment : pattern ≠ comment)
    (hfeed : '\n' ∉ text) (hreturn : '\r' ∉ text) {d : Char} (hd : IsGap d) (rest : List Char) :
    first? (text ++ d :: rest) = some (pattern, size) := by
  rw [← h]
  cases text with
  | nil => cases h
  | cons c more =>
    obtain ⟨-, hspacing⟩ := head_of_first? h hbreak hblanks
    apply first?_append (List.cons_ne_nil c more) hfeed hreturn
    refine ⟨?_, fun _ => ?_, fun _ => ?_, fun hbar => ?_, fun _ hquote => ?_⟩
    · simp only [IsGap, List.mem_cons, List.not_mem_nil, or_false] at hd ⊢
      tauto
    · simp [reachWhile, hspacing]
    · by_contra hslashes
      rw [first?_of_reachComment hslashes] at h
      cases h
      exact hcomment rfl
    · rw [hbar] at hd
      exact absurd hd (by decide)
    · obtain rfl : c = '"' := Option.some_inj.1 hquote
      obtain rfl := eq_quoted_of_first? h
      obtain ⟨-, hreach, hpos⟩ := of_first? h
      rw [← hreach] at hpos
      exact Nat.ne_of_gt hpos

end Pattern

/-! ## Letters of a text -/

namespace Lexeme

/-- The letters of all pieces of a text, those that only separate left out. -/
def spelt (text : List Char) : List (Option (Kind × String)) :=
  ((cut 0 text).filter (!·.isSpacing)).map letter?

@[simp] theorem spelt_nil : spelt [] = [] := by
  rw [spelt, cut]
  rfl

theorem spelt_cut (offset : Nat) (text : List Char) :
    ((cut offset text).filter (!·.isSpacing)).map letter? = spelt text :=
  letters_of_moved (moved_cut 0 offset text)

variable {piece : List Char} {pattern : Pattern}

theorem spelt_spacing (h : Pattern.first? (piece ++ rest) = some (pattern, piece.length))
    (hspacing : pattern = .lineBreak ∨ pattern = .blanks) : spelt (piece ++ rest) = spelt rest := by
  have hdropped : isSpacing ⟨some pattern, piece, 0⟩ = true := by
    rcases hspacing with rfl | rfl <;> rfl
  rw [spelt, cut_append h rfl, List.filter_cons_of_neg (by simp [hdropped]), spelt_cut]

theorem spelt_append (h : Pattern.first? (piece ++ rest) = some (pattern, piece.length))
    (hbreak : pattern ≠ .lineBreak) (hblanks : pattern ≠ .blanks) :
    spelt (piece ++ rest) = letter? ⟨some pattern, piece, 0⟩ :: spelt rest := by
  have hkept : isSpacing ⟨some pattern, piece, 0⟩ = false := by simp [isSpacing, hbreak, hblanks]
  rw [spelt, cut_append h rfl, List.filter_cons_of_pos (by simp [hkept]), List.map_cons, spelt_cut]

/-- Gaps in front of a text do not count. -/
theorem spelt_dropWhile (text : List Char) : spelt (text.dropWhile (IsGap ·)) = spelt text := by
  induction hlength : text.length using Nat.strong_induction_on generalizing text with
  | h length ih =>
    subst hlength
    cases text with
    | nil => rfl
    | cons c more =>
      by_cases hc : IsGap c
      · obtain ⟨pattern, size, hfirst, hspacing⟩ := Pattern.first?_of_isGap hc more
        obtain ⟨-, hreach, hpos⟩ := Pattern.of_first? hfirst
        obtain ⟨matched, rest, htext, hlength, hextent⟩ :=
          pattern.exists_extent (by omega : pattern.reach (c :: more) ≠ 0)
        have hgaps : ∀ d ∈ matched, IsGap d := by rcases hspacing with rfl | rfl <;> exact hextent
        have hshorter : rest.length < (c :: more).length := by
          rw [htext, List.length_append]
          omega
        rw [htext, ← hreach, ← hlength] at hfirst
        rw [htext, spelt_spacing hfirst hspacing,
          List.dropWhile_append_of_pos (by simpa using hgaps), ih _ hshorter _ rfl]
      · rw [List.dropWhile_cons_of_neg (by simpa using hc)]

theorem spelt_gaps {gaps : List Char} (h : ∀ c ∈ gaps, IsGap c) (rest : List Char) :
    spelt (gaps ++ rest) = spelt rest := by
  rw [← spelt_dropWhile, List.dropWhile_append_of_pos (by simpa using h), spelt_dropWhile]

theorem spelt_eq_nil {gaps : List Char} (h : ∀ c ∈ gaps, IsGap c) : spelt gaps = [] := by
  rw [← List.append_nil gaps, spelt_gaps h, spelt_nil]

/-- A comment takes the rest of its line. -/
theorem spelt_comment {said : List Char} (hfeed : '\n' ∉ said)
    (hrest : rest = [] ∨ ∃ more, rest = '\n' :: more) :
    spelt ('/' :: '/' :: said ++ rest) =
      some (.comment, String.ofList (remark said)) :: spelt rest := by
  have hfirst : Pattern.first? ('/' :: '/' :: said ++ rest) =
      some (.comment, ('/' :: '/' :: said).length) := by
    rcases hrest with rfl | ⟨more, rfl⟩
    · have hline : ∀ c ∈ said, (c != '\n') = true := by
        intro c hmem
        rw [bne_iff_ne]
        rintro rfl
        exact hfeed hmem
      have hreach : Pattern.reachComment ('/' :: '/' :: said) = said.length + 2 := by
        rw [Pattern.reachComment, Pattern.reachWhile, List.takeWhile_eq_self_iff.2 hline,
          Nat.add_comm]
      rw [List.append_nil, Pattern.first?_of_reachComment (by omega), hreach]
      rfl
    · exact Pattern.first?_comment hfeed more
  exact spelt_append hfirst (by decide) (by decide)

/-! ## Claimed texts -/

/-- A pattern claims each piece of the text. -/
inductive Claimed : List Char → Prop where
  | nil : Claimed []
  | append {piece rest : List Char} {pattern : Pattern}
      (matched : Pattern.first? (piece ++ rest) = some (pattern, piece.length))
      (more : Claimed rest) : Claimed (piece ++ rest)

theorem claimed_of_cut {offset : Nat} (h : ∀ lexeme ∈ cut offset text, lexeme.pattern? ≠ none) :
    Claimed text := by
  fun_induction cut offset text with
  | case1 => exact .nil
  | case2 offset c rest pattern? size hmatch piece ih =>
    obtain ⟨hpattern, hrest⟩ := List.forall_mem_cons.1 h
    have hpiece : c :: rest = piece ++ rest.drop (size - 1) := by simp [piece]
    split at hmatch
    · next pattern size' hfirst =>
      cases hmatch
      have hle := Pattern.length_of_first? hfirst
      have hpos := (Pattern.of_first? hfirst).2.2
      have hlength : piece.length = size := by
        rw [List.length_cons] at hle
        simp only [piece, List.length_cons, List.length_take]
        omega
      rw [hpiece] at hfirst ⊢
      exact .append (by rw [hfirst, hlength]) (ih hrest)
    · cases hmatch
      exact absurd rfl hpattern

/-- What begins with a gap is apart from the text before it, unless that ends with a comment. -/
theorem Claimed.spelt_append (h : Claimed text) (hfeed : '\n' ∉ text) (hreturn : '\r' ∉ text)
    {d : Char} (hd : IsGap d) (tail : List Char) :
    ∃ core, (spelt text = core ∧ spelt (text ++ d :: tail) = core ++ spelt (d :: tail)) ∨
      ∃ said, '\n' ∉ said ∧ spelt text = core ++ spelt ('/' :: '/' :: said) ∧
        spelt (text ++ d :: tail) = core ++ spelt ('/' :: '/' :: said ++ d :: tail) := by
  induction h with
  | nil => exact ⟨[], .inl ⟨spelt_nil, rfl⟩⟩
  | @append piece rest pattern matched _ ih =>
    have hends := ih (fun hmem => hfeed (List.mem_append_right _ hmem))
      (fun hmem => hreturn (List.mem_append_right _ hmem))
    obtain ⟨-, hreach, hpos⟩ := Pattern.of_first? matched
    obtain ⟨taken, left, htext, hlength, hextent⟩ :=
      pattern.exists_extent (by omega : pattern.reach (piece ++ rest) ≠ 0)
    obtain ⟨rfl, rfl⟩ := List.append_inj htext (by omega)
    by_cases hspacing : pattern = .lineBreak ∨ pattern = .blanks
    · have hgaps : ∀ c ∈ piece, IsGap c := by rcases hspacing with rfl | rfl <;> exact hextent
      rw [List.append_assoc, spelt_gaps hgaps, spelt_gaps hgaps]
      exact hends
    · obtain ⟨hbreak, hblanks⟩ := not_or.1 hspacing
      by_cases hcomment : pattern = .comment
      · subst hcomment
        obtain ⟨said, rfl, hsaid, rfl | ⟨more, rfl⟩⟩ := hextent
        · rw [List.append_nil]
          exact ⟨[], .inr ⟨said, hsaid, rfl, rfl⟩⟩
        · exact absurd (List.mem_append_right _ List.mem_cons_self) hfeed
      · have hbehind :=
          Pattern.first?_append_gap matched hbreak hblanks hcomment hfeed hreturn hd tail
        rw [List.append_assoc] at hbehind ⊢
        rw [Lexeme.spelt_append matched hbreak hblanks, Lexeme.spelt_append hbehind hbreak hblanks]
        obtain ⟨core, ⟨htext, htail⟩ | ⟨said, hsaid, htext, htail⟩⟩ := hends
        · exact ⟨_ :: core, .inl ⟨by rw [htext], by rw [htail]; rfl⟩⟩
        · exact ⟨_ :: core, .inr ⟨said, hsaid, by rw [htext]; rfl, by rw [htail]; rfl⟩⟩

/-- Gaps behind a text do not count. -/
theorem Claimed.spelt_gaps (h : Claimed text) (hfeed : '\n' ∉ text) (hreturn : '\r' ∉ text)
    {gaps : List Char} (hgaps : ∀ c ∈ gaps, IsGap c) : spelt (text ++ gaps) = spelt text := by
  cases gaps with
  | nil => rw [List.append_nil]
  | cons d more =>
    obtain ⟨core, ⟨htext, htail⟩ | ⟨said, hsaid, htext, htail⟩⟩ :=
      h.spelt_append hfeed hreturn (hgaps d List.mem_cons_self) more
    · rw [htext, htail, spelt_eq_nil hgaps, List.append_nil]
    · rw [htext, htail]
      -- The comment goes on with the gaps before the first line feed, and a trim takes them off.
      generalize d :: more = gaps at hgaps ⊢
      have hline : ∀ c ∈ gaps.takeWhile (· != '\n'), IsGap c := fun c hmem =>
        hgaps c (List.takeWhile_subset _ hmem)
      have hbehind : ∀ c ∈ gaps.dropWhile (· != '\n'), IsGap c := fun c hmem =>
        hgaps c (List.dropWhile_subset _ hmem)
      have hfeed' : '\n' ∉ said ++ gaps.takeWhile (· != '\n') := by
        rw [List.mem_append, not_or]
        exact ⟨hsaid, fun hmem => absurd (List.mem_takeWhile_imp hmem) (by decide)⟩
      have hrest : gaps.dropWhile (· != '\n') = [] ∨
          ∃ more, gaps.dropWhile (· != '\n') = '\n' :: more := by
        have hstop := List.head?_dropWhile_not (· != '\n') gaps
        cases hdrop : gaps.dropWhile (· != '\n') with
        | nil => exact .inl rfl
        | cons c more =>
          rw [hdrop] at hstop
          obtain rfl : c = '\n' := by simpa using hstop
          exact .inr ⟨more, rfl⟩
      have hsplit : '/' :: '/' :: said ++ gaps =
          '/' :: '/' :: (said ++ gaps.takeWhile (· != '\n')) ++ gaps.dropWhile (· != '\n') := by
        simp [List.takeWhile_append_dropWhile]
      rw [hsplit, spelt_comment hfeed' hrest, spelt_eq_nil hbehind, remark_append hline,
        ← List.append_nil ('/' :: '/' :: said), spelt_comment hsaid (.inl rfl), spelt_nil]

/-- Whether a letter is that of a comment. -/
def isRemark (letter : Option (Kind × String)) : Bool :=
  letter.map Prod.fst == some .comment

/-- A comment behind a text adds a remark, unless the text ends with a comment, which goes on. -/
theorem Claimed.spelt_remark (h : Claimed text) (hfeed : '\n' ∉ text) (hreturn : '\r' ∉ text)
    {said : List Char} (hsaid : '\n' ∉ said) :
    ∃ core more more', spelt text = core ++ more ∧
      spelt (text ++ ' ' :: '/' :: '/' :: said) = core ++ more' ∧
        ∀ letter ∈ more ++ more', isRemark letter = true := by
  have hcomment {said : List Char} (hsaid : '\n' ∉ said) : spelt ('/' :: '/' :: said) =
      [some (.comment, String.ofList (remark said))] := by
    rw [← List.append_nil ('/' :: '/' :: said), spelt_comment hsaid (.inl rfl), spelt_nil]
  have hblank : spelt (' ' :: '/' :: '/' :: said) = spelt ('/' :: '/' :: said) :=
    Lexeme.spelt_gaps (List.forall_mem_singleton.2 (by decide : IsGap ' ')) _
  obtain ⟨core, ⟨htext, htail⟩ | ⟨said', hsaid', htext, htail⟩⟩ :=
    h.spelt_append hfeed hreturn (d := ' ') (by decide) ('/' :: '/' :: said)
  · refine ⟨core, [], _, by rw [htext, List.append_nil], htail, ?_⟩
    rw [hblank, hcomment hsaid]
    exact List.forall_mem_singleton.2 rfl
  · have hboth : '\n' ∉ said' ++ ' ' :: '/' :: '/' :: said := by simp [hsaid, hsaid']
    refine ⟨core, _, _, htext, htail, ?_⟩
    have hmore := hcomment hboth
    rw [← List.cons_append, ← List.cons_append] at hmore
    rw [hcomment hsaid', hmore]
    exact List.forall_mem_cons.2 ⟨rfl, List.forall_mem_singleton.2 rfl⟩

/-- The letters that count: a remark does where it comes first. -/
def counted : List (Option (Kind × String)) → List (Option (Kind × String))
  | [] => []
  | first :: rest => first :: rest.filter (!isRemark ·)

theorem isRemark_letter? {lexeme : Lexeme} {offset : Nat} (h : lexeme ∈ cut offset text) :
    isRemark lexeme.letter? = lexeme.isComment := by
  obtain ⟨_, _, _, _, htaken⟩ := taken_of_mem_cut h
  rw [Bool.eq_iff_iff]
  constructor
  · intro hremark
    cases hmeaning : lexeme.meaning? with
    | none => simp [isRemark, letter?, hmeaning] at hremark
    | some letter =>
      obtain ⟨kind, value⟩ := letter
      refine (htaken.spells hmeaning).2.2 ?_
      simpa [isRemark, letter?, hmeaning] using hremark
  · intro hcomment
    have hpattern : lexeme.pattern? = some .comment := of_decide_eq_true hcomment
    simp [isRemark, letter?, meaning?, hpattern]

end Lexeme

/-! ## Lines -/

namespace Line

open Lexeme (spelt counted isRemark Claimed)

theorem lettersOf_eq_counted (text : List Char) : lettersOf text = counted (spelt text) := by
  unfold lettersOf letters lexemes spelt
  dsimp only
  have hremark : ∀ lexeme ∈ (Lexeme.cut 0 text).filter (!·.isSpacing),
      isRemark lexeme.letter? = lexeme.isComment := fun lexeme hmem =>
    Lexeme.isRemark_letter? (List.mem_of_mem_filter hmem)
  generalize (Lexeme.cut 0 text).filter (!·.isSpacing) = pieces at hremark
  cases pieces with
  | nil => rfl
  | cons first rest =>
    rw [List.map_cons, List.map_cons, counted, List.filter_map]
    congr 2
    apply List.filter_congr
    intro lexeme hmem
    rw [Function.comp_apply, hremark lexeme (List.mem_cons_of_mem first hmem)]

/-- Where every letter on a line is known, so is every piece. -/
theorem claimed_of_lettersOf (h : none ∉ lettersOf text) : Claimed text := by
  have hpieces : ∀ lexeme ∈ Lexeme.cut 0 text, lexeme.pattern? ≠ none := by
    intro lexeme hmem hnone
    have hkept : lexeme ∈ (Lexeme.cut 0 text).filter (!·.isSpacing) :=
      List.mem_filter.2 ⟨hmem, by simp [Lexeme.isSpacing, hnone]⟩
    have hcontent : (!lexeme.isComment) = true := by simp [Lexeme.isComment, hnone]
    have hletter : lexeme.letter? = none := by simp [Lexeme.letter?, Lexeme.meaning?, hnone]
    apply h
    rw [← hletter]
    apply List.mem_map_of_mem
    unfold lexemes
    dsimp only
    generalize (Lexeme.cut 0 text).filter (!·.isSpacing) = pieces at hkept
    cases pieces with
    | nil => cases hkept
    | cons first rest =>
      rcases List.mem_cons.1 hkept with rfl | hrest
      · exact List.mem_cons_self
      · exact List.mem_cons_of_mem first (List.mem_filter.2 ⟨hrest, hcontent⟩)
  exact Lexeme.claimed_of_cut hpieces

/-- What may end a line: a line feed, a carriage return before it, or the end of the source. -/
def breaks : List (List Char) :=
  [[], ['\n'], ['\r', '\n']]

theorem withoutBreak_append {ending : List Char} (hending : ending ∈ breaks) (hfeed : '\n' ∉ text)
    (hreturn : '\r' ∉ text) : withoutBreak (text ++ ending) = text := by
  simp only [breaks, List.mem_cons, List.not_mem_nil, or_false] at hending
  rcases hending with rfl | rfl | rfl
  · rw [List.append_nil, withoutBreak_eq_self hfeed]
  · exact withoutBreak_lineFeed hfeed hreturn
  · induction text with
    | nil => rfl
    | cons c text ih =>
      simp only [List.mem_cons, not_or] at hfeed hreturn
      rw [List.cons_append, withoutBreak, ih hfeed.2 hreturn.2]
      · rintro rfl
        exact absurd rfl hfeed.1
      · rintro rfl
        exact absurd rfl hreturn.1

/-- A line has a shape if there is more on it than its indentation and its break. -/
theorem shape?_append {ending : List Char} (hending : ending ∈ breaks) (hfeed : '\n' ∉ text)
    (hreturn : '\r' ∉ text) :
    shape? (text ++ ending) = if text.all isIndentation then none
      else some ((text.takeWhile isIndentation).length, lettersOf (text ++ ending)) := by
  have hcontent : (⟨0, 0, text ++ ending⟩ : Line).hasContent = !text.all isIndentation := by
    rw [hasContent, withoutBreak_append hending hfeed hreturn, Bool.not_inj_iff, Bool.eq_iff_iff,
      List.isEmpty_iff, List.dropWhile_eq_nil_iff, List.all_eq_true]
  have hwidth : (⟨0, 0, text ++ ending⟩ : Line).width = (text.takeWhile isIndentation).length := by
    simp only [breaks, List.mem_cons, List.not_mem_nil, or_false] at hending
    rcases hending with rfl | rfl | rfl
    · rw [List.append_nil]
      rfl
    · exact Pattern.reachWhile_append_stop (by decide) text []
    · exact Pattern.reachWhile_append_stop (by decide) text ['\n']
  rw [shape?, hcontent, shape, hwidth]
  by_cases hall : text.all isIndentation = true <;> simp [hall, lettersOf]

theorem isGap_of_isIndentation {c : Char} (h : isIndentation c = true) : IsGap c := by
  simp only [isIndentation, Bool.or_eq_true, beq_iff_eq] at h
  rcases h with rfl | rfl <;> decide

end Line

end Offside
