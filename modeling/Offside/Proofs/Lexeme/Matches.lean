import Mathlib.Tactic.CasesM
import Offside.Lexeme.Pattern
import Offside.Proofs.Lexeme.Escaped

/-! # Matches

Which pattern of the table is the first to match a word, a numeral, a literal or a symbol, and how
far. A blank or a line feed behind the text ends the match.
-/

namespace Offside

namespace Pattern

/-- Whether a whole text is a word. -/
def isWord : List Char → Bool
  | [] => false
  | c :: rest => isWordStart c && rest.all isWordRest

def isDigits (text : List Char) : Bool :=
  !text.isEmpty && text.all Char.isDigit

theorem isDigits_iff {text : List Char} :
    isDigits text = true ↔ text ≠ [] ∧ ∀ c ∈ text, c.isDigit = true := by
  simp [isDigits]

theorem lineFeed_not_mem_of_isWord {text : List Char} (h : isWord text = true) :
    '\n' ∉ text := by
  cases text with
  | nil => exact List.not_mem_nil
  | cons first more =>
    simp only [isWord, Bool.and_eq_true, List.all_eq_true] at h
    obtain ⟨hfirst, hmore⟩ := h
    rw [List.mem_cons, not_or]
    constructor
    · rintro rfl
      exact absurd hfirst (by decide)
    · intro hmem
      exact absurd (hmore _ hmem) (by decide)

theorem lineFeed_not_mem_of_isDigits {text : List Char} (h : isDigits text = true) :
    '\n' ∉ text := by
  intro hmem
  exact absurd ((isDigits_iff.1 h).2 _ hmem) (by decide)

theorem lineFeed_not_mem_symbol {text : List Char} {kind : Kind}
    (h : symbol text kind ∈ table) : '\n' ∉ text := by
  have hall : ∀ pattern ∈ table, ∀ text kind, pattern = symbol text kind → '\n' ∉ text := by
    simp [table]
  exact hall _ h text kind rfl

/-! ## What a pattern begins with -/

/-- Whether a match of a pattern can begin with a character. -/
def starts : Pattern → Char → Bool
  | lineBreak, c => c == '\n' || c == '\r'
  | blanks, c => isSpacing c
  | comment, c => c == '/'
  | word, c => isWordStart c
  | numeral, c => c.isDigit
  | quoted, c => c == '"'
  | symbol written _, c => written.head? == some c

theorem reach_nil (pattern : Pattern) : pattern.reach [] = 0 := by
  cases pattern with
  | symbol written kind => cases written <;> rfl
  | _ => rfl

theorem reachWhile_eq_zero_iff {test : Char → Bool} {c : Char} {rest : List Char} :
    reachWhile test (c :: rest) = 0 ↔ test c = false := by
  simp [reachWhile, List.takeWhile_cons]

theorem reach_eq_zero_of_starts {pattern : Pattern} {c : Char} (h : pattern.starts c = false)
    (rest : List Char) : pattern.reach (c :: rest) = 0 := by
  cases pattern with
  | lineBreak =>
    simp only [starts, Bool.or_eq_false_iff, beq_eq_false_iff_ne] at h
    unfold reach reachLineBreak
    split <;> simp_all
  | blanks => exact reachWhile_eq_zero_iff.2 h
  | comment =>
    simp only [starts, beq_eq_false_iff_ne] at h
    unfold reach reachComment
    split <;> simp_all
  | word =>
    rw [starts] at h
    rw [reach, reachWord, h, if_neg Bool.false_ne_true]
  | numeral =>
    have hdigit : c.isDigit = false := h
    rw [reach, reachNumeral, reachWhile_eq_zero_iff.2 hdigit, if_pos rfl]
  | quoted =>
    simp only [starts, beq_eq_false_iff_ne] at h
    unfold reach reachQuoted
    split <;> simp_all
  | symbol written kind =>
    cases written with
    | nil => rfl
    | cons d written =>
      have hne : d ≠ c := by simpa [starts] using h
      simp [reach, List.isPrefixOf, hne]

/-! ## The first pattern that matches -/

theorem first?_eq_some {before after : List Pattern} {pattern : Pattern} {text : List Char}
    {size : Nat} (htable : table = before ++ pattern :: after)
    (hbefore : ∀ other ∈ before, other.reach text = 0) (hreach : pattern.reach text = size)
    (hpos : 0 < size) : first? text = some (pattern, size) := by
  have hnone : before.findSome? (fun other =>
      if other.reach text = 0 then none else some (other, other.reach text)) = none := by
    rw [List.findSome?_eq_none_iff]
    intro other hmem
    rw [if_pos (hbefore other hmem)]
  unfold first?
  rw [htable, List.findSome?_append, hnone, Option.none_or, List.findSome?_cons, hreach,
    if_neg (Nat.ne_of_gt hpos)]

theorem reachWhile_append {test : Char → Bool} {text : List Char} {c : Char}
    (h : ∀ d ∈ text, test d = true) (hc : test c = false) (rest : List Char) :
    reachWhile test (text ++ c :: rest) = text.length := by
  unfold reachWhile
  rw [List.takeWhile_append_of_pos h, List.takeWhile_cons_of_neg (by simp [hc]), List.append_nil]

/-- What a line break, blanks or a comment may begin with. -/
def leading : List Char :=
  ['\n', '\r', ' ', '\t', '/']

theorem not_mem_of_all {chars : List Char} {test : Char → Bool}
    (h : chars.all (!test ·) = true) {c : Char} (hc : test c = true) : c ∉ chars := by
  intro hmem
  have hnot := List.all_eq_true.1 h c hmem
  simp [hc] at hnot

theorem starts_of_not_mem {c : Char} (h : c ∉ leading) :
    ∀ other ∈ [lineBreak, blanks, comment], other.starts c = false := by
  simp only [leading, List.mem_cons, List.not_mem_nil, or_false, not_or] at h
  simp [starts, isSpacing, h]

theorem reach_eq_zero_of_not_mem {c : Char} (h : c ∉ leading) (rest : List Char) :
    ∀ other ∈ [lineBreak, blanks, comment], other.reach (c :: rest) = 0 :=
  fun other hmem => reach_eq_zero_of_starts (starts_of_not_mem h other hmem) rest

theorem first?_word {text : List Char} (h : isWord text = true) {c : Char}
    (hc : c = ' ' ∨ c = '\n') (rest : List Char) :
    first? (text ++ c :: rest) = some (.word, text.length) := by
  have htable : table = [lineBreak, blanks, comment] ++ word :: table.drop 4 := rfl
  have hstop : isWordRest c = false := by rcases hc with rfl | rfl <;> decide
  cases text with
  | nil => cases h
  | cons first more =>
    simp only [isWord, Bool.and_eq_true, List.all_eq_true] at h
    obtain ⟨hfirst, hmore⟩ := h
    have hmem : first ∉ leading := not_mem_of_all rfl hfirst
    have hreach : reachWord (first :: (more ++ c :: rest)) = (first :: more).length := by
      rw [reachWord, if_pos hfirst, reachWhile_append hmore hstop, List.length_cons, Nat.add_comm]
    exact first?_eq_some htable (reach_eq_zero_of_not_mem hmem _) hreach (Nat.succ_pos _)

theorem isWordStart_of_isDigit {c : Char} (h : c.isDigit = true) : isWordStart c = false := by
  have hletter : c.isAlpha = (decide ('A'.val ≤ c.val ∧ c.val ≤ 'Z'.val) ||
      ('a'.val ≤ c.val && c.val ≤ 'z'.val)) := rfl
  rw [Char.isDigit_iff_toNat] at h
  simp only [isWordStart, hletter, Bool.or_eq_false_iff, Bool.and_eq_false_iff,
    decide_eq_false_iff_not, beq_eq_false_iff_ne, UInt32.le_iff_toNat_le, Char.toNat_val,
    Char.reduceToNat] at h ⊢
  refine ⟨by omega, ?_⟩
  rintro rfl
  simp at h

/-- A digit begins a numeral and nothing that is tried before. -/
theorem first?_of_isDigit {c : Char} (h : c.isDigit = true) {rest : List Char} {size : Nat}
    (hreach : reachNumeral (c :: rest) = size) (hpos : 0 < size) :
    first? (c :: rest) = some (.numeral, size) := by
  have htable : table = [lineBreak, blanks, comment, word] ++ numeral :: table.drop 5 := rfl
  have hmem : c ∉ leading := not_mem_of_all rfl h
  apply first?_eq_some htable _ hreach hpos
  rw [show [lineBreak, blanks, comment, word] = [lineBreak, blanks, comment] ++ [word] from rfl,
    List.forall_mem_append, List.forall_mem_singleton]
  refine ⟨reach_eq_zero_of_not_mem hmem rest, ?_⟩
  rw [reach, reachWord, isWordStart_of_isDigit h, if_neg Bool.false_ne_true]

theorem first?_numeral {text : List Char} (h : isDigits text = true) {c : Char}
    (hc : c = ' ' ∨ c = '\n') (rest : List Char) :
    first? (text ++ c :: rest) = some (.numeral, text.length) := by
  obtain ⟨hne, hdigits⟩ := isDigits_iff.1 h
  have hstop : c.isDigit = false := by rcases hc with rfl | rfl <;> decide
  have hlength : text.length ≠ 0 := by simpa using hne
  have hreach : reachNumeral (text ++ c :: rest) = text.length := by
    unfold reachNumeral
    rw [reachWhile_append hdigits hstop, if_neg hlength, List.drop_left]
    rcases hc with rfl | rfl <;> rfl
  obtain ⟨first, more, rfl⟩ := List.exists_cons_of_ne_nil hne
  exact first?_of_isDigit (hdigits first List.mem_cons_self) hreach (Nat.pos_of_ne_zero hlength)

theorem first?_decimal {whole part : List Char} (hwhole : isDigits whole = true)
    (hpart : isDigits part = true) {c : Char} (hc : c = ' ' ∨ c = '\n') (rest : List Char) :
    first? (whole ++ '.' :: part ++ c :: rest) =
      some (.numeral, (whole ++ '.' :: part).length) := by
  obtain ⟨hne, hdigits⟩ := isDigits_iff.1 hwhole
  obtain ⟨hne', hdigits'⟩ := isDigits_iff.1 hpart
  have hstop : c.isDigit = false := by rcases hc with rfl | rfl <;> decide
  have hlength : whole.length ≠ 0 := by simpa using hne
  have hlength' : part.length ≠ 0 := by simpa using hne'
  have hreach : reachNumeral (whole ++ '.' :: (part ++ c :: rest)) =
      (whole ++ '.' :: part).length := by
    unfold reachNumeral
    rw [reachWhile_append hdigits (by decide), if_neg hlength, List.drop_left]
    simp only [reachWhile_append hdigits' hstop, if_neg hlength', List.length_append,
      List.length_cons]
    omega
  rw [List.append_assoc, List.cons_append]
  obtain ⟨first, more, rfl⟩ := List.exists_cons_of_ne_nil hne
  exact first?_of_isDigit (hdigits first List.mem_cons_self) hreach (by simp)

theorem first?_quoted (text rest : List Char) :
    first? ('"' :: (Escape.encode text ++ ['"']) ++ rest) =
      some (.quoted, ('"' :: (Escape.encode text ++ ['"'])).length) := by
  have htable : table = [lineBreak, blanks, comment, word, numeral] ++ quoted :: table.drop 6 :=
    rfl
  apply first?_eq_some htable
  · simp only [List.forall_mem_cons, List.not_mem_nil, false_implies, implies_true, and_true]
    exact ⟨rfl, rfl, rfl, rfl, rfl⟩
  · rw [reach, List.cons_append, reachQuoted, List.append_assoc, List.singleton_append,
      reachClosing_encode, List.length_cons, List.length_append, List.length_singleton]
    omega
  · exact Nat.succ_pos _

theorem first?_symbol {text : List Char} {kind : Kind} (h : symbol text kind ∈ table) {c : Char}
    (hc : c = ' ' ∨ c = '\n') (rest : List Char) :
    first? (text ++ c :: rest) = some (symbol text kind, text.length) := by
  simp only [table, List.mem_cons, List.not_mem_nil, or_false, reduceCtorEq, false_or,
    symbol.injEq] at h
  -- No shorter symbol comes before one that it begins, so each row finds its own text first.
  rcases hc with rfl | rfl
  all_goals
    casesm* _ ∨ _
    all_goals
      obtain ⟨rfl, rfl⟩ := ‹_ ∧ _›
      rfl

end Pattern

end Offside
