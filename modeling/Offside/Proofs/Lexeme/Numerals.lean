import Offside.Number.Reading
import Offside.Proofs.Lexeme.Matches
import Offside.Proofs.Lexeme.OneLine
import Offside.Proofs.Token.Origins

/-! # Numerals

What is written for a number: digits, or digits on both sides of a point. Nothing else becomes a
number token, and all of this stands for a number.
-/

namespace Offside

open Pattern (isDigits isDigits_iff)

/-- Digits, or digits on both sides of a point. -/
inductive Numeral : List Char → Prop where
  | whole {digits : List Char} : isDigits digits = true → Numeral digits
  | decimal {whole part : List Char} : isDigits whole = true → isDigits part = true →
      Numeral (whole ++ '.' :: part)

/-! ## What the pattern takes -/

section Pattern

open Pattern

variable {text : List Char}

theorem isDigits_takeWhile (h : reachWhile Char.isDigit text ≠ 0) :
    isDigits (text.takeWhile Char.isDigit) = true :=
  isDigits_iff.2 ⟨mt List.length_eq_zero_iff.2 h, fun _ hmem => List.mem_takeWhile_imp hmem⟩

theorem take_reachWhile (test : Char → Bool) (text : List Char) :
    text.take (reachWhile test text) = text.takeWhile test :=
  (List.prefix_iff_eq_take.1 (List.takeWhile_prefix test)).symm

theorem numeral_take (h : reachNumeral text ≠ 0) : Numeral (text.take (reachNumeral text)) := by
  revert h
  unfold reachNumeral
  dsimp only
  split
  · exact absurd rfl
  · next hwhole =>
    intro _
    have hdigits := isDigits_takeWhile hwhole
    split
    · next rest hrest =>
      split
      · rw [take_reachWhile]
        exact .whole hdigits
      · next hpart =>
        rw [Nat.add_assoc, List.take_add, hrest, take_reachWhile, Nat.add_comm 1,
          List.take_succ_cons, take_reachWhile]
        exact .decimal hdigits (isDigits_takeWhile hpart)
    · rw [take_reachWhile]
      exact .whole hdigits

end Pattern

/-! ## What a numeral stands for -/

namespace Numeral

variable {text : List Char}

theorem splitSign_eq (h : Numeral text) : Binary64.splitSign text = (false, text) := by
  have digits {whole : List Char} (hwhole : isDigits whole = true) (rest : List Char) :
      Binary64.splitSign (whole ++ rest) = (false, whole ++ rest) := by
    obtain ⟨hne, hdigits⟩ := isDigits_iff.1 hwhole
    obtain ⟨c, more, rfl⟩ := List.exists_cons_of_ne_nil hne
    have hc : c.isDigit = true := hdigits c List.mem_cons_self
    rw [List.cons_append]
    unfold Binary64.splitSign
    split
    · next hsign =>
      cases hsign
      cases hc
    · next hsign =>
      cases hsign
      cases hc
    · rfl
  cases h with
  | whole hdigits =>
    have := digits hdigits []
    rwa [List.append_nil] at this
  | decimal hwhole _ => exact digits hwhole _

theorem exists_readDecimal? (h : Numeral text) (negative : Bool) :
    ∃ decimal, Binary64.readDecimal? negative text = some decimal := by
  cases h with
  | whole hdigits =>
    obtain ⟨hne, hall⟩ := isDigits_iff.1 hdigits
    have hdrop : text.dropWhile Char.isDigit = [] := List.dropWhile_eq_nil_iff.2 hall
    have htake : text.takeWhile Char.isDigit = text := List.takeWhile_eq_self_iff.2 hall
    simp [Binary64.readDecimal?, Binary64.readExponent?, hdrop, htake, hne]
  | @decimal whole part hwhole hpart =>
    obtain ⟨hne, hall⟩ := isDigits_iff.1 hwhole
    obtain ⟨hne', hall'⟩ := isDigits_iff.1 hpart
    have hpoint : '.'.isDigit = false := by decide
    have hdrop : (whole ++ '.' :: part).dropWhile Char.isDigit = '.' :: part := by
      rw [List.dropWhile_append_of_pos hall, List.dropWhile_cons_of_neg (by simp [hpoint])]
    have htake : (whole ++ '.' :: part).takeWhile Char.isDigit = whole := by
      rw [List.takeWhile_append_of_pos hall, List.takeWhile_cons_of_neg (by simp [hpoint]),
        List.append_nil]
    have hdrop' : part.dropWhile Char.isDigit = [] := List.dropWhile_eq_nil_iff.2 hall'
    simp [Binary64.readDecimal?, Binary64.readExponent?, hdrop, htake, hdrop', hne]

/-- Every numeral is read as a number. -/
theorem exists_read? (h : Numeral text) : ∃ value, Binary64.read? text = some value := by
  obtain ⟨decimal, hdecimal⟩ := h.exists_readDecimal? false
  unfold Binary64.read?
  rw [h.splitSign_eq]
  dsimp only
  split
  · exact ⟨_, rfl⟩
  · split
    · exact ⟨_, rfl⟩
    · exact ⟨_, congrArg (Option.map _) hdecimal⟩

end Numeral

/-! ## Number tokens -/

theorem Kind.ofWord_ne_number (word : String) : ofWord word ≠ .number := by
  have hreserved : ∀ entry ∈ reserved, entry.2 ≠ .number := by decide
  unfold ofWord ofReserved?
  cases hlookup : reserved.lookup word with
  | none => decide
  | some kind =>
    obtain ⟨before, after, heq, -⟩ := List.lookup_eq_some_iff.1 hlookup
    exact hreserved (word, kind) (heq ▸ List.mem_append_right before List.mem_cons_self)

theorem Pattern.ne_number_of_symbol {text : List Char} {kind : Kind}
    (h : symbol text kind ∈ table) : kind ≠ .number := by
  have htable : ∀ pattern ∈ table, ∀ text kind, pattern = symbol text kind → kind ≠ .number := by
    simp [table]
  exact htable _ h text kind rfl

/-- Only the pattern of numerals makes number tokens. -/
theorem Lexeme.numeral_of_meaning? {offset : Nat} {source value : List Char} {lexeme : Lexeme}
    (hmem : lexeme ∈ cut offset source) (h : lexeme.meaning? = some (.number, value)) :
    Numeral value := by
  unfold meaning? at h
  split at h
  · cases h
  · simp only [Option.some.injEq, Prod.mk.injEq] at h
    exact absurd h.1 (Kind.ofWord_ne_number _)
  · next hpattern =>
    cases h
    obtain ⟨-, text, hreach, htext⟩ := text_eq_take hmem hpattern
    rw [htext]
    exact numeral_take hreach
  · cases h
  · next hpattern =>
    cases h
    exact absurd rfl (Pattern.ne_number_of_symbol (text_eq_take hmem hpattern).1)
  all_goals cases h

theorem Line.numeral_of_tokens {line : Line} {file : String} {content : List Token}
    (h : line.tokens file = .ok content) {token : Token} (hmem : token ∈ content)
    (hnumber : token.kind = .number) : Numeral token.value.toList := by
  obtain ⟨lexeme, -, hlexeme, htoken⟩ := exists_of_forall₂ (forall₂_tokens h).flip hmem
  have hmeaning := (Lexeme.of_token htoken).1
  rw [hnumber] at hmeaning
  exact Lexeme.numeral_of_meaning? (line.lexemes_sublist.mem hlexeme) hmeaning

end Offside
