import Mathlib.Algebra.Order.Monoid.Unbundled.Basic
import Mathlib.Order.Nat
import Offside.Proofs.Grammar.AgreeingProductions

/-! # The limit on nesting is a threshold

A token list needs some number of levels, at most two more than twice its tokens. Under every
smaller limit it is refused for want of a level, and from there on the limit makes no difference.
-/

namespace Offside

open Parse

variable {limit limit' : Nat}

/-- More levels to open change nothing but the failures for want of one. -/
theorem Nested.agree_within {room room' : Nat} (hle : room ≤ room') :
    (Nested.within .standard limit room).Agree limit room
      (Nested.within .standard limit' room') := by
  induction room generalizing room' with
  | zero =>
    have lacks {α : Type} (q : Parse α) (c : Cursor) (tokens : Nat) :
        Agrees limit (0 ≤ tokens) (refuse limit) q c :=
      .inl ⟨Nat.zero_le tokens, c.position, c, rfl⟩
    exact ⟨fun c => lacks _ c _, fun _ c => lacks _ c _, fun c => lacks _ c _, fun c => lacks _ c _⟩
  | succ room ih =>
    obtain ⟨room', rfl⟩ := Nat.exists_eq_add_of_lt hle
    have hnested := ih (show room ≤ room + room' by omega)
    exact ⟨fun _ => Grammar.agrees_expressionBody hnested,
      fun power _ => Grammar.agrees_innerBody hnested (exact_within limit room) power,
      fun _ => Grammar.agrees_blockBody hnested, fun _ => Grammar.agrees_sequenceBody hnested⟩

theorem agrees_program (hle : limit ≤ limit') (c : Cursor) :
    Agrees limit (limit ≤ 2 * c.ahead.length + 1) (Grammar.program limit)
      (Grammar.program limit') c :=
  Grammar.agrees_bodyUntil (Nested.agree_within hle) .eof

/-- A token list is refused for want of a level. -/
def TooDeep (tokens : List Token) (file : String) (limit : Nat) : Prop :=
  ∃ position, parse tokens file limit = .error ⟨.nestingTooDeep limit, position⟩

/-- The number of tokens other than the end-of-file tokens. -/
def tokenCount (tokens : List Token) : Nat :=
  tokens.countP (·.kind != .eof)

theorem length_ahead_le_tokenCount (tokens : List Token) (file : String) :
    (Cursor.ofTokens tokens file).ahead.length ≤ tokenCount tokens := by
  rw [ahead_ofTokens, tokenCount, ← List.countP_eq_length.2 fun token mem =>
    List.all_eq_true.1 (List.all_takeWhile (p := (·.kind != .eof)) (l := tokens)) token mem]
  exact (List.takeWhile_sublist _).countP_le

variable {tokens : List Token} {file : String}

theorem parse_cases (tokens : List Token) (file : String) (hle : limit ≤ limit') :
    limit ≤ 2 * tokenCount tokens + 1 ∧ TooDeep tokens file limit ∨
      parse tokens file limit = parse tokens file limit' ∧
        ∀ error, parse tokens file limit = .error error →
          ∀ missed, error.cause ≠ .nestingTooDeep missed := by
  have hcount := length_ahead_le_tokenCount tokens file
  unfold TooDeep parse
  split
  · exact .inr ⟨rfl, by rintro _ ⟨⟩ _ ⟨⟩⟩
  · rcases agrees_program hle (Cursor.ofTokens tokens file) with
      ⟨hreason, position, c, hlack⟩ | ⟨hsame, hplain⟩
    · refine .inl ⟨by omega, position, ?_⟩
      rw [EStateM.run, hlack]
    · rw [EStateM.run, EStateM.run, ← hsame]
      refine .inr ⟨rfl, fun error h => ?_⟩
      cases hrun : Grammar.program limit (Cursor.ofTokens tokens file) with
      | ok body c => simp [hrun] at h
      | error _ c =>
        rw [hrun] at h hplain
        cases h
        exact hplain

theorem not_tooDeep_of_lt (h : 2 * tokenCount tokens + 1 < limit) :
    ¬ TooDeep tokens file limit := by
  rintro ⟨position, hlack⟩
  rcases parse_cases tokens file (Nat.le_refl limit) with ⟨hle, -⟩ | ⟨-, hplain⟩
  · omega
  · exact hplain _ hlack limit rfl

/-- Below some limit, at most two more than twice the tokens, every limit fails for want of a level,
and from there on every limit has the same outcome, which is another one. -/
theorem exists_parse_threshold (tokens : List Token) (file : String) :
    ∃ threshold ≤ 2 * tokenCount tokens + 2, ∃ outcome : Except SyntaxError Program,
      (∀ limit < threshold, ∃ position,
        parse tokens file limit = .error ⟨.nestingTooDeep limit, position⟩) ∧
      (∀ limit ≥ threshold, parse tokens file limit = outcome) ∧
      ∀ error, outcome = .error error → ∀ missed, error.cause ≠ .nestingTooDeep missed := by
  classical
  have hexists : ∃ limit, ¬ TooDeep tokens file limit :=
    ⟨2 * tokenCount tokens + 2, not_tooDeep_of_lt (Nat.lt_succ_self _)⟩
  have hfound : ¬ TooDeep tokens file (Nat.find hexists) := Nat.find_spec hexists
  refine ⟨Nat.find hexists, Nat.find_min' hexists (not_tooDeep_of_lt (Nat.lt_succ_self _)),
    parse tokens file (Nat.find hexists), fun limit hlt => ?_, fun limit hge => ?_, ?_⟩
  · exact not_not.1 (Nat.find_min hexists hlt)
  · exact ((parse_cases tokens file hge).resolve_left fun h => hfound h.2).1.symm
  · exact ((parse_cases tokens file (Nat.le_refl _)).resolve_left fun h => hfound h.2).2

end Offside
