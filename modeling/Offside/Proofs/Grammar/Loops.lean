import Offside.Proofs.Grammar.Agreement
import Offside.Proofs.Grammar.Exact

/-! # Loops

A loop whose items each take a token never runs out of budget. So it satisfies the equation that one
would expect of it, in which no budget occurs. Every loop of the grammar is of this sort.
-/

namespace Offside.Parse

variable {α β : Type} {c : Cursor}

theorem bind_congr_left {p q : Parse α} {f : α → Parse β} (h : p c = q c) :
    (p >>= f) c = (q >>= f) c := by
  change EStateM.bind p f c = EStateM.bind q f c
  rw [EStateM.bind, EStateM.bind, h]

/-- What follows is run only where the first parse ends. -/
theorem bind_congr_right {p : Parse α} {f g : α → Parse β}
    (h : ∀ v c', p c = .ok v c' → f v c' = g v c') : (p >>= f) c = (p >>= g) c := by
  cases hrun : p c with
  | ok v c' => rw [bind_of_ok hrun, bind_of_ok hrun, h v c' hrun]
  | error error c' => rw [bind_of_error hrun, bind_of_error hrun]

theorem expectAs_bind_eq (expected : Kind) (description : String) (f : Token → Parse α) :
    expectAs expected description >>= f =
      kind >>= fun kind => if kind = expected then advance >>= f else unexpected description := by
  funext c
  change EStateM.bind (if c.kind = expected then advance else throw _ : Parse Token) f c =
    (if c.kind = expected then advance >>= f else unexpected description : Parse α) c
  split <;> rfl

variable {next? : Cursor → Option (Parse α)}

/-- Every item that is found and read takes at least one token. -/
def Progresses (next? : Cursor → Option (Parse α)) : Prop :=
  ∀ ⦃c item v c'⦄, next? c = some item → item c = .ok v c' → c'.ahead.length < c.ahead.length

/-- A budget beyond the tokens ahead makes no difference. -/
theorem collectUpTo_eq_of_le (hnext : Progresses next?) {budget budget' : List Token}
    (hle : c.ahead.length ≤ budget.length) (hle' : c.ahead.length ≤ budget'.length) :
    collectUpTo next? budget c = collectUpTo next? budget' c := by
  induction budget generalizing c budget' with
  | nil =>
    cases hfound : next? c with
    | none => rw [collectUpTo_of_none hfound, collectUpTo_of_none hfound]
    | some item =>
      have hfails : ∀ v c', item c ≠ .ok v c' := fun v c' hrun =>
        absurd (hnext hfound hrun) (by simp only [List.length_nil] at hle; omega)
      cases budget' with
      | nil => rfl
      | cons token budget' =>
        rw [collectUpTo_nil_of_some hfound, collectUpTo_cons_of_some hfound]
        exact bind_congr_right fun v c' hrun => absurd hrun (hfails v c')
  | cons token budget ih =>
    cases hfound : next? c with
    | none => rw [collectUpTo_of_none hfound, collectUpTo_of_none hfound]
    | some item =>
      rw [collectUpTo_cons_of_some hfound]
      cases budget' with
      | nil =>
        rw [collectUpTo_nil_of_some hfound]
        refine bind_congr_right fun v c' hrun => absurd (hnext hfound hrun) ?_
        simp only [List.length_nil] at hle'
        omega
      | cons token' budget' =>
        rw [collectUpTo_cons_of_some hfound]
        refine bind_congr_right fun v c' hrun => bind_congr_left (ih ?_ ?_)
        all_goals
          have := hnext hfound hrun
          simp only [List.length_cons] at hle hle'
          omega

theorem collect_of_none (hfound : next? c = none) : collect next? c = .ok [] c :=
  collectUpTo_of_none hfound c.ahead

/-- A loop runs the item that is found and goes on behind it. -/
theorem collect_of_some (hnext : Progresses next?) {item : Parse α}
    (hfound : next? c = some item) :
    collect next? c =
      (item >>= fun first => collect next? >>= fun rest => pure (first :: rest)) c := by
  have hbudget : collect next? c = collectUpTo next? (c.stop :: c.ahead) c :=
    collectUpTo_eq_of_le hnext (Nat.le_refl _) (Nat.le_succ _)
  rw [hbudget, collectUpTo_cons_of_some hfound]
  refine bind_congr_right fun v c' hrun => bind_congr_left ?_
  exact collectUpTo_eq_of_le hnext (Nat.le_of_lt (hnext hfound hrun)) (Nat.le_refl _)

/-- A loop passes a token for each of its values. -/
theorem length_add_length_le_of_collect (hnext : Progresses next?) {values : List α} {c' : Cursor}
    (hrun : collect next? c = .ok values c') :
    c'.ahead.length + values.length ≤ c.ahead.length := by
  induction values generalizing c with
  | nil =>
    cases hfound : next? c with
    | none =>
      rw [collect_of_none hfound] at hrun
      cases hrun
      exact Nat.le_refl _
    | some item =>
      rw [collect_of_some hnext hfound] at hrun
      obtain ⟨first, c₁, -, hrun₁⟩ := bind_eq_ok.1 hrun
      obtain ⟨rest, c₂, -, hpure⟩ := bind_eq_ok.1 hrun₁
      cases hpure
  | cons value values ih =>
    cases hfound : next? c with
    | none =>
      rw [collect_of_none hfound] at hrun
      cases hrun
    | some item =>
      rw [collect_of_some hnext hfound] at hrun
      obtain ⟨first, c₁, hitem, hrun₁⟩ := bind_eq_ok.1 hrun
      obtain ⟨rest, c₂, hrest, hpure⟩ := bind_eq_ok.1 hrun₁
      cases hpure
      have hlt := hnext hfound hitem
      have hle := ih hrest
      rw [List.length_cons]
      omega

/-- What is read behind a token that is passed may be nothing. -/
theorem lt_of_advanceBind {f : Token → Parse α} {v : α} {c' : Cursor} (hne : c.kind ≠ .eof)
    (hf : ∀ token v c₁ c', f token c₁ = .ok v c' → c'.ahead.length ≤ c₁.ahead.length)
    (hrun : (advance >>= f) c = .ok v c') : c'.ahead.length < c.ahead.length := by
  rw [← Cursor.length_ahead_next hne]
  exact Nat.lt_succ_of_le (hf c.current v c.next c' hrun)

end Offside.Parse
