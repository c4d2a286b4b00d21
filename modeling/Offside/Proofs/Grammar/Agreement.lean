import Mathlib.Data.Option.Basic
import Offside.Proofs.Grammar.Accepts

/-! # Agreement of parses

Two parses that differ in the levels they may open agree wherever the first one has levels enough.
Where it has not, it fails for want of a level, and only for a given reason. Agreement is kept by
every way of putting parses together.
-/

namespace Offside.Parse

variable {α β : Type} {limit : Nat} {reason : Prop} {c : Cursor}

/-- A run that puts no token back, and that does not fail for want of a level. -/
def Plain (c : Cursor) : EStateM.Result SyntaxError Cursor α → Prop
  | .ok _ c' => c'.ahead.length ≤ c.ahead.length
  | .error error _ => ∀ limit, error.cause ≠ .nestingTooDeep limit

/-- At a cursor the first parse fails for want of a level, for which there is a reason, or it does
not and both run alike. -/
def Agrees (limit : Nat) (reason : Prop) (p q : Parse α) (c : Cursor) : Prop :=
  (reason ∧ ∃ position c', p c = .error ⟨.nestingTooDeep limit, position⟩ c') ∨
    p c = q c ∧ Plain c (p c)

theorem bind_of_ok {p : Parse α} {f : α → Parse β} {v : α} {c' : Cursor} (h : p c = .ok v c') :
    (p >>= f) c = f v c' := by
  change EStateM.bind p f c = _
  rw [EStateM.bind, h]

theorem bind_of_error {p : Parse α} {f : α → Parse β} {error : SyntaxError} {c' : Cursor}
    (h : p c = .error error c') : (p >>= f) c = .error error c' := by
  change EStateM.bind p f c = _
  rw [EStateM.bind, h]

namespace Agrees

variable {p q : Parse α} {f g : α → Parse β}

theorem of_plain (h : Plain c (p c)) : Agrees limit reason p p c :=
  .inr ⟨rfl, h⟩

theorem mono {reason' : Prop} (h : Agrees limit reason p q c) (himp : reason → reason') :
    Agrees limit reason' p q c :=
  h.imp (fun ⟨hreason, hlack⟩ => ⟨himp hreason, hlack⟩) id

/-- What follows may rely on the run of the first parse. -/
theorem bind (hp : Agrees limit reason p q c)
    (hf : ∀ v c', p c = .ok v c' → c'.ahead.length ≤ c.ahead.length →
      Agrees limit reason (f v) (g v) c') :
    Agrees limit reason (p >>= f) (q >>= g) c := by
  rcases hp with ⟨hreason, position, c', hlack⟩ | ⟨heq, hplain⟩
  · exact .inl ⟨hreason, position, c', bind_of_error hlack⟩
  · cases hrun : p c with
    | error error c' =>
      rw [hrun] at heq hplain
      refine .inr ⟨?_, ?_⟩
      · rw [bind_of_error hrun, bind_of_error heq.symm]
      · rw [bind_of_error hrun]
        exact hplain
    | ok v c' =>
      rw [hrun] at heq hplain
      rcases hf v c' hrun hplain with ⟨hreason, position, c'', hlack⟩ | ⟨hsame, hrest⟩
      · exact .inl ⟨hreason, position, c'', (bind_of_ok hrun).trans hlack⟩
      · refine .inr ⟨?_, ?_⟩
        · rw [bind_of_ok hrun, bind_of_ok heq.symm, hsame]
        · rw [bind_of_ok hrun]
          cases hlast : f v c' with
          | ok w c'' =>
            rw [hlast] at hrest
            exact Nat.le_trans hrest hplain
          | error error c'' =>
            rw [hlast] at hrest
            exact hrest

theorem pure (v : α) : Agrees limit reason (pure v) (pure v) c :=
  .of_plain (Nat.le_refl _)

/-- What comes before decides nothing about levels. -/
theorem bindPure (hp : Agrees limit reason p q c) (f : α → β) :
    Agrees limit reason (p >>= fun v => Pure.pure (f v)) (q >>= fun v => Pure.pure (f v)) c :=
  hp.bind fun v _ _ _ => .pure (f v)

theorem map (hp : Agrees limit reason p q c) (f : α → β) :
    Agrees limit reason (f <$> p) (f <$> q) c := by
  rw [map_eq_pure_bind, map_eq_pure_bind]
  exact hp.bindPure f

theorem ite {b : Prop} [Decidable b] {p' q' : Parse α} (h : b → Agrees limit reason p q c)
    (h' : ¬ b → Agrees limit reason p' q' c) :
    Agrees limit reason (if b then p else p') (if b then q else q') c := by
  split
  · next hb => exact h hb
  · next hb => exact h' hb

/-- A parse that goes by the kind of the current token. -/
theorem byKind {f g : Kind → Parse α} (h : Agrees limit reason (f c.kind) (g c.kind) c) :
    Agrees limit reason (kind >>= f) (kind >>= g) c :=
  h

end Agrees

theorem agrees_advance : Agrees limit reason advance advance c :=
  .of_plain c.reaches_next.length_le

theorem agrees_text : Agrees limit reason text text c :=
  agrees_advance.bindPure _

theorem agrees_unexpected (expected : String) :
    Agrees limit reason (unexpected expected : Parse α) (unexpected expected) c := by
  refine .of_plain fun limit => ?_
  unfold Cursor.unexpected
  dsimp only
  split <;> exact nofun

theorem agrees_layoutError (message : String) :
    Agrees limit reason (layoutError message : Parse α) (layoutError message) c :=
  .of_plain fun _ => nofun

theorem agrees_expectAs (expected : Kind) (description : String) :
    Agrees limit reason (expectAs expected description) (expectAs expected description) c :=
  .ite (fun _ => agrees_advance) fun _ => agrees_unexpected description

theorem agrees_expect {expected : Kind} :
    Agrees limit reason (expect expected) (expect expected) c :=
  agrees_expectAs expected expected.name

/-- Behind an expected token fewer tokens are ahead. -/
theorem Agrees.expectBind {expected : Kind} (hne : expected ≠ .eof) {f g : Token → Parse α}
    (hf : ∀ token c', c'.ahead.length < c.ahead.length →
      Agrees limit reason (f token) (g token) c') :
    Agrees limit reason (expect expected >>= f) (expect expected >>= g) c := by
  refine agrees_expect.bind fun token c' hrun _ => hf token c' ?_
  obtain ⟨hcons, -⟩ := (accepts_expect (P := fun _ => True) hne).sound trivial hrun
  rw [hcons]
  exact Nat.lt_succ_self _

theorem agrees_skip (kind : Kind) : Agrees limit reason (skip kind) (skip kind) c :=
  .of_plain (c.reaches_skip kind).length_le

theorem agrees_skipTerminators :
    Agrees limit reason skipTerminators skipTerminators c :=
  (agrees_skip _).bindPure _

theorem agrees_endLine : Agrees limit reason endLine endLine c := by
  refine .of_plain ?_
  rw [endLine_eq]
  exact (c.reaches_skip .terminator).length_le

/-- A line end, and then a refusal that goes by whether the line has ended and by the next kind. -/
theorem agrees_endLine_unless (refused : Bool → Kind → Bool) (expected : String) (v : α) :
    Agrees limit reason
      (do
        let ended ← endLine
        if refused ended (← kind) then unexpected expected else return v : Parse α)
      (do
        let ended ← endLine
        if refused ended (← kind) then unexpected expected else return v : Parse α) c :=
  agrees_endLine.bind fun _ _ _ _ => .byKind <| .ite (fun _ => agrees_unexpected expected)
    fun _ => .pure v

section Collect

variable {next? next?' : Cursor → Option (Parse α)}

theorem agrees_collectUpTo (budget : List Token)
    (h : ∀ c', c'.ahead.length ≤ c.ahead.length →
      Option.Rel (Agrees limit reason · · c') (next? c') (next?' c')) :
    Agrees limit reason (collectUpTo next? budget) (collectUpTo next?' budget) c := by
  induction budget generalizing c with
  | nil =>
    have hnext := h c (Nat.le_refl _)
    rw [Agrees, collectUpTo_nil, collectUpTo_nil]
    generalize next? c = item, next?' c = item' at hnext
    cases hnext with
    | none => exact Agrees.pure []
    | some hitem => exact hitem.bindPure _
  | cons token budget ih =>
    have hnext := h c (Nat.le_refl _)
    rw [Agrees, collectUpTo_cons, collectUpTo_cons]
    generalize next? c = item, next?' c = item' at hnext
    cases hnext with
    | none => exact Agrees.pure []
    | some hitem =>
      refine hitem.bind fun first c' _ hle => ?_
      exact (ih fun c'' hle' => h c'' (Nat.le_trans hle' hle)).bindPure _

/-- Items agree wherever they may stand. -/
theorem agrees_collect
    (h : ∀ c', c'.ahead.length ≤ c.ahead.length →
      Option.Rel (Agrees limit reason · · c') (next? c') (next?' c')) :
    Agrees limit reason (collect next?) (collect next?') c :=
  agrees_collectUpTo c.ahead h

theorem agrees_separated {p q : Parse α}
    (h : ∀ c', c'.ahead.length ≤ c.ahead.length → Agrees limit reason p q c') :
    Agrees limit reason (separated p) (separated q) c := by
  refine (h c (Nat.le_refl _)).bind fun first c' _ hle => ?_
  refine .bindPure (agrees_collect fun c'' hle' => ?_) _
  split
  · refine .some (agrees_advance.bind fun _ c₃ _ hle₃ => h c₃ ?_)
    omega
  · exact .none

end Collect

end Offside.Parse
