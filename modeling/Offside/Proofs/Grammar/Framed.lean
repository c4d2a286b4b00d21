import Mathlib.Data.Option.Basic
import Offside.Grammar.Levels
import Offside.Proofs.Grammar.Agreement

/-! # Parses in a frame

Two parses of which the one runs in a frame as the other does anywhere. The frame is left as it was
found, whether the run succeeds or fails. This is kept by every way of putting parses together.
-/

namespace Offside.Parse

variable {α β : Type} {frame : Frame} {p q : Parse α} {f g : α → Parse β} {c : Cursor}

/-- A result with its cursor in another frame. -/
def inFrame (frame : Frame) :
    EStateM.Result SyntaxError Cursor α → EStateM.Result SyntaxError Cursor α
  | .ok v c => .ok v (c.inFrame frame)
  | .error error c => .error error (c.inFrame frame)

/-- In the frame, the first parse runs at a cursor as the second one does, and it ends in the
frame. -/
def Tracks (frame : Frame) (p q : Parse α) (c : Cursor) : Prop :=
  p (c.inFrame frame) = inFrame frame (q c)

namespace Tracks

theorem bind (hp : Tracks frame p q c) (hf : ∀ v c', Tracks frame (f v) (g v) c') :
    Tracks frame (p >>= f) (q >>= g) c := by
  rw [Tracks] at hp ⊢
  cases hrun : q c with
  | ok v c' =>
    rw [hrun] at hp
    rw [bind_of_ok hp, bind_of_ok hrun]
    exact hf v c'
  | error error c' =>
    rw [hrun] at hp
    rw [bind_of_error hp, bind_of_error hrun]
    rfl

theorem pure (v : α) : Tracks frame (pure v) (pure v) c :=
  rfl

theorem bindPure (hp : Tracks frame p q c) (f : α → β) :
    Tracks frame (p >>= fun v => Pure.pure (f v)) (q >>= fun v => Pure.pure (f v)) c :=
  hp.bind fun v _ => .pure (f v)

theorem map (hp : Tracks frame p q c) (f : α → β) : Tracks frame (f <$> p) (f <$> q) c := by
  rw [map_eq_pure_bind, map_eq_pure_bind]
  exact hp.bindPure f

theorem ite {b : Prop} [Decidable b] {p' q' : Parse α} (h : b → Tracks frame p q c)
    (h' : ¬ b → Tracks frame p' q' c) :
    Tracks frame (if b then p else p') (if b then q else q') c := by
  split
  · next hb => exact h hb
  · next hb => exact h' hb

/-- A parse that goes by the kind of the current token. -/
theorem byKind {f g : Kind → Parse α} (h : Tracks frame (f c.kind) (g c.kind) c) :
    Tracks frame (kind >>= f) (kind >>= g) c :=
  h

end Tracks

theorem tracks_unexpected (expected : String) :
    Tracks frame (unexpected expected : Parse α) (unexpected expected) c :=
  rfl

theorem tracks_layoutError (message : String) :
    Tracks frame (layoutError message : Parse α) (layoutError message) c :=
  rfl

theorem tracks_refuse (limit : Nat) :
    Tracks frame (Nested.refuse limit : Parse α) (Nested.refuse limit) c :=
  rfl

theorem tracks_advance : Tracks frame advance advance c :=
  congrArg (EStateM.Result.ok c.current) (c.next_inFrame frame)

theorem tracks_text : Tracks frame text text c :=
  tracks_advance.bindPure _

theorem tracks_expectOr (expected : Kind) {refusal : Cursor → SyntaxError}
    (h : refusal (c.inFrame frame) = refusal c) :
    Tracks frame (expectOr expected refusal) (expectOr expected refusal) c := by
  change Tracks frame (if c.kind = expected then advance else throw (refusal (c.inFrame frame)))
    (if c.kind = expected then advance else throw (refusal c)) c
  rw [h]
  exact .ite (fun _ => tracks_advance) fun _ => rfl

theorem tracks_expectAs (expected : Kind) (description : String) :
    Tracks frame (expectAs expected description) (expectAs expected description) c :=
  tracks_expectOr expected rfl

theorem tracks_expect {expected : Kind} : Tracks frame (expect expected) (expect expected) c :=
  tracks_expectAs expected expected.name

theorem tracks_skip (kind : Kind) : Tracks frame (skip kind) (skip kind) c :=
  rfl

theorem tracks_skipTerminators : Tracks frame skipTerminators skipTerminators c :=
  rfl

theorem tracks_endLine : Tracks frame endLine endLine c := by
  rw [Tracks, endLine_eq, endLine_eq]
  rfl

/-- A line end, and then a refusal that goes by whether the line has ended and by the next kind. -/
theorem tracks_endLine_unless (refused : Bool → Kind → Bool) (expected : String) (v : α) :
    Tracks frame
      (do
        let ended ← endLine
        if refused ended (← kind) then unexpected expected else return v : Parse α)
      (do
        let ended ← endLine
        if refused ended (← kind) then unexpected expected else return v : Parse α) c :=
  tracks_endLine.bind fun _ _ => .byKind <| .ite (fun _ => tracks_unexpected expected)
    fun _ => .pure v

section Collect

variable {next? next?' : Cursor → Option (Parse α)}

theorem tracks_collectUpTo
    (h : ∀ c, Option.Rel (Tracks frame · · c) (next? (c.inFrame frame)) (next?' c))
    (budget : List Token) :
    Tracks frame (collectUpTo next? budget) (collectUpTo next?' budget) c := by
  induction budget generalizing c with
  | nil =>
    have hnext := h c
    rw [Tracks, collectUpTo_nil, collectUpTo_nil]
    generalize next? (c.inFrame frame) = item, next?' c = item' at hnext
    cases hnext with
    | none => exact Tracks.pure []
    | some hitem => exact hitem.bindPure _
  | cons token budget ih =>
    have hnext := h c
    rw [Tracks, collectUpTo_cons, collectUpTo_cons]
    generalize next? (c.inFrame frame) = item, next?' c = item' at hnext
    cases hnext with
    | none => exact Tracks.pure []
    | some hitem => exact hitem.bind fun first _ => ih.bindPure _

/-- Items that are found at one place are found there in any frame. -/
theorem tracks_collect
    (h : ∀ c, Option.Rel (Tracks frame · · c) (next? (c.inFrame frame)) (next?' c)) :
    Tracks frame (collect next?) (collect next?') c :=
  tracks_collectUpTo h c.ahead

theorem tracks_separated (h : ∀ c, Tracks frame p q c) :
    Tracks frame (separated p) (separated q) c := by
  refine (h c).bind fun first _ => .bindPure (tracks_collect fun c' => ?_) _
  change Option.Rel _ (if c'.kind = .comma then _ else _) _
  split
  · exact .some (tracks_advance.bind fun _ c₁ => h c₁)
  · exact .none

end Collect

end Offside.Parse
