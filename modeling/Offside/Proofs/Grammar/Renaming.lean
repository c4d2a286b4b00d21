import Mathlib.Data.List.Forall2
import Mathlib.Data.List.TakeWhile
import Offside.Proofs.Grammar.Loops
import Offside.Proofs.Node.Renaming

/-! # Renamed runs

Two runs on tokens of the same kinds whose texts are renamed, but for those of numbers and truth
values. The runs take the same turns: values differ by the renaming, and an error is blamed on
tokens that correspond. What else is known of corresponding tokens is a relation that the runs carry
along, so an error is known to fit the token it is blamed on.
-/

namespace Offside

/-- Whether the text of such a token may be any other one. -/
def Kind.isOpaque : Kind → Bool
  | number | boolean => false
  | _ => true

/-- The new text of a token of some kind. -/
def Kind.renameText (g : String → String) (kind : Kind) (text : String) : String :=
  if kind.isOpaque then g text else text

/-- Only the text of an unexpected token is a text of the source. -/
def Cause.rename (g : String → String) : Cause → Cause
  | unexpected text kind expected => unexpected (kind.renameText g text) kind expected
  | cause => cause

/-- That a cause can be blamed on a token: it has the token's kind and text, and a numeral is
no number. Some causes can be blamed on none, and none is that the input should have ended. -/
def Cause.Fits (token : Token) : Cause → Prop
  | unrecognised _ => False
  | unexpected text kind expected =>
    token.value = text ∧ token.kind = kind ∧ expected ≠ "end of input"
  | unexpectedEnd expected => token.kind = .eof ∧ expected ≠ "end of input"
  | malformedLayout _ => True
  | invalidNumber text =>
    token.kind = .number ∧ token.value = text ∧ Binary64.read? text.toList = none
  | nestingTooDeep _ => True

/-- New texts, different ones for different texts, and what is known of two tokens that
correspond. -/
structure Renaming where
  text : String → String
  injective : Function.Injective text
  Related : Token → Token → Prop

variable {r : Renaming}

namespace Renaming

/-- A tree and its renaming. -/
abbrev node (r : Renaming) : Node → Node :=
  Node.rename r.text

abbrev nodes (r : Renaming) : List Node → List Node :=
  List.map r.node

abbrev pair (r : Renaming) : String × Node → String × Node :=
  Node.renamePair r.text

abbrev params (r : Renaming) : List Param → List Param :=
  List.map (Param.rename r.text)

end Renaming

/-- Two tokens that correspond. -/
structure Token.Renamed (r : Renaming) (token token' : Token) : Prop where
  kind : token'.kind = token.kind
  value : token'.value = token.kind.renameText r.text token.value
  related : r.Related token token'

theorem Token.Renamed.value_of_opaque {token token' : Token} (h : token.Renamed r token')
    (htext : token.kind.isOpaque = true) : token'.value = r.text token.value := by
  rw [h.value, Kind.renameText, if_pos htext]

/-- Two errors with the same cause but for the renaming, blamed on tokens that correspond. -/
def SyntaxError.Renamed (r : Renaming) (error error' : SyntaxError) : Prop :=
  error'.cause = error.cause.rename r.text ∧
    ∃ token token', r.Related token token' ∧ error.cause.Fits token ∧
      error.position = token.span.start ∧ error'.position = token'.span.start

namespace Cursor

/-- Two cursors at corresponding places. Of the tokens that end the streams, no text is used. -/
structure Renamed (r : Renaming) (c c' : Cursor) : Prop where
  previous?_eq : c'.previous? = c.previous?
  ahead : List.Forall₂ (Token.Renamed r) c.ahead c'.ahead
  stop : r.Related c.stop c'.stop

namespace Renamed

variable {c c' : Cursor} (h : c.Renamed r c')
include h

theorem kind_eq : c'.kind = c.kind := by
  have hahead := h.ahead
  rw [kind_eq_nextKind, kind_eq_nextKind]
  generalize c.ahead = ahead, c'.ahead = ahead' at hahead
  cases hahead with
  | nil => rfl
  | cons htoken _ => exact htoken.kind

theorem related : r.Related c.current c'.current := by
  have hahead := h.ahead
  have hstop := h.stop
  unfold current
  generalize c.ahead = ahead, c'.ahead = ahead' at hahead
  cases hahead with
  | nil => exact hstop
  | cons htoken _ => exact htoken.related

theorem current (hne : c.kind ≠ .eof) : c.current.Renamed r c'.current := by
  have hahead := h.ahead
  have hnil := mt c.kind_eq_eof_iff.2 hne
  unfold Cursor.current
  generalize c.ahead = ahead, c'.ahead = ahead' at hahead hnil
  cases hahead with
  | nil => exact absurd rfl hnil
  | cons htoken _ => exact htoken

theorem next : c.next.Renamed r c'.next := by
  rcases c with ⟨frame, passed, ahead, stop, beyond, content, kind_stop⟩
  rcases c' with ⟨frame', passed', ahead', stop', beyond', content', kind_stop'⟩
  have hahead : List.Forall₂ (Token.Renamed r) ahead ahead' := h.ahead
  cases hahead with
  | nil => exact h
  | cons htoken htokens => exact ⟨congrArg some htoken.kind, htokens, h.stop⟩

theorem peek_one_eq (hne : c.kind ≠ .eof) : c'.peek 1 = c.peek 1 := by
  rw [peek_one_of_ne hne, peek_one_of_ne (h.kind_eq ▸ hne), h.next.kind_eq]

/-- What is skipped corresponds, and so does what follows. -/
theorem skip {k : Kind} (hk : k ≠ .eof) :
    List.Forall₂ (Token.Renamed r) (c.ahead.takeWhile (·.kind = k))
        (c'.ahead.takeWhile (·.kind = k)) ∧
      (c.skip k).Renamed r (c'.skip k) := by
  induction hlen : c.ahead.length generalizing c c' with
  | zero =>
    have hne : c.kind ≠ k := c.kind_eq_eof_iff.2 (List.length_eq_zero_iff.1 hlen) ▸ hk.symm
    have hne' : c'.kind ≠ k := h.kind_eq ▸ hne
    rw [takeWhile_of_ne hne, takeWhile_of_ne hne', skip_of_ne hne, skip_of_ne hne']
    exact ⟨.nil, h⟩
  | succ length ih =>
    by_cases heq : c.kind = k
    · obtain ⟨hskip, htake⟩ := skip_of_eq heq hk
      obtain ⟨hskip', htake'⟩ := skip_of_eq (h.kind_eq.trans heq) hk
      have hlen' : c.next.ahead.length = length :=
        Nat.succ.inj ((length_ahead_next (heq ▸ hk)).trans hlen)
      rw [hskip, hskip', htake, htake']
      obtain ⟨hskipped, hafter⟩ := ih h.next hlen'
      exact ⟨.cons (h.current (heq ▸ hk)) hskipped, hafter⟩
    · have hne' : c'.kind ≠ k := h.kind_eq ▸ heq
      rw [takeWhile_of_ne heq, takeWhile_of_ne hne', skip_of_ne heq, skip_of_ne hne']
      exact ⟨.nil, h⟩

theorem unexpected {expected : String} (hexpected : expected ≠ "end of input") :
    (c.unexpected expected).Renamed r (c'.unexpected expected) := by
  have hkind : c'.current.kind = c.current.kind := h.kind_eq
  unfold Cursor.unexpected
  dsimp only
  rw [hkind]
  by_cases heof : c.current.kind = .eof
  · rw [if_pos heof, if_pos heof]
    exact ⟨rfl, _, _, h.related, ⟨heof, hexpected⟩, rfl, rfl⟩
  · rw [if_neg heof, if_neg heof]
    refine ⟨?_, _, _, h.related, ⟨rfl, rfl, hexpected⟩, rfl, rfl⟩
    rw [(h.current heof).value]
    rfl

end Renamed

end Cursor

namespace Parse

variable {α β : Type} {p q : Parse α} {f : α → α} {g : β → β} {c : Cursor}

/-- Two runs that succeed with corresponding values at corresponding places, or that fail with
corresponding errors. -/
inductive RunsRenamed (r : Renaming) (f : α → α) :
    EStateM.Result SyntaxError Cursor α → EStateM.Result SyntaxError Cursor α → Prop where
  | ok {v v' : α} {c c' : Cursor} : v' = f v → c.Renamed r c' →
      RunsRenamed r f (.ok v c) (.ok v' c')
  | error {error error' : SyntaxError} {c c' : Cursor} : error.Renamed r error' →
      RunsRenamed r f (.error error c) (.error error' c')

/-- From a cursor and any other one at the corresponding place, two parses run alike. -/
def RenamesAt (r : Renaming) (f : α → α) (p q : Parse α) (c : Cursor) : Prop :=
  ∀ ⦃c'⦄, c.Renamed r c' → RunsRenamed r f (p c) (q c')

namespace RenamesAt

theorem bind {k k' : α → Parse β} (hp : RenamesAt r f p q c)
    (hk : ∀ v c₁, RenamesAt r g (k v) (k' (f v)) c₁) : RenamesAt r g (p >>= k) (q >>= k') c := by
  intro c' hc
  have hruns := hp hc
  generalize hrun : p c = run, hrun' : q c' = run' at hruns
  cases hruns with
  | ok hvalue hcursor =>
    rw [bind_of_ok hrun, bind_of_ok hrun', hvalue]
    exact hk _ _ hcursor
  | error herror =>
    rw [bind_of_error hrun, bind_of_error hrun']
    exact .error herror

theorem pure {v v' : α} (heq : v' = f v) : RenamesAt r f (pure v) (pure v') c :=
  fun _ hc => .ok heq hc

/-- A value made of a corresponding value corresponds if the renaming passes through what makes
it. -/
theorem bindPure {k k' : α → β} (hp : RenamesAt r f p q c) (hk : ∀ v, k' (f v) = g (k v)) :
    RenamesAt r g (p >>= fun v => Pure.pure (k v)) (q >>= fun v => Pure.pure (k' v)) c :=
  hp.bind fun v _ => .pure (hk v)

theorem map (hp : RenamesAt r f p q c) :
    RenamesAt r (Option.map f) (some <$> p) (some <$> q) c := by
  rw [map_eq_pure_bind, map_eq_pure_bind]
  exact hp.bindPure fun _ => rfl

theorem ite {b : Prop} [Decidable b] {p' q' : Parse α} (h : b → RenamesAt r f p q c)
    (h' : ¬ b → RenamesAt r f p' q' c) :
    RenamesAt r f (if b then p else p') (if b then q else q') c := by
  split
  · next hb => exact h hb
  · next hb => exact h' hb

/-- A parse that goes by what it sees, where the same is seen at corresponding places. -/
theorem choose {choice choice' : Cursor → Parse α} (h : RenamesAt r f (choice c) (choice' c) c)
    (hchoice : ∀ {c'}, c.Renamed r c' → choice' c' = choice' c) :
    RenamesAt r f (get >>= choice) (get >>= choice') c := by
  intro c' hc
  have hruns := h hc
  rw [← hchoice hc] at hruns
  exact hruns

theorem byKind {k k' : Kind → Parse α} (h : RenamesAt r f (k c.kind) (k' c.kind) c) :
    RenamesAt r f (kind >>= k) (kind >>= k') c := by
  intro c' hc
  change RunsRenamed r f (k c.kind c) (k' c'.kind c')
  rw [hc.kind_eq]
  exact h hc

end RenamesAt

theorem renames_unexpected {expected : String} (hexpected : expected ≠ "end of input") :
    RenamesAt r f (unexpected expected) (unexpected expected) c :=
  fun _ hc => .error (hc.unexpected hexpected)

theorem renames_layoutError (message : String) :
    RenamesAt r f (layoutError message) (layoutError message) c :=
  fun _ hc => .error ⟨rfl, _, _, hc.related, trivial, rfl, rfl⟩

theorem renames_refuse (limit : Nat) :
    RenamesAt r f (Nested.refuse limit) (Nested.refuse limit) c :=
  fun _ hc => .error ⟨rfl, _, _, hc.related, trivial, rfl, rfl⟩

namespace RenamesAt

theorem advanceBind {k k' : Token → Parse α} (hne : c.kind ≠ .eof)
    (hk : ∀ {token token'} c₁, token.Renamed r token' → token.kind = c.kind →
      RenamesAt r f (k token) (k' token') c₁) :
    RenamesAt r f (advance >>= k) (advance >>= k') c :=
  fun _ hc => hk c.next (hc.current hne) rfl hc.next

theorem advanceThen (h : ∀ c₁, RenamesAt r f p q c₁) :
    RenamesAt r f (do let _ ← advance; p) (do let _ ← advance; q) c :=
  fun _ hc => h c.next hc.next

theorem expectAsBind {expected : Kind} {description : String} {k k' : Token → Parse α}
    (hne : expected ≠ .eof) (hdescription : description ≠ "end of input")
    (hk : ∀ {token token'} c₁, token.Renamed r token' → token.kind = expected →
      RenamesAt r f (k token) (k' token') c₁) :
    RenamesAt r f (expectAs expected description >>= k)
      (expectAs expected description >>= k') c := by
  rw [expectAs_bind_eq, expectAs_bind_eq]
  exact .byKind <| .ite
    (fun heq => .advanceBind (heq ▸ hne) fun c₁ htoken hkind => hk c₁ htoken (hkind.trans heq))
    fun _ => renames_unexpected hdescription

theorem expectBind {expected : Kind} {k k' : Token → Parse α} (hne : expected ≠ .eof)
    (hk : ∀ {token token'} c₁, token.Renamed r token' → token.kind = expected →
      RenamesAt r f (k token) (k' token') c₁) :
    RenamesAt r f (expect expected >>= k) (expect expected >>= k') c :=
  .expectAsBind hne (by cases expected <;> simp [Kind.name]) hk

/-- A token of which only the kind matters. -/
theorem expectThen {expected : Kind} (hne : expected ≠ .eof) (h : ∀ c₁, RenamesAt r f p q c₁) :
    RenamesAt r f (do let _ ← expect expected; p) (do let _ ← expect expected; q) c :=
  .expectBind hne fun c₁ _ _ => h c₁

/-- A name, whose text is all that is used of it. -/
theorem nameBind {description : String} {k k' : Token → Parse α}
    (hdescription : description ≠ "end of input")
    (hk : ∀ {token token'} c₁, token'.value = r.text token.value →
      RenamesAt r f (k token) (k' token') c₁) :
    RenamesAt r f (expectAs .identifier description >>= k)
      (expectAs .identifier description >>= k') c :=
  .expectAsBind (by decide) hdescription fun c₁ htoken hkind =>
    hk c₁ (htoken.value_of_opaque (by rw [hkind]; rfl))

end RenamesAt

theorem renames_text (hne : c.kind ≠ .eof) (htext : c.kind.isOpaque = true) :
    RenamesAt r r.text text text c :=
  .advanceBind hne fun _ htoken hkind => .pure (htoken.value_of_opaque (hkind ▸ htext))

theorem renames_skipTerminators : RenamesAt r id skipTerminators skipTerminators c := by
  intro c' hc
  obtain ⟨hskipped, hafter⟩ := hc.skip (k := .terminator) (by decide)
  refine .ok (congrArg (!·) ?_) hafter
  generalize c.ahead.takeWhile _ = skipped, c'.ahead.takeWhile _ = skipped' at hskipped
  cases hskipped with
  | nil => rfl
  | cons _ _ => rfl

theorem renames_endLine : RenamesAt r id endLine endLine c := by
  intro c' hc
  have hafter := (hc.skip (k := .terminator) (by decide)).2
  rw [endLine_eq, endLine_eq]
  exact .ok (by rw [hafter.previous?_eq]; rfl) hafter

/-- A line end, and then a refusal that goes by whether the line has ended and by the next kind. -/
theorem renames_endLine_unless (refused : Bool → Kind → Bool) {expected : String}
    (hexpected : expected ≠ "end of input") {v v' : α} (heq : v' = f v) :
    RenamesAt r f
      (do
        let ended ← endLine
        if refused ended (← kind) then unexpected expected else return v : Parse α)
      (do
        let ended ← endLine
        if refused ended (← kind) then unexpected expected else return v' : Parse α) c :=
  renames_endLine.bind fun _ _ => .byKind <| .ite (fun _ => renames_unexpected hexpected)
    fun _ => .pure heq

/-- Names that are skipped, of which only the texts are used. -/
theorem RenamesAt.skipNamesBind {k k' : List Token → Parse α}
    (hk : ∀ {tokens tokens'} c₁, tokens'.map (·.value) = (tokens.map (·.value)).map r.text →
      RenamesAt r f (k tokens) (k' tokens') c₁) :
    RenamesAt r f (skip .identifier >>= k) (skip .identifier >>= k') c := by
  intro c' hc
  obtain ⟨hskipped, hafter⟩ := hc.skip (k := .identifier) (by decide)
  refine hk (c.skip .identifier) ?_ hafter
  have hnames (token : Token) (hmem : token ∈ c.ahead.takeWhile (·.kind = .identifier)) :
      token.kind.isOpaque = true := by
    have hkind : token.kind = .identifier := by simpa using List.mem_takeWhile_imp hmem
    rw [hkind]
    rfl
  generalize c.ahead.takeWhile _ = skipped, c'.ahead.takeWhile _ = skipped' at hskipped hnames
  induction hskipped with
  | nil => rfl
  | cons htoken _ ih =>
    obtain ⟨hname, hnames⟩ := List.forall_mem_cons.1 hnames
    simp only [List.map_cons, ih hnames, htoken.value_of_opaque hname]

section Collect

variable {next? next?' : Cursor → Option (Parse α)}

theorem renames_collectUpTo
    (h : ∀ {c c'}, c.Renamed r c' → Option.Rel (RenamesAt r f · · c) (next? c) (next?' c'))
    {budget budget' : List Token} (hbudget : budget.length = budget'.length) :
    RenamesAt r (List.map f) (collectUpTo next? budget) (collectUpTo next?' budget') c := by
  induction budget generalizing c budget' with
  | nil =>
    obtain rfl := List.length_eq_zero_iff.1 hbudget.symm
    intro c' hc
    have hnext := h hc
    rw [collectUpTo_nil, collectUpTo_nil]
    generalize next? c = item, next?' c' = item' at hnext
    cases hnext with
    | none => exact RenamesAt.pure rfl hc
    | some hitem => exact hitem.bindPure (g := List.map f) (fun _ => rfl) hc
  | cons token budget ih =>
    obtain ⟨token', budget', rfl⟩ : ∃ token' rest, budget' = token' :: rest :=
      List.exists_cons_of_length_pos (hbudget ▸ Nat.succ_pos _)
    intro c' hc
    have hnext := h hc
    rw [collectUpTo_cons, collectUpTo_cons]
    generalize next? c = item, next?' c' = item' at hnext
    cases hnext with
    | none => exact RenamesAt.pure rfl hc
    | some hitem =>
      refine hitem.bind (g := List.map f) (fun first c₁ => ?_) hc
      exact (ih (Nat.succ.inj hbudget)).bindPure fun _ => rfl

/-- A loop, where corresponding items are found at corresponding places. -/
theorem renames_collect
    (h : ∀ {c c'}, c.Renamed r c' → Option.Rel (RenamesAt r f · · c) (next? c) (next?' c')) :
    RenamesAt r (List.map f) (collect next?) (collect next?') c :=
  fun _ hc => renames_collectUpTo h hc.ahead.length_eq hc

theorem renames_separated (hp : ∀ c, RenamesAt r f p q c) :
    RenamesAt r (List.map f) (separated p) (separated q) c := by
  refine (hp c).bind fun first _ => .bindPure (renames_collect fun hc => ?_) fun _ => rfl
  rw [hc.kind_eq]
  split
  · exact .some (.advanceThen hp)
  · exact .none

end Collect

end Parse

end Offside
