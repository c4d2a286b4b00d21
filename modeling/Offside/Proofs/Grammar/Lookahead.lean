import Mathlib.Data.List.Forall2
import Offside.Proofs.Grammar.Loops

/-! # Lookahead

How far a parse sees. Two cursors that look alike for a number of tokens, and behind the same kind
of token, cannot be told apart by a run that ends one token earlier. Only behind an opening
parenthesis is one token more seen, and of that token only whether it closes the pair, is a name or
neither. Tokens look alike if they differ in their places only, and the places that an error may
name are related as one chooses: by equality the error is the same one, and by no condition at all
only places are lost. Such a run passes tokens, whether it succeeds or fails, and a loop of runs
ends if each of them passes one.
-/

namespace Offside

variable {Q : Position → Position → Prop}

/-- What is told apart behind an opening parenthesis. -/
inductive Opened where
  | pair
  | name
  | other
deriving DecidableEq

def Kind.opened : Kind → Opened
  | closeParen => .pair
  | identifier => .name
  | _ => .other

theorem Kind.opened_eq_pair_iff {kind : Kind} : kind.opened = .pair ↔ kind = .closeParen := by
  cases kind <;> simp [opened]

theorem Kind.opened_eq_name_iff {kind : Kind} : kind.opened = .name ↔ kind = .identifier := by
  cases kind <;> simp [opened]

/-- One kind and one text, at related places. -/
structure Token.Like (Q : Position → Position → Prop) (token token' : Token) : Prop where
  kind : token'.kind = token.kind
  value : token'.value = token.value
  start : Q token.span.start token'.span.start

/-- One cause, at related places. -/
structure SyntaxError.Like (Q : Position → Position → Prop) (error error' : SyntaxError) :
    Prop where
  cause : error'.cause = error.cause
  position : Q error.position error'.position

namespace Cursor

/-- The tokens that may become the current one. -/
def visible (cursor : Cursor) : List Token :=
  cursor.ahead ++ [cursor.stop]

theorem visible_eq_cons (cursor : Cursor) :
    cursor.visible = cursor.current :: cursor.visible.tail := by
  rcases cursor with ⟨frame, passed, _ | ⟨token, rest⟩, stop, beyond, content, kind_stop⟩ <;> rfl

theorem kind_eq_nextKind_visible (cursor : Cursor) : cursor.kind = nextKind cursor.visible := by
  rw [visible_eq_cons]
  rfl

theorem visible_of_ne {cursor : Cursor} (h : cursor.kind ≠ .eof) :
    cursor.visible = cursor.current :: cursor.next.visible := by
  obtain ⟨token, rest, hahead⟩ := List.exists_cons_of_ne_nil (mt cursor.kind_eq_eof_iff.2 h)
  rcases cursor with ⟨frame, passed, ahead, stop, beyond, content, kind_stop⟩
  obtain rfl : ahead = token :: rest := hahead
  rfl

/-- As many tokens are passed, the last one is of the same kind, and so many tokens look alike. -/
structure Alike (Q : Position → Position → Prop) (n : Nat) (c c' : Cursor) : Prop where
  length_passed : c'.passed.length = c.passed.length
  previous?_eq : c'.previous? = c.previous?
  visible : List.Forall₂ (Token.Like Q) (c.visible.take n) (c'.visible.take n)

namespace Alike

variable {m n : Nat} {c c' : Cursor}

theorem mono (h : c.Alike Q n c') (hle : m ≤ n) : c.Alike Q m c' where
  length_passed := h.length_passed
  previous?_eq := h.previous?_eq
  visible := by
    have := List.forall₂_take m h.visible
    rwa [List.take_take, List.take_take, Nat.min_eq_left hle] at this

theorem current (h : c.Alike Q (n + 1) c') : c.current.Like Q c'.current := by
  have := h.visible
  rw [visible_eq_cons, c'.visible_eq_cons, List.take_succ_cons, List.take_succ_cons] at this
  exact (List.forall₂_cons.1 this).1

theorem kind_eq (h : c.Alike Q (n + 1) c') : c'.kind = c.kind :=
  h.current.kind

/-- The place is that of the current token. -/
theorem position (h : c.Alike Q (n + 1) c') : Q c.position c'.position :=
  h.current.start

theorem next_of_ne (h : c.Alike Q (n + 1) c') (hne : c.kind ≠ .eof) :
    c.next.Alike Q n c'.next := by
  obtain ⟨token, rest, hahead⟩ := List.exists_cons_of_ne_nil (mt c.kind_eq_eof_iff.2 hne)
  obtain ⟨token', rest', hahead'⟩ :=
    List.exists_cons_of_ne_nil (mt c'.kind_eq_eof_iff.2 (h.kind_eq ▸ hne))
  rcases c with ⟨frame, passed, ahead, stop, beyond, content, kind_stop⟩
  rcases c' with ⟨frame', passed', ahead', stop', beyond', content', kind_stop'⟩
  obtain rfl : ahead = token :: rest := hahead
  obtain rfl : ahead' = token' :: rest' := hahead'
  exact ⟨congrArg Nat.succ h.length_passed, congrArg some h.current.kind,
    (List.forall₂_cons.1 h.visible).2⟩

theorem next_of_eq (h : c.Alike Q (n + 1) c') (heof : c.kind = .eof) :
    c.next = c ∧ c'.next = c' := by
  have hahead := c.kind_eq_eof_iff.1 heof
  have hahead' := c'.kind_eq_eof_iff.1 (h.kind_eq ▸ heof)
  constructor
  · unfold Cursor.next
    split
    · rfl
    · simp_all
  · unfold Cursor.next
    split
    · rfl
    · simp_all

/-- The kind one token further on is asked for only where there is a token to pass. -/
theorem peek_one_eq (h : c.Alike Q (n + 2) c') (hne : c.kind ≠ .eof) : c'.peek 1 = c.peek 1 := by
  rw [peek_one_of_ne hne, peek_one_of_ne (h.kind_eq ▸ hne)]
  exact (h.next_of_ne hne).kind_eq

/-- The token at the end of the view is of the same kind. -/
theorem nextKind_drop (h : c.Alike Q (n + 1) c') :
    nextKind (c'.visible.drop n) = nextKind (c.visible.drop n) := by
  have hlast := List.forall₂_drop n h.visible
  rw [List.drop_take, List.drop_take, Nat.add_sub_cancel_left] at hlast
  cases hdrop : c.visible.drop n with
  | nil =>
    rw [hdrop, List.take_nil, List.forall₂_nil_left_iff, List.take_eq_nil_iff] at hlast
    rw [hlast.resolve_left Nat.one_ne_zero]
  | cons token rest =>
    cases hdrop' : c'.visible.drop n with
    | nil =>
      rw [hdrop, hdrop'] at hlast
      cases hlast
    | cons token' rest' =>
      rw [hdrop, hdrop'] at hlast
      exact (List.forall₂_cons.1 hlast).1.kind

end Alike

/-- They look alike, and if an opening parenthesis is the last token in view, then what follows it
is of the same sort. -/
structure Resembles (Q : Position → Position → Prop) (n : Nat) (c c' : Cursor) : Prop
    extends Alike Q n c c' where
  opened : (c.visible.take n).getLast?.map (·.kind) = some .openParen →
    (nextKind (c'.visible.drop n)).opened = (nextKind (c.visible.drop n)).opened

theorem Alike.resembles {n : Nat} {c c' : Cursor} (h : c.Alike Q (n + 1) c') :
    c.Resembles Q n c' :=
  ⟨h.mono (Nat.le_succ n), fun _ => congrArg Kind.opened h.nextKind_drop⟩

namespace Resembles

variable {m n : Nat} {c c' : Cursor}

theorem mono (h : c.Resembles Q n c') (hle : m ≤ n) : c.Resembles Q m c' := by
  rcases Nat.eq_or_lt_of_le hle with rfl | hlt
  · exact h
  · exact (h.toAlike.mono hlt).resembles

theorem next_of_ne (h : c.Resembles Q (n + 1) c') (hne : c.kind ≠ .eof) :
    c.next.Resembles Q n c'.next := by
  refine ⟨h.toAlike.next_of_ne hne, fun hlast => ?_⟩
  have hne' : c'.kind ≠ .eof := h.kind_eq ▸ hne
  have hopened := h.opened
  rw [visible_of_ne hne, visible_of_ne hne', List.take_succ_cons, List.getLast?_cons] at hopened
  refine hopened ?_
  obtain ⟨token, htoken, hkind⟩ := Option.map_eq_some_iff.1 hlast
  rw [htoken, Option.getD_some, Option.map_some, hkind]

/-- Passing a token makes the view one token shorter, unless there is none to pass. -/
theorem next (hn : 1 ≤ n) (h : c.Resembles Q (c.ahead.length - c.next.ahead.length + n) c') :
    c.next.Resembles Q n c'.next := by
  by_cases heof : c.kind = .eof
  · obtain ⟨hc, hc'⟩ := (h.mono (by omega : 1 ≤ _)).next_of_eq heof
    rw [hc, hc']
    exact h.mono (Nat.le_add_left _ _)
  · have hlt := length_ahead_next heof
    exact (h.mono (by omega)).next_of_ne heof

/-- What follows an opening parenthesis is asked for only where that is the current token. -/
theorem opened_peek_one (h : c.Resembles Q 1 c') (hopening : c.kind = .openParen) :
    (c'.peek 1).opened = (c.peek 1).opened := by
  have hne : c.kind ≠ .eof := by simp [hopening]
  have hne' : c'.kind ≠ .eof := h.kind_eq ▸ hne
  have hopened := h.opened
  rw [visible_of_ne hne, visible_of_ne hne'] at hopened
  rw [peek_one_of_ne hne, peek_one_of_ne hne', kind_eq_nextKind_visible,
    c.next.kind_eq_nextKind_visible]
  exact hopened (congrArg some hopening)

end Resembles

end Cursor

namespace Parse

variable {α β : Type} {p : Parse α} {f : α → Parse β} {c : Cursor}

/-- Where a run ends. -/
def ending : EStateM.Result SyntaxError Cursor α → Cursor
  | .ok _ c => c
  | .error _ c => c

/-- Two runs with the same value, or errors that are alike, at cursors that resemble each other. -/
def RunsAlike (Q : Position → Position → Prop) (n : Nat) :
    EStateM.Result SyntaxError Cursor α → EStateM.Result SyntaxError Cursor α → Prop
  | .ok v c, .ok v' c' => v' = v ∧ c.Resembles Q n c'
  | .error error c, .error error' c' => error.Like Q error' ∧ c.Resembles Q n c'
  | _, _ => False

/-- A run at a cursor passes tokens, and it depends on these and the next one, and on what follows
that one if it is an opening parenthesis. -/
structure LocalAt (Q : Position → Position → Prop) (p : Parse α) (c : Cursor) : Prop where
  reaches : c.Reaches (ending (p c))
  resembling : ∀ {c' n}, 1 ≤ n →
    c.Resembles Q (c.ahead.length - (ending (p c)).ahead.length + n) c' →
      RunsAlike Q n (p c) (p c')

/-- A local run that passes at least one token if it succeeds. -/
structure TakesAt (Q : Position → Position → Prop) (p : Parse α) (c : Cursor) : Prop
    extends LocalAt Q p c where
  length_lt : ∀ {v c'}, p c = .ok v c' → c'.ahead.length < c.ahead.length

theorem length_ending_bind_le
    (hf : ∀ v c', p c = .ok v c' → c'.Reaches (ending (f v c'))) :
    (ending ((p >>= f) c)).ahead.length ≤ (ending (p c)).ahead.length := by
  cases hrun : p c with
  | ok v c' =>
    rw [bind_of_ok hrun]
    exact (hf v c' hrun).length_le
  | error error c' =>
    rw [bind_of_error hrun]
    exact Nat.le_refl _

/-- A token is passed whether or not what follows it succeeds. -/
theorem length_ending_lt_of_advance (hne : c.kind ≠ .eof) (hp : LocalAt Q p c.next) :
    (ending ((do let _ ← advance; p) c)).ahead.length < c.ahead.length := by
  rw [← Cursor.length_ahead_next hne]
  exact Nat.lt_succ_of_le hp.reaches.length_le

theorem LocalAt.length_le {v : α} {c' : Cursor} (hp : LocalAt Q p c) (hrun : p c = .ok v c') :
    c'.ahead.length ≤ c.ahead.length := by
  have hle := hp.reaches.length_le
  rwa [hrun] at hle

/-- In any case it depends on two more tokens. -/
theorem LocalAt.alike {c' : Cursor} {n : Nat} (hp : LocalAt Q p c) (hn : 2 ≤ n)
    (h : c.Alike Q (c.ahead.length - (ending (p c)).ahead.length + n) c') :
    RunsAlike Q (n - 1) (p c) (p c') :=
  hp.resembling (by omega) (h.mono (by omega)).resembles

namespace LocalAt

theorem bind (hp : LocalAt Q p c) (hf : ∀ v c', p c = .ok v c' → LocalAt Q (f v) c') :
    LocalAt Q (p >>= f) c := by
  have hreaches := hp.reaches
  have hfirst := @hp.resembling
  cases hrun : p c with
  | error error c₁ =>
    rw [hrun] at hreaches hfirst
    refine ⟨by rwa [bind_of_error hrun], fun {c' n} hn h => ?_⟩
    rw [bind_of_error hrun] at h ⊢
    have hsame := hfirst hn h
    cases hrun' : p c' with
    | ok v' c₁' => rw [hrun'] at hsame; exact hsame.elim
    | error error' c₁' =>
      rw [hrun'] at hsame
      rwa [bind_of_error hrun']
  | ok v c₁ =>
    rw [hrun] at hreaches hfirst
    have hlast := hf v c₁ hrun
    refine ⟨by rw [bind_of_ok hrun]; exact hreaches.trans hlast.reaches, fun {c' n} hn h => ?_⟩
    rw [bind_of_ok hrun] at h ⊢
    have hle : c₁.ahead.length ≤ c.ahead.length := hreaches.length_le
    have hle' := hlast.reaches.length_le
    have hsame := hfirst (Nat.le_add_left_of_le hn) (h.mono (Nat.le_of_eq (by
      change c.ahead.length - c₁.ahead.length +
        (c₁.ahead.length - (ending (f v c₁)).ahead.length + n) = _
      omega)))
    cases hrun' : p c' with
    | error error' c₁' => rw [hrun'] at hsame; exact hsame.elim
    | ok v' c₁' =>
      rw [hrun'] at hsame
      obtain ⟨rfl, hcursor⟩ := hsame
      rw [bind_of_ok hrun']
      exact hlast.resembling hn hcursor

theorem pure (v : α) : LocalAt Q (pure v) c where
  reaches := .refl c
  resembling _ h := ⟨rfl, h.mono (Nat.le_add_left _ _)⟩

theorem bindPure (hp : LocalAt Q p c) (f : α → β) :
    LocalAt Q (p >>= fun v => Pure.pure (f v)) c :=
  hp.bind fun v _ _ => .pure (f v)

/-- A refusal of the current token, in words that go by its kind and text. -/
theorem throw {refusal : Cursor → SyntaxError}
    (h : ∀ {c' n}, c.Alike Q (n + 1) c' → (refusal c).Like Q (refusal c')) :
    LocalAt Q (do throw (refusal (← get)) : Parse α) c where
  reaches := .refl c
  resembling {c' n} hn hc := by
    have := hc.mono (Nat.le_add_left n _)
    exact ⟨h (this.mono (by omega : 1 ≤ n)).toAlike, this⟩

/-- The other parse is run by cursors that resemble each other as far as it goes at one of them. -/
theorem of_eq_within {q : Parse α} (h : LocalAt Q q c) (heq : p c = q c)
    (heq' : ∀ {c'}, c.Resembles Q (c.ahead.length - (ending (q c)).ahead.length + 1) c' →
      p c' = q c') : LocalAt Q p c where
  reaches := heq ▸ h.reaches
  resembling {c' n} hn hc := by
    rw [heq] at hc ⊢
    rw [heq' (hc.mono (by omega))]
    exact h.resembling hn hc

theorem of_eq {q : Parse α} (h : LocalAt Q q c) (heq : p c = q c)
    (heq' : ∀ {c'}, c.Resembles Q 1 c' → p c' = q c') : LocalAt Q p c :=
  h.of_eq_within heq fun hc => heq' (hc.mono (Nat.le_add_left _ _))

/-- A parse that chooses by what it sees of the current token and behind it. -/
theorem choose {choice : Cursor → Parse α} (h : LocalAt Q (choice c) c)
    (hchoice : ∀ {c'}, c.Resembles Q 1 c' → choice c' = choice c) : LocalAt Q (get >>= choice) c :=
  h.of_eq rfl fun hc => congrFun (hchoice hc) _

/-- A parse that goes by the kind of the current token. -/
theorem byKind {f : Kind → Parse α} (h : LocalAt Q (f c.kind) c) : LocalAt Q (kind >>= f) c :=
  h.of_eq rfl fun hc => congrArg (f · _) hc.kind_eq

theorem ite {b : Prop} [Decidable b] {q : Parse α} (h : b → LocalAt Q p c)
    (h' : ¬ b → LocalAt Q q c) : LocalAt Q (if b then p else q) c := by
  split
  · next hb => exact h hb
  · next hb => exact h' hb

end LocalAt

namespace TakesAt

/-- What follows a token may take none. -/
theorem bind (hp : TakesAt Q p c) (hf : ∀ v c', p c = .ok v c' → LocalAt Q (f v) c') :
    TakesAt Q (p >>= f) c where
  toLocalAt := hp.toLocalAt.bind hf
  length_lt hrun := by
    obtain ⟨v, c₁, hrun₁, hrun₂⟩ := bind_eq_ok.1 hrun
    exact Nat.lt_of_le_of_lt ((hf v c₁ hrun₁).length_le hrun₂) (hp.length_lt hrun₁)

/-- It may also be what follows that takes a token. -/
theorem bindRight (hp : LocalAt Q p c) (hf : ∀ v c', p c = .ok v c' → TakesAt Q (f v) c') :
    TakesAt Q (p >>= f) c where
  toLocalAt := hp.bind fun v c' hrun => (hf v c' hrun).toLocalAt
  length_lt hrun := by
    obtain ⟨v, c₁, hrun₁, hrun₂⟩ := bind_eq_ok.1 hrun
    exact Nat.lt_of_lt_of_le ((hf v c₁ hrun₁).length_lt hrun₂) (hp.length_le hrun₁)

theorem bindPure (hp : TakesAt Q p c) (f : α → β) :
    TakesAt Q (p >>= fun v => Pure.pure (f v)) c :=
  hp.bind fun v _ _ => .pure (f v)

theorem map (hp : TakesAt Q p c) (f : α → β) : TakesAt Q (f <$> p) c := by
  rw [map_eq_pure_bind]
  exact hp.bindPure f

/-- A parse that never succeeds. -/
theorem of_fails (hp : LocalAt Q p c) (hfails : ∀ v c', p c ≠ .ok v c') : TakesAt Q p c where
  toLocalAt := hp
  length_lt hrun := absurd hrun (hfails _ _)

theorem byKind {f : Kind → Parse α} (h : TakesAt Q (f c.kind) c) : TakesAt Q (kind >>= f) c where
  toLocalAt := .byKind h.toLocalAt
  length_lt hrun := h.length_lt hrun

theorem ite {b : Prop} [Decidable b] {q : Parse α} (h : b → TakesAt Q p c)
    (h' : ¬ b → TakesAt Q q c) : TakesAt Q (if b then p else q) c := by
  split
  · next hb => exact h hb
  · next hb => exact h' hb

end TakesAt

/-- A loop whose items each take a token ends. -/
theorem progresses_of_takes {next? : Cursor → Option (Parse α)}
    (hitem : ∀ {c item}, next? c = some item → TakesAt Q item c) : Progresses next? :=
  fun _ _ _ _ hfound => (hitem hfound).length_lt

theorem local_unexpected (expected : String) : LocalAt Q (unexpected expected : Parse α) c := by
  refine .throw fun hc => ?_
  unfold Cursor.unexpected
  dsimp only
  have hcurrent := hc.current
  refine ⟨?_, hcurrent.start⟩
  rw [hcurrent.kind, hcurrent.value]

theorem takes_unexpected (expected : String) : TakesAt Q (unexpected expected : Parse α) c :=
  .of_fails (local_unexpected expected) fun v c' => unexpected_ne_ok expected c v c'

theorem local_layoutError (message : String) : LocalAt Q (layoutError message : Parse α) c :=
  .throw fun hc => ⟨rfl, hc.position⟩

/-- Of the token that is passed, only kind, text and place are used. -/
theorem LocalAt.advanceBind {f : Token → Parse α}
    (hf : ∀ {token token'}, token.Like Q token' → f token' = f token)
    (h : ∀ c', LocalAt Q (f c.current) c') : LocalAt Q (advance >>= f) c := by
  have run_eq (c : Cursor) : (advance >>= f) c = f c.current c.next := rfl
  have hnext := h c.next
  refine ⟨by rw [run_eq]; exact c.reaches_next.trans hnext.reaches, fun {c' n} hn hc => ?_⟩
  rw [run_eq] at hc
  rw [run_eq, run_eq, hf (hc.mono (by omega : 1 ≤ _)).current]
  have hle := c.reaches_next.length_le
  have hle' := hnext.reaches.length_le
  exact hnext.resembling hn (Cursor.Resembles.next (by omega) (hc.mono (by omega)))

theorem local_text : LocalAt Q text c :=
  .advanceBind (fun h => by rw [h.value]) fun _ => .pure _

theorem LocalAt.expectAsBind {expected : Kind} {description : String} {f : Token → Parse α}
    (hf : ∀ {token token'}, token.Like Q token' → f token' = f token)
    (h : ∀ token c', LocalAt Q (f token) c') :
    LocalAt Q (expectAs expected description >>= f) c := by
  rw [expectAs_bind_eq]
  exact .byKind <| .ite (fun _ => .advanceBind hf (h _)) fun _ => local_unexpected _

theorem LocalAt.expectBind {expected : Kind} {f : Token → Parse α}
    (hf : ∀ {token token'}, token.Like Q token' → f token' = f token)
    (h : ∀ token c', LocalAt Q (f token) c') : LocalAt Q (expect expected >>= f) c :=
  .expectAsBind hf h

/-- A token of which only the kind matters. -/
theorem LocalAt.expectThen {expected : Kind} (h : ∀ c', LocalAt Q p c') :
    LocalAt Q (do let _ ← expect expected; p) c :=
  .expectBind (fun _ => rfl) fun _ => h

theorem LocalAt.advanceThen (h : ∀ c', LocalAt Q p c') :
    LocalAt Q (do let _ ← advance; p) c :=
  .advanceBind (fun _ => rfl) h

namespace TakesAt

theorem advanceBind {f : Token → Parse α} (hne : c.kind ≠ .eof)
    (hf : ∀ {token token'}, token.Like Q token' → f token' = f token)
    (h : ∀ token c', LocalAt Q (f token) c') : TakesAt Q (advance >>= f) c where
  toLocalAt := .advanceBind hf (h _)
  length_lt hrun :=
    lt_of_advanceBind hne (fun token _ c₁ _ hrun => (h token c₁).length_le hrun) hrun

theorem advanceThen (hne : c.kind ≠ .eof) (h : ∀ c', LocalAt Q p c') :
    TakesAt Q (do let _ ← advance; p) c :=
  .advanceBind hne (fun _ => rfl) fun _ => h

theorem expectAsBind {expected : Kind} {description : String} {f : Token → Parse α}
    (hne : expected ≠ .eof) (hf : ∀ {token token'}, token.Like Q token' → f token' = f token)
    (h : ∀ token c', LocalAt Q (f token) c') :
    TakesAt Q (expectAs expected description >>= f) c := by
  rw [expectAs_bind_eq]
  exact .byKind <| .ite (fun heq => .advanceBind (heq ▸ hne) hf h) fun _ => takes_unexpected _

theorem expectBind {expected : Kind} {f : Token → Parse α} (hne : expected ≠ .eof)
    (hf : ∀ {token token'}, token.Like Q token' → f token' = f token)
    (h : ∀ token c', LocalAt Q (f token) c') : TakesAt Q (expect expected >>= f) c :=
  .expectAsBind hne hf h

theorem expectThen {expected : Kind} (hne : expected ≠ .eof) (h : ∀ c', LocalAt Q p c') :
    TakesAt Q (do let _ ← expect expected; p) c :=
  .expectBind hne (fun _ => rfl) fun _ => h

end TakesAt

theorem takes_text (hne : c.kind ≠ .eof) : TakesAt Q text c :=
  .advanceBind hne (fun h => by rw [h.value]) fun _ _ => .pure _

section Skip

open Cursor (takeWhile_of_ne skip_of_ne skip_of_eq)

variable {c c' : Cursor} {k : Kind}

/-- What is skipped has the same texts, and what follows looks alike. -/
theorem Cursor.Resembles.skip (hk : k ≠ .eof) {n : Nat} (hn : 1 ≤ n)
    (h : c.Resembles Q (c.ahead.length - (c.skip k).ahead.length + n) c') :
    (c'.ahead.takeWhile (·.kind = k)).map (·.value) =
        (c.ahead.takeWhile (·.kind = k)).map (·.value) ∧
      (c.skip k).Resembles Q n (c'.skip k) := by
  induction hlen : c.ahead.length generalizing c c' with
  | zero =>
    have heof : c.kind = .eof := c.kind_eq_eof_iff.2 (List.length_eq_zero_iff.1 hlen)
    have hne : c.kind ≠ k := heof ▸ hk.symm
    have hne' : c'.kind ≠ k := (h.mono (by omega : 1 ≤ _)).kind_eq ▸ hne
    rw [takeWhile_of_ne hne, takeWhile_of_ne hne', skip_of_ne hne, skip_of_ne hne']
    exact ⟨rfl, h.mono (Nat.le_add_left _ _)⟩
  | succ length ih =>
    have hkind := (h.mono (by omega : 1 ≤ _)).kind_eq
    by_cases heq : c.kind = k
    · obtain ⟨hskip, htake⟩ := skip_of_eq heq hk
      obtain ⟨hskip', htake'⟩ := skip_of_eq (hkind.trans heq) hk
      have hle := (c.next.reaches_skip k).length_le
      have hnext : c.next.ahead.length = length :=
        Nat.succ.inj ((Cursor.length_ahead_next (heq ▸ hk)).trans hlen)
      rw [hskip] at h
      have hcurrent := (h.mono (by omega : 1 ≤ _)).current
      have := ih (c := c.next) ((h.mono (by omega)).next_of_ne (heq ▸ hk)) hnext
      rw [hskip, hskip', htake, htake', List.map_cons, List.map_cons, this.1, hcurrent.value]
      exact ⟨rfl, this.2⟩
    · have hne' : c'.kind ≠ k := hkind ▸ heq
      rw [takeWhile_of_ne heq, takeWhile_of_ne hne', skip_of_ne heq, skip_of_ne hne']
      exact ⟨rfl, h.mono (Nat.le_add_left _ _)⟩

/-- Of the tokens that are skipped, only their texts are used. -/
theorem local_skipTexts (hk : k ≠ .eof) :
    LocalAt Q (skip k >>= fun tokens => Pure.pure (tokens.map (·.value))) c where
  reaches := c.reaches_skip k
  resembling hn hc := Cursor.Resembles.skip hk hn hc

theorem LocalAt.skipBind {g : List String → Parse α} (hk : k ≠ .eof)
    (hg : ∀ texts c', LocalAt Q (g texts) c') :
    LocalAt Q (skip k >>= fun tokens => g (tokens.map (·.value))) c :=
  (local_skipTexts hk).bind fun texts c' _ => hg texts c'

theorem local_skipTerminators : LocalAt Q skipTerminators c := by
  have h : skipTerminators = (skip .terminator >>= fun tokens =>
      Pure.pure (tokens.map (·.value))) >>= fun texts => Pure.pure (!texts.isEmpty) := by
    funext c
    change EStateM.Result.ok (!(c.ahead.takeWhile _).isEmpty) _ =
      .ok (!((c.ahead.takeWhile _).map (·.value)).isEmpty) _
    rw [List.isEmpty_map]
  rw [h]
  exact (local_skipTexts (by decide)).bindPure _

theorem local_endLine : LocalAt Q endLine c where
  reaches := by
    rw [endLine_eq]
    exact c.reaches_skip .terminator
  resembling hn hc := by
    rw [endLine_eq] at hc
    have hskip := (Cursor.Resembles.skip (by decide) hn hc).2
    rw [endLine_eq, endLine_eq]
    exact ⟨by rw [hskip.previous?_eq], hskip⟩

end Skip

theorem local_endLine_unless (refused : Bool → Kind → Bool) (expected : String) (v : α) :
    LocalAt Q
      (do
        let ended ← endLine
        if refused ended (← kind) then unexpected expected else return v : Parse α) c :=
  local_endLine.bind fun _ _ _ => .byKind <| .ite (fun _ => local_unexpected expected)
    fun _ => .pure v

section Collect

variable {next? : Cursor → Option (Parse α)}

/-- A loop whose items are found by what is seen of the current token and behind it, and take a
token each. -/
theorem local_collect (hnext : ∀ {c c'}, c.Resembles Q 1 c' → next? c' = next? c)
    (hitem : ∀ {c item}, next? c = some item → TakesAt Q item c) (c : Cursor) :
    LocalAt Q (collect next?) c := by
  have hprogress := progresses_of_takes hitem
  induction hlen : c.ahead.length using Nat.strongRecOn generalizing c with
  | ind length ih =>
    cases hfound : next? c with
    | none =>
      refine (LocalAt.pure []).of_eq (collect_of_none hfound) fun hc => ?_
      exact collect_of_none ((hnext hc).trans hfound)
    | some item =>
      refine .of_eq ((hitem hfound).toLocalAt.bind fun first c' hrun => .bindPure ?_ _)
        (collect_of_some hprogress hfound) fun hc => ?_
      · exact ih _ (hlen ▸ hprogress hfound hrun) _ rfl
      · exact collect_of_some hprogress ((hnext hc).trans hfound)

/-- A loop that sees one token further at a token of one kind. That token is passed in any case, by
the item that is found there or by what follows the loop. -/
theorem local_collect_then {k : Kind} {f : List α → Parse β}
    (hnext : ∀ {c c'}, (c.kind = k → c.Alike Q 2 c') → c.Resembles Q 1 c' → next? c' = next? c)
    (hitem : ∀ {c item}, next? c = some item → TakesAt Q item c)
    (hpasses : ∀ {c item}, next? c = some item → c.kind = k →
      (ending (item c)).ahead.length < c.ahead.length)
    (hf : ∀ vs c, LocalAt Q (f vs) c)
    (hlast : ∀ vs {c}, c.kind = k → (ending (f vs c)).ahead.length < c.ahead.length) (c : Cursor) :
    LocalAt Q (collect next? >>= f) c := by
  have hprogress := progresses_of_takes hitem
  induction hlen : c.ahead.length using Nat.strongRecOn generalizing c f with
  | ind length ih =>
    cases hfound : next? c with
    | none =>
      refine (hf [] c).of_eq_within (bind_of_ok (collect_of_none hfound)) fun hc => ?_
      refine bind_of_ok (collect_of_none ((hnext (fun hkind => ?_) (hc.mono ?_)).trans hfound))
      · have := hlast [] hkind
        exact hc.toAlike.mono (by omega)
      · exact Nat.le_add_left _ _
    | some item =>
      have heq (c : Cursor) (hfound : next? c = some item) : (collect next? >>= f) c =
          (item >>= fun first => collect next? >>= fun rest => f (first :: rest)) c := by
        rw [bind_congr_left (collect_of_some hprogress hfound)]
        simp only [bind_assoc, pure_bind]
      have hmore (first : α) (c' : Cursor) (hrun : item c = .ok first c') :
          LocalAt Q (collect next? >>= fun rest => f (first :: rest)) c' :=
        ih _ (hlen ▸ hprogress hfound hrun) (fun rest => hf (first :: rest))
          (fun rest => hlast (first :: rest)) c' rfl
      have hlocal := (hitem hfound).toLocalAt.bind hmore
      refine hlocal.of_eq_within (heq c hfound) fun hc => ?_
      refine heq _ ((hnext (fun hkind => ?_) (hc.mono (Nat.le_add_left _ _))).trans hfound)
      have := hpasses hfound hkind
      have := length_ending_bind_le fun first c' hrun => (hmore first c' hrun).reaches
      exact hc.toAlike.mono (by omega)

/-- The items of a loop that each stand behind a token of one kind. -/
theorem takes_behind {k : Kind} (hk : k ≠ .eof) (hp : ∀ c, LocalAt Q p c) {item : Parse α}
    (hfound : (if c.kind = k then some (do let _ ← advance; p) else none) = some item) :
    TakesAt Q item c := by
  split at hfound
  · next hkind =>
    cases hfound
    exact .advanceThen (hkind ▸ hk) hp
  · cases hfound

theorem local_collect_behind {k : Kind} (hk : k ≠ .eof) (hp : ∀ c, LocalAt Q p c) (c : Cursor) :
    LocalAt Q
      (collect fun c => if c.kind = k then some (do let _ ← advance; p) else none) c :=
  local_collect (fun hc => by rw [hc.kind_eq]) (takes_behind hk hp) c

theorem takes_separated (hp : ∀ c, TakesAt Q p c) : TakesAt Q (separated p) c :=
  (hp c).bind fun _ c' _ =>
    (local_collect_behind (by decide) (fun c => (hp c).toLocalAt) c').bindPure _

end Collect

/-! ## Readings and places -/

theorem takeWhile_content {content : List Token} (h : ∀ token ∈ content, token.kind ≠ .eof)
    (rest : List Token) : (content ++ rest).takeWhile (·.kind != .eof) =
      content ++ rest.takeWhile (·.kind != .eof) :=
  List.takeWhile_append_of_pos (by simpa using h)

theorem dropWhile_content {content : List Token} (h : ∀ token ∈ content, token.kind ≠ .eof)
    (rest : List Token) :
    (content ++ rest).dropWhile (·.kind != .eof) = rest.dropWhile (·.kind != .eof) :=
  List.dropWhile_append_of_pos (by simpa using h)

theorem ahead_ofTokens_of_content {tokens : List Token} (h : ∀ token ∈ tokens, token.kind ≠ .eof)
    (file : String) : (Cursor.ofTokens tokens file).ahead = tokens := by
  simpa [ahead_ofTokens] using takeWhile_content h []

theorem visible_ofTokens {tokens : List Token} (h : ∀ token ∈ tokens, token.kind ≠ .eof)
    (file : String) :
    (Cursor.ofTokens tokens file).visible = tokens ++ [Cursor.impliedEof tokens file] := by
  have hdrop := dropWhile_content h []
  rw [List.append_nil, List.dropWhile_nil] at hdrop
  rw [Cursor.visible, ahead_ofTokens_of_content h]
  unfold Cursor.ofTokens
  split
  · rfl
  · next hcons => simp [hdrop] at hcons

/-- Nothing behind the end of the stream is seen. -/
theorem visible_ofTokens_of_eof {content : List Token} (h : ∀ token ∈ content, token.kind ≠ .eof)
    {stop : Token} (hstop : stop.kind = .eof) (beyond : List Token) (file : String) :
    (Cursor.ofTokens (content ++ stop :: beyond) file).visible = content ++ [stop] := by
  have hdrop := dropWhile_content h (stop :: beyond)
  have htake := takeWhile_content h (stop :: beyond)
  simp only [hstop, List.dropWhile_cons, List.takeWhile_cons, bne_self_eq_false,
    Bool.false_eq_true, if_false, List.append_nil] at hdrop htake
  rw [Cursor.visible, ahead_ofTokens, htake]
  unfold Cursor.ofTokens
  split
  · next hnil => simp [hdrop] at hnil
  · next hcons =>
    rw [hdrop] at hcons
    exact congrArg (content ++ [·]) (List.cons.inj hcons).1.symm

theorem passed_ofTokens (tokens : List Token) (file : String) :
    (Cursor.ofTokens tokens file).passed = [] := by
  unfold Cursor.ofTokens
  split <;> rfl

theorem impliedEof_eq (tokens : List Token) (file : String) :
    ∃ position, Cursor.impliedEof tokens file = .eof position := by
  unfold Cursor.impliedEof
  split <;> exact ⟨_, rfl⟩

/-- What is read to the end does not depend on where the tokens stand. -/
theorem Accepts.of_like {R : Reading α} (haccepts : p.Accepts R)
    (hlocal : ∀ c, LocalAt (fun _ _ => True) p c) {input input' : List Token}
    (hlike : List.Forall₂ (Token.Like fun _ _ => True) input input')
    (hcontent : ∀ token ∈ input, token.kind ≠ .eof) {v : α} (h : R v input []) :
    R v input' [] := by
  have hkinds : input'.map (·.kind) = input.map (·.kind) := by
    clear h hcontent
    induction hlike with
    | nil => rfl
    | cons hsame _ ih => rw [List.map_cons, List.map_cons, hsame.kind, ih]
  have hcontent' : ∀ token ∈ input', token.kind ≠ .eof := by
    intro token hmem
    have := List.mem_map_of_mem (f := Token.kind) hmem
    rw [hkinds] at this
    obtain ⟨token', hmem', hkind⟩ := List.mem_map.1 this
    exact hkind ▸ hcontent token' hmem'
  have halike (n : Nat) : (Cursor.ofTokens input "").Alike (fun _ _ => True) n
      (Cursor.ofTokens input' "") := by
    refine ⟨by rw [passed_ofTokens, passed_ofTokens],
      by rw [Cursor.previous?, Cursor.previous?, passed_ofTokens, passed_ofTokens], ?_⟩
    rw [visible_ofTokens hcontent, visible_ofTokens hcontent']
    obtain ⟨position, hstop⟩ := impliedEof_eq input ""
    obtain ⟨position', hstop'⟩ := impliedEof_eq input' ""
    rw [hstop, hstop']
    exact List.forall₂_take n (List.rel_append hlike (.cons ⟨rfl, rfl, trivial⟩ .nil))
  obtain ⟨c₁, hrun, hend⟩ :=
    haccepts.complete (c := Cursor.ofTokens input "") trivial
      (by rwa [ahead_ofTokens_of_content hcontent])
  have hsame := (hlocal (Cursor.ofTokens input "")).alike (Nat.le_refl 2) (halike _)
  rw [hrun] at hsame
  cases hrun' : p (Cursor.ofTokens input' "") with
  | error error c₁' => rw [hrun'] at hsame; exact hsame.elim
  | ok v' c₁' =>
    rw [hrun'] at hsame
    obtain ⟨rfl, hcursor⟩ := hsame
    have hend' : c₁'.ahead = [] :=
      c₁'.kind_eq_eof_iff.1 (hcursor.kind_eq.trans (c₁.kind_eq_eof_iff.2 hend))
    have := haccepts.sound trivial hrun'
    rwa [ahead_ofTokens_of_content hcontent', hend'] at this

end Parse

end Offside
