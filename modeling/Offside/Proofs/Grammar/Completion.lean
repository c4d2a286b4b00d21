import Offside.Proofs.Grammar.Ends
import Offside.Proofs.Grammar.Loops

/-! # Completing what was begun

A production takes a text if it reads it whatever follows, as long as the text may end there. Where
a run fails, what it has passed is the beginning of a text that the production takes. Both are kept
by every way of putting productions together, if what is run next is something that the text before
it may end at.
-/

namespace Offside

namespace Cursor

/-- One cursor is got from another by passing these tokens. -/
def Passes (text : List Token) (c c' : Cursor) : Prop :=
  c.ahead = text ++ c'.ahead ∧ c'.passed = text.reverse ++ c.passed ∧ c'.stop = c.stop ∧
    c'.beyond = c.beyond ∧ c'.frame = c.frame

/-- The kind of the token passed last, behind a text. -/
def lastKind (before : Option Kind) (text : List Token) : Option Kind :=
  (text.getLast?.map (·.kind)).or before

@[simp] theorem lastKind_nil (before : Option Kind) : lastKind before [] = before := by
  simp [lastKind]

theorem lastKind_append (before : Option Kind) (text text' : List Token) :
    lastKind before (text ++ text') = lastKind (lastKind before text) text' := by
  rcases List.eq_nil_or_concat' text' with rfl | ⟨init, token, rfl⟩
  · simp
  · simp [lastKind, ← List.append_assoc]

namespace Passes

variable {text text' : List Token} {a b c : Cursor}

theorem refl (c : Cursor) : Passes [] c c :=
  ⟨rfl, rfl, rfl, rfl, rfl⟩

theorem append (h : Passes text a b) (h' : Passes text' b c) : Passes (text ++ text') a c := by
  obtain ⟨hahead, hpassed, hstop, hbeyond, hframe⟩ := h
  obtain ⟨hahead', hpassed', hstop', hbeyond', hframe'⟩ := h'
  refine ⟨?_, ?_, hstop'.trans hstop, hbeyond'.trans hbeyond, hframe'.trans hframe⟩
  · rw [hahead, hahead', List.append_assoc]
  · rw [hpassed', hpassed, List.reverse_append, List.append_assoc]

theorem exists_of_ahead {rest : List Token} (h : a.ahead = text ++ rest) :
    ∃ b, Passes text a b ∧ b.ahead = rest :=
  ⟨{ a with
      passed := text.reverse ++ a.passed
      ahead := rest
      kind_ne_eof_of_mem_ahead := fun _ mem =>
        a.kind_ne_eof_of_mem_ahead _ (h ▸ List.mem_append_right _ mem) },
    ⟨h, rfl, rfl, rfl, rfl⟩, rfl⟩

theorem split (h : Passes (text ++ text') a c) : ∃ b, Passes text a b ∧ Passes text' b c := by
  obtain ⟨hahead, hpassed, hstop, hbeyond, hframe⟩ := h
  rw [List.append_assoc] at hahead
  obtain ⟨b, hpasses, hrest⟩ := exists_of_ahead hahead
  obtain ⟨hpassed', hstop', hbeyond', hframe'⟩ := hpasses.2
  refine ⟨b, hpasses, hrest, ?_, hstop.trans hstop'.symm, hbeyond.trans hbeyond'.symm,
    hframe.trans hframe'.symm⟩
  rw [hpassed, hpassed', List.reverse_append, List.append_assoc]

theorem unique (h : Passes text a b) (h' : Passes text a c) : b = c := by
  obtain ⟨hahead, hpassed, hstop, hbeyond, hframe⟩ := h
  obtain ⟨hahead', hpassed', hstop', hbeyond', hframe'⟩ := h'
  have : b.ahead = c.ahead := List.append_cancel_left (hahead.symm.trans hahead')
  cases b
  cases c
  simp_all

theorem eq (h : Passes [] a b) : a = b :=
  (refl a).unique h

theorem reaches (h : Passes text a b) : a.Reaches b :=
  ⟨text, h⟩

theorem exists_of_reaches (h : a.Reaches b) : ∃ text, Passes text a b :=
  h

theorem previous?_eq (h : Passes text a b) : b.previous? = lastKind a.previous? text := by
  rw [previous?, h.2.1, List.head?_append, List.head?_reverse, lastKind, previous?,
    Option.map_or]

theorem kind_eq {token : Token} (h : Passes (token :: text) a b) : a.kind = token.kind := by
  rw [kind_eq_nextKind, h.1]
  rfl

theorem kind_eq_of_ne_nil (h : Passes text a b) (hne : text ≠ []) : a.kind = nextKind text := by
  obtain ⟨token, text, rfl⟩ := List.exists_cons_of_ne_nil hne
  exact h.kind_eq

theorem length_lt (h : Passes text a b) (hne : text ≠ []) : b.ahead.length < a.ahead.length := by
  rw [h.1, List.length_append]
  have := List.length_pos_iff.2 hne
  omega

theorem ne_nil_of_length_lt (h : Passes text a b) (hlt : b.ahead.length < a.ahead.length) :
    text ≠ [] := by
  rintro rfl
  exact absurd hlt (h.eq ▸ Nat.lt_irrefl _)

theorem next (hne : c.kind ≠ .eof) : Passes [c.current] c c.next := by
  obtain ⟨token, rest, h⟩ := List.exists_cons_of_ne_nil (mt c.kind_eq_eof_iff.2 hne)
  rcases c with ⟨frame, passed, ahead, stop, beyond, content, kind_stop⟩
  obtain rfl : ahead = token :: rest := h
  exact ⟨rfl, rfl, rfl, rfl, rfl⟩

theorem next_eq {token : Token} (h : Passes [token] a b) : a.current = token ∧ a.next = b := by
  have hkind : a.kind ≠ .eof := by
    rw [Ne, kind_eq_eof_iff, h.1]
    exact nofun
  have hcurrent : a.current = token := by
    rw [current, h.1]
    rfl
  exact ⟨hcurrent, (hcurrent ▸ next hkind).unique h⟩

theorem skip (c : Cursor) (k : Kind) :
    Passes (c.ahead.takeWhile (·.kind = k)) c (c.skip k) :=
  ⟨List.takeWhile_append_dropWhile.symm, rfl, rfl, rfl, rfl⟩

theorem of_mem_takeWhile {k : Kind} {token : Token}
    (h : token ∈ c.ahead.takeWhile (·.kind = k)) : token.kind = k := by
  simpa using List.all_eq_true.1 (List.all_takeWhile (p := (·.kind = k)) (l := c.ahead)) token h

theorem previous?_skip {k : Kind} (hne : c.ahead.takeWhile (·.kind = k) ≠ []) :
    (c.skip k).previous? = some k := by
  obtain ⟨init, last, heq⟩ := (List.eq_nil_or_concat' _).resolve_left hne
  rw [(skip c k).previous?_eq, lastKind, heq, List.getLast?_concat, Option.map_some, Option.some_or]
  exact congrArg some (of_mem_takeWhile (c := c) (by rw [heq]; simp))

theorem skip_eq {k : Kind} (h : Passes text a b) (hall : ∀ token ∈ text, token.kind = k)
    (hne : b.kind ≠ k) : a.ahead.takeWhile (·.kind = k) = text ∧ a.skip k = b := by
  have htake : a.ahead.takeWhile (·.kind = k) = text := by
    rw [h.1, List.takeWhile_append_of_pos (by simpa using hall)]
    rw [b.kind_eq_nextKind] at hne
    cases hahead : b.ahead with
    | nil => simp
    | cons token rest =>
      rw [List.takeWhile_cons_of_neg (by simpa [hahead] using hne), List.append_nil]
  exact ⟨htake, (htake ▸ skip a k).unique h⟩

end Passes

/-- The token passed last is known from how the text ends. -/
theorem Reaches.previous?_of_endsWith {a b : Cursor} {test : Kind → Bool} (h : a.Reaches b)
    (hends : EndsWith test a.ahead b.ahead) :
    ∃ kind, b.previous? = some kind ∧ test kind = true := by
  obtain ⟨text, hpasses⟩ := Passes.exists_of_reaches h
  obtain ⟨init, token, heq, htest⟩ := hends
  have htext : text = init ++ [token] := by
    refine List.append_cancel_right (?_ : _ ++ b.ahead = _)
    rw [← hpasses.1, heq, List.append_assoc, List.singleton_append]
  refine ⟨token.kind, ?_, htest⟩
  rw [hpasses.previous?_eq, htext, lastKind, List.getLast?_concat, Option.map_some, Option.some_or]

/-- There is a cursor before each text, and one behind it where any other tokens are left. -/
theorem exists_passes_before {text rest : List Token}
    (h : ∀ token ∈ text ++ rest, token.kind ≠ .eof) (before : Option Kind) :
    ∃ c c', Passes text c c' ∧ c.previous? = before ∧ c'.ahead = rest := by
  let passed : List Token := (before.map fun kind => ⟨kind, "", default⟩).toList
  let c : Cursor :=
    { Cursor.ofTokens [] "" with
      passed := passed
      ahead := text ++ rest
      kind_ne_eof_of_mem_ahead := h }
  obtain ⟨c', hpasses, hrest⟩ := Passes.exists_of_ahead (a := c) rfl
  refine ⟨c, c', hpasses, ?_, hrest⟩
  cases before <;> rfl

theorem exists_passes {text : List Token} (h : ∀ token ∈ text, token.kind ≠ .eof)
    (before : Option Kind) (next : Kind) :
    ∃ c c', Passes text c c' ∧ c.previous? = before ∧ c'.kind = next := by
  obtain ⟨rest, hrest, hnext⟩ : ∃ rest : List Token,
      (∀ token ∈ rest, token.kind ≠ .eof) ∧ nextKind rest = next := by
    by_cases heof : next = .eof
    · exact ⟨[], List.forall_mem_nil _, heof.symm⟩
    · exact ⟨[⟨next, "", default⟩], List.forall_mem_singleton.2 heof, rfl⟩
  obtain ⟨c, c', hpasses, hbefore, rfl⟩ :=
    exists_passes_before (List.forall_mem_append.2 ⟨h, hrest⟩) before
  exact ⟨c, c', hpasses, hbefore, c'.kind_eq_nextKind.trans hnext⟩

end Cursor

open Cursor (Passes lastKind)

/-- A production, for any levels that are left. -/
abbrev Production (α : Type) :=
  Nested → Parse α

namespace Production

open Parse

variable {α β : Type} {n m room : Nat} {p q : Production α} {f : α → Production β}
  {F F' : Cursor → Prop} {before : Option Kind} {v : α} {w : β} {text text' : List Token}

/-- With some number of levels or more, and behind a token of some kind, a text is read as a value
wherever it may end. -/
structure Takes (n : Nat) (p : Production α) (F : Cursor → Prop) (before : Option Kind) (v : α)
    (text : List Token) : Prop where
  content : ∀ token ∈ text, token.kind ≠ .eof
  run : ∀ limit {room c c'}, n ≤ room → c.previous? = before → Passes text c c' → F c' →
    p (.within .standard limit room) c = .ok v c'

/-- A text that can stand before a run of a production may end there. -/
def Follows (p : Production α) (F F' : Cursor → Prop) : Prop :=
  ∀ ⦃limit room c v c'⦄, p (.within .standard limit room) c = .ok v c' → F c' → F' c

theorem Follows.bindPure (h : Follows p F F') (g : α → β) :
    Follows (fun nested => p nested >>= fun v => Pure.pure (g v)) F F' := by
  intro limit room c w c' hrun hc
  obtain ⟨v, c₁, hrun, hpure⟩ := bind_eq_ok.1 hrun
  cases hpure
  exact h hrun hc

namespace Takes

theorem mono (h : Takes n p F before v text) (hle : n ≤ m) (himp : ∀ c, F' c → F c) :
    Takes m p F' before v text :=
  ⟨h.content, fun limit {_ _ _} hroom hbefore hpasses hc =>
    h.run limit (Nat.le_trans hle hroom) hbefore hpasses (himp _ hc)⟩

theorem bind (hp : Takes n p F before v text) (hf : Takes m (f v) F' (lastKind before text) w text')
    (hfollows : Follows (f v) F' F) :
    Takes (max n m) (fun nested => p nested >>= fun v => f v nested) F' before w
      (text ++ text') where
  content token hmem := (List.mem_append.1 hmem).elim (hp.content token) (hf.content token)
  run limit {room c c'} hroom hbefore hpasses hc := by
    obtain ⟨c₁, hfirst, hlast⟩ := hpasses.split
    have hrun := hf.run limit (by omega : m ≤ room) (hbefore ▸ hfirst.previous?_eq)
      hlast hc
    exact (bind_of_ok (hp.run limit (by omega) hbefore hfirst (hfollows hrun hc))).trans hrun

theorem pure (v : α) : Takes 0 (fun _ => Pure.pure v) F before v [] where
  content := nofun
  run _ {_ _ _} _ _ hpasses _ := by
    rw [hpasses.eq]
    rfl

/-- Every text that is taken is read somewhere, so its last token is one that is read last. -/
theorem weaken (h : Takes n p F before v text) (next : Kind) (hF : ∀ c, c.kind = next → F c)
    {K : Option Kind → Prop}
    (hK : ∀ {limit room c v c'}, p (.within .standard limit room) c = .ok v c' → K c'.previous?)
    (himp : ∀ c, K c.previous? → F' c → F c) : Takes n p F' before v text where
  content := h.content
  run limit {room c c'} hroom hbefore hpasses hc := by
    obtain ⟨d, d', hpasses', hbefore', hnext⟩ := Cursor.exists_passes h.content before next
    have hlast := hK (h.run 0 (Nat.le_refl n) hbefore' hpasses' (hF d' hnext))
    rw [hpasses'.previous?_eq, hbefore', ← hbefore, ← hpasses.previous?_eq] at hlast
    exact h.run limit hroom hbefore hpasses (himp c' hlast hc)

end Takes

/-- Whether an error is blamed on the current token, or on the number that was passed last. -/
def Blamed (error : SyntaxError) (place ending : Cursor) : Prop :=
  match error.cause with
  | .invalidNumber _ => ∃ token, Passes [token] place ending
  | _ => place = ending

/-- A run that ends with an error has passed the beginning of a text that is taken. -/
def Completes (p : Production α) (F : Cursor → Prop) (c : Cursor) (error : SyntaxError)
    (ending : Cursor) : Prop :=
  ∃ text place, Passes text c place ∧ Blamed error place ending ∧
    (text ≠ [] → ∃ n v more, Takes n p F c.previous? v (text ++ more))

/-- With some number of levels, a run takes the text it reads, or it can be completed, unless it
fails for want of a level. -/
structure Resumes (room : Nat) (p : Production α) (F : Cursor → Prop) : Prop where
  moves : ∀ limit {c v c'}, p (.within .standard limit room) c = .ok v c' →
    ∃ text, Passes text c c' ∧ Takes room p F c.previous? v text
  completes : ∀ limit {c error c'}, p (.within .standard limit room) c = .error error c' →
    (∀ missed, error.cause ≠ .nestingTooDeep missed) → Completes p F c error c'

/-- Some text is taken. -/
def Fills (p : Production α) (F : Cursor → Prop) : Prop :=
  ∀ before, ∃ n v text, Takes n p F before v text

/-- Whatever is begun can be completed. -/
structure Productive (room : Nat) (p : Production α) (F : Cursor → Prop) : Prop
    extends Resumes room p F where
  fills : Fills p F

namespace Completes

variable {q : Production β} {c ending : Cursor} {error : SyntaxError}

theorem of_nil (h : Blamed error c ending) : Completes p F c error ending :=
  ⟨[], c, .refl c, h, fun h => absurd rfl h⟩

/-- What completes one run completes another, if what the one takes can be gone on with to what the
other takes. -/
theorem extend (h : Completes p F c error ending)
    (htakes : ∀ {n v text}, text ≠ [] → nextKind text = c.kind → Takes n p F c.previous? v text →
      ∃ m w more, Takes m q F' c.previous? w (text ++ more)) : Completes q F' c error ending := by
  obtain ⟨text, place, hpasses, hblamed, hmore⟩ := h
  refine ⟨text, place, hpasses, hblamed, fun hne => ?_⟩
  obtain ⟨n, v, more, hfirst⟩ := hmore hne
  have hstart : nextKind (text ++ more) = c.kind := by
    obtain ⟨token, text, rfl⟩ := List.exists_cons_of_ne_nil hne
    exact hpasses.kind_eq.symm
  obtain ⟨m, w, last, hlast⟩ := htakes (by simp [hne]) hstart hfirst
  exact ⟨m, w, more ++ last, List.append_assoc text more last ▸ hlast⟩

theorem imp (h : Completes p F c error ending)
    (htakes : ∀ {n v text}, text ≠ [] → nextKind text = c.kind → Takes n p F c.previous? v text →
      ∃ m w, Takes m q F' c.previous? w text) : Completes q F' c error ending :=
  h.extend fun hne hstart hfirst => by
    obtain ⟨m, w, hlast⟩ := htakes hne hstart hfirst
    exact ⟨m, w, [], (List.append_nil _).symm ▸ hlast⟩

end Completes

namespace Resumes

theorem mono (h : Resumes room p F) (himp : ∀ c, F' c → F c) : Resumes room p F' where
  moves limit {_ _ _} hrun := by
    obtain ⟨text, hpasses, htakes⟩ := h.moves limit hrun
    exact ⟨text, hpasses, htakes.mono (Nat.le_refl _) himp⟩
  completes limit {_ _ _} hrun hdeep :=
    (h.completes limit hrun hdeep).imp fun _ _ htakes =>
      ⟨_, _, htakes.mono (Nat.le_refl _) himp⟩

theorem bind (hp : Resumes room p F) (hf : ∀ v, Productive room (f v) F')
    (hfollows : ∀ v, Follows (f v) F' F) :
    Resumes room (fun nested => p nested >>= fun v => f v nested) F' where
  moves limit {_ _ _} hrun := by
    obtain ⟨v, c₁, hrun₁, hrun₂⟩ := bind_eq_ok.1 hrun
    obtain ⟨text, hpasses, htakes⟩ := hp.moves limit hrun₁
    obtain ⟨text', hpasses', htakes'⟩ := (hf v).moves limit hrun₂
    rw [hpasses.previous?_eq] at htakes'
    refine ⟨text ++ text', hpasses.append hpasses', ?_⟩
    exact (htakes.bind htakes' (hfollows v)).mono (by omega) fun _ => id
  completes limit {c error c'} hrun hdeep := by
    cases hrun₁ : p (.within .standard limit room) c with
    | error error₁ c₁ =>
      rw [bind_of_error hrun₁] at hrun
      cases hrun
      refine (hp.completes limit hrun₁ hdeep).extend fun {n v text} _ _ htakes => ?_
      obtain ⟨m, w, last, htakes'⟩ := (hf v).fills (lastKind c.previous? text)
      exact ⟨max n m, w, last, htakes.bind htakes' (hfollows v)⟩
    | ok v c₁ =>
      rw [bind_of_ok hrun₁] at hrun
      obtain ⟨text, hpasses, htakes⟩ := hp.moves limit hrun₁
      obtain ⟨text', place, hpasses', hblamed, hmore⟩ := (hf v).completes limit hrun hdeep
      refine ⟨text ++ text', place, hpasses.append hpasses', hblamed, fun hne => ?_⟩
      rw [hpasses.previous?_eq] at hmore
      have hlast : ∃ m w more, Takes m (f v) F' (lastKind c.previous? text) w (text' ++ more) := by
        by_cases hnil : text' = []
        · subst hnil
          exact (hf v).fills _
        · exact hmore hnil
      obtain ⟨m, w, more, htakes'⟩ := hlast
      refine ⟨max room m, w, more, ?_⟩
      rw [List.append_assoc]
      exact htakes.bind htakes' (hfollows v)

/-- What a production does at a cursor is done by another one, whose runs are runs of the first if
they begin with the same kind of token or with none at all. -/
theorem of_case (h : ∀ limit c, ∃ q, Resumes room q F ∧
    p (.within .standard limit room) c = q (.within .standard limit room) c ∧
    ∀ {limit room d v d'}, d = d' ∨ d.kind = c.kind →
      q (.within .standard limit room) d = .ok v d' →
      F d' → p (.within .standard limit room) d = .ok v d') : Resumes room p F := by
  have takes {c : Cursor} {q : Production α} {text : List Token} {n : Nat} {v : α}
      (hstart : text = [] ∨ nextKind text = c.kind)
      (hcase : ∀ {limit room d v d'}, d = d' ∨ d.kind = c.kind →
        q (.within .standard limit room) d = .ok v d' → F d' →
          p (.within .standard limit room) d = .ok v d')
      (h : Takes n q F c.previous? v text) : Takes n p F c.previous? v text := by
    refine ⟨h.content, fun limit {room d d'} hroom hbefore hpasses hd => ?_⟩
    refine hcase ?_ (h.run limit hroom hbefore hpasses hd) hd
    by_cases hnil : text = []
    · subst hnil
      exact .inl hpasses.eq
    · exact .inr ((hpasses.kind_eq_of_ne_nil hnil).trans (hstart.resolve_left hnil))
  constructor
  · intro limit c v c' hrun
    obtain ⟨q, hq, heq, hcase⟩ := h limit c
    obtain ⟨text, hpasses, htakes⟩ := hq.moves limit (heq ▸ hrun)
    refine ⟨text, hpasses, takes ?_ hcase htakes⟩
    exact or_iff_not_imp_left.2 fun hne => (hpasses.kind_eq_of_ne_nil hne).symm
  · intro limit c error c' hrun hdeep
    obtain ⟨q, hq, heq, hcase⟩ := h limit c
    exact (hq.completes limit (heq ▸ hrun) hdeep).imp fun _ hstart htakes =>
      ⟨_, _, takes (.inr hstart) hcase htakes⟩

theorem weaken (h : Resumes room p F) (next : Kind) (hF : ∀ c, c.kind = next → F c)
    {K : Option Kind → Prop}
    (hK : ∀ {limit room c v c'}, p (.within .standard limit room) c = .ok v c' → K c'.previous?)
    (himp : ∀ c, K c.previous? → F' c → F c) : Resumes room p F' where
  moves limit {_ _ _} hrun := by
    obtain ⟨text, hpasses, htakes⟩ := h.moves limit hrun
    exact ⟨text, hpasses, htakes.weaken next hF hK himp⟩
  completes limit {_ _ _} hrun hdeep :=
    (h.completes limit hrun hdeep).imp fun _ _ htakes => ⟨_, _, htakes.weaken next hF hK himp⟩

end Resumes

theorem Fills.of_case (h : Fills q F)
    (hcase : ∀ {limit room c v c'}, q (.within .standard limit room) c = .ok v c' → F c' →
      p (.within .standard limit room) c = .ok v c') : Fills p F := by
  intro before
  obtain ⟨n, v, text, htakes⟩ := h before
  refine ⟨n, v, text, htakes.content, fun limit {_ _ _} hroom hbefore hpasses hc => ?_⟩
  exact hcase (htakes.run limit hroom hbefore hpasses hc) hc

namespace Productive

theorem mono (h : Productive room p F) (himp : ∀ c, F' c → F c) : Productive room p F' where
  toResumes := h.toResumes.mono himp
  fills before := by
    obtain ⟨n, v, text, htakes⟩ := h.fills before
    exact ⟨n, v, text, htakes.mono (Nat.le_refl _) himp⟩

theorem bind (hp : Productive room p F) (hf : ∀ v, Productive room (f v) F')
    (hfollows : ∀ v, Follows (f v) F' F) :
    Productive room (fun nested => p nested >>= fun v => f v nested) F' where
  toResumes := hp.toResumes.bind hf hfollows
  fills before := by
    obtain ⟨n, v, text, htakes⟩ := hp.fills before
    obtain ⟨m, w, text', htakes'⟩ := (hf v).fills (lastKind before text)
    exact ⟨_, w, _, htakes.bind htakes' (hfollows v)⟩

theorem pure (v : α) : Productive room (fun _ => Pure.pure v) F where
  moves _ {c _ _} hrun := by
    cases hrun
    exact ⟨[], .refl c, (Takes.pure v).mono (Nat.zero_le _) fun _ => id⟩
  completes _ {_ _ _} hrun := by cases hrun
  fills _ := ⟨0, v, [], .pure v⟩

theorem bindPure (hp : Productive room p F) (g : α → β) :
    Productive room (fun nested => p nested >>= fun v => Pure.pure (g v)) F :=
  hp.bind (fun v => .pure (g v)) fun v limit room c w c' hrun hc => by
    cases hrun
    exact hc

theorem map (hp : Productive room p F) (g : α → β) :
    Productive room (fun nested => g <$> p nested) F := by
  simpa only [map_eq_pure_bind] using hp.bindPure g

end Productive

end Production

end Offside
