import Offside.Proofs.Grammar.Completion
import Offside.Proofs.Grammar.LookaheadProductions

/-! # Completing tokens, line ends and loops

A token that is expected can be supplied. A loop may stop wherever its end may follow, and what it
has read by then is taken: an item that was found is found again by its first token, and goes on to
be followed by a token of the kind that followed it before.
-/

namespace Offside.Production

open Parse Cursor

variable {α β : Type} {n m room : Nat} {p : Production α} {F : Cursor → Prop}
  {before : Option Kind} {v : α} {text text' : List Token}

theorem Blamed.length_le {error : SyntaxError} {place ending : Cursor}
    (h : Blamed error place ending) : ending.ahead.length ≤ place.ahead.length := by
  unfold Blamed at h
  split at h
  · obtain ⟨token, hpasses⟩ := h
    exact hpasses.reaches.length_le
  · exact Nat.le_of_eq (h ▸ rfl)

theorem blamed_unexpected (c : Cursor) (expected : String) :
    Blamed (c.unexpected expected) c c := by
  unfold Cursor.unexpected Blamed
  dsimp only
  split
  · next h =>
    split at h <;> cases h
  · rfl

theorem resumes_unexpected (expected : String) :
    Resumes room (fun _ => (unexpected expected : Parse α)) F where
  moves _ {_ _ _} hrun := by cases hrun
  completes _ {c _ _} hrun _ := by
    cases hrun
    exact .of_nil (blamed_unexpected c expected)

theorem resumes_layoutError (message : String) :
    Resumes room (fun _ => (layoutError message : Parse α)) F where
  moves _ {_ _ _} hrun := by cases hrun
  completes _ {_ _ _} hrun _ := by
    cases hrun
    exact .of_nil rfl

/-- One token, of a kind that satisfies a test. -/
theorem resumes_token {p : Parse α} (test : Kind → Bool) (value : Token → α)
    (description : String) (heof : test .eof = false)
    (hp : ∀ c, p c = if test c.kind then .ok (value c.current) c.next
      else .error (c.unexpected description) c) : Resumes room (fun _ => p) fun _ => True where
  moves limit {c v c'} hrun := by
    rw [hp] at hrun
    split at hrun
    · next htest =>
      cases hrun
      have hne : c.kind ≠ .eof := by
        intro h
        rw [h, heof] at htest
        cases htest
      refine ⟨[c.current], .next hne, ?_, ?_⟩
      · exact fun token hmem => List.mem_singleton.1 hmem ▸ hne
      · intro limit room d d' _ _ hpasses _
        obtain ⟨hcurrent, hnext⟩ := hpasses.next_eq
        rw [hp, if_pos (by rw [hpasses.kind_eq]; exact htest), hcurrent, hnext]
    · cases hrun
  completes limit {c error c'} hrun _ := by
    rw [hp] at hrun
    split at hrun
    · cases hrun
    · cases hrun
      exact .of_nil (blamed_unexpected c description)

theorem productive_token {p : Parse α} (test : Kind → Bool) (value : Token → α)
    (description : String) (kind : Kind) (hkind : test kind = true) (heof : test .eof = false)
    (hp : ∀ c, p c = if test c.kind then .ok (value c.current) c.next
      else .error (c.unexpected description) c) : Productive room (fun _ => p) fun _ => True where
  toResumes := resumes_token test value description heof hp
  fills before := by
    refine ⟨0, value ⟨kind, "", default⟩, [⟨kind, "", default⟩], ?_, ?_⟩
    · intro token hmem heq
      rw [List.mem_singleton.1 hmem] at heq
      rw [show kind = .eof from heq, heof] at hkind
      cases hkind
    · intro limit room d d' _ _ hpasses _
      obtain ⟨hcurrent, hnext⟩ := hpasses.next_eq
      rw [hp, if_pos (by rw [hpasses.kind_eq]; exact hkind), hcurrent, hnext]

theorem productive_expectAs {kind : Kind} (hkind : kind ≠ .eof) (description : String) :
    Productive room (fun _ => expectAs kind description) fun _ => True := by
  refine productive_token (· = kind) id description kind (by simp) (by simpa using hkind.symm)
    fun c => ?_
  change (if c.kind = kind then advance else throw _ : Parse Token) c = _
  by_cases h : c.kind = kind
  · simp only [h, decide_true, if_true]
    rfl
  · simp only [h, decide_false, if_false, Bool.false_eq_true]
    rfl

theorem expectAs_eq_ok_iff {kind : Kind} {description : String} {c c' : Cursor} {token : Token} :
    expectAs kind description c = .ok token c' ↔
      c.kind = kind ∧ token = c.current ∧ c' = c.next := by
  change (if c.kind = kind then advance else throw _ : Parse Token) c = _ ↔ _
  by_cases h : c.kind = kind
  · rw [if_pos h]
    constructor
    · rintro ⟨⟩
      exact ⟨h, rfl, rfl⟩
    · rintro ⟨-, rfl, rfl⟩
      rfl
  · rw [if_neg h]
    exact ⟨nofun, fun hc => absurd hc.1 h⟩

/-- Every text may end before a run that begins with a token of some kind. -/
theorem kind_of_expectAs {kind : Kind} {description : String} {f : Token → Parse α} {c c' : Cursor}
    {v : α} (hrun : (expectAs kind description >>= f) c = .ok v c') : c.kind = kind := by
  rw [expectAs_bind_eq] at hrun
  change (if c.kind = kind then advance >>= f else unexpected description : Parse α) c = _ at hrun
  split at hrun
  · assumption
  · cases hrun

theorem kinds_of_expectTwo {first second : Kind} (hne : first ≠ .eof) {f : Parse α} {c c' : Cursor}
    {v : α} (hrun : (expect first >>= fun _ => expect second >>= fun _ => f) c = .ok v c') :
    c.kind = first ∧ c.peek 1 = second := by
  obtain ⟨_, c₁, hrun₁, hrun₂⟩ := bind_eq_ok.1 hrun
  obtain ⟨hkind, -, rfl⟩ := expectAs_eq_ok_iff.1 hrun₁
  exact ⟨hkind, (Cursor.peek_one_of_ne (hkind ▸ hne)).trans (kind_of_expectAs hrun₂)⟩

theorem Productive.expectThen {kind : Kind} {f : Token → Production α} (hkind : kind ≠ .eof)
    (hf : ∀ token, Productive room (f token) F) :
    Productive room (fun nested => expect kind >>= fun token => f token nested) F :=
  (productive_expectAs hkind kind.name).bind hf fun _ _ _ _ _ _ _ _ => trivial

/-- A production before a token that is expected. -/
theorem Productive.bindExpect {kind : Kind} {f : α → Token → Production β} {F' : Cursor → Prop}
    (hp : Productive room p F') (hkind : kind ≠ .eof) (hF : ∀ c, c.kind = kind → F' c)
    (hf : ∀ v token, Productive room (f v token) F) :
    Productive room (fun nested => p nested >>= fun v => expect kind >>= fun token =>
      f v token nested) F :=
  hp.bind (fun v => .expectThen hkind (hf v)) fun _ _ _ _ _ _ hrun _ => hF _ (kind_of_expectAs hrun)

theorem kind_bind_eq {kind : Kind} {c : Cursor} (h : c.kind = kind) (f : Kind → Parse α) :
    (Parse.kind >>= f) c = f kind c :=
  congrArg (f · c) h

/-- A token of the kind that is there can as well be expected. -/
theorem advance_bind_eq {kind : Kind} {c : Cursor} (h : c.kind = kind) (f : Token → Parse α) :
    (advance >>= f) c = (expect kind >>= f) c := by
  change _ = (expectAs kind _ >>= f) c
  rw [expectAs_bind_eq]
  change _ = (if c.kind = kind then advance >>= f else _ : Parse α) c
  rw [if_pos h]

theorem advanceTwo_bind_eq {first second : Kind} {c : Cursor} (h : c.kind = first)
    (hne : first ≠ .eof) (h' : c.peek 1 = second) (f : Parse α) :
    (advance >>= fun _ => advance >>= fun _ => f) c =
      (expect first >>= fun _ => expect second >>= fun _ => f) c := by
  rw [advance_bind_eq h]
  refine bind_congr_right fun token c₁ hrun => advance_bind_eq ?_ _
  obtain ⟨-, -, rfl⟩ := expectAs_eq_ok_iff.1 hrun
  rwa [← Cursor.peek_one_of_ne (h ▸ hne)]

theorem text_bind_eq {kind : Kind} {c : Cursor} (h : c.kind = kind) (f : String → Parse α) :
    (Parse.text >>= f) c = (expect kind >>= fun token => f token.value) c :=
  advance_bind_eq h fun token => f token.value

/-- Where the current token is of some kind, a production runs like one that can be completed, and
that one never stays where it is unless the first one does. -/
def ResumesAt (room : Nat) (p : Production α) (F : Cursor → Prop) (kind : Kind) : Prop :=
  ∃ q, Resumes room q F ∧ (∀ {nested c}, c.kind = kind → p nested c = q nested c) ∧
    ∀ {limit room c v}, q (.within .standard limit room) c = .ok v c → F c →
      p (.within .standard limit room) c = .ok v c

/-- A production that goes by the kind of the current token. -/
theorem Resumes.byKind (h : ∀ kind, ResumesAt room p F kind) : Resumes room p F := by
  refine .of_case fun limit c => ?_
  obtain ⟨q, hq, heq, hstay⟩ := h c.kind
  refine ⟨q, hq, heq rfl, fun {limit room d v d'} hstart hrun hd => ?_⟩
  rcases hstart with rfl | hkind
  · exact hstay hrun hd
  · rw [heq hkind, hrun]

namespace ResumesAt

variable {kind : Kind}

/-- A run that begins with a token that is expected. -/
theorem token {expected : Kind} {f : Token → Production α}
    (hq : Resumes room (fun nested => expect expected >>= fun token => f token nested) F)
    (heq : ∀ {nested c}, c.kind = kind ∨ c.kind = expected →
      p nested c = (expect expected >>= fun token => f token nested) c) : ResumesAt room p F kind :=
  ⟨_, hq, fun hc => heq (.inl hc), fun hrun _ => (heq (.inr (kind_of_expectAs hrun))).trans hrun⟩

theorem own {f : Token → Production α}
    (hq : Resumes room (fun nested => expect kind >>= fun token => f token nested) F)
    (heq : ∀ {nested c}, c.kind = kind →
      p nested c = (expect kind >>= fun token => f token nested) c) : ResumesAt room p F kind :=
  token hq fun hc => heq (hc.elim id id)

theorem refusal {expected : String}
    (heq : ∀ {nested c}, c.kind = kind → p nested c = (unexpected expected : Parse α) c) :
    ResumesAt room p F kind :=
  ⟨fun _ => unexpected expected, resumes_unexpected expected, heq, nofun⟩

/-- A run that may read nothing, and where the text may end only before a token of this kind. -/
theorem ending {q : Production α} (hq : Resumes room q F)
    (heq : ∀ {nested c}, c.kind = kind → p nested c = q nested c)
    (hends : ∀ c, F c → c.kind = kind) : ResumesAt room p F kind :=
  ⟨q, hq, heq, fun hrun hc => (heq (hends _ hc)).trans hrun⟩

theorem consuming {q : Production α} (hq : Resumes room q F)
    (heq : ∀ {nested c}, c.kind = kind → p nested c = q nested c)
    (htakes : ∀ limit room c, TakesAt Eq (q (.within .standard limit room)) c) :
    ResumesAt room p F kind :=
  ⟨q, hq, heq, fun hrun _ => absurd ((htakes _ _ _).length_lt hrun) (Nat.lt_irrefl _)⟩

end ResumesAt

/-- A run is known from what is accepted and where it ends. -/
theorem run_of_accepts {P : Cursor → Prop} {p : Parse α} {R : Reading α} {c c' : Cursor}
    (haccepts : p.AcceptsOn P R) (hc : P c) (hpasses : Passes text c c')
    (h : R v (text ++ c'.ahead) c'.ahead) : p c = .ok v c' := by
  obtain ⟨c'', hrun, hahead⟩ := haccepts.complete hc (hpasses.1 ▸ h)
  obtain ⟨text', hpasses'⟩ := Passes.exists_of_reaches (haccepts.reaches hc hrun)
  have htext : text' = text := by
    have := hpasses'.1.symm.trans hpasses.1
    rw [hahead] at this
    exact List.append_cancel_right this
  subst htext
  rw [hrun, hpasses'.unique hpasses]

/-- A text that stands for something is taken. -/
theorem Takes.of_accepts {R : Nat → Reading α} {P : Cursor → Prop}
    (haccepts : ∀ limit room, n ≤ room → (p (.within .standard limit room)).AcceptsOn P (R room))
    (hcontent : ∀ token ∈ text, token.kind ≠ .eof)
    (hP : ∀ {c c'}, Passes text c c' → P c)
    (h : ∀ room c, n ≤ room → F c → c.previous? = lastKind before text →
      R room v (text ++ c.ahead) c.ahead) : Takes n p F before v text where
  content := hcontent
  run limit {room _ c'} hroom hbefore hpasses hc :=
    run_of_accepts (haccepts limit room hroom) (hP hpasses) hpasses
      (h room c' hroom hc (hbefore ▸ hpasses.previous?_eq))

section Skip

theorem productive_skip {k : Kind} (hk : k ≠ .eof) :
    Productive room (fun _ => skip k) fun c => c.kind ≠ k where
  moves limit {c v c'} hrun := by
    cases hrun
    refine ⟨_, .skip c k, fun token hmem => Passes.of_mem_takeWhile hmem ▸ hk, ?_⟩
    intro limit room d d' _ _ hpasses hd
    obtain ⟨htake, hskip⟩ := hpasses.skip_eq (fun _ => Passes.of_mem_takeWhile) hd
    change EStateM.Result.ok _ _ = _
    rw [htake, hskip]
  completes _ {_ _ _} hrun := by cases hrun
  fills before := by
    refine ⟨0, [], [], nofun, fun limit {room d d'} _ _ hpasses hd => ?_⟩
    obtain ⟨htake, hskip⟩ := hpasses.skip_eq (by simp) hd
    change EStateM.Result.ok _ _ = _
    rw [htake, hskip]

theorem productive_skipTerminators :
    Productive room (fun _ => skipTerminators) fun c => c.kind ≠ .terminator :=
  (productive_skip (by decide)).bindPure fun tokens => !tokens.isEmpty

/-- Whether a line has ended is told by the text that is taken. -/
theorem productive_endLine : Productive room (fun _ => endLine) fun c => c.kind ≠ .terminator where
  moves limit {c v c'} hrun := by
    rw [endLine_eq] at hrun
    cases hrun
    obtain ⟨text, hpasses, htakes⟩ :=
      (@productive_skip room .terminator (by decide)).moves limit (c := c) rfl
    refine ⟨text, hpasses, htakes.content, fun limit {room d d'} hroom hbefore hpasses' hd => ?_⟩
    have hskip : d.skip .terminator = d' := by
      injection htakes.run limit hroom hbefore hpasses' hd
    rw [endLine_eq, hskip, hpasses'.previous?_eq, hbefore, hpasses.previous?_eq]
  completes _ {c _ _} hrun := by
    rw [endLine_eq] at hrun
    cases hrun
  fills before := by
    refine ⟨0, decide (before = some .terminator), [], nofun, ?_⟩
    intro limit room d d' _ hbefore hpasses hd
    rw [endLine_eq, (hpasses.skip_eq (by simp) hd).2, hpasses.previous?_eq, hbefore, lastKind_nil]

/-- Behind the end of a line, where nothing is refused that has ended. -/
theorem productive_endLine_unless (refused : Bool → Kind → Bool)
    (hrefused : ∀ kind, refused true kind = false) (expected : String) (v : α) :
    Productive room
      (fun _ => (do
        let ended ← endLine
        if refused ended (← kind) then unexpected expected else return v : Parse α))
      fun c => c.kind ≠ .terminator ∧
        refused (decide (c.previous? = some .terminator)) c.kind = false := by
  have run_eq (c : Cursor) : (do
      let ended ← endLine
      if refused ended (← kind) then unexpected expected else return v : Parse α) c =
      if refused (decide ((c.skip .terminator).previous? = some .terminator))
        (c.skip .terminator).kind then
        .error ((c.skip .terminator).unexpected expected) (c.skip .terminator)
      else .ok v (c.skip .terminator) := by
    rw [bind_of_ok (endLine_eq c)]
    change (if _ then unexpected expected else pure v : Parse α) _ = _
    split <;> rfl
  have takes (before : Option Kind) (text : List Token)
      (hall : ∀ token ∈ text, token.kind = .terminator) : Takes (n := 0) (fun _ => (do
        let ended ← endLine
        if refused ended (← kind) then unexpected expected else return v : Parse α))
      (fun c => c.kind ≠ .terminator ∧
        refused (decide (c.previous? = some .terminator)) c.kind = false) before v text := by
    refine ⟨fun token hmem => by rw [hall token hmem]; decide, fun _ {_ _ _} _ _ hpasses hd => ?_⟩
    rw [run_eq, (hpasses.skip_eq hall hd.1).2, if_neg (by rw [hd.2]; exact Bool.false_ne_true)]
  constructor
  · constructor
    · intro limit c w c' hrun
      rw [run_eq] at hrun
      split at hrun
      · cases hrun
      · cases hrun
        exact ⟨_, .skip c _,
          (takes _ _ fun _ => Passes.of_mem_takeWhile).mono (Nat.zero_le _) fun _ => id⟩
    · intro limit c error c' hrun _
      rw [run_eq] at hrun
      split at hrun
      · next h =>
        cases hrun
        refine ⟨_, _, .skip c .terminator, blamed_unexpected _ _, fun hne => ?_⟩
        rw [Passes.previous?_skip hne, decide_eq_true rfl, hrefused] at h
        cases h
      · cases hrun
  · intro before
    exact ⟨0, v, [], takes before [] nofun⟩

end Skip

/-- What makes the items of a loop completable. Which item is found depends on the token passed last
and on those ahead. -/
structure Loop {ι : Type} (room : Nat) (next? : Nested → Cursor → Option (Parse α))
    (look : Cursor → Option ι) (item : ι → Production α) (Fi : ι → Cursor → Prop)
    (F : Cursor → Prop) : Prop where
  progresses : ∀ limit room, Progresses (next? (.within .standard limit room))
  stops : ∀ {nested c}, look c = none → next? nested c = none
  finds : ∀ {nested c i}, look c = some i → ∃ found, next? nested c = some found ∧
    found c = item i nested c
  resumes : ∀ i, Resumes room (item i) (Fi i)
  /-- An item is found where it is read behind a like token. -/
  again : ∀ {limit room c d v d' i}, look c = some i → d.previous? = c.previous? →
    d.kind = c.kind → item i (.within .standard limit room) d = .ok v d' → look d = some i
  /-- An item may end where another one followed it and has passed some token. -/
  chain : ∀ {limit c v c' d i j}, look c = some i →
    item i (.within .standard limit room) c = .ok v c' → look c' = some j →
    (∀ error, item j (.within .standard limit room) c' ≠ .error error c') →
    d.previous? = c'.previous? → d.kind = c'.kind → Fi i d
  ends : ∀ {c}, F c → look c = none
  last : ∀ {c d i}, look c = some i → F d → Fi i d

namespace Loop

variable {ι : Type} {next? : Nested → Cursor → Option (Parse α)} {look : Cursor → Option ι}
  {item : ι → Production α} {Fi : ι → Cursor → Prop} (h : Loop room next? look item Fi F)
include h

theorem run_some {limit room : Nat} {c : Cursor} {i : ι} (hlook : look c = some i) :
    collect (next? (.within .standard limit room)) c =
      (item i (.within .standard limit room) >>= fun first =>
        collect (next? (.within .standard limit room)) >>= fun rest =>
          Pure.pure (first :: rest)) c := by
  obtain ⟨found, hfound, heq⟩ := h.finds hlook
  rw [collect_of_some (h.progresses limit room) hfound]
  exact bind_congr_left heq

theorem length_lt {limit room : Nat} {c c' : Cursor} {i : ι} {v : α} (hlook : look c = some i)
    (hrun : item i (.within .standard limit room) c = .ok v c') :
    c'.ahead.length < c.ahead.length := by
  obtain ⟨found, hfound, heq⟩ := h.finds hlook
  exact h.progresses limit room hfound (heq.trans hrun)

theorem takes_nil : Takes 0 (fun nested => collect (next? nested)) F before [] [] where
  content := nofun
  run _ {_ _ _} _ _ hpasses hd := by
    rw [hpasses.eq]
    exact collect_of_none (h.stops (h.ends hd))

theorem takes_cons {c : Cursor} {i : ι} {vs : List α} (hlook : look c = some i)
    (hstart : nextKind text = c.kind) (hne : text ≠ [])
    (hitem : Takes n (item i) (Fi i) c.previous? v text)
    (hrest : Takes m (fun nested => collect (next? nested)) F (lastKind c.previous? text) vs text')
    (hends : text' = [] ∨ ∀ d, d.previous? = lastKind c.previous? text →
      d.kind = nextKind text' → Fi i d) :
    Takes (max n m) (fun nested => collect (next? nested)) F c.previous? (v :: vs)
      (text ++ text') where
  content token hmem := (List.mem_append.1 hmem).elim (hitem.content token) (hrest.content token)
  run limit {room d d'} hroom hbefore hpasses hd := by
    obtain ⟨d₁, hfirst, hothers⟩ := hpasses.split
    have hbefore₁ : d₁.previous? = lastKind c.previous? text := hbefore ▸ hfirst.previous?_eq
    have hmay : Fi i d₁ := by
      by_cases hnil : text' = []
      · subst hnil
        rw [hothers.eq]
        exact h.last hlook hd
      · exact hends.resolve_left hnil d₁ hbefore₁ (hothers.kind_eq_of_ne_nil hnil)
    have hrun₁ := hitem.run limit (by omega : n ≤ room) hbefore hfirst hmay
    have hrun₂ := hrest.run limit (by omega : m ≤ room) hbefore₁ hothers hd
    have hlook' := h.again hlook hbefore ((hfirst.kind_eq_of_ne_nil hne).trans hstart) hrun₁
    rw [h.run_some hlook', bind_of_ok hrun₁, bind_of_ok hrun₂]
    rfl

/-- What a loop has passed, its first item has begun to pass. -/
theorem goes {limit : Nat} {c : Cursor}
    (hok : collect (next? (.within .standard limit room)) c ≠ .ok [] c)
    (herror : ∀ error, collect (next? (.within .standard limit room)) c ≠ .error error c) :
    ∃ i, look c = some i ∧
      ∀ error, item i (.within .standard limit room) c ≠ .error error c := by
  cases hlook : look c with
  | none => exact absurd (collect_of_none (h.stops hlook)) hok
  | some i =>
    refine ⟨i, rfl, fun error hrun => herror error ?_⟩
    rw [h.run_some hlook, bind_of_error hrun]

/-- The rest of a loop that has read something begins with the token that was there. -/
theorem ends_of_run {limit : Nat} {c c₁ c₂ : Cursor} {i : ι} (hlook : look c = some i)
    (hrun : item i (.within .standard limit room) c = .ok v c₁) (hpasses : Passes text c c₁)
    (hpasses' : Passes text' c₁ c₂)
    (hok : text' ≠ [] → collect (next? (.within .standard limit room)) c₁ ≠ .ok [] c₁)
    (herror : text' ≠ [] →
      ∀ error, collect (next? (.within .standard limit room)) c₁ ≠ .error error c₁)
    (more : List Token) :
    text' = [] ∨ ∀ d, d.previous? = lastKind c.previous? text →
      d.kind = nextKind (text' ++ more) → Fi i d := by
  refine or_iff_not_imp_left.2 fun hne d hbefore hkind => ?_
  obtain ⟨j, hlook', hgoes⟩ := h.goes (hok hne) (herror hne)
  refine h.chain hlook hrun hlook' hgoes (hbefore.trans hpasses.previous?_eq.symm) ?_
  obtain ⟨token, text', rfl⟩ := List.exists_cons_of_ne_nil hne
  exact hkind.trans hpasses'.kind_eq.symm

theorem moves (limit : Nat) (c : Cursor) {vs : List α} {c' : Cursor}
    (hrun : collect (next? (.within .standard limit room)) c = .ok vs c') :
    ∃ text, Passes text c c' ∧
      Takes room (fun nested => collect (next? nested)) F c.previous? vs text := by
  induction hlen : c.ahead.length using Nat.strongRecOn generalizing c vs with
  | ind length ih =>
    cases hlook : look c with
    | none =>
      rw [collect_of_none (h.stops hlook)] at hrun
      cases hrun
      exact ⟨[], .refl _, h.takes_nil.mono (Nat.zero_le _) fun _ => id⟩
    | some i =>
      rw [h.run_some hlook] at hrun
      obtain ⟨v, c₁, hrun₁, hrun₂⟩ := bind_eq_ok.1 hrun
      obtain ⟨ws, c₂, hrun₂, hrun₃⟩ := bind_eq_ok.1 hrun₂
      cases hrun₃
      have hlt := h.length_lt hlook hrun₁
      obtain ⟨text, hpasses, htakes⟩ := (h.resumes i).moves limit hrun₁
      obtain ⟨text', hpasses', htakes'⟩ := ih _ (hlen ▸ hlt) c₁ hrun₂ rfl
      have hne := hpasses.ne_nil_of_length_lt hlt
      have hends := h.ends_of_run hlook hrun₁ hpasses hpasses'
        (fun hne' hstay => by
          rw [hrun₂] at hstay
          cases hstay
          exact absurd (hpasses'.length_lt hne') (Nat.lt_irrefl _))
        (fun _ _ hstay => by rw [hrun₂] at hstay; cases hstay) []
      rw [List.append_nil] at hends
      rw [hpasses.previous?_eq] at htakes'
      refine ⟨text ++ text', hpasses.append hpasses', ?_⟩
      exact (h.takes_cons hlook (hpasses.kind_eq_of_ne_nil hne).symm hne htakes htakes' hends).mono
        (by omega) fun _ => id

theorem completes (limit : Nat) (c : Cursor) {error : SyntaxError} {c' : Cursor}
    (hrun : collect (next? (.within .standard limit room)) c = .error error c')
    (hdeep : ∀ missed, error.cause ≠ .nestingTooDeep missed) :
    Completes (fun nested => collect (next? nested)) F c error c' := by
  induction hlen : c.ahead.length using Nat.strongRecOn generalizing c with
  | ind length ih =>
    cases hlook : look c with
    | none =>
      rw [collect_of_none (h.stops hlook)] at hrun
      cases hrun
    | some i =>
      rw [h.run_some hlook] at hrun
      cases hrun₁ : item i (.within .standard limit room) c with
      | error error₁ c₁ =>
        rw [bind_of_error hrun₁] at hrun
        cases hrun
        refine ((h.resumes i).completes limit hrun₁ hdeep).imp fun hne hstart htakes => ?_
        exact ⟨_, _, by simpa using h.takes_cons hlook hstart hne htakes h.takes_nil (.inl rfl)⟩
      | ok v c₁ =>
        rw [bind_of_ok hrun₁] at hrun
        have hlt := h.length_lt hlook hrun₁
        obtain ⟨text, hpasses, htakes⟩ := (h.resumes i).moves limit hrun₁
        have hne := hpasses.ne_nil_of_length_lt hlt
        have hstart := (hpasses.kind_eq_of_ne_nil hne).symm
        cases hrun₂ : collect (next? (.within .standard limit room)) c₁ with
        | ok ws c₂ =>
          rw [bind_of_ok hrun₂] at hrun
          cases hrun
        | error error₂ c₂ =>
          rw [bind_of_error hrun₂] at hrun
          cases hrun
          obtain ⟨text', place, hpasses', hblamed, hmore⟩ := ih _ (hlen ▸ hlt) c₁ hrun₂ rfl
          refine ⟨text ++ text', place, hpasses.append hpasses', hblamed, fun _ => ?_⟩
          by_cases hnil : text' = []
          · subst hnil
            exact ⟨max room 0, [v], [], by
              simpa using h.takes_cons hlook hstart hne htakes h.takes_nil (.inl rfl)⟩
          · obtain ⟨m, ws, more, htakes'⟩ := hmore hnil
            rw [hpasses.previous?_eq] at htakes'
            refine ⟨max room m, v :: ws, more, ?_⟩
            rw [List.append_assoc]
            refine h.takes_cons hlook hstart hne htakes htakes' (.inr ?_)
            refine (h.ends_of_run hlook hrun₁ hpasses hpasses'
              (fun _ hstay => by rw [hrun₂] at hstay; cases hstay) (fun _ error hstay => ?_)
              more).resolve_left hnil
            rw [hrun₂] at hstay
            cases hstay
            exact absurd (hpasses'.length_lt hnil) (Nat.not_lt_of_le hblamed.length_le)

/-- A loop can be completed if its items can. -/
theorem productive : Productive room (fun nested => collect (next? nested)) F where
  moves _ {_ _ _} hrun := h.moves _ _ hrun
  completes _ {_ _ _} hrun hdeep := h.completes _ _ hrun hdeep
  fills _ := ⟨0, [], [], h.takes_nil⟩

/-- Where a loop ends, it has either read nothing, or it began with an item. -/
theorem follows {F' : Cursor → Prop} (hstop : ∀ c, F c → F' c)
    (hgo : ∀ c, (look c).isSome → F' c) : Follows (fun nested => collect (next? nested)) F F' := by
  intro limit room c v c' hrun hc
  dsimp only at hrun
  by_cases hlook : (look c).isSome
  · exact hgo c hlook
  · rw [collect_of_none (h.stops (by simpa using hlook))] at hrun
    cases hrun
    exact hstop _ hc

end Loop

section Behind

variable {k : Kind} {Fi : Cursor → Prop}

/-- The loop of items that each stand behind a token of one kind. -/
theorem loop_behind (hk : k ≠ .eof) (hp : Productive room p Fi)
    (htakes : ∀ limit room c, TakesAt Eq (p (.within .standard limit room)) c)
    (hbetween : ∀ c, c.kind = k → Fi c) :
    Loop room (fun nested c => if c.kind = k then some (do let _ ← advance; p nested) else none)
      (fun c => if c.kind = k then some () else none)
      (fun _ nested => expect k >>= fun _ => p nested) (fun _ => Fi)
      fun c => Fi c ∧ c.kind ≠ k where
  progresses limit room :=
    progresses_of_takes (takes_behind hk fun c => (htakes limit room c).toLocalAt)
  stops := by simp
  finds {nested c i} hlook := by
    have hkind : c.kind = k := by
      by_contra hne
      simp [hne] at hlook
    exact ⟨_, if_pos hkind, advance_bind_eq hkind _⟩
  resumes _ := (Productive.expectThen hk fun _ => hp).toResumes
  again {_ _ c d _ _ _} hlook _ hkind _ := by rwa [hkind]
  chain {_ c v c' d _ _} _ _ hlook _ _ hkind := by
    refine hbetween d (hkind.trans ?_)
    by_contra hne
    simp [hne] at hlook
  ends hc := if_neg hc.2
  last _ hd := hd.1

theorem productive_separated (hp : Productive room p Fi)
    (htakes : ∀ limit room c, TakesAt Eq (p (.within .standard limit room)) c)
    (hbetween : ∀ c, c.kind = .comma → Fi c) :
    Productive room (fun nested => separated (p nested)) fun c => Fi c ∧ c.kind ≠ .comma := by
  have hloop := loop_behind (k := .comma) (by decide) hp htakes hbetween
  refine hp.bind (fun first => hloop.productive.bindPure _) fun first => .bindPure ?_ _
  refine hloop.follows (fun c hc => hc.1) fun c hlook => hbetween c ?_
  by_contra hne
  simp [hne] at hlook

end Behind

section OrEmptyPair

open Grammar

variable {s : Cursor → Bool} {Fi : Cursor → Prop}

/-- The loops of parameters and of arguments. -/
theorem loop_orEmptyPair (hp : Productive room p Fi)
    (htakes : ∀ limit room c, TakesAt Eq (p (.within .standard limit room)) c)
    (hpair : ∀ c, atEmptyPair c = true → s c = true)
    (hagain : ∀ {limit room c v c'}, p (.within .standard limit room) c = .ok v c' →
      s c = true ∧ atEmptyPair c = false)
    (hbetween : ∀ c d, s c = true → d.kind = c.kind → Fi d) :
    Loop room
      (fun nested c => if !s c then none
        else if atEmptyPair c then some (do emptyPair; return none)
        else some (some <$> p nested))
      (fun c => if !s c then none else some (atEmptyPair c))
      (fun empty nested => if empty then
        expect .openParen >>= fun _ => expect .closeParen >>= fun _ => Pure.pure none
        else some <$> p nested)
      (fun _ => Fi) fun c => Fi c ∧ s c = false where
  progresses limit room := progresses_of_takes (takes_orEmptyPair (htakes limit room))
  stops {nested c} hlook := by
    cases hs : s c with
    | true => simp [hs] at hlook
    | false => simp
  finds {nested c empty} hlook := by
    cases hs : s c with
    | false => simp [hs] at hlook
    | true =>
      obtain rfl : atEmptyPair c = empty := by simpa [hs] using hlook
      cases hempty : atEmptyPair c with
      | false => exact ⟨some <$> p nested, by simp, by simp⟩
      | true =>
        refine ⟨(do emptyPair; return none), by simp, ?_⟩
        simp only [atEmptyPair, Bool.and_eq_true, decide_eq_true_eq] at hempty
        exact advanceTwo_bind_eq hempty.1 (by decide) hempty.2 _
  resumes empty := by
    cases empty with
    | true =>
      exact ((Productive.expectThen (by decide) fun _ => .expectThen (by decide) fun _ =>
        .pure none).toResumes).mono fun _ _ => trivial
    | false => exact (hp.map some).toResumes
  again {limit room c d v d' empty} hlook _ hkind hrun := by
    cases empty with
    | true =>
      have hempty : atEmptyPair d = true := by
        obtain ⟨hopening, hclosing⟩ := kinds_of_expectTwo (by decide) hrun
        simp [atEmptyPair, hopening, hclosing]
      simp [hempty, hpair d hempty]
    | false =>
      rw [if_neg Bool.false_ne_true, map_eq_pure_bind] at hrun
      obtain ⟨v, d₁, hrun₁, -⟩ := bind_eq_ok.1 hrun
      obtain ⟨hs, hempty⟩ := hagain hrun₁
      simp [hs, hempty]
  chain {_ c v c' d _ _} _ _ hlook _ _ hkind := by
    refine hbetween c' d ?_ hkind
    by_contra hs
    simp [hs] at hlook
  ends hc := by simp [hc.2]
  last _ hd := hd.1

end OrEmptyPair

end Offside.Production
