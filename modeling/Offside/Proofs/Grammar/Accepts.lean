import Offside.Grammar.Parse
import Offside.Proofs.Cursor.Reaches

/-! # What a parse accepts

A reading relates a value to the tokens ahead before and after it is read. A parse accepts a reading
if its successful runs are exactly that reading, and it moves forward only. Readings compose as
parses do, so what a production accepts is put together from what its parts accept.
-/

namespace Offside

/-- Relates a value to the tokens ahead where its text begins, and to those left behind it. -/
abbrev Reading (α : Type) :=
  α → List Token → List Token → Prop

namespace Reading

variable {α : Type}

/-- At least one token is read. -/
def Consumes (R : Reading α) : Prop :=
  ∀ {v input rest}, R v input rest → rest.length < input.length

/-- One reading after the other for as long as a condition holds of what is ahead. -/
inductive Many (R : Reading α) (G : List Token → Prop) : Reading (List α) where
  | nil {input : List Token} : ¬ G input → Many R G [] input input
  | cons {v : α} {vs : List α} {input mid rest : List Token} : G input → R v input mid →
      Many R G vs mid rest → Many R G (v :: vs) input rest

/-- One token, and then a reading. -/
def Behind (R : Reading α) : Reading α := fun v input rest =>
  ∃ token mid, input = token :: mid ∧ R v mid rest

/-- One reading or more, separated by commas. -/
inductive Separated (R : Reading α) : Reading (List α) where
  | last {v : α} {input rest : List Token} : R v input rest → nextKind rest ≠ .comma →
      Separated R [v] input rest
  | cons {v : α} {vs : List α} {input mid rest : List Token} {comma : Token} :
      R v input (comma :: mid) → comma.kind = .comma → Separated R vs mid rest →
      Separated R (v :: vs) input rest

end Reading

namespace Parse

variable {α β : Type} {P : Cursor → Prop} {p q : Parse α} {R S : Reading α}

/-- At the cursors that satisfy a condition, the successful runs of a parse are a reading. -/
structure AcceptsOn (P : Cursor → Prop) (p : Parse α) (R : Reading α) : Prop where
  reaches : ∀ {c v c'}, P c → p c = .ok v c' → c.Reaches c'
  sound : ∀ {c v c'}, P c → p c = .ok v c' → R v c.ahead c'.ahead
  complete : ∀ {c v rest}, P c → R v c.ahead rest → ∃ c', p c = .ok v c' ∧ c'.ahead = rest

/-- The successful runs of a parse are a reading. -/
abbrev Accepts (p : Parse α) (R : Reading α) : Prop :=
  AcceptsOn (fun _ => True) p R

theorem bind_eq_ok {f : α → Parse β} {c c'' : Cursor} {w : β} :
    (p >>= f) c = .ok w c'' ↔ ∃ v c', p c = .ok v c' ∧ f v c' = .ok w c'' := by
  change EStateM.bind p f c = _ ↔ _
  unfold EStateM.bind
  cases p c with
  | ok v c' => simp
  | error error c' => simp

namespace AcceptsOn

theorem mono {P' : Cursor → Prop} (h : p.AcceptsOn P R) (hP : ∀ c, P' c → P c) :
    p.AcceptsOn P' R :=
  ⟨fun hc => h.reaches (hP _ hc), fun hc => h.sound (hP _ hc), fun hc => h.complete (hP _ hc)⟩

theorem on (h : p.Accepts R) : p.AcceptsOn P R :=
  h.mono fun _ _ => trivial

theorem congrOn (h : p.AcceptsOn P R)
    (hRS : ∀ c v rest, P c → (R v c.ahead rest ↔ S v c.ahead rest)) : p.AcceptsOn P S where
  reaches := h.reaches
  sound hc run := (hRS _ _ _ hc).1 (h.sound hc run)
  complete hc hS := h.complete hc ((hRS _ _ _ hc).2 hS)

theorem congr (h : p.AcceptsOn P R) (hRS : ∀ v input rest, R v input rest ↔ S v input rest) :
    p.AcceptsOn P S :=
  h.congrOn fun _ _ _ _ => hRS _ _ _

theorem congrKind {kind : Kind} (h : p.AcceptsOn (fun c => P c ∧ c.kind = kind) R)
    (hRS : ∀ v input rest, nextKind input = kind → (R v input rest ↔ S v input rest)) :
    p.AcceptsOn (fun c => P c ∧ c.kind = kind) S :=
  h.congrOn fun c _ _ hc => hRS _ _ _ (c.kind_eq_nextKind ▸ hc.2)

theorem pointwise (h : ∀ c, P c → p.AcceptsOn (· = c) R) : p.AcceptsOn P R :=
  ⟨fun hc => (h _ hc).reaches rfl, fun hc => (h _ hc).sound rfl, fun hc => (h _ hc).complete rfl⟩

theorem of_eq (h : q.AcceptsOn P R) (heq : ∀ c, P c → p c = q c) : p.AcceptsOn P R where
  reaches hc run := h.reaches hc (heq _ hc ▸ run)
  sound hc run := h.sound hc (heq _ hc ▸ run)
  complete hc hR := heq _ hc ▸ h.complete hc hR

/-- The second parse may rely on what the first one leaves behind. -/
theorem bindOn {Q : Cursor → Prop} {f : α → Parse β} {S : α → Reading β} (hp : p.AcceptsOn P R)
    (hQ : ∀ {c v c'}, P c → p c = .ok v c' → Q c') (hf : ∀ v, (f v).AcceptsOn Q (S v)) :
    (p >>= f).AcceptsOn P fun w input rest => ∃ v mid, R v input mid ∧ S v w mid rest where
  reaches hc run := by
    obtain ⟨v, c', hrun, hrun'⟩ := bind_eq_ok.1 run
    exact (hp.reaches hc hrun).trans ((hf v).reaches (hQ hc hrun) hrun')
  sound hc run := by
    obtain ⟨v, c', hrun, hrun'⟩ := bind_eq_ok.1 run
    exact ⟨v, c'.ahead, hp.sound hc hrun, (hf v).sound (hQ hc hrun) hrun'⟩
  complete hc := by
    rintro ⟨v, mid, hR, hS⟩
    obtain ⟨c', hrun, rfl⟩ := hp.complete hc hR
    obtain ⟨c'', hrun', hrest⟩ := (hf v).complete (hQ hc hrun) hS
    exact ⟨c'', bind_eq_ok.2 ⟨v, c', hrun, hrun'⟩, hrest⟩

theorem bind {f : α → Parse β} {S : α → Reading β} (hp : p.AcceptsOn P R)
    (hf : ∀ v, (f v).Accepts (S v)) :
    (p >>= f).AcceptsOn P fun w input rest => ∃ v mid, R v input mid ∧ S v w mid rest :=
  hp.bindOn (fun _ _ => trivial) hf

theorem ite {b : Prop} [Decidable b] (h : b → p.AcceptsOn P R) (h' : ¬ b → q.AcceptsOn P R) :
    (if b then p else q).AcceptsOn P R := by
  split
  · next hb => exact h hb
  · next hb => exact h' hb

/-- A parse that goes by the kind of the current token. -/
theorem byKind {f : Kind → Parse α}
    (h : ∀ kind, (f kind).AcceptsOn (fun c => P c ∧ c.kind = kind) R) :
    (kind >>= f).AcceptsOn P R where
  reaches {c _ _} hc run := (h c.kind).reaches ⟨hc, rfl⟩ run
  sound {c _ _} hc run := (h c.kind).sound ⟨hc, rfl⟩ run
  complete {c _ _} hc hR := (h c.kind).complete ⟨hc, rfl⟩ hR

end AcceptsOn

theorem accepts_pure (v : α) :
    (pure v : Parse α).AcceptsOn P fun w input rest => w = v ∧ rest = input where
  reaches _ run := by cases run; exact .refl _
  sound _ run := by cases run; exact ⟨rfl, rfl⟩
  complete := by rintro c _ _ - ⟨rfl, rfl⟩; exact ⟨c, rfl, rfl⟩

theorem acceptsOn_of_fails (h : ∀ c v c', P c → p c ≠ .ok v c')
    (hR : ∀ c v rest, P c → ¬ R v c.ahead rest) : p.AcceptsOn P R where
  reaches hc run := absurd run (h _ _ _ hc)
  sound hc run := absurd run (h _ _ _ hc)
  complete hc hv := absurd hv (hR _ _ _ hc)

theorem unexpected_ne_ok (expected : String) (c : Cursor) (v : α) (c' : Cursor) :
    (unexpected expected : Parse α) c ≠ .ok v c' := nofun

theorem layoutError_ne_ok (message : String) (c : Cursor) (v : α) (c' : Cursor) :
    (layoutError message : Parse α) c ≠ .ok v c' := nofun

theorem acceptsOn_advance (hP : ∀ c, P c → c.kind ≠ .eof) :
    advance.AcceptsOn P fun token input rest => input = token :: rest where
  reaches {c _ _} _ run := by cases run; exact c.reaches_next
  sound {c _ _} hc run := by
    obtain ⟨token, rest, h⟩ :=
      List.exists_cons_of_ne_nil (mt c.kind_eq_eof_iff.2 (hP c hc))
    cases run
    rw [c.current_of_cons h, c.ahead_next, h, List.tail_cons]
  complete {c token rest} _ h :=
    ⟨c.next, congrArg (EStateM.Result.ok · c.next) (c.current_of_cons h),
      by rw [c.ahead_next, h, List.tail_cons]⟩

theorem acceptsOn_text (hP : ∀ c, P c → c.kind ≠ .eof) :
    text.AcceptsOn P fun value input rest =>
      ∃ token, input = token :: rest ∧ value = token.value := by
  refine ((acceptsOn_advance hP).bind fun token => accepts_pure token.value).congr ?_
  intro value input rest
  constructor
  · rintro ⟨token, _, h, rfl, rfl⟩
    exact ⟨token, h, rfl⟩
  · rintro ⟨token, h, rfl⟩
    exact ⟨token, rest, h, rfl, rfl⟩

/-- Two tokens are taken before the next parse. -/
theorem acceptsOn_advanceTwo
    (hP : ∀ c, P c → ∃ first second rest, c.ahead = first :: second :: rest) (hp : p.Accepts R) :
    (do let _ ← advance; let _ ← advance; p : Parse α).AcceptsOn P fun v input rest =>
      ∃ first second mid, input = first :: second :: mid ∧ R v mid rest := by
  have first : advance.AcceptsOn P fun token input rest => input = token :: rest := by
    refine acceptsOn_advance fun c hc heof => ?_
    obtain ⟨first, second, rest, h⟩ := hP c hc
    rw [c.kind_eq_eof_iff, h] at heof
    cases heof
  have second : advance.AcceptsOn (fun c => c.ahead ≠ []) fun token input rest =>
      input = token :: rest :=
    acceptsOn_advance fun c hc heof => hc (c.kind_eq_eof_iff.1 heof)
  refine .congr (first.bindOn ?_ fun _ => second.bind fun _ => hp) ?_
  · intro c token c' hc run
    obtain ⟨first', second', rest, h⟩ := hP c hc
    have hahead := first.sound hc run
    rw [h] at hahead
    rw [← (List.cons.inj hahead).2]
    exact List.cons_ne_nil _ _
  · intro v input rest
    constructor
    · rintro ⟨first, _, rfl, second, mid, rfl, h⟩
      exact ⟨first, second, mid, rfl, h⟩
    · rintro ⟨first, second, mid, rfl, h⟩
      exact ⟨first, _, rfl, second, mid, rfl, h⟩

theorem accepts_expectOr {kind : Kind} (hk : kind ≠ .eof) (refusal : Cursor → SyntaxError) :
    (expectOr kind refusal).AcceptsOn P fun token input rest =>
      input = token :: rest ∧ token.kind = kind := by
  have run_eq (c : Cursor) : expectOr kind refusal c =
      if c.kind = kind then advance c else .error (refusal c) c := by
    change (if _ then _ else _ : Parse Token) c = _
    split <;> rfl
  have step := acceptsOn_advance (P := fun c => c.kind = kind) fun _ h => h ▸ hk
  constructor
  · intro c _ _ _ run
    rw [run_eq] at run
    split at run
    · next h => exact step.reaches h run
    · cases run
  · intro c _ _ _ run
    rw [run_eq] at run
    split at run
    · next h =>
      have hcons := step.sound h run
      exact ⟨hcons, by rw [← h, c.kind_eq_nextKind, hcons, nextKind_cons]⟩
    · cases run
  · rintro c token rest - ⟨hcons, hkind⟩
    have h : c.kind = kind := by rw [c.kind_eq_nextKind, hcons, nextKind_cons, hkind]
    rw [run_eq, if_pos h]
    exact step.complete h hcons

theorem accepts_expect {kind : Kind} (hk : kind ≠ .eof) :
    (expect kind).AcceptsOn P fun token input rest => input = token :: rest ∧ token.kind = kind :=
  accepts_expectOr hk _

theorem accepts_expectAs {kind : Kind} (hk : kind ≠ .eof) (description : String) :
    (expectAs kind description).AcceptsOn P fun token input rest =>
      input = token :: rest ∧ token.kind = kind :=
  accepts_expectOr hk _

theorem accepts_skip (kind : Kind) :
    (skip kind).AcceptsOn P fun tokens input rest =>
      tokens = input.takeWhile (·.kind = kind) ∧ rest = input.dropWhile (·.kind = kind) where
  reaches {c _ _} _ run := by cases run; exact c.reaches_skip kind
  sound _ run := by cases run; exact ⟨rfl, rfl⟩
  complete := by rintro c _ _ - ⟨rfl, rfl⟩; exact ⟨c.skip kind, rfl, rfl⟩

theorem accepts_skipTerminators :
    skipTerminators.AcceptsOn P fun skipped input rest =>
      skipped = (nextKind input = .terminator : Bool) ∧ rest = afterTerminators input := by
  refine ((accepts_skip .terminator).bind fun tokens => accepts_pure (!tokens.isEmpty)).congr ?_
  intro skipped input rest
  have h : (!(input.takeWhile (·.kind = .terminator)).isEmpty) =
      decide (nextKind input = .terminator) := by
    cases input with
    | nil => rfl
    | cons token tail => by_cases hk : token.kind = .terminator <;> simp [hk]
  constructor
  · rintro ⟨_, _, ⟨rfl, rfl⟩, rfl, rfl⟩
    exact ⟨h, rfl⟩
  · rintro ⟨rfl, rfl⟩
    exact ⟨_, _, ⟨rfl, rfl⟩, h.symm, rfl⟩

/-- At least one token was passed since an earlier cursor. -/
def After (earlier c : Cursor) : Prop :=
  earlier.Reaches c ∧ c.ahead.length < earlier.ahead.length

theorem After.of_reaches {earlier c c' : Cursor} (h : After earlier c) (h' : c.Reaches c') :
    After earlier c' :=
  ⟨h.1.trans h', Nat.lt_of_le_of_lt h'.length_le h.2⟩

theorem AcceptsOn.bindAfter {f : α → Parse β} {S : α → List Token → Reading β}
    (hp : p.AcceptsOn P R) (hR : R.Consumes)
    (hf : ∀ v c, (f v).AcceptsOn (After c) (S v c.ahead)) :
    (p >>= f).AcceptsOn P fun w input rest => ∃ v mid, R v input mid ∧ S v input w mid rest := by
  have after {c v c'} (hc : P c) (run : p c = .ok v c') : After c c' :=
    ⟨hp.reaches hc run, hR (hp.sound hc run)⟩
  constructor
  · intro c _ _ hc run
    obtain ⟨v, c', hrun, hrun'⟩ := bind_eq_ok.1 run
    exact (hp.reaches hc hrun).trans ((hf v c).reaches (after hc hrun) hrun')
  · intro c _ _ hc run
    obtain ⟨v, c', hrun, hrun'⟩ := bind_eq_ok.1 run
    exact ⟨v, c'.ahead, hp.sound hc hrun, (hf v c).sound (after hc hrun) hrun'⟩
  · rintro c _ _ hc ⟨v, mid, hv, hS⟩
    obtain ⟨c', hrun, rfl⟩ := hp.complete hc hv
    obtain ⟨c'', hrun', hrest⟩ := (hf v c).complete (after hc hrun) hS
    exact ⟨c'', bind_eq_ok.2 ⟨v, c', hrun, hrun'⟩, hrest⟩

theorem endLine_eq (c : Cursor) :
    endLine c = .ok (decide ((c.skip .terminator).previous? = some .terminator))
      (c.skip .terminator) := by
  change EStateM.Result.ok (!(c.ahead.takeWhile _).isEmpty || decide _) _ = _
  cases h : c.ahead.takeWhile (·.kind = .terminator) with
  | nil => simp [Cursor.skip, Cursor.previous?, h]
  | cons token tail =>
    have hall : ∀ t ∈ token :: tail, t.kind = .terminator := fun t ht =>
      of_decide_eq_true (List.all_eq_true.1 List.all_takeWhile t (h ▸ ht))
    have hlast : ((token :: tail).reverse ++ c.passed).head?.map (·.kind) = some .terminator := by
      rcases List.eq_nil_or_concat' (token :: tail) with hnil | ⟨init, last, hlast⟩
      · cases hnil
      · simp only [hlast, List.reverse_append, List.reverse_singleton, List.cons_append,
          List.head?_cons, Option.map_some]
        rw [hall last (by simp [hlast])]
    simp only [Cursor.skip, Cursor.previous?, h, hlast]
    rfl

/-- Whether a line has ended is seen from the last token since any earlier cursor. -/
theorem acceptsOn_endLine (earlier : Cursor) :
    endLine.AcceptsOn (After earlier) fun ended input rest =>
      ended = lineEnded earlier.ahead rest ∧ rest = afterTerminators input := by
  have ended {c : Cursor} (hc : After earlier c) :
      decide ((c.skip .terminator).previous? = some .terminator) =
        lineEnded earlier.ahead (afterTerminators c.ahead) :=
    (hc.of_reaches (c.reaches_skip _)).1.previous?_eq (hc.of_reaches (c.reaches_skip _)).2
  constructor
  · intro c _ _ _ run
    rw [endLine_eq] at run
    cases run
    exact c.reaches_skip _
  · intro c _ _ hc run
    rw [endLine_eq] at run
    cases run
    exact ⟨ended hc, rfl⟩
  · rintro c _ _ hc ⟨rfl, rfl⟩
    exact ⟨c.skip .terminator, by rw [endLine_eq, ended hc], rfl⟩

/-- A line end, and then a refusal that goes by whether the line has ended and by the next kind. -/
theorem acceptsOn_endLine_unless (earlier : Cursor) (refused : Bool → Kind → Bool)
    (expected : String) (v : α) :
    (do
      let ended ← endLine
      if refused ended (← kind) then unexpected expected else return v : Parse α).AcceptsOn
      (After earlier) fun w input rest => w = v ∧ rest = afterTerminators input ∧
        refused (lineEnded earlier.ahead rest) (nextKind rest) = false := by
  have check (ended : Bool) :
      (do if refused ended (← kind) then unexpected expected else return v : Parse α).Accepts
        fun w input rest => w = v ∧ rest = input ∧ refused ended (nextKind input) = false := by
    refine .byKind fun kind => .ite (fun h => ?_) fun h => ?_
    · refine acceptsOn_of_fails (fun c v c' _ => unexpected_ne_ok _ c v c') ?_
      rintro c w rest ⟨-, rfl⟩ ⟨-, -, h'⟩
      rw [← c.kind_eq_nextKind, h] at h'
      cases h'
    · refine .congrKind (accepts_pure v) ?_
      rintro w input rest rfl
      simp [h]
  refine .congr ((acceptsOn_endLine earlier).bind check) ?_
  intro w input rest
  constructor
  · rintro ⟨_, _, ⟨rfl, rfl⟩, rfl, rfl, h⟩
    exact ⟨rfl, rfl, h⟩
  · rintro ⟨rfl, rfl, h⟩
    exact ⟨_, _, ⟨rfl, rfl⟩, rfl, rfl, h⟩

section Collect

variable {next? : Cursor → Option (Parse α)} {G : List Token → Prop}

theorem bind_get (f : Cursor → Parse β) (c : Cursor) : (get >>= f) c = f c c := rfl

theorem collectUpTo_nil (next? : Cursor → Option (Parse α)) (c : Cursor) :
    collectUpTo next? [] c =
      (next? c).elim (pure []) (fun item => item >>= fun first => pure [first]) c := by
  rw [collectUpTo, bind_get]
  cases next? c <;> rfl

theorem collectUpTo_cons (next? : Cursor → Option (Parse α)) (token : Token)
    (budget : List Token) (c : Cursor) :
    collectUpTo next? (token :: budget) c =
      (next? c).elim (pure []) (fun item => item >>= fun first =>
        collectUpTo next? budget >>= fun rest => pure (first :: rest)) c := by
  rw [collectUpTo, bind_get]
  cases next? c <;> rfl

theorem collectUpTo_of_none {c : Cursor} (h : next? c = none) (budget : List Token) :
    collectUpTo next? budget c = .ok [] c := by
  cases budget with
  | nil =>
    rw [collectUpTo_nil, h]
    rfl
  | cons =>
    rw [collectUpTo_cons, h]
    rfl

theorem collectUpTo_nil_of_some {c : Cursor} {item : Parse α} (h : next? c = some item) :
    collectUpTo next? [] c = (item >>= fun first => pure [first]) c := by
  rw [collectUpTo_nil, h, Option.elim_some]

theorem collectUpTo_cons_of_some {c : Cursor} {item : Parse α} (h : next? c = some item)
    (token : Token) (budget : List Token) :
    collectUpTo next? (token :: budget) c =
      (item >>= fun first => collectUpTo next? budget >>= fun rest => pure (first :: rest)) c := by
  rw [collectUpTo_cons, h, Option.elim_some]

theorem many_iff_of_stop {input rest : List Token} {vs : List α} (h : ¬ G input) :
    R.Many G vs input rest ↔ vs = [] ∧ rest = input := by
  constructor
  · intro hm
    cases hm with
    | nil => exact ⟨rfl, rfl⟩
    | cons hG => exact absurd hG h
  · rintro ⟨rfl, rfl⟩
    exact .nil h

theorem many_iff_of_go {input rest : List Token} {vs : List α} (h : G input) :
    R.Many G vs input rest ↔
      ∃ v mid ws, R v input mid ∧ R.Many G ws mid rest ∧ vs = v :: ws := by
  constructor
  · intro hm
    cases hm with
    | nil hstop => exact absurd h hstop
    | cons _ hv hws => exact ⟨_, _, _, hv, hws, rfl⟩
  · rintro ⟨v, mid, ws, hv, hws, rfl⟩
    exact .cons h hv hws

/-- Each item takes a token, so a budget of the tokens ahead is never used up. -/
theorem acceptsOn_collectUpTo (hP : ∀ {c c'}, P c → c.Reaches c' → P c') (hR : R.Consumes)
    (hnone : ∀ {c}, P c → (next? c = none ↔ ¬ G c.ahead))
    (hsome : ∀ {c item}, P c → next? c = some item → item.AcceptsOn (· = c) R)
    (budget : List Token) :
    (collectUpTo next? budget).AcceptsOn (fun c => P c ∧ c.ahead.length ≤ budget.length)
      (R.Many G) := by
  induction budget with
  | nil =>
    refine .pointwise fun c ⟨hc, hlen⟩ => ?_
    cases hnext : next? c with
    | none =>
      refine ((accepts_pure []).of_eq ?_).congrOn ?_
      · rintro _ rfl; exact collectUpTo_of_none hnext []
      · rintro _ vs rest rfl; exact (many_iff_of_stop ((hnone hc).1 hnext)).symm
    | some item =>
      have item_accepts := hsome hc hnext
      have empty (v : α) (rest : List Token) : ¬ R v c.ahead rest := fun hv =>
        Nat.not_lt_zero _ (Nat.lt_of_lt_of_le (hR hv) hlen)
      refine acceptsOn_of_fails ?_ ?_
      · rintro _ vs c' rfl run
        rw [collectUpTo_nil_of_some hnext] at run
        obtain ⟨v, mid, hrun, -⟩ := bind_eq_ok.1 run
        exact empty v _ (item_accepts.sound rfl hrun)
      · rintro _ vs rest rfl hm
        have hG : G _ := not_not.1 (mt (hnone hc).2 (by simp [hnext]))
        obtain ⟨v, mid, ws, hv, -⟩ := (many_iff_of_go hG).1 hm
        exact empty v mid hv
  | cons token budget ih =>
    refine .pointwise fun c ⟨hc, hlen⟩ => ?_
    cases hnext : next? c with
    | none =>
      refine ((accepts_pure []).of_eq ?_).congrOn ?_
      · rintro _ rfl; exact collectUpTo_of_none hnext _
      · rintro _ vs rest rfl; exact (many_iff_of_stop ((hnone hc).1 hnext)).symm
    | some item =>
      have item_accepts := hsome hc hnext
      have hG : G c.ahead := not_not.1 (mt (hnone hc).2 (by simp [hnext]))
      have both := item_accepts.bindOn (Q := fun c => P c ∧ c.ahead.length ≤ budget.length)
        (by
          rintro _ v c' rfl run
          refine ⟨hP hc (item_accepts.reaches rfl run), ?_⟩
          have := hR (item_accepts.sound rfl run)
          simp only [List.length_cons] at hlen
          omega)
        fun first => ih.bind fun rest => accepts_pure (first :: rest)
      refine (both.of_eq ?_).congrOn ?_
      · rintro _ rfl; exact collectUpTo_cons_of_some hnext token budget
      · rintro _ vs rest rfl
        rw [many_iff_of_go hG]
        constructor
        · rintro ⟨v, mid, hv, ws, _, hws, rfl, rfl⟩
          exact ⟨v, mid, ws, hv, hws, rfl⟩
        · rintro ⟨v, mid, ws, hv, hws, rfl⟩
          exact ⟨v, mid, hv, ws, rest, hws, rfl, rfl⟩

theorem acceptsOn_collect (hP : ∀ {c c'}, P c → c.Reaches c' → P c') (hR : R.Consumes)
    (hnone : ∀ {c}, P c → (next? c = none ↔ ¬ G c.ahead))
    (hsome : ∀ {c item}, P c → next? c = some item → item.AcceptsOn (· = c) R) :
    (collect next?).AcceptsOn P (R.Many G) :=
  .pointwise fun c hc =>
    ((acceptsOn_collectUpTo hP hR hnone hsome c.ahead).mono
      fun _ h => by subst h; exact ⟨hc, Nat.le_refl _⟩).of_eq fun _ h => by subst h; rfl

/-- Items that each stand behind a token of one kind. -/
theorem accepts_collect_behind {kind : Kind} (hk : kind ≠ .eof) (hp : p.Accepts R)
    (hR : R.Consumes) :
    (collect fun c => if c.kind = kind then some (do let _ ← advance; p) else none).AcceptsOn P
      (R.Behind.Many (nextKind · = kind)) := by
  refine (acceptsOn_collect (P := fun _ => True) (fun _ _ => trivial) ?_ ?_ ?_).on
  · rintro v input rest ⟨token, mid, rfl, hv⟩
    exact Nat.lt_succ_of_lt (hR hv)
  · simp [Cursor.kind_eq_nextKind]
  · intro c item _ h
    split at h
    · next hc =>
      cases h
      refine (acceptsOn_advance ?_).bind fun _ => hp
      rintro _ rfl
      rwa [hc]
    · cases h

end Collect

theorem separated_iff {vs : List α} {input rest : List Token} :
    R.Separated vs input rest ↔ ∃ v mid ws,
      R v input mid ∧ R.Behind.Many (nextKind · = .comma) ws mid rest ∧ vs = v :: ws := by
  constructor
  · intro h
    induction h with
    | last hv hnext => exact ⟨_, _, [], hv, .nil hnext, rfl⟩
    | cons hv hcomma _ ih =>
      obtain ⟨w, mid, ws, hw, hws, rfl⟩ := ih
      exact ⟨_, _, w :: ws, hv, .cons hcomma ⟨_, _, rfl, hw⟩ hws, rfl⟩
  · rintro ⟨v, mid, ws, hv, hws, rfl⟩
    induction hws generalizing v input with
    | nil hstop => exact .last hv hstop
    | cons hcomma hw _ ih =>
      obtain ⟨comma, mid', rfl, hw⟩ := hw
      exact .cons hv hcomma (ih _ hw)

theorem accepts_separated (hp : p.Accepts R) (hR : R.Consumes) :
    (separated p).AcceptsOn P R.Separated := by
  refine .congr (hp.on.bind fun first =>
    (accepts_collect_behind (by decide) hp hR).bind fun rest => accepts_pure (first :: rest)) ?_
  intro vs input rest
  rw [separated_iff]
  constructor
  · rintro ⟨v, mid, hv, ws, _, hws, rfl, rfl⟩
    exact ⟨v, mid, ws, hv, hws, rfl⟩
  · rintro ⟨v, mid, ws, hv, hws, rfl⟩
    exact ⟨v, mid, hv, ws, rest, hws, rfl, rfl⟩

end Parse

end Offside
