import Offside.Proofs.Grammar.FramedProductions
import Offside.Proofs.Grammar.LookaheadProductions
import Offside.Session

/-! # What an operation keeps

An operation moves the cursor of a session forward. The tables, the limit and the count of the open
levels are part of the state that a parse runs on, and each parse leaves them as it found them, also
where it fails inside a level. Only a command for the tables changes them. So every state that a
session gets into stands in the stream it was started on, and no further than its first end-of-file
token.
-/

namespace Offside

/-! ## Places in a stream -/

namespace Cursor

/-- The place of the current token in the stream. -/
def index (cursor : Cursor) : Nat :=
  cursor.passed.length

/-- The place of the first end-of-file token. -/
def firstEof (tokens : List Token) : Nat :=
  tokens.findIdx (·.kind = .eof)

variable {c c' : Cursor}

theorem getElem?_index (c : Cursor) : c.toList[c.index]? = some c.current := by
  rw [toList, List.getElem?_append_right (by simp [index])]
  cases hahead : c.ahead with
  | nil => simp [index, current, hahead]
  | cons token rest => simp [index, current, hahead]

theorem firstEof_toList (h : c.passed = []) : firstEof c.toList = c.ahead.length := by
  have hahead : c.ahead.findIdx (·.kind = .eof) = c.ahead.length :=
    List.findIdx_eq_length_of_false fun token hmem =>
      decide_eq_false (c.kind_ne_eof_of_mem_ahead token hmem)
  rw [firstEof, toList, h, List.reverse_nil, List.nil_append, List.findIdx_append, hahead,
    if_neg (Nat.lt_irrefl _), List.findIdx_cons, decide_eq_true c.kind_stop]
  exact Nat.zero_add _

theorem Reaches.toList_eq (h : c.Reaches c') : c'.toList = c.toList := by
  obtain ⟨text, hahead, hpassed, hstop, hbeyond, -⟩ := h
  simp [toList, hahead, hpassed, hstop, hbeyond]

theorem Reaches.index_add_length (h : c.Reaches c') :
    c'.index + c'.ahead.length = c.index + c.ahead.length := by
  obtain ⟨text, hahead, hpassed, -⟩ := h
  rw [index, index, hpassed, hahead, List.length_append, List.length_append, List.length_reverse]
  omega

/-- The first end-of-file token of a stream is the one at which its cursor stops. -/
theorem firstEof_of_reaches {tokens : List Token} {file : String}
    (h : (ofTokens tokens file).Reaches c) : firstEof c.toList = c.index + c.ahead.length := by
  have hpassed := Parse.passed_ofTokens tokens file
  rw [h.toList_eq, h.index_add_length, firstEof_toList hpassed, index, hpassed, List.length_nil,
    Nat.zero_add]

end Cursor

/-! ## Commands and replies -/

mutual

/-- Whether a command sets entries of the tables, by itself or by commands nested in it. -/
def Command.setsTables : Command → Bool
  | .install | .setOperand .. | .setStatement .. | .setOperator .. => true
  | .nested commands => Command.anySetsTables commands
  | _ => false

def Command.anySetsTables : List Command → Bool
  | [] => false
  | command :: rest => command.setsTables || Command.anySetsTables rest

end

/-- The trees that a reply consists of. -/
def Reply.trees : Reply → List Node
  | .node tree => [tree]
  | .nodes trees => trees
  | .caseArms arms => arms.map (·.2)
  | .caseArm arm => [arm.2]
  | _ => []

namespace Session

open Parse

/-- A later state of a session, on the same level of the same stream. The tables may be others if
they were to be set. -/
structure Keeps (setsTables : Bool) (session later : Session) : Prop where
  limit : later.frame.limit = session.frame.limit
  depth : later.frame.depth = session.frame.depth
  tables : setsTables = false → later.frame.tables = session.frame.tables
  reaches : session.Reaches (later.inFrame session.frame)

variable {α : Type} {session : Session}

theorem Keeps.refl (setsTables : Bool) (session : Session) : session.Keeps setsTables session where
  limit := rfl
  depth := rfl
  tables _ := rfl
  reaches := .refl session

theorem Keeps.trans {s₁ s₂ : Bool} {mid last : Session} (h : session.Keeps s₁ mid)
    (h' : mid.Keeps s₂ last) : session.Keeps (s₁ || s₂) last where
  limit := h'.limit.trans h.limit
  depth := h'.depth.trans h.depth
  tables hnone := by
    obtain ⟨hfirst, hsecond⟩ := Bool.or_eq_false_iff.1 hnone
    exact (h'.tables hsecond).trans (h.tables hfirst)
  reaches := h.reaches.trans (h'.reaches.inFrame session.frame)

/-- What is kept within a level is kept where the level is closed again. -/
theorem Keeps.leave {setsTables : Bool} {later : Session}
    (h : Keeps setsTables session.enter later) : session.Keeps setsTables later.leave where
  limit := h.limit
  depth := congrArg (· - 1) h.depth
  tables := h.tables
  reaches := h.reaches.inFrame session.frame

theorem keeps_withTables (session : Session) (tables : Tables) :
    session.Keeps true (session.withTables tables).2 where
  limit := rfl
  depth := rfl
  tables := nofun
  reaches := .refl session

section Run

variable {p q : Parse α} {reply : α → Reply} {later : Session}

theorem run_of_ok {value : α} (h : p session = .ok value later) :
    session.run p reply = (reply value, later) := by
  rw [run, h]

theorem run_of_error {error : SyntaxError} (h : p session = .error error later) :
    session.run p reply = (.failed error, later) := by
  rw [run, h]

/-- A parse that runs in the frame of a session as one does that only passes tokens leaves the
session in its frame. -/
theorem keeps_run (hp : Tracks session.frame p q session)
    (hq : session.Reaches (ending (q session))) : session.Keeps false (session.run p reply).2 := by
  have hrun : p session = inFrame session.frame (q session) := hp
  cases hresult : q session with
  | ok value later =>
    rw [hresult] at hrun hq
    rw [run_of_ok hrun]
    exact ⟨rfl, rfl, fun _ => rfl, hq.inFrame session.frame⟩
  | error error later =>
    rw [hresult] at hrun hq
    rw [run_of_error hrun]
    exact ⟨rfl, rfl, fun _ => rfl, hq.inFrame session.frame⟩

/-- A parse that fails answers with no tree. -/
theorem length_lt_run (hp : Tracks session.frame p q session)
    (hq : ∀ v c, q session = .ok v c → (reply v).trees ≠ [] →
      c.ahead.length < session.ahead.length)
    (h : (session.run p reply).1.trees ≠ []) :
    (session.run p reply).2.ahead.length < session.ahead.length := by
  have hrun : p session = inFrame session.frame (q session) := hp
  cases hresult : q session with
  | ok value later =>
    rw [hresult] at hrun
    rw [run_of_ok hrun] at h ⊢
    exact hq value later hresult h
  | error error later =>
    rw [hresult] at hrun
    rw [run_of_error hrun] at h
    exact absurd rfl h

end Run

theorem reaches_expectOr (kind : Kind) (refusal : Cursor → SyntaxError) (c : Cursor) :
    c.Reaches (ending (expectOr kind refusal c)) := by
  change c.Reaches (ending ((if c.kind = kind then advance else throw (refusal c)) c))
  split
  · exact c.reaches_next
  · exact .refl c

/-- The grammar that a session's productions are compared with: no level is counted in it. -/
def uncounted (session : Session) : Grammar :=
  .within session.frame.tables session.frame.limit (session.frame.limit - session.frame.depth)

theorem tracks_uncounted (session : Session) :
    session.grammar.Tracks session.frame session.uncounted :=
  Grammar.tracks_counting session.frame

theorem local_uncounted (session : Session) : session.uncounted.Local Eq :=
  Grammar.local_within _ _ _

mutual

theorem keeps_execute (session : Session) (command : Command) :
    session.Keeps command.setsTables (session.execute command).2 := by
  have ht := session.tracks_uncounted
  have hg := session.local_uncounted
  cases command with
  | install | setOperand | setStatement | setOperator => exact keeps_withTables session _
  | token | kind | peek | previous | atEnd | place | position | unexpected | layoutError | lookUp =>
    exact .refl false session
  | advance => exact keeps_run tracks_advance session.reaches_next
  | skipTerminators =>
    exact keeps_run tracks_skipTerminators (local_skipTerminators (Q := Eq)).reaches
  | endLine => exact keeps_run tracks_endLine (local_endLine (Q := Eq)).reaches
  | expect kind refusal? =>
    cases refusal? with
    | none => exact keeps_run tracks_expect (reaches_expectOr kind _ session)
    | some refusal => exact keeps_run (tracks_expectOr kind rfl) (reaches_expectOr kind _ session)
  | nested commands =>
    -- The level that is counted while these are carried out is discounted behind them.
    rw [execute]
    split
    · exact .refl _ _
    · exact (keeps_executeAll session.enter commands).leave
  | parse rule => exact keeps_run (Grammar.tracks_rule ht rule) (Grammar.takes_rule hg rule).reaches
  | inner power => exact keeps_run (ht.nested.inner power _) (hg.nested.inner power _).reaches
  | operate =>
    exact keeps_run (Grammar.tracks_operate ht ..) (Grammar.takes_operate hg ..).reaches
  | block => exact keeps_run (ht.nested.block _) (hg.nested.block _).reaches
  | blockOrExpression =>
    exact keeps_run (Grammar.tracks_blockOrExpression ht)
      (Grammar.takes_blockOrExpression hg).reaches
  | sequenceBlock =>
    exact keeps_run (ht.nested.sequenceBlock _) (hg.nested.sequenceBlock _).reaches
  | body stop =>
    exact keeps_run (Grammar.tracks_bodyUntil ht stop) (Grammar.local_bodyUntil hg stop).reaches
  | caseArms => exact keeps_run (Grammar.tracks_caseArms ht) (Grammar.takes_caseArms hg).reaches
  | caseArm => exact keeps_run (Grammar.tracks_caseArm ht) (Grammar.takes_caseArm hg).reaches
  | casePattern =>
    exact keeps_run Grammar.tracks_casePattern (Grammar.takes_casePattern (Q := Eq)).reaches
  | params => exact keeps_run Grammar.tracks_params (Grammar.local_params (Q := Eq)).reaches
  | optionalParams =>
    exact keeps_run Grammar.tracks_optionalParams (Grammar.local_optionalParams (Q := Eq)).reaches
  | param => exact keeps_run Grammar.tracks_param (Grammar.takes_param (Q := Eq)).reaches
  | optionalType =>
    exact keeps_run Grammar.tracks_optionalType (Grammar.local_optionalType (Q := Eq)).reaches
  | typeName => exact keeps_run (Grammar.tracks_nameAs _) (Grammar.takes_nameAs (Q := Eq) _).reaches

theorem keeps_executeAll (session : Session) (commands : List Command) :
    session.Keeps (Command.anySetsTables commands) (session.executeAll commands).2 := by
  cases commands with
  | nil => exact .refl false session
  | cons command rest =>
    exact (keeps_execute session command).trans (keeps_executeAll _ rest)

end

/-- An operation that answers with a tree has passed a token. -/
theorem length_lt_execute {command : Command} (h : (session.execute command).1.trees ≠ []) :
    (session.execute command).2.ahead.length < session.ahead.length := by
  have ht := session.tracks_uncounted
  have hg := session.local_uncounted
  have takes {α : Type} {p q : Parse α} {reply : α → Reply}
      (hp : Tracks session.frame p q session) (hq : TakesAt Eq q session)
      (h : (session.run p reply).1.trees ≠ []) :
      (session.run p reply).2.ahead.length < session.ahead.length :=
    length_lt_run hp (fun _ _ hrun _ => hq.length_lt hrun) h
  have treeless {α : Type} {p : Parse α} {reply : α → Reply} (hnone : ∀ v, (reply v).trees = [])
      (h : (session.run p reply).1.trees ≠ []) :
      (session.run p reply).2.ahead.length < session.ahead.length := by
    cases hrun : p session with
    | ok value later => exact absurd (hnone value) (by rwa [run_of_ok hrun] at h)
    | error error later => exact absurd rfl (by rwa [run_of_error hrun] at h)
  cases command with
  | parse rule => exact takes (Grammar.tracks_rule ht rule) (Grammar.takes_rule hg rule) h
  | inner power => exact takes (ht.nested.inner power _) (hg.nested.inner power _) h
  | operate => exact takes (Grammar.tracks_operate ht ..) (Grammar.takes_operate hg ..) h
  | block => exact takes (ht.nested.block _) (hg.nested.block _) h
  | blockOrExpression =>
    exact takes (Grammar.tracks_blockOrExpression ht) (Grammar.takes_blockOrExpression hg) h
  | sequenceBlock => exact takes (ht.nested.sequenceBlock _) (hg.nested.sequenceBlock _) h
  | body stop =>
    refine length_lt_run (Grammar.tracks_bodyUntil ht stop) (fun trees c hrun hne => ?_) h
    have hle := Grammar.length_add_length_le_of_linesUntil (fun _ => Grammar.takes_line hg) hrun
    have hpos : 0 < trees.length := List.length_pos_iff.2 hne
    omega
  | caseArms => exact takes (Grammar.tracks_caseArms ht) (Grammar.takes_caseArms hg) h
  | caseArm => exact takes (Grammar.tracks_caseArm ht) (Grammar.takes_caseArm hg) h
  | advance | skipTerminators | endLine | casePattern | params | optionalParams | param
  | optionalType | typeName => exact treeless (fun _ => rfl) h
  | expect kind refusal? =>
    cases refusal? with
    | none => exact treeless (fun _ => rfl) h
    | some refusal => exact treeless (fun _ => rfl) h
  | nested commands =>
    rw [execute] at h
    split at h
    · exact absurd rfl h
    · exact absurd rfl h
  | _ => exact absurd rfl h

/-! ## Every state of a session -/

variable {tokens : List Token} {file : String} {limit : Nat}

/-- The states that a session gets into: with any tables at the start, by operations, and within a
nesting level that one of them opens. -/
inductive Reachable (tokens : List Token) (file : String) (limit : Nat) : Session → Prop where
  | start (tables : Tables) :
    Reachable tokens file limit ((Session.start tokens file limit).withTables tables).2
  | execute {session : Session} (command : Command) (h : Reachable tokens file limit session) :
    Reachable tokens file limit (session.execute command).2
  | enter {session : Session} (h : Reachable tokens file limit session)
    (hlt : session.frame.depth < session.frame.limit) : Reachable tokens file limit session.enter

/-- Such a state has the limit of the start, and it has passed tokens of the stream. -/
theorem Reachable.reaches (h : Reachable tokens file limit session) :
    session.frame.limit = limit ∧ (Cursor.ofTokens tokens file).Reaches
      (session.inFrame (Cursor.ofTokens tokens file).frame) := by
  induction h with
  | start tables => exact ⟨rfl, .refl _⟩
  | @execute before command _ ih =>
    have hkeeps := keeps_execute before command
    exact ⟨hkeeps.limit.trans ih.1, ih.2.trans (hkeeps.reaches.inFrame _)⟩
  | enter _ _ ih => exact ih

theorem Reachable.executeAll (h : Reachable tokens file limit session) (commands : List Command) :
    Reachable tokens file limit (session.executeAll commands).2 := by
  induction commands generalizing session with
  | nil => exact h
  | cons command rest ih => exact ih (h.execute command)

/-- Whatever an operation answers, the stream and the limit are those of the start, as many levels
are open as before, and the tables are the same unless they were to be set. The cursor has not moved
back, and it stands at a token of the stream, at the first end-of-file token at the latest. If the
answer is a tree, it has moved on. Where the tables have a token handed on without end, no parse
would answer at all: the refusal that stands in for it (`Grammar.runRule_of_endless`) keeps as
much. -/
theorem execute_of_reachable (h : Reachable tokens file limit session) (command : Command) :
    let reply := (session.execute command).1
    let after := (session.execute command).2
    after.toList = (Cursor.ofTokens tokens file).toList ∧ after.frame.limit = limit ∧
      (command.setsTables = false → after.frame.tables = session.frame.tables) ∧
      after.frame.depth = session.frame.depth ∧ session.index ≤ after.index ∧
      after.index ≤ Cursor.firstEof after.toList ∧
      after.toList[after.index]? = some after.current ∧
      (reply.trees ≠ [] → session.index < after.index) := by
  intro reply after
  obtain ⟨hlimit, hreaches⟩ := h.reaches
  have hkeeps := keeps_execute session command
  have hstream := hreaches.trans (hkeeps.reaches.inFrame _)
  have hindex : after.index + after.ahead.length = session.index + session.ahead.length :=
    hkeeps.reaches.index_add_length
  have hlength : after.ahead.length ≤ session.ahead.length := hkeeps.reaches.length_le
  have hfirst : Cursor.firstEof after.toList = after.index + after.ahead.length :=
    (Cursor.firstEof_of_reaches hstream :)
  refine ⟨hstream.toList_eq, hkeeps.limit.trans hlimit, hkeeps.tables, hkeeps.depth, by omega,
    by omega, Cursor.getElem?_index _, fun htrees => ?_⟩
  have hlt : after.ahead.length < session.ahead.length := length_lt_execute htrees
  omega

/-- A parse that goes on behind the token at which one before it has failed, two levels in. -/
theorem execute_of_reachable_retry :
    let tokens : List Token :=
      [⟨.openParen, "(", default⟩, ⟨.closeParen, ")", default⟩, ⟨.identifier, "x", default⟩]
    let session := ((Session.start tokens "" 8).executeAll
      [.install, .nested [.parse .expression], .advance]).2
    let reply := (session.execute (.parse .expression)).1
    let after := (session.execute (.parse .expression)).2
    Reachable tokens "" 8 session ∧ reply.trees = [.identifier "x"] ∧
      after.toList = (Cursor.ofTokens tokens "").toList ∧ after.frame.limit = 8 ∧
      after.frame.tables = session.frame.tables ∧ after.frame.depth = 0 ∧
      session.index < after.index ∧ after.index ≤ Cursor.firstEof after.toList ∧
      after.toList[after.index]? = some after.current := by
  intro tokens session
  have hreachable : Reachable tokens "" 8 session := (Reachable.start .empty).executeAll _
  have htrees : (session.execute (.parse .expression)).1.trees = [.identifier "x"] := rfl
  obtain ⟨hstream, hlimit, htables, hdepth, -, heof, hcurrent, hnode⟩ :=
    execute_of_reachable hreachable (.parse .expression)
  refine ⟨hreachable, htrees, hstream, hlimit, htables (by rfl), hdepth, hnode ?_, heof, hcurrent⟩
  rw [htrees]
  exact List.cons_ne_nil _ _

/-! ## Whole programs -/

/-- Under the standard tables a session answers with the program that its tokens stand for, or with
the error that they are refused with. -/
theorem reply_body_of_install (h : trailing? tokens = none) :
    let installed := ((Session.start tokens file limit).execute .install).2
    (installed.execute (.body .eof)).1 =
      match parse tokens file limit with
      | .ok program => .nodes program.body
      | .error error => .failed error := by
  intro installed
  have hinstalled : installed = (Cursor.ofTokens tokens file).inFrame ⟨.standard, limit, 0⟩ := by
    change Cursor.inFrame _ ⟨Tables.empty.install, limit, 0⟩ = _
    rw [Tables.install_empty]
    rfl
  have hbody : installed.grammar.bodyUntil .eof installed =
      inFrame installed.frame (Grammar.program limit (Cursor.ofTokens tokens file)) := by
    rw [hinstalled]
    exact Grammar.tracks_bodyUntil (Grammar.tracks_counting ⟨.standard, limit, 0⟩) .eof
  rw [parse, h]
  change (installed.run (installed.grammar.bodyUntil .eof) Reply.nodes).1 = _
  rw [EStateM.run]
  cases hrun : Grammar.program limit (Cursor.ofTokens tokens file) with
  | ok body later =>
    rw [hrun] at hbody
    rw [run_of_ok hbody]
  | error error later =>
    rw [hrun] at hbody
    rw [run_of_error hbody]

end Session

end Offside
