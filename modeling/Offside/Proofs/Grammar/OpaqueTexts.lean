import Offside.Proofs.Grammar.RenamingProductions

/-! # Opaque texts

A parse goes by the kinds of the tokens. Their texts, but for those of numbers and truth values, end
up in the tree as they are, and their places in the error.
-/

namespace Offside

/-- The same kinds with other texts, at other places. -/
def renameTokens (g : String → String) (spans : Nat → Span) (tokens : List Token) : List Token :=
  tokens.mapIdx fun index token => ⟨token.kind, token.kind.renameText g token.value, spans index⟩

/-- Parsing fails with a cause, and the token at an index is blamed for it. The end of the input
counts as a token, also where it is not written. -/
def RefusedAt (tokens : List Token) (file : String) (limit : Nat) (cause : Cause) (index : Nat) :
    Prop :=
  ∃ token, (Cursor.ofTokens tokens file).toList[index]? = some token ∧
    parse tokens file limit = .error ⟨cause, token.span.start⟩

/-! ## Streams that correspond -/

section Streams

variable {r : Renaming} {tokens tokens' : List Token} {p : Token → Bool}

theorem forall₂_takeWhile (h : List.Forall₂ (Token.Renamed r) tokens tokens')
    (hp : ∀ token token' : Token, token'.kind = token.kind → p token' = p token) :
    List.Forall₂ (Token.Renamed r) (tokens.takeWhile p) (tokens'.takeWhile p) := by
  induction h with
  | nil => exact .nil
  | cons htoken _ ih =>
    rw [List.takeWhile_cons, List.takeWhile_cons, hp _ _ htoken.kind]
    split
    · exact .cons htoken ih
    · exact .nil

theorem forall₂_dropWhile (h : List.Forall₂ (Token.Renamed r) tokens tokens')
    (hp : ∀ token token' : Token, token'.kind = token.kind → p token' = p token) :
    List.Forall₂ (Token.Renamed r) (tokens.dropWhile p) (tokens'.dropWhile p) := by
  induction h with
  | nil => exact .nil
  | cons htoken htokens ih =>
    rw [List.dropWhile_cons, List.dropWhile_cons, hp _ _ htoken.kind]
    split
    · exact ih
    · exact .cons htoken htokens

theorem trailing?_renamed (h : List.Forall₂ (Token.Renamed r) tokens tokens') :
    Option.Rel (Token.Renamed r) (trailing? tokens) (trailing? tokens') := by
  have hdrop := forall₂_dropWhile (p := (·.kind != .eof)) h fun _ _ hkind => by rw [hkind]
  unfold trailing?
  generalize tokens.dropWhile _ = rest, tokens'.dropWhile _ = rest' at hdrop
  induction hdrop with
  | nil => exact .none
  | cons htoken _ ih =>
    rw [List.find?_cons, List.find?_cons, htoken.kind]
    split
    · exact .some htoken
    · exact ih

theorem Cursor.renamed_ofTokens {file file' : String}
    (h : List.Forall₂ (Token.Renamed r) tokens tokens')
    (hstop : r.Related (ofTokens tokens file).stop (ofTokens tokens' file').stop) :
    (ofTokens tokens file).Renamed r (ofTokens tokens' file') where
  previous?_eq := by
    rw [previous?, previous?, Parse.passed_ofTokens, Parse.passed_ofTokens]
  ahead := by
    rw [ahead_ofTokens, ahead_ofTokens]
    exact forall₂_takeWhile h fun _ _ hkind => by rw [hkind]
  stop := hstop

end Streams

/-! ## Numbered places -/

/-- As many places as one wants, no two of which are the same. -/
def Position.numbered (index : Nat) : Position :=
  .first (String.ofList (List.replicate index 'x'))

theorem Position.numbered_injective : Function.Injective numbered := by
  intro index index' h
  have hfile : List.replicate index 'x' = List.replicate index' 'x' :=
    String.ofList_injective (congrArg Position.file h)
  simpa using congrArg List.length hfile

/-- Each token at a place of its own. -/
def numberTokens (tokens : List Token) : List Token :=
  renameTokens id (fun index => ⟨.numbered index, .numbered (index + 1)⟩) tokens

theorem Kind.renameText_id (kind : Kind) (text : String) : kind.renameText id text = text := by
  unfold Kind.renameText
  split <;> rfl

theorem Cause.rename_id (cause : Cause) : cause.rename id = cause := by
  cases cause with
  | unexpected text kind expected => rw [rename, Kind.renameText_id]
  | _ => rfl

/-- Where a token stood before does not matter. -/
theorem renameTokens_numberTokens (g : String → String) (spans : Nat → Span)
    (tokens : List Token) :
    renameTokens g spans (numberTokens tokens) = renameTokens g spans tokens := by
  simp only [numberTokens, renameTokens, List.mapIdx_mapIdx, Function.comp_def,
    Kind.renameText_id]

/-- The end of the input has a place of its own, too. -/
theorem start_of_numberTokens {tokens : List Token} {index : Nat} {token : Token}
    (h : (Cursor.ofTokens (numberTokens tokens) "").toList[index]? = some token) :
    token.span.start = .numbered index := by
  have hlength : (numberTokens tokens).length = tokens.length := List.length_mapIdx
  have hwritten (h : (numberTokens tokens)[index]? = some token) :
      token.span.start = .numbered index := by
    rw [numberTokens, renameTokens, List.getElem?_mapIdx, Option.map_eq_some_iff] at h
    obtain ⟨_, -, rfl⟩ := h
    rfl
  rcases Cursor.toList_ofTokens (numberTokens tokens) "" with heq | heq
  · exact hwritten (heq ▸ h)
  · rw [heq] at h
    rcases Nat.lt_trichotomy index tokens.length with hlt | rfl | hgt
    · rw [List.getElem?_append_left (hlength ▸ hlt)] at h
      exact hwritten h
    · rw [← hlength, List.getElem?_concat_length, Option.some.injEq] at h
      rw [← h]
      rcases List.eq_nil_or_concat' tokens with rfl | ⟨init, last, rfl⟩
      · rfl
      · simp [Cursor.impliedEof, numberTokens, renameTokens, Token.eof, Span.empty]
    · rw [List.getElem?_eq_none (by simp only [List.length_append, hlength]; exact hgt)] at h
      cases h

variable {tokens : List Token} {file : String} {limit : Nat}

/-- There a token is known by the place of the error. -/
theorem refusedAt_numberTokens_unique {cause cause' : Cause} {index index' : Nat}
    (h : RefusedAt (numberTokens tokens) "" limit cause index)
    (h' : RefusedAt (numberTokens tokens) "" limit cause' index') :
    cause' = cause ∧ index' = index := by
  obtain ⟨token, htoken, hparse⟩ := h
  obtain ⟨token', htoken', hparse'⟩ := h'
  rw [hparse'] at hparse
  simp only [Except.error.injEq, SyntaxError.mk.injEq, start_of_numberTokens htoken,
    start_of_numberTokens htoken'] at hparse
  exact ⟨hparse.1, Position.numbered_injective hparse.2⟩

/-! ## Two parses -/

theorem parse_of_trailing {token : Token} (h : trailing? tokens = some token) :
    parse tokens file limit =
      .error ⟨.unexpected token.value token.kind "end of input", token.span.start⟩ := by
  rw [parse, h]

theorem parse_of_program_ok (h : trailing? tokens = none) {body : List Node} {c : Cursor}
    (hrun : Grammar.program limit (Cursor.ofTokens tokens file) = .ok body c) :
    parse tokens file limit = .ok ⟨body⟩ := by
  rw [parse, h]
  simp only [EStateM.run, hrun]

theorem parse_of_program_error (h : trailing? tokens = none) {error : SyntaxError} {c : Cursor}
    (hrun : Grammar.program limit (Cursor.ofTokens tokens file) = .error error c) :
    parse tokens file limit = .error error := by
  rw [parse, h]
  simp only [EStateM.run, hrun]

theorem getElem?_toList_ofTokens {index : Nat} (file : String) (hlt : index < tokens.length) :
    (Cursor.ofTokens tokens file).toList[index]? = some (tokens.get ⟨index, hlt⟩) := by
  rcases Cursor.toList_ofTokens tokens file with heq | heq
  · rw [heq, List.getElem?_eq_getElem hlt, List.get_eq_getElem]
  · rw [heq, List.getElem?_append_left hlt, List.getElem?_eq_getElem hlt, List.get_eq_getElem]

theorem getElem?_toList_stop (tokens : List Token) (file : String) :
    let c := Cursor.ofTokens tokens file
    c.toList[c.ahead.length]? = some c.stop := by
  intro c
  rw [Cursor.toList, show c.passed = [] from Parse.passed_ofTokens tokens file]
  simp

/-- Parsing renamed tokens gives the renamed tree, or the renamed error at the same token. -/
theorem parse_or_refusedAt {g : String → String} (hg : Function.Injective g) (spans : Nat → Span)
    (tokens : List Token) (file file' : String) (limit : Nat) :
    (∃ program, parse tokens file limit = .ok program ∧
      parse (renameTokens g spans tokens) file' limit = .ok (program.rename g)) ∨
    ∃ cause index, RefusedAt tokens file limit cause index ∧
      RefusedAt (renameTokens g spans tokens) file' limit (cause.rename g) index := by
  let c := Cursor.ofTokens tokens file
  let c' := Cursor.ofTokens (renameTokens g spans tokens) file'
  let r : Renaming := ⟨g, hg, fun token token' =>
    ∃ index : Nat, c.toList[index]? = some token ∧ c'.toList[index]? = some token'⟩
  have htokens : List.Forall₂ (Token.Renamed r) tokens (renameTokens g spans tokens) := by
    refine List.forall₂_iff_get.2 ⟨List.length_mapIdx.symm, fun index hlt hlt' => ?_⟩
    refine ⟨?_, ?_, index, getElem?_toList_ofTokens _ hlt, getElem?_toList_ofTokens _ hlt'⟩
    · simp [renameTokens]
    · simp [renameTokens, r]
  have hahead : c'.ahead.length = c.ahead.length := by
    rw [ahead_ofTokens, ahead_ofTokens]
    exact (forall₂_takeWhile htokens fun _ _ hkind => by rw [hkind]).length_eq.symm
  have hcursor : c.Renamed r c' := Cursor.renamed_ofTokens htokens
    ⟨_, getElem?_toList_stop tokens file, hahead ▸ getElem?_toList_stop _ file'⟩
  have htrailing := trailing?_renamed htokens
  generalize htoken : trailing? tokens = token,
    htoken' : trailing? (renameTokens g spans tokens) = token' at htrailing
  cases htrailing with
  | @some token token' hrenamed =>
    obtain ⟨hkind, hvalue, index, hindex, hindex'⟩ := hrenamed
    refine .inr ⟨.unexpected token.value token.kind "end of input", index,
      ⟨token, hindex, parse_of_trailing htoken⟩, token', hindex', ?_⟩
    rw [parse_of_trailing htoken', hkind, hvalue]
    rfl
  | none =>
    have hruns := renames_program limit c hcursor
    generalize hrun : Grammar.program limit c = run, hrun' : Grammar.program limit c' = run'
      at hruns
    cases hruns with
    | @ok body _ _ _ hbody _ =>
      refine .inl ⟨⟨body⟩, parse_of_program_ok htoken hrun, ?_⟩
      rw [parse_of_program_ok htoken' hrun', hbody]
      rfl
    | @error error _ _ _ herror =>
      obtain ⟨hcause, token, token', ⟨index, hindex, hindex'⟩, -, hplace, hplace'⟩ := herror
      refine .inr ⟨error.cause, index, ⟨token, hindex, ?_⟩, token', hindex', ?_⟩
      · rw [parse_of_program_error htoken hrun, ← hplace]
      · rw [parse_of_program_error htoken' hrun', ← hplace', ← hcause]

/-- Whether a token list is accepted is a matter of its kinds, its numerals and its truth values.
Where it is, the tree of the renamed list is the renamed tree. Where it is not, one token is blamed
for one cause, whatever the other texts are and wherever the tokens stand. -/
theorem parse_renameTokens (tokens : List Token) (file : String) (limit : Nat) :
    (∃ program, parse tokens file limit = .ok program ∧
      ∀ g : String → String, Function.Injective g → ∀ (spans : Nat → Span) (file' : String),
        parse (renameTokens g spans tokens) file' limit = .ok (program.rename g)) ∨
    ∃ cause index, RefusedAt tokens file limit cause index ∧
      ∀ g : String → String, Function.Injective g → ∀ (spans : Nat → Span) (file' : String),
        RefusedAt (renameTokens g spans tokens) file' limit (cause.rename g) index := by
  rcases parse_or_refusedAt Function.injective_id
      (fun index => ⟨.numbered index, .numbered (index + 1)⟩) tokens file "" limit with
    ⟨program, hparse, -⟩ | ⟨cause, index, hrefused, hnumbered⟩
  · refine .inl ⟨program, hparse, fun g hg spans file' => ?_⟩
    rcases parse_or_refusedAt hg spans tokens file file' limit with
      ⟨program', hparse', hrenamed⟩ | ⟨cause, index, ⟨token, -, hrefused⟩, -⟩
    · rw [hparse] at hparse'
      cases hparse'
      exact hrenamed
    · rw [hparse] at hrefused
      cases hrefused
  · refine .inr ⟨cause, index, hrefused, fun g hg spans file' => ?_⟩
    rw [Cause.rename_id] at hnumbered
    -- The numbered tokens settle the index before anything is renamed.
    rcases parse_or_refusedAt hg spans (numberTokens tokens) "" file' limit with
      ⟨program, hparse, -⟩ | ⟨cause', index', hnumbered', hrenamed⟩
    · obtain ⟨token, -, hparse'⟩ := hnumbered
      rw [← numberTokens, hparse] at hparse'
      cases hparse'
    · obtain ⟨rfl, rfl⟩ := refusedAt_numberTokens_unique hnumbered hnumbered'
      rwa [renameTokens_numberTokens] at hrenamed

/-- A longer name for each field of an object and for its value. -/
theorem parse_renameTokens_object :
    let tokens : List Token := [⟨.openCurly, "\x7b", default⟩, ⟨.identifier, "left", default⟩,
      ⟨.colon, ":", default⟩, ⟨.boolean, "true", default⟩, ⟨.comma, ",", default⟩,
      ⟨.identifier, "right", default⟩, ⟨.colon, ":", default⟩, ⟨.identifier, "x", default⟩,
      ⟨.closeCurly, "\x7d", default⟩]
    let longer (text : String) := "my_" ++ text
    Function.Injective longer ∧
      parse (renameTokens longer (fun _ => .empty (.first "other")) tokens) "" 8 =
        .ok ⟨[.object [("my_left", .boolean true), ("my_right", .identifier "my_x")]]⟩ := by
  intro tokens longer
  have hlonger : Function.Injective longer := fun _ _ h => String.append_right_inj _ |>.1 h
  have hparse : parse tokens "" 8 =
      .ok ⟨[.object [("left", .boolean true), ("right", .identifier "x")]]⟩ := rfl
  refine ⟨hlonger, ?_⟩
  rcases parse_renameTokens tokens "" 8 with
    ⟨program, hparse', hrenamed⟩ | ⟨cause, index, ⟨token, -, hrefused⟩, -⟩
  · rw [hparse] at hparse'
    cases hparse'
    rw [hrenamed longer hlonger]
    simp [Program.rename, Node.rename, Node.renamePairs, longer]
  · rw [hparse] at hrefused
    cases hrefused

end Offside
