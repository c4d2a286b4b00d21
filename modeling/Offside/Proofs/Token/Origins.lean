import Mathlib.Data.List.Forall2
import Offside.Proofs.Lexeme.Extents
import Offside.Token.Stream

/-! # Origins of tokens

Where the tokens of a stream come from. A token is a mark before a line or behind the last one, the
end of the source, or the meaning of a piece of a line, and then it has the place of the piece.
-/

namespace Offside

namespace Token

/-- The offset of a token. -/
def start (token : Token) : Nat :=
  token.span.start.offset.toNat

/-- The offset just after a token. -/
def stop (token : Token) : Nat :=
  token.span.stop.offset.toNat

end Token

section Forall₂

variable {α β : Type} {R : α → β → Prop} {items : List α} {results : List β}

theorem forall₂_of_mapM {ε : Type} {f : α → Except ε β} (h : items.mapM f = .ok results) :
    List.Forall₂ (fun item result => f item = .ok result) items results := by
  induction items generalizing results with
  | nil =>
    cases h
    exact .nil
  | cons item items ih =>
    rw [List.mapM_cons] at h
    cases hitem : f item with
    | error => simp [hitem, bind, Except.bind] at h
    | ok result =>
      cases hitems : items.mapM f with
      | error => simp [hitem, hitems, bind, Except.bind] at h
      | ok more =>
        simp only [hitem, hitems, bind, Except.bind, pure, Except.pure, Except.ok.injEq] at h
        subst h
        exact .cons hitem (ih hitems)

theorem exists_of_mapM_eq_error {ε : Type} {f : α → Except ε β} {error : ε}
    (h : items.mapM f = .error error) : ∃ item ∈ items, f item = .error error := by
  induction items with
  | nil => cases h
  | cons item items ih =>
    rw [List.mapM_cons] at h
    cases hitem : f item with
    | error =>
      rw [hitem] at h
      cases h
      exact ⟨item, List.mem_cons_self, hitem⟩
    | ok result =>
      cases hitems : items.mapM f with
      | error =>
        rw [hitem, hitems] at h
        cases h
        obtain ⟨other, hmem, hother⟩ := ih hitems
        exact ⟨other, List.mem_cons_of_mem item hmem, hother⟩
      | ok => simp [hitem, hitems, bind, Except.bind, pure, Except.pure] at h

theorem exists_of_forall₂ (h : List.Forall₂ R items results) {item : α} (hmem : item ∈ items) :
    ∃ result ∈ results, R item result := by
  induction h with
  | nil => cases hmem
  | @cons first result _ _ hfirst _ ih =>
    rcases List.mem_cons.1 hmem with rfl | hmem
    · exact ⟨result, List.mem_cons_self, hfirst⟩
    · obtain ⟨other, hother, hrel⟩ := ih hmem
      exact ⟨other, List.mem_cons_of_mem result hother, hrel⟩

theorem pairwise_of_forall₂ {P : α → α → Prop} {Q : β → β → Prop} (h : List.Forall₂ R items results)
    (hitems : items.Pairwise P) (step : ∀ {a b c d}, R a c → R b d → P a b → Q c d) :
    results.Pairwise Q := by
  induction h with
  | nil => exact .nil
  | cons hfirst hrest ih =>
    obtain ⟨hhead, htail⟩ := List.pairwise_cons.1 hitems
    refine .cons (fun other hother => ?_) (ih htail)
    obtain ⟨item, hmem, hrel⟩ := exists_of_forall₂ hrest.flip hother
    exact step hfirst hrel (hhead item hmem)

end Forall₂

variable {file : String} {line : Line} {token : Token} {content tokens : List Token}

/-! ## The tokens of a line -/

theorem Line.toNat_offset_position {bytes : Nat} (h : line.start + bytes < UInt32.size) :
    (line.position file bytes).offset.toNat = line.start + bytes :=
  UInt32.toNat_ofNat_of_lt' h

theorem Lexeme.of_token {lexeme : Lexeme} (h : lexeme.token line file = .ok token) :
    lexeme.meaning? = some (token.kind, token.value.toList) ∧
      token.span = ⟨line.position file lexeme.offset,
        line.position file (lexeme.offset + byteLength lexeme.text)⟩ := by
  unfold Lexeme.token at h
  dsimp only at h
  split at h
  · next kind value hmeaning =>
    cases h
    exact ⟨by rw [hmeaning, String.toList_ofList], rfl⟩
  · cases h

/-- A token has the place and the meaning of a piece. -/
structure Lexeme.Tells (line : Line) (lexeme : Lexeme) (token : Token) : Prop where
  start_eq : token.start = line.start + lexeme.offset
  stop_eq : token.stop = token.start + byteLength lexeme.text
  meaning : lexeme.meaning? = some (token.kind, token.value.toList)

theorem Lexeme.tells_of_token {lexeme : Lexeme} (hmem : lexeme ∈ Lexeme.cut 0 line.text)
    (hline : line.stop < UInt32.size) (h : lexeme.token line file = .ok token) :
    lexeme.Tells line token := by
  have hle := (excerpt_of_mem_cut hmem).stop_le
  have hstop : line.start + (lexeme.offset + byteLength lexeme.text) < UInt32.size := by
    rw [Line.stop] at hline
    omega
  have hstart : line.start + lexeme.offset < UInt32.size := by omega
  obtain ⟨hmeaning, hspan⟩ := of_token h
  refine ⟨?_, ?_, hmeaning⟩
  · rw [Token.start, hspan, Line.toNat_offset_position hstart]
  · rw [Token.stop, Token.start, hspan, Line.toNat_offset_position hstop,
      Line.toNat_offset_position hstart, Nat.add_assoc]

namespace Line

theorem lexemes_sublist (line : Line) : line.lexemes.Sublist (Lexeme.cut 0 line.text) := by
  have hfilter := List.filter_sublist (p := (!·.isSpacing)) (l := Lexeme.cut 0 line.text)
  unfold lexemes
  split
  · exact List.nil_sublist _
  · next first rest hpieces =>
    rw [hpieces] at hfilter
    exact (List.filter_sublist.cons_cons first).trans hfilter

theorem lexemes_apart (line : Line) :
    line.lexemes.Pairwise fun a b => a.offset + byteLength a.text ≤ b.offset :=
  (Lexeme.tiles_cut 0 line.text).pairwise.sublist line.lexemes_sublist

/-- A piece that is left out separates others, or is a comment behind a piece that counts. -/
theorem not_mem_lexemes {lexeme : Lexeme} (hmem : lexeme ∈ Lexeme.cut 0 line.text)
    (hout : lexeme ∉ line.lexemes) :
    lexeme.isSpacing = true ∨ lexeme.isComment = true ∧
      ∃ first ∈ line.lexemes, first.offset + byteLength first.text ≤ lexeme.offset := by
  by_cases hspacing : lexeme.isSpacing = true
  · exact .inl hspacing
  · have hpiece : lexeme ∈ (Lexeme.cut 0 line.text).filter (!·.isSpacing) :=
      List.mem_filter.2 ⟨hmem, by simpa using hspacing⟩
    have hapart := (Lexeme.tiles_cut 0 line.text).pairwise.filter (!·.isSpacing)
    unfold lexemes at hout ⊢
    split at hout
    · next hpieces =>
      rw [hpieces] at hpiece
      cases hpiece
    · next first rest hpieces =>
      rw [hpieces] at hpiece hapart
      rw [List.mem_cons, List.mem_filter, not_or] at hout
      have hrest : lexeme ∈ rest := (List.mem_cons.1 hpiece).resolve_left hout.1
      refine .inr ⟨?_, first, List.mem_cons_self, List.rel_of_pairwise_cons hapart hrest⟩
      by_contra hcomment
      exact hout.2 ⟨hrest, by simpa using hcomment⟩

theorem forall₂_tokens (h : line.tokens file = .ok content) :
    List.Forall₂ (fun lexeme token => lexeme ∈ line.lexemes ∧ lexeme.token line file = .ok token)
      line.lexemes content :=
  (List.forall₂_and_left line.lexemes content).2 ⟨fun _ hmem => hmem, forall₂_of_mapM h⟩

/-- What a line is refused for is a piece that stands for nothing. -/
theorem exists_of_tokens_eq_error {error : SyntaxError} (h : line.tokens file = .error error) :
    ∃ lexeme ∈ line.lexemes, lexeme.meaning? = none ∧
      error = ⟨.unrecognised (String.ofList lexeme.text), line.position file lexeme.offset⟩ := by
  obtain ⟨lexeme, hmem, htoken⟩ := exists_of_mapM_eq_error h
  unfold Lexeme.token at htoken
  dsimp only at htoken
  split at htoken
  · cases htoken
  · next hnone =>
    cases htoken
    exact ⟨lexeme, hmem, hnone, rfl⟩

theorem cause_of_tokens {error : SyntaxError} (h : line.tokens file = .error error) :
    ∃ text, error.cause = .unrecognised text := by
  obtain ⟨lexeme, -, -, rfl⟩ := exists_of_tokens_eq_error h
  exact ⟨_, rfl⟩

/-- The pieces that count are told in order, one token each. -/
theorem tells_tokens (hline : line.stop < UInt32.size) (h : line.tokens file = .ok content) :
    List.Forall₂ (fun lexeme token => lexeme ∈ line.lexemes ∧ lexeme.Tells line token)
      line.lexemes content :=
  (forall₂_tokens h).imp fun _ _ hpair =>
    ⟨hpair.1, Lexeme.tells_of_token (line.lexemes_sublist.mem hpair.1) hline hpair.2⟩

theorem isContent_of_tokens (h : line.tokens file = .ok content) :
    ∀ token ∈ content, token.kind.isContent = true := by
  intro token hmem
  obtain ⟨lexeme, -, hlexeme, htoken⟩ := exists_of_forall₂ (forall₂_tokens h).flip hmem
  obtain ⟨before, after, -, -, htaken⟩ :=
    Lexeme.taken_of_mem_cut (line.lexemes_sublist.mem hlexeme)
  exact (htaken.spells (Lexeme.of_token htoken).1).1

/-- The tokens of a line stand in it, one behind the other. -/
theorem tokens_apart (hline : line.stop < UInt32.size) (h : line.tokens file = .ok content) :
    (∀ token ∈ content, line.start ≤ token.start ∧ token.start ≤ token.stop ∧
      token.stop ≤ line.stop) ∧
      content.Pairwise fun a b => a.stop ≤ b.start := by
  have htells := tells_tokens hline h
  constructor
  · intro token hmem
    obtain ⟨lexeme, -, hpiece, hstart, hstop, -⟩ := exists_of_forall₂ htells.flip hmem
    have hle := (Lexeme.excerpt_of_mem_cut (line.lexemes_sublist.mem hpiece)).stop_le
    rw [stop]
    omega
  · refine pairwise_of_forall₂ htells line.lexemes_apart fun {a b c d} ha hb hle => ?_
    rw [ha.2.stop_eq, ha.2.start_eq, hb.2.start_eq]
    omega

end Line

/-! ## The tokens of a stream -/

variable {widths : List Nat} {last : Position} {lines : List Line}

/-- A blank line adds nothing, and any other line its tokens behind the marks before it. -/
theorem tokensOfLines_cons_eq_ok
    (h : tokensOfLines file widths last (line :: lines) = .ok tokens) :
    line.isBlank = true ∧ tokensOfLines file widths last lines = .ok tokens ∨
      line.isBlank = false ∧ ∃ marks opened content inside following,
        Layout.enter? widths line.width = some (marks, opened) ∧ line.tokens file = .ok content ∧
        tokensOfLines file inside last lines = .ok following ∧
        tokens = marks.map (·.token (line.position file 0)) ++ (content ++ following) := by
  rw [tokensOfLines] at h
  split at h
  · next hblank => exact .inl ⟨hblank, h⟩
  · next hsolid =>
    refine .inr ⟨Bool.of_not_eq_true hsolid, ?_⟩
    split at h
    · cases h
    · next marks opened henter =>
      cases hcontent : line.tokens file with
      | error => simp [hcontent, bind, Except.bind] at h
      | ok content =>
        rw [hcontent] at h
        simp only [bind, Except.bind] at h
        split at h
        · cases h
        · next following hfollowing =>
          cases h
          exact ⟨marks, opened, content, _, following, henter, rfl, hfollowing, rfl⟩

/-- Lines are refused for what the first of them is refused for, or for what the rest is. -/
theorem tokensOfLines_cons_eq_error {error : SyntaxError}
    (h : tokensOfLines file widths last (line :: lines) = .error error) :
    line.isBlank = false ∧ (Layout.enter? widths line.width = none ∧ error = line.layoutError file ∨
      line.tokens file = .error error) ∨
      ∃ inside, tokensOfLines file inside last lines = .error error := by
  rw [tokensOfLines] at h
  split at h
  · exact .inr ⟨widths, h⟩
  · next hsolid =>
    have hblank := Bool.of_not_eq_true hsolid
    split at h
    · next henter =>
      cases h
      exact .inl ⟨hblank, .inl ⟨henter, rfl⟩⟩
    · cases hcontent : line.tokens file with
      | error refused =>
        rw [hcontent] at h
        cases h
        exact .inl ⟨hblank, .inr rfl⟩
      | ok content =>
        rw [hcontent] at h
        simp only [bind, Except.bind] at h
        split at h
        · next refused hrest =>
          cases h
          exact .inr ⟨_, hrest⟩
        · cases h

/-- Lines are refused for the layout or for a character of one that is not blank. -/
theorem error_of_tokensOfLines {error : SyntaxError}
    (h : tokensOfLines file widths last lines = .error error) :
    ∃ line ∈ lines, line.isBlank = false ∧
      (error = line.layoutError file ∨ line.tokens file = .error error) := by
  induction lines generalizing widths with
  | nil => cases h
  | cons line lines ih =>
    rcases tokensOfLines_cons_eq_error h with ⟨hblank, hfirst⟩ | ⟨inside, hrest⟩
    · exact ⟨line, List.mem_cons_self, hblank, hfirst.imp_left And.right⟩
    · obtain ⟨other, hmem, hother⟩ := ih hrest
      exact ⟨other, List.mem_cons_of_mem line hmem, hother⟩

theorem of_mem_marks {marks : List Layout.Mark} {position : Position}
    (h : token ∈ marks.map (·.token position)) :
    token.kind.isContent = false ∧ token.span = .empty position := by
  obtain ⟨mark, -, rfl⟩ := List.mem_map.1 h
  cases mark <;> exact ⟨rfl, rfl⟩

/-- A token covers nothing, or it belongs to a line. -/
theorem origin_of_mem (h : tokensOfLines file widths last lines = .ok tokens)
    (hmem : token ∈ tokens) :
    token.kind.isContent = false ∧ token.span.start = token.span.stop ∨
      ∃ line ∈ lines, ∃ content, line.tokens file = .ok content ∧ token ∈ content := by
  have covers_nothing {marks : List Layout.Mark} {position : Position}
      (hmark : token ∈ marks.map (·.token position)) :
      token.kind.isContent = false ∧ token.span.start = token.span.stop := by
    obtain ⟨hkind, hspan⟩ := of_mem_marks hmark
    rw [hspan]
    exact ⟨hkind, rfl⟩
  induction lines generalizing widths tokens with
  | nil =>
    cases h
    rcases List.mem_append.1 hmem with hmark | hend
    · exact .inl (covers_nothing hmark)
    · rw [List.mem_singleton.1 hend]
      exact .inl ⟨rfl, rfl⟩
  | cons line lines ih =>
    have later {widths : List Nat} {following : List Token}
        (hfollowing : tokensOfLines file widths last lines = .ok following)
        (hmem : token ∈ following) :
        token.kind.isContent = false ∧ token.span.start = token.span.stop ∨
          ∃ other ∈ line :: lines, ∃ content, other.tokens file = .ok content ∧ token ∈ content :=
      (ih hfollowing hmem).imp_right fun ⟨other, hother, hcontent⟩ =>
        ⟨other, List.mem_cons_of_mem line hother, hcontent⟩
    rcases tokensOfLines_cons_eq_ok h with
      ⟨-, hrest⟩ | ⟨-, marks, opened, content, inside, following, -, hcontent, hrest, rfl⟩
    · exact later hrest hmem
    · rw [List.mem_append, List.mem_append] at hmem
      rcases hmem with hmark | hline | hfollowing
      · exact .inl (covers_nothing hmark)
      · exact .inr ⟨line, List.mem_cons_self, content, hcontent, hline⟩
      · exact later hrest hfollowing

/-- No line that is not blank is passed over. -/
theorem exists_tokens_of_mem (h : tokensOfLines file widths last lines = .ok tokens)
    (hmem : line ∈ lines) (hsolid : line.isBlank = false) :
    ∃ content, line.tokens file = .ok content ∧ content ⊆ tokens := by
  induction lines generalizing widths tokens with
  | nil => cases hmem
  | cons other lines ih =>
    rcases tokensOfLines_cons_eq_ok h with
      ⟨hblank, hrest⟩ | ⟨-, marks, opened, content, inside, following, -, hcontent, hrest, rfl⟩
    · rcases List.mem_cons.1 hmem with rfl | hmem
      · rw [hsolid] at hblank
        cases hblank
      · exact ih hrest hmem
    · rcases List.mem_cons.1 hmem with rfl | hmem
      · exact ⟨content, hcontent, fun token htoken =>
          List.mem_append_right _ (List.mem_append_left _ htoken)⟩
      · obtain ⟨more, hmore, hsubset⟩ := ih hrest hmem
        exact ⟨more, hmore, fun token htoken =>
          List.mem_append_right _ (List.mem_append_right _ (hsubset htoken))⟩

/-- What is true of the places of the tokens from an offset on. -/
def InOrder (offset : Nat) (tokens : List Token) : Prop :=
  (∀ token ∈ tokens, offset ≤ token.start ∧ token.start ≤ token.stop) ∧
    tokens.Pairwise fun a b => a.stop ≤ b.start

theorem InOrder.append {offset middle : Nat} (h : InOrder offset tokens)
    (hmiddle : ∀ token ∈ tokens, token.stop ≤ middle) (hle : offset ≤ middle)
    {following : List Token} (h' : InOrder middle following) :
    InOrder offset (tokens ++ following) := by
  refine ⟨List.forall_mem_append.2 ⟨h.1, fun token hmem => ?_⟩,
    List.pairwise_append.2 ⟨h.2, h'.2, fun a ha b hb => ?_⟩⟩
  · exact ⟨Nat.le_trans hle (h'.1 token hmem).1, (h'.1 token hmem).2⟩
  · exact Nat.le_trans (hmiddle a ha) (h'.1 b hb).1

theorem inOrder_of_empty {offset : Nat}
    (h : ∀ token ∈ tokens, token.start = offset ∧ token.stop = offset) :
    InOrder offset tokens := by
  refine ⟨fun token hmem => ?_, List.pairwise_of_forall_mem_list fun a ha b hb => ?_⟩
  · obtain ⟨hstart, hstop⟩ := h token hmem
    omega
  · rw [(h a ha).2, (h b hb).1]

theorem place_of_marks {marks : List Layout.Mark} {position : Position} :
    ∀ token ∈ marks.map (·.token position),
      token.start = position.offset.toNat ∧ token.stop = position.offset.toNat := by
  intro token hmem
  rw [Token.start, Token.stop, (of_mem_marks hmem).2]
  exact ⟨rfl, rfl⟩

/-- From any offset on, the tokens stand one behind the other. -/
theorem inOrder_of_tokensOfLines {offset : Nat}
    (h : tokensOfLines file widths last lines = .ok tokens)
    (htiles : Tiles Line.start Line.text offset lines)
    (hlast : last.offset.toNat = offset + byteLength (lines.map Line.text).flatten) :
    InOrder offset tokens := by
  induction lines generalizing widths tokens offset with
  | nil =>
    cases h
    rw [List.map_nil, List.flatten_nil, byteLength_nil, Nat.add_zero] at hlast
    refine inOrder_of_empty (List.forall_mem_append.2 ⟨fun token hmem => ?_, ?_⟩)
    · exact hlast ▸ place_of_marks token hmem
    · exact List.forall_mem_singleton.2 ⟨hlast, hlast⟩
  | cons line lines ih =>
    obtain ⟨rfl, hrest⟩ := htiles
    rw [List.map_cons, List.flatten_cons, byteLength_append, ← Nat.add_assoc] at hlast
    have hlater {widths : List Nat} {following : List Token}
        (hfollowing : tokensOfLines file widths last lines = .ok following) :
        InOrder line.stop following := ih hfollowing hrest hlast
    have hlt := last.offset.toNat_lt_size
    have hle : line.start ≤ line.stop := Nat.le_add_right _ _
    have hstop : line.stop < UInt32.size := by
      rw [Line.stop]
      omega
    rcases tokensOfLines_cons_eq_ok h with
      ⟨-, hfollowing⟩ | ⟨-, marks, opened, content, inside, following, -, hcontent, hfollowing, rfl⟩
    · have hnothing : InOrder line.start [] := ⟨List.forall_mem_nil _, .nil⟩
      exact hnothing.append (List.forall_mem_nil _) hle (hlater hfollowing)
    · obtain ⟨hplaces, hapart⟩ := Line.tokens_apart hstop hcontent
      have hplace : (line.position file 0).offset.toNat = line.start :=
        Line.toNat_offset_position (by omega)
      have hmarks : ∀ token ∈ marks.map (·.token (line.position file 0)),
          token.start = line.start ∧ token.stop = line.start := fun token hmem =>
        hplace ▸ place_of_marks token hmem
      have hline : InOrder line.start content :=
        ⟨fun token hmem => ⟨(hplaces token hmem).1, (hplaces token hmem).2.1⟩, hapart⟩
      refine (inOrder_of_empty hmarks).append (fun token hmem => Nat.le_of_eq (hmarks token hmem).2)
        (Nat.le_refl _) (hline.append (fun token hmem => (hplaces token hmem).2.2) hle ?_)
      exact hlater hfollowing

end Offside
