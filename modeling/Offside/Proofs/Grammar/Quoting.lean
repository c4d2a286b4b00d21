import Offside.Proofs.Grammar.Joining
import Offside.Proofs.Grammar.Threshold
import Offside.Proofs.Layout.Quoted

/-! # Quoting a source

What is read between quotation marks is an expression up to the closing mark. So a source can be
quoted if nothing of it is left over behind the expression that it holds.
-/

namespace Offside

open Grammar (applyOperations)

/-- Whether a line is an expression, and neither a comment nor a declaration. -/
def Node.isExpression : Node → Bool
  | .comment _ | .letValue .. | .dataType .. | .macroBody .. | .function (some _) .. => false
  | _ => true

variable {room : Nat} {node : Node} {opening : Token} {input rest : List Token}

theorem applyOperations_eq_quoted {left : Node} {items : List (Operation × String × Node)}
    (h : applyOperations left items = .quoted node) : items = [] ∧ left = .quoted node := by
  rcases List.eq_nil_or_concat' items with rfl | ⟨init, ⟨operation, operator, right⟩, rfl⟩
  · exact ⟨rfl, h⟩
  · rw [applyOperations, List.foldl_concat] at h
    cases operation <;> cases h

namespace Reads

theorem of_quoted_operand (hopening : opening.kind = .openQuote)
    (h : Reads room (.operand (.quoted node)) (opening :: input) rest) :
    ∃ closing, closing.kind = .closeQuote ∧
      Reads room (.expression node) input (closing :: rest) := by
  generalize hnode : Node.quoted node = outer at h
  cases h with
  | quotation _ hinner hclosing =>
    cases hnode
    exact ⟨_, hclosing, hinner⟩
  | _ => simp_all

theorem of_quoted_expression (hopening : opening.kind = .openQuote)
    (h : Reads room (.expression (.quoted node)) (opening :: input) rest) :
    ∃ room' closing, closing.kind = .closeQuote ∧
      Reads room' (.expression node) input (closing :: rest) := by
  generalize hnode : Node.quoted node = outer at h
  cases h with
  | call hkind => simp [hopening] at hkind
  | operation hkind => simp [hopening] at hkind
  | other _ _ hinner =>
    cases hinner with
    | inner hoperand hitems =>
      obtain ⟨rfl, rfl⟩ := applyOperations_eq_quoted hnode.symm
      cases hitems
      obtain ⟨closing, hclosing, hreads⟩ := hoperand.of_quoted_operand hopening
      exact ⟨_, closing, hclosing, hreads⟩
  | _ => cases hnode

/-- Behind the line of a program that holds one, only terminators are left. -/
theorem exists_line_of_lines (h : Reads room (.lines false .eof [node]) input []) :
    ∃ mid, Reads room (.line false node) input mid ∧ ∀ token ∈ mid, token.kind = .terminator := by
  cases h with
  | @consLine _ _ _ _ _ _ mid _ hstop hline hended hlines =>
    refine ⟨mid, hline, ?_⟩
    have hafter : afterTerminators mid = [] := by
      generalize afterTerminators mid = rest at hlines
      cases hlines
      rfl
    simpa [afterTerminators, List.dropWhile_eq_nil_iff] using hafter

theorem eq_nil_of_terminators {text init : List Token} {last : Token}
    (h : text ++ rest = init ++ [last]) (hlast : last.kind ≠ .terminator)
    (hrest : ∀ token ∈ rest, token.kind = .terminator) : rest = [] := by
  rcases List.eq_nil_or_concat' rest with rfl | ⟨more, token, rfl⟩
  · rfl
  · rw [← List.append_assoc] at h
    obtain ⟨-, heq⟩ := List.append_inj' h rfl
    cases heq
    exact absurd (hrest last (by simp)) hlast

theorem expression_of_line (h : Reads room (.line false node) input rest)
    (hnode : node.isExpression = true) : Reads room (.expression node) input rest := by
  cases h with
  | expressionLine hexpression => exact hexpression
  | _ => cases hnode

/-- Between marks, an expression is read that takes everything there. -/
theorem quoted_lines_iff {closing : Token} (hopening : opening.kind = .openQuote)
    (hclosing : closing.kind = .closeQuote) (hcontent : ∀ token ∈ input, token.kind ≠ .eof) :
    (∃ room, Reads room (.lines false .eof [.quoted node]) (opening :: (input ++ [closing])) []) ↔
      ∃ room, Reads room (.expression node) input [] := by
  have hclosed : ∀ token ∈ [closing], token.kind ≠ .eof := by simp [hclosing]
  constructor
  · rintro ⟨room, hlines⟩
    obtain ⟨mid, hline, hmid⟩ := hlines.exists_line_of_lines
    obtain ⟨room', closing', hclosing', hreads⟩ :=
      (hline.expression_of_line rfl).of_quoted_expression hopening
    obtain ⟨text, htext⟩ := hreads.suffix
    have hlast : (text ++ [closing']) ++ mid = input ++ [closing] := by simp [← htext]
    obtain rfl := eq_nil_of_terminators hlast (by simp [hclosing]) hmid
    obtain ⟨rfl, heq⟩ := List.append_inj' htext rfl
    cases heq
    refine ⟨room', ?_⟩
    have hends : EndsBefore text [] := .inr rfl
    have := hreads.expression_before (List.forall_mem_append.2 ⟨hcontent, hclosed⟩)
      (List.forall_mem_nil _) hends
    rwa [List.append_nil] at this
  · rintro ⟨room, hreads⟩
    have hinner : Reads room (.expression node) (input ++ [closing]) [closing] := by
      rw [← List.append_nil input] at hreads hcontent
      refine hreads.expression_before hcontent hclosed (.inr ?_)
      rw [nextKind_cons, hclosing]
      rfl
    have hoperand : Reads room (.operand (.quoted node)) (opening :: (input ++ [closing])) [] :=
      .quotation hopening hinner hclosing
    have hunary : Reads (room + 1) (.inner .loosest (applyOperations (.quoted node) []))
        (opening :: (input ++ [closing])) [] := .inner hoperand (.noOperation rfl)
    have hexpression : Reads (room + 2) (.expression (.quoted node))
        (opening :: (input ++ [closing])) [] :=
      .other (by simp [hopening]) (by simp [hopening]) hunary
    exact ⟨room + 2, .consLine (by simp [hopening]) (.expressionLine hexpression) (.inr rfl)
      (.noLine rfl)⟩

/-- No mark closes what a block behind it would be part of. -/
theorem not_quoted_lines {outdent terminator : Token} (hopening : opening.kind = .openQuote)
    (houtdent : outdent.kind = .outdent) (hterminator : terminator.kind = .terminator) :
    ¬ Reads room (.lines false .eof [.quoted node])
      (opening :: (input ++ [outdent] ++ [terminator])) [] := by
  intro hlines
  obtain ⟨mid, hline, hmid⟩ := hlines.exists_line_of_lines
  obtain ⟨room', closing, hclosing, hreads⟩ :=
    (hline.expression_of_line rfl).of_quoted_expression hopening
  obtain ⟨text, htext⟩ := hreads.suffix
  rcases List.eq_nil_or_concat' mid with rfl | ⟨more, token, rfl⟩
  · obtain ⟨-, heq⟩ := List.append_inj' htext rfl
    cases heq
    cases hclosing.symm.trans hterminator
  · have hlonger : (text ++ closing :: more) ++ [token] = (input ++ [outdent]) ++ [terminator] := by
      simpa using htext
    obtain ⟨hmore, -⟩ := List.append_inj' hlonger rfl
    have hlast : (text ++ [closing]) ++ more = input ++ [outdent] := by simpa using hmore
    obtain rfl := eq_nil_of_terminators hlast (by simp [houtdent]) fun token hmem =>
      hmid token (by simp [hmem])
    obtain ⟨-, heq⟩ := List.append_inj' hmore rfl
    cases heq
    cases hclosing.symm.trans houtdent

/-- An expression is read whatever the places of the tokens. -/
theorem expression_of_letters {tokens tokens' : List Token}
    (hletters : tokens.map Token.letter = tokens'.map Token.letter)
    (hcontent : ∀ token ∈ tokens, token.kind ≠ .eof)
    (h : Reads room (.expression node) tokens []) : Reads room (.expression node) tokens' [] :=
  (Nested.exact_within 0 room).expression.of_like
    (fun c => ((Nested.local_within .standard 0 room).expression c).toLocalAt)
    (like_of_letters hletters) hcontent h

end Reads

/-- From some limit on, a source stands for a program. -/
def Accepted (source file : String) (program : Program) : Prop :=
  ∃ least, ∀ limit ≥ least, parseSource source file limit = .ok program

/-- An expression that takes all the tokens of a source. Nothing is left over behind it, not even
a terminator. -/
def TakesAll (source file : String) (node : Node) : Prop :=
  ∃ tokens limit c, tokenize source file = .ok tokens ∧
    (Nested.within .standard limit limit).expression (Cursor.ofTokens tokens file) = .ok node c ∧
      c.kind = .eof

open Layout

variable {source file : String} {marks : List (List Mark)}
  {contents : List (List (Kind × String))} {final : List Mark}

theorem accepted_iff {program : Program} :
    Accepted source file program ↔ ∃ limit, parseSource source file limit = .ok program := by
  refine ⟨fun ⟨least, h⟩ => ⟨least, h least (Nat.le_refl least)⟩, fun ⟨limit, h⟩ =>
    ⟨limit, fun limit' hle => ?_⟩⟩
  unfold parseSource at h ⊢
  cases htokens : tokenize source file with
  | error => simp [htokens, bind, Except.bind] at h
  | ok tokens =>
    rw [htokens] at h
    rcases parse_cases tokens file hle with ⟨-, position, hdeep⟩ | ⟨hsame, -⟩
    · cases hdeep.symm.trans h
    · exact hsame.symm.trans h

/-- A source is never accepted if it is refused once for another reason than its depth. -/
theorem not_accepted_of_error {limit : Nat} {error : SyntaxError} {program : Program}
    (h : parseSource source file limit = .error error)
    (hdeep : ∀ missed, error.cause ≠ .nestingTooDeep missed) : ¬ Accepted source file program := by
  rintro ⟨least, hok⟩
  have hok' := hok _ (Nat.le_max_left least limit)
  unfold parseSource at h hok'
  cases htokens : tokenize source file with
  | error => simp [htokens, bind, Except.bind] at hok'
  | ok tokens =>
    rw [htokens] at h hok'
    rcases parse_cases tokens file (Nat.le_max_right least limit) with
      ⟨-, position, hlack⟩ | ⟨hsame, -⟩
    · cases h.symm.trans hlack
      exact hdeep limit rfl
    · cases h.symm.trans (hsame.trans hok')

theorem accepted_iff_reads (h : breaksLines source.toList = true)
    (hlaid : LaidOut (Line.shapes source.toList) marks contents final) {program : Program} :
    Accepted source file program ↔ ∃ room, Reads room (.lines false .eof program.body)
      ((weave marks contents ++ final.map Mark.letter).map Token.ofLetter) [] := by
  rw [accepted_iff]
  refine exists_congr fun limit => ?_
  rw [parseSource_eq_ok_iff h]
  constructor
  · rintro ⟨marks', contents', final', hlaid', hreads⟩
    obtain ⟨rfl, rfl, rfl⟩ := hlaid.unique hlaid'
    exact hreads
  · exact fun hreads => ⟨marks, contents, final, hlaid, hreads⟩

theorem takesAll_iff_reads (h : breaksLines source.toList = true)
    (hlaid : LaidOut (Line.shapes source.toList) marks contents final) :
    TakesAll source file node ↔ ∃ room, Reads room (.expression node)
      ((weave marks contents ++ final.map Mark.letter).map Token.ofLetter) [] := by
  have hplaced := Token.map_letter_ofLetter (weave marks contents ++ final.map Mark.letter)
  have hahead {content : List Token} (position : Position)
      (hletters : content.map Token.letter = weave marks contents ++ final.map Mark.letter) :
      (Cursor.ofTokens (content ++ [.eof position]) file).ahead = content := by
    rw [ahead_ofTokens, Parse.takeWhile_content (hlaid.kind_ne_eof h hletters)]
    simp [Token.eof]
  constructor
  · rintro ⟨tokens, limit, c, htokens, hrun, hend⟩
    obtain ⟨content, position, rfl⟩ := exists_eof_of_tokenize h htokens
    obtain ⟨marks', contents', final', hlaid', hletters⟩ :=
      (tokenize_letters_iff file h).1 ⟨content, position, htokens, rfl⟩
    obtain ⟨rfl, rfl, rfl⟩ := hlaid.unique hlaid'
    have hreads := (Nested.exact_within limit limit).expression.sound trivial hrun
    rw [hahead position hletters, c.kind_eq_eof_iff.1 hend] at hreads
    exact ⟨limit, .expression_of_letters (hletters.trans hplaced.symm)
      (hlaid.kind_ne_eof h hletters) hreads⟩
  · rintro ⟨room, hreads⟩
    obtain ⟨content, position, htokens, hletters⟩ :=
      (tokenize_letters_iff file h).2 ⟨marks, contents, final, hlaid, rfl⟩
    have hreads' : Reads room (.expression node) content [] :=
      .expression_of_letters (hplaced.trans hletters.symm) (hlaid.kind_ne_eof h hplaced) hreads
    rw [← hahead position hletters] at hreads'
    obtain ⟨c, hrun, hrest⟩ := (Nested.exact_within room room).expression.complete trivial hreads'
    exact ⟨_, room, c, htokens, hrun, c.kind_eq_eof_iff.2 hrest⟩

/-- Where no block is open at the end of a source, its expression takes all tokens. -/
theorem Layout.LaidOut.expression_of_lines
    (hlaid : LaidOut (Line.shapes source.toList) marks contents [])
    (h : breaksLines source.toList = true) (hshapes : Line.shapes source.toList ≠ [])
    (hnode : node.isExpression = true)
    (hlines : Reads room (.lines false .eof [node])
      ((weave marks contents ++ ([] : List Mark).map Mark.letter).map Token.ofLetter) []) :
    Reads room (.expression node) ((weave marks contents).map Token.ofLetter) [] := by
  rw [List.map_nil, List.append_nil] at hlines
  obtain ⟨mid, hline, hmid⟩ := hlines.exists_line_of_lines
  have hexpression := hline.expression_of_line hnode
  obtain ⟨letters, letter, hletters, hcontent⟩ := hlaid.exists_last_letter h hshapes
  obtain ⟨text, htext⟩ := hexpression.suffix
  have hlast : (Token.ofLetter letter).kind ≠ .terminator := by
    rw [Token.kind_ofLetter]
    intro hkind
    rw [hkind] at hcontent
    cases hcontent
  rw [hletters, List.map_append, List.map_singleton] at htext
  obtain rfl := Reads.eq_nil_of_terminators htext hlast hmid
  exact hexpression

theorem toList_sameLine (source : String) :
    ("[|" ++ source ++ "|]").toList = '[' :: '|' :: (source.toList ++ ['|', ']']) := by
  simp [String.toList_append]

theorem toList_ownLine (source : String) :
    ("[|" ++ source ++ "\n|]").toList = '[' :: '|' :: (source.toList ++ ['\n', '|', ']']) := by
  simp [String.toList_append]

theorem breaksLines_sameLine (h : '\r' ∉ source.toList) :
    breaksLines ("[|" ++ source ++ "|]").toList = true := by
  refine breaksLines_of_not_mem ?_
  rw [toList_sameLine]
  simp [h]

theorem breaksLines_ownLine (h : '\r' ∉ source.toList) :
    breaksLines ("[|" ++ source ++ "\n|]").toList = true := by
  refine breaksLines_of_not_mem ?_
  rw [toList_ownLine]
  simp [h]

section Quotable

variable (hsource : Quotable source.toList) (hne : source.toList ≠ [])
  (hlaid : LaidOut (Line.shapes source.toList) marks contents final)
include hsource hne hlaid

/-- With the closing mark on a line of its own, every block is ended before it. -/
theorem accepted_ownLine_iff (hfinal : final ≠ []) :
    Accepted ("[|" ++ source ++ "\n|]") file ⟨[.quoted node]⟩ ↔
      ∃ room, Reads room (.expression node)
        ((weave marks contents ++ final.map Mark.letter).map Token.ofLetter) [] := by
  obtain ⟨all, contents', hquoted, hletters⟩ := hsource.exists_laidOut_lineFeed hne hlaid
  rw [← toList_ownLine] at hquoted
  rw [accepted_iff_reads (breaksLines_ownLine hsource.return_not_mem) hquoted, hletters, between,
    if_neg hfinal]
  have hcontent := hlaid.kind_ne_eof (breaksLines_of_not_mem hsource.return_not_mem)
    (Token.map_letter_ofLetter _)
  have hlist : ((Kind.openQuote, "[|") :: (weave marks contents ++
      (final.map Mark.letter ++ [(Kind.closeQuote, "|]")])) ++
        ([] : List Mark).map Mark.letter).map Token.ofLetter = .ofLetter (.openQuote, "[|") ::
          ((weave marks contents ++ final.map Mark.letter).map Token.ofLetter ++
            [.ofLetter (.closeQuote, "|]")]) := by simp
  rw [hlist]
  exact Reads.quoted_lines_iff rfl rfl hcontent

/-- With the closing mark on the last line, the blocks that are open there are ended behind it. -/
theorem not_accepted_sameLine {blocks : Nat} (hfinal : final = closing (blocks + 1)) :
    ¬ Accepted ("[|" ++ source ++ "|]") file ⟨[.quoted node]⟩ := by
  intro haccepted
  obtain ⟨limit, hparse⟩ := accepted_iff.1 haccepted
  obtain ⟨marks', contents', final', hlaid', hreads⟩ :=
    (parseSource_eq_ok_iff (breaksLines_sameLine hsource.return_not_mem)).1 hparse
  rw [toList_sameLine] at hlaid'
  obtain ⟨rfl, more, hletters⟩ := hsource.of_laidOut hne hlaid hlaid'
  have hlist : ((Kind.openQuote, "[|") :: more ++ (closing (blocks + 1)).map Mark.letter).map
      Token.ofLetter = .ofLetter (.openQuote, "[|") ::
        ((more ++ (closing blocks).map Mark.letter).map Token.ofLetter ++
          [.ofLetter Mark.outdent.letter] ++ [.ofLetter Mark.terminator.letter]) := by
    rw [closing_append]
    simp [closing]
  rw [hletters, hfinal, hlist] at hreads
  exact Reads.not_quoted_lines rfl rfl rfl hreads

/-- Where no block is open at the end of a source, the closing mark may stand behind its last
letter. -/
theorem accepted_sameLine (hfinal : final = [])
    (h : Reads room (.expression node) ((weave marks contents).map Token.ofLetter) []) :
    Accepted ("[|" ++ source ++ "|]") file ⟨[.quoted node]⟩ := by
  have hlast : ∀ letter ∈ (weave marks contents).getLast?, letter.1 ≠ .openBracket := by
    intro letter hletter hkind
    obtain ⟨text, token, htext, htest⟩ := h.endsWith_of_expression
    have htoken := congrArg (Option.map Token.ofLetter) (Option.mem_def.1 hletter)
    rw [← List.getLast?_map, htext, List.getLast?_append] at htoken
    cases htoken
    have htest' : letter.1.endsExpression = true := htest
    rw [hkind] at htest'
    cases htest'
  obtain ⟨contents', hquoted, hletters⟩ := hsource.exists_laidOut hne hlaid hlast
  rw [← toList_sameLine] at hquoted
  subst hfinal
  have hcontent := hlaid.kind_ne_eof (breaksLines_of_not_mem hsource.return_not_mem)
    (Token.map_letter_ofLetter _)
  rw [List.map_nil, List.append_nil] at hcontent
  have hlist : ((Kind.openQuote, "[|") :: (weave marks contents ++ [(Kind.closeQuote, "|]")]) ++
      ([] : List Mark).map Mark.letter).map Token.ofLetter = .ofLetter (.openQuote, "[|") ::
        ((weave marks contents).map Token.ofLetter ++ [.ofLetter (.closeQuote, "|]")]) := by simp
  rw [accepted_iff_reads (breaksLines_sameLine hsource.return_not_mem) hquoted, hletters, hlist]
  exact (Reads.quoted_lines_iff rfl rfl hcontent).2 ⟨room, h⟩

end Quotable

/-- A source of one expression can be quoted, with the closing mark on its last line or on a line of
its own, if and only if the expression takes all of its tokens. -/
theorem accepted_quoted_iff (hsource : Quotable source.toList) (hnode : node.isExpression = true)
    (h : Accepted source file ⟨[node]⟩) :
    Accepted ("[|" ++ source ++ "|]") file ⟨[.quoted node]⟩ ∨
      Accepted ("[|" ++ source ++ "\n|]") file ⟨[.quoted node]⟩ ↔ TakesAll source file node := by
  have hbreaks := breaksLines_of_not_mem hsource.return_not_mem
  obtain ⟨limit, hparse⟩ := accepted_iff.1 h
  obtain ⟨marks, contents, final, hlaid, hreads⟩ := (parseSource_eq_ok_iff hbreaks).1 hparse
  have hshapes : Line.shapes source.toList ≠ [] := by
    intro hnil
    rw [hnil] at hlaid
    rw [hlaid.letters_eq_nil] at hreads
    cases hreads.eq_nil_of_lines
  have hne : source.toList ≠ [] := by
    intro hnil
    exact hshapes (by rw [hnil]; rfl)
  rw [takesAll_iff_reads hbreaks hlaid]
  obtain ⟨blocks, rfl⟩ := exists_closing hlaid.fold
  -- Each block that is open at the end is closed by two marks, of which the last is a terminator.
  -- They stand behind a closing mark on the same line, and before one on the next line.
  cases blocks with
  | zero =>
    have hexpression := hlaid.expression_of_lines hbreaks hshapes hnode hreads
    refine iff_of_true (.inl (accepted_sameLine hsource hne hlaid rfl hexpression)) ⟨limit, ?_⟩
    simpa [closing] using hexpression
  | succ blocks =>
    rw [accepted_ownLine_iff hsource hne hlaid (by simp [closing])]
    exact or_iff_right (not_accepted_sameLine hsource hne hlaid rfl)

/-- A `do` takes the terminator behind its block, so that a mark may follow on the next line. -/
theorem accepted_quoted_sequence :
    let source := "do m\n  return x"
    let node : Node := .sequence (.identifier "m") [.result (.identifier "x")]
    Quotable source.toList ∧ node.isExpression = true ∧ Accepted source "" ⟨[node]⟩ ∧
      (Accepted ("[|" ++ source ++ "|]") "" ⟨[.quoted node]⟩ ∨
        Accepted ("[|" ++ source ++ "\n|]") "" ⟨[.quoted node]⟩) := by
  intro source node
  have hsource : Quotable source.toList := isQuotable_iff.1 (by cbv)
  have h : Accepted source "" ⟨[node]⟩ := accepted_iff.2 ⟨8, by cbv⟩
  have htakes : TakesAll source "" node := ⟨_, 8, _, by cbv, by cbv, rfl⟩
  exact ⟨hsource, rfl, h, (accepted_quoted_iff hsource rfl h).2 htakes⟩

/-- The terminator behind the cases of a `match` is left over, so that no mark can follow it. -/
theorem not_accepted_quoted_choice :
    let source := "match x\n  case A = y"
    let node : Node := .choice (.identifier "x") [(⟨"A", []⟩, .identifier "y")]
    Quotable source.toList ∧ node.isExpression = true ∧ Accepted source "" ⟨[node]⟩ ∧
      ¬ Accepted ("[|" ++ source ++ "|]") "" ⟨[.quoted node]⟩ ∧
        ¬ Accepted ("[|" ++ source ++ "\n|]") "" ⟨[.quoted node]⟩ := by
  intro source node
  have hsource : Quotable source.toList := isQuotable_iff.1 (by cbv)
  have h : Accepted source "" ⟨[node]⟩ := accepted_iff.2 ⟨8, by cbv⟩
  have hsameLine : parseSource ("[|" ++ source ++ "|]") "" 8 =
      .error ⟨.unexpected "|]" .closeQuote "Outdent", ⟨22, 2, 13, ""⟩⟩ := by cbv
  have hownLine : parseSource ("[|" ++ source ++ "\n|]") "" 8 =
      .error ⟨.unexpected "newline" .terminator "CloseQuote", ⟨23, 3, 1, ""⟩⟩ := by cbv
  exact ⟨hsource, rfl, h, not_accepted_of_error hsameLine (by rintro _ ⟨⟩),
    not_accepted_of_error hownLine (by rintro _ ⟨⟩)⟩

end Offside
