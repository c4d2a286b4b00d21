import Offside.Proofs.Grammar.FirstError
import Offside.Proofs.Layout.Block
import Offside.Proofs.Layout.Reference
import Offside.Proofs.Layout.Runs

/-! # Letters of a source

What a source stands for does not depend on where its tokens stand. So it is settled by the shapes
of its content lines, which are their widths and the letters on them.
-/

namespace Offside

/-- The letter that a piece stands for. -/
def Lexeme.letter? (lexeme : Lexeme) : Option (Kind × String) :=
  lexeme.meaning?.map fun (kind, value) => (kind, String.ofList value)

/-- The letters on a line, none of them for a piece that stands for nothing. -/
def Line.letters (line : Line) : List (Option (Kind × String)) :=
  line.lexemes.map Lexeme.letter?

/-- What layout and grammar see of a line. -/
def Line.shape (line : Line) : Nat × List (Option (Kind × String)) :=
  (line.width, line.letters)

/-- The shapes of the content lines of a source. -/
def Line.shapes (source : List Char) : List (Nat × List (Option (Kind × String))) :=
  (contentLines source).map shape

/-- A token with a given letter, wherever it stands. -/
def Token.ofLetter (letter : Kind × String) : Token :=
  ⟨letter.1, letter.2, default⟩

@[simp] theorem Token.kind_ofLetter (letter : Kind × String) :
    (ofLetter letter).kind = letter.1 := rfl

variable {file : String} {line : Line} {lines : List Line}

namespace Lexeme

theorem letter?_eq_some_iff {lexeme : Lexeme} {letter : Kind × String} :
    lexeme.letter? = some letter ↔
      ∃ token, lexeme.token line file = .ok token ∧ token.letter = letter := by
  constructor
  · intro h
    obtain ⟨⟨kind, value⟩, hmeaning, rfl⟩ := Option.map_eq_some_iff.1 h
    exact exists_token hmeaning line file
  · rintro ⟨token, htoken, rfl⟩
    rw [letter?, (of_token htoken).1]
    simp [Token.letter]

theorem map_letter?_eq_iff {lexemes : List Lexeme} {letters : List (Kind × String)} :
    lexemes.map letter? = letters.map some ↔
      ∃ tokens, lexemes.mapM (·.token line file) = .ok tokens ∧
        tokens.map Token.letter = letters := by
  constructor
  · intro h
    induction lexemes generalizing letters with
    | nil =>
      obtain rfl := List.map_eq_nil_iff.1 h.symm
      exact ⟨[], rfl, rfl⟩
    | cons lexeme lexemes ih =>
      obtain ⟨letter, more, rfl, hletter, hmore⟩ := List.map_eq_cons_iff.1 h.symm
      obtain ⟨token, htoken, rfl⟩ := letter?_eq_some_iff.1 hletter.symm
      obtain ⟨tokens, htokens, rfl⟩ := ih hmore.symm
      refine ⟨token :: tokens, ?_, rfl⟩
      rw [List.mapM_cons, htoken, htokens]
      rfl
  · rintro ⟨tokens, htokens, rfl⟩
    have htoken := forall₂_of_mapM htokens
    clear htokens
    induction htoken with
    | nil => rfl
    | cons htoken _ ih =>
      rw [List.map_cons, List.map_cons, List.map_cons, ih, letter?_eq_some_iff.2 ⟨_, htoken, rfl⟩]

end Lexeme

namespace Line

theorem letters_eq_iff {letters : List (Kind × String)} :
    line.letters = letters.map some ↔
      ∃ content, line.tokens file = .ok content ∧ content.map Token.letter = letters :=
  Lexeme.map_letter?_eq_iff

/-- The letters on a line with content are letters of content. -/
theorem Solid.isContent_of_letters (h : Solid file line) {letters : List (Kind × String)}
    (hletters : line.letters = letters.map some) :
    letters ≠ [] ∧ ∀ letter ∈ letters, letter.1.isContent = true := by
  obtain ⟨content, htokens, rfl⟩ := letters_eq_iff.1 hletters
  refine ⟨by simpa using h.nonempty htokens, fun letter hmem => ?_⟩
  obtain ⟨token, htoken, rfl⟩ := List.mem_map.1 hmem
  exact isContent_of_tokens htokens token htoken

end Line

namespace Layout

/-- The letters of lines, with the marks before each of them. -/
def weave : List (List Mark) → List (List (Kind × String)) → List (Kind × String)
  | marks :: more, letters :: rest => marks.map Mark.letter ++ (letters ++ weave more rest)
  | _, _ => []

theorem letters_of_woven {marks : List (List Mark)} {body : List Token}
    (h : Woven file lines marks body) : ∃ contents : List (List (Kind × String)),
      lines.map Line.letters = contents.map (·.map some) ∧
        body.map Token.letter = weave marks contents := by
  induction h with
  | nil => exact ⟨[], rfl, rfl⟩
  | @cons line lines marks more content following tokens _ _ _ ih =>
    obtain ⟨contents, hcontents, hbody⟩ := ih
    refine ⟨content.map Token.letter :: contents, ?_, ?_⟩
    · rw [List.map_cons, List.map_cons, hcontents, Line.letters_eq_iff.2 ⟨content, tokens, rfl⟩]
    · rw [List.map_append, List.map_append, Runs.letter_token, hbody, weave]

theorem exists_woven (hlines : ∀ line ∈ lines, Line.Solid file line) {marks : List (List Mark)}
    {contents : List (List (Kind × String))} (hlength : marks.length = lines.length)
    (h : lines.map Line.letters = contents.map (·.map some)) :
    ∃ body, Woven file lines marks body ∧ body.map Token.letter = weave marks contents := by
  induction lines generalizing marks contents with
  | nil =>
    obtain rfl := List.map_eq_nil_iff.1 h.symm
    obtain rfl := List.length_eq_zero_iff.1 hlength
    exact ⟨[], .nil, rfl⟩
  | cons line lines ih =>
    obtain ⟨letters, rest, rfl, hletters, hrest⟩ := List.map_eq_cons_iff.1 h.symm
    obtain ⟨first, more, rfl⟩ := List.exists_cons_of_length_eq_add_one hlength
    obtain ⟨hline, hlines⟩ := List.forall_mem_cons.1 hlines
    obtain ⟨content, htokens, rfl⟩ := Line.letters_eq_iff.1 hletters.symm
    obtain ⟨body, hbody, hweave⟩ := ih hlines (Nat.succ_injective hlength) hrest.symm
    refine ⟨_, .cons htokens (hline.nonempty htokens) (Line.isContent_of_tokens htokens) hbody, ?_⟩
    rw [List.map_append, List.map_append, Runs.letter_token, hweave, weave]

theorem length_of_fold? {levels widths : List Nat} {marks : List (List Mark)} {final : List Mark}
    (h : fold? levels widths = some (marks, final)) : marks.length = widths.length := by
  induction widths generalizing levels marks with
  | nil =>
    cases h
    rfl
  | cons width widths ih =>
    obtain ⟨first, left, more, -, hmore, rfl⟩ := fold?_cons_eq_some_iff.1 h
    rw [List.length_cons, List.length_cons, ih hmore]

/-- The marks between lines of given shapes, their letters, and the marks behind the last line. -/
structure LaidOut (shapes : List (Nat × List (Option (Kind × String)))) (marks : List (List Mark))
    (contents : List (List (Kind × String))) (final : List Mark) : Prop where
  fold : fold? [] (shapes.map Prod.fst) = some (marks, final)
  letters : shapes.map Prod.snd = contents.map (·.map some)

theorem laidOut_shapes_iff {source : List Char} {marks : List (List Mark)}
    {contents : List (List (Kind × String))} {final : List Mark} :
    LaidOut (Line.shapes source) marks contents final ↔
      fold? [] ((Line.contentLines source).map Line.width) = some (marks, final) ∧
        (Line.contentLines source).map Line.letters = contents.map (·.map some) := by
  have hwidths : (Line.shapes source).map Prod.fst = (Line.contentLines source).map Line.width :=
    List.map_map
  have hletters : (Line.shapes source).map Prod.snd = (Line.contentLines source).map Line.letters :=
    List.map_map
  rw [← hwidths, ← hletters]
  exact ⟨fun h => ⟨h.fold, h.letters⟩, fun h => ⟨h.1, h.2⟩⟩

variable {source : String} {letters : List (Kind × String)}

theorem exists_eof_of_tokenize (h : breaksLines source.toList = true) {tokens : List Token}
    (htokens : tokenize source file = .ok tokens) :
    ∃ content position, tokens = content ++ [.eof position] := by
  rw [tokenize_eq_contentLines] at htokens
  obtain ⟨marks, final, body, -, -, rfl⟩ :=
    woven_of_tokensOfLines (Line.solid_of_mem h file) htokens
  exact ⟨_, _, (List.append_assoc ..).symm⟩

theorem tokenize_letters_iff (file : String) (h : breaksLines source.toList = true) :
    (∃ content position, tokenize source file = .ok (content ++ [.eof position]) ∧
      content.map Token.letter = letters) ↔
    ∃ marks contents final, LaidOut (Line.shapes source.toList) marks contents final ∧
      letters = weave marks contents ++ final.map Mark.letter := by
  have hsolid := Line.solid_of_mem h file
  rw [tokenize_eq_contentLines]
  generalize endPosition file (Line.ofSource source.toList) = last
  constructor
  · rintro ⟨content, position, htokens, rfl⟩
    obtain ⟨marks, final, body, hfold, hwoven, heq⟩ := woven_of_tokensOfLines hsolid htokens
    obtain ⟨contents, hcontents, hbody⟩ := letters_of_woven hwoven
    refine ⟨marks, contents, final, laidOut_shapes_iff.2 ⟨hfold, hcontents⟩, ?_⟩
    rw [← List.append_assoc] at heq
    rw [(List.append_inj' heq rfl).1, List.map_append, Runs.letter_token, hbody]
  · rintro ⟨marks, contents, final, hlaid, rfl⟩
    obtain ⟨hfold, hcontents⟩ := laidOut_shapes_iff.1 hlaid
    obtain ⟨body, hwoven, hbody⟩ :=
      exists_woven hsolid ((length_of_fold? hfold).trans (List.length_map _)) hcontents
    refine ⟨body ++ final.map (·.token last), last, ?_, ?_⟩
    · rw [tokensOfLines_of_woven hsolid hfold hwoven, List.append_assoc]
    · rw [List.map_append, Runs.letter_token, hbody]

theorem mem_weave {marks : List (List Mark)} {contents : List (List (Kind × String))}
    {letter : Kind × String} (h : letter ∈ weave marks contents) :
    (∃ mark : Mark, letter = mark.letter) ∨ ∃ content ∈ contents, letter ∈ content := by
  fun_induction weave marks contents with
  | case1 first more content rest ih =>
    rcases List.mem_append.1 h with hmark | h
    · obtain ⟨mark, -, rfl⟩ := List.mem_map.1 hmark
      exact .inl ⟨mark, rfl⟩
    · rcases List.mem_append.1 h with hcontent | h
      · exact .inr ⟨content, List.mem_cons_self, hcontent⟩
      · exact (ih h).imp_right fun ⟨other, hmem, hletter⟩ =>
          ⟨other, List.mem_cons_of_mem _ hmem, hletter⟩
  | case2 => cases h

namespace LaidOut

variable {source : List Char} {marks : List (List Mark)}
  {contents : List (List (Kind × String))} {final : List Mark}

theorem isContent (h : LaidOut (Line.shapes source) marks contents final)
    (hsource : breaksLines source = true) {content : List (Kind × String)}
    (hmem : content ∈ contents) :
    content ≠ [] ∧ ∀ letter ∈ content, letter.1.isContent = true := by
  have hmap : content.map some ∈ contents.map (·.map some) := List.mem_map_of_mem hmem
  rw [← (laidOut_shapes_iff.1 h).2] at hmap
  obtain ⟨line, hline, hletters⟩ := List.mem_map.1 hmap
  exact (Line.solid_of_mem hsource "" line hline).isContent_of_letters hletters

/-- No letter of a source is that of its end. -/
theorem kind_ne_eof (h : LaidOut (Line.shapes source) marks contents final)
    (hsource : breaksLines source = true) {tokens : List Token}
    (hletters : tokens.map Token.letter = weave marks contents ++ final.map Mark.letter) :
    ∀ token ∈ tokens, token.kind ≠ .eof := by
  intro token htoken
  have hmark (mark : Mark) (heq : token.letter = mark.letter) : token.kind ≠ .eof := by
    rw [show token.kind = mark.kind from congrArg Prod.fst heq]
    cases mark <;> decide
  have hmem : token.letter ∈ weave marks contents ++ final.map Mark.letter :=
    hletters ▸ List.mem_map_of_mem htoken
  rcases List.mem_append.1 hmem with hmem | hmem
  · rcases mem_weave hmem with ⟨mark, heq⟩ | ⟨content, hcontent, hletter⟩
    · exact hmark mark heq
    · have hkind : token.kind.isContent = true := (h.isContent hsource hcontent).2 _ hletter
      intro heof
      rw [heof] at hkind
      cases hkind
  · obtain ⟨mark, -, heq⟩ := List.mem_map.1 hmem
    exact hmark mark heq.symm

end LaidOut

end Layout

/-! ## Programs -/

theorem like_of_letters {tokens tokens' : List Token}
    (h : tokens.map Token.letter = tokens'.map Token.letter) :
    List.Forall₂ (Token.Like fun _ _ => True) tokens tokens' := by
  induction tokens generalizing tokens' with
  | nil =>
    obtain rfl := List.map_eq_nil_iff.1 h.symm
    exact .nil
  | cons token tokens ih =>
    obtain ⟨token', more, rfl, hletter, hmore⟩ := List.map_eq_cons_iff.1 h.symm
    obtain ⟨hkind, hvalue⟩ := Prod.mk.inj hletter
    exact .cons ⟨hkind, hvalue, trivial⟩ (ih hmore.symm)

/-- The lines of a program are read whatever the places of the tokens. -/
theorem Reads.lines_of_letters {limit : Nat} {nodes : List Node} {tokens tokens' : List Token}
    (hletters : tokens.map Token.letter = tokens'.map Token.letter)
    (hcontent : ∀ token ∈ tokens, token.kind ≠ .eof)
    (h : Reads limit (.lines false .eof nodes) tokens []) :
    Reads limit (.lines false .eof nodes) tokens' [] :=
  (accepts_program limit).of_like (local_program limit) (like_of_letters hletters) hcontent h

theorem parse_concat_eof_iff {content : List Token}
    (hcontent : ∀ token ∈ content, token.kind ≠ .eof)
    {position : Position} {limit : Nat} {program : Program} :
    parse (content ++ [.eof position]) file limit = .ok program ↔
      Reads limit (.lines false .eof program.body) content [] := by
  have hends : EndsOnce (content ++ [.eof position]) := ⟨content, _, rfl, hcontent, rfl⟩
  have htake := Parse.takeWhile_content hcontent [.eof position]
  rw [parse_eq_ok_iff, hends.trailing?_eq, htake]
  simp [Token.eof]

@[simp] theorem Token.map_letter_ofLetter (letters : List (Kind × String)) :
    (letters.map ofLetter).map letter = letters := by
  rw [List.map_map]
  exact List.map_id letters

open Layout in
/-- What a source stands for is settled by its letters. -/
theorem parseSource_eq_ok_iff {source : String} (h : breaksLines source.toList = true) {limit : Nat}
    {program : Program} :
    parseSource source file limit = .ok program ↔
      ∃ marks contents final, LaidOut (Line.shapes source.toList) marks contents final ∧
        Reads limit (.lines false .eof program.body)
          ((weave marks contents ++ final.map Mark.letter).map Token.ofLetter) [] := by
  constructor
  · intro hparse
    unfold parseSource at hparse
    cases htokens : tokenize source file with
    | error => simp [htokens, bind, Except.bind] at hparse
    | ok tokens =>
      obtain ⟨content, position, rfl⟩ := exists_eof_of_tokenize h htokens
      obtain ⟨marks, contents, final, hlaid, hletters⟩ :=
        (tokenize_letters_iff file h).1 ⟨content, position, htokens, rfl⟩
      have hcontent := hlaid.kind_ne_eof h hletters
      rw [htokens] at hparse
      refine ⟨marks, contents, final, hlaid, ?_⟩
      exact .lines_of_letters (hletters.trans (Token.map_letter_ofLetter _).symm) hcontent
        ((parse_concat_eof_iff hcontent).1 hparse)
  · rintro ⟨marks, contents, final, hlaid, hreads⟩
    obtain ⟨content, position, htokens, hletters⟩ :=
      (tokenize_letters_iff file h).2 ⟨marks, contents, final, hlaid, rfl⟩
    have hplaced := Token.map_letter_ofLetter (weave marks contents ++ final.map Mark.letter)
    have hparse : parse (content ++ [.eof position]) file limit = .ok program :=
      (parse_concat_eof_iff (hlaid.kind_ne_eof h hletters)).2
        (.lines_of_letters (hplaced.trans hletters.symm) (hlaid.kind_ne_eof h hplaced) hreads)
    unfold parseSource
    rw [htokens]
    exact hparse

end Offside
