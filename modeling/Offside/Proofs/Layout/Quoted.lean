import Offside.Proofs.Layout.Joined

/-! # Quoted sources

A source with a quotation mark before it and another one behind it. The marks add a letter to the
first line and one to the last line, or a line of its own if there is a line feed before the closing
mark.
-/

namespace Offside

namespace Lexeme

/-- The same piece, found elsewhere. -/
structure Moved (lexeme lexeme' : Lexeme) : Prop where
  pattern?_eq : lexeme'.pattern? = lexeme.pattern?
  text_eq : lexeme'.text = lexeme.text

/-- A text is cut in the same way wherever it begins. -/
theorem moved_cut (offset offset' : Nat) (text : List Char) :
    List.Forall₂ Moved (cut offset text) (cut offset' text) := by
  fun_induction cut offset text generalizing offset' with
  | case1 => rw [cut]; exact .nil
  | case2 offset c rest pattern? size hmatch piece ih =>
    rw [cut, hmatch]
    exact .cons ⟨rfl, rfl⟩ (ih _)

variable {lexeme lexeme' : Lexeme} {lexemes lexemes' : List Lexeme}

theorem Moved.isSpacing_eq (h : Moved lexeme lexeme') : lexeme'.isSpacing = lexeme.isSpacing := by
  rw [isSpacing, isSpacing, h.pattern?_eq]

theorem Moved.isComment_eq (h : Moved lexeme lexeme') : lexeme'.isComment = lexeme.isComment := by
  rw [isComment, isComment, h.pattern?_eq]

theorem Moved.letter?_eq (h : Moved lexeme lexeme') : lexeme'.letter? = lexeme.letter? := by
  rw [letter?, letter?, meaning?, meaning?, h.pattern?_eq, h.text_eq]

theorem letters_of_moved (h : List.Forall₂ Moved lexemes lexemes') :
    (lexemes'.filter (!·.isSpacing)).map letter? = (lexemes.filter (!·.isSpacing)).map letter? := by
  induction h with
  | nil => rfl
  | @cons lexeme lexeme' _ _ hmoved _ ih =>
    by_cases hspacing : lexeme.isSpacing = true
    · rw [List.filter_cons_of_neg (by simpa [hmoved.isSpacing_eq] using hspacing),
        List.filter_cons_of_neg (by simpa using hspacing), ih]
    · rw [List.filter_cons_of_pos (by simpa [hmoved.isSpacing_eq] using hspacing),
        List.filter_cons_of_pos (by simpa using hspacing), List.map_cons, List.map_cons, ih,
        hmoved.letter?_eq]

end Lexeme

namespace Line

/-- No piece of a text is a comment. -/
def Uncommented (text : List Char) : Prop :=
  ∀ lexeme ∈ Lexeme.cut 0 text, lexeme.isComment = false

/-- The letters on a line with a given text. -/
def lettersOf (text : List Char) : List (Option (Kind × String)) :=
  (⟨0, 0, text⟩ : Line).letters

variable {text : List Char}

theorem lettersOf_eq (h : Uncommented text) :
    lettersOf text = ((Lexeme.cut 0 text).filter (!·.isSpacing)).map Lexeme.letter? := by
  unfold lettersOf letters lexemes
  dsimp only
  have hall : ∀ lexeme ∈ (Lexeme.cut 0 text).filter (!·.isSpacing), (!lexeme.isComment) = true := by
    intro lexeme hmem
    simp [h lexeme (List.mem_of_mem_filter hmem)]
  split
  · next hnil => rw [hnil]
  · next first rest hcons =>
    rw [hcons] at hall ⊢
    rw [List.filter_eq_self.2 fun lexeme hmem => hall lexeme (List.mem_cons_of_mem _ hmem)]

/-- An opening mark is the first letter of its line. -/
theorem exists_lettersOf_openQuote (text : List Char) :
    ∃ letters, lettersOf ('[' :: '|' :: text) = some (.openQuote, "[|") :: letters ∧
      (Uncommented text → letters = lettersOf text) := by
  have hfirst : Pattern.first? (['[', '|'] ++ text) =
      some (.symbol ['[', '|'] .openQuote, ['[', '|'].length) := rfl
  let quote : Lexeme := ⟨some (.symbol ['[', '|'] .openQuote), ['[', '|'], 0⟩
  let rest := (Lexeme.cut (0 + byteLength ['[', '|']) text).filter (!·.isSpacing)
  have hpieces : (Lexeme.cut 0 ('[' :: '|' :: text)).filter (!·.isSpacing) = quote :: rest := by
    have hcut := Lexeme.cut_append hfirst rfl 0
    rw [List.cons_append, List.singleton_append] at hcut
    rw [hcut, List.filter_cons_of_pos (by rfl)]
  have hletters : lettersOf ('[' :: '|' :: text) =
      some (.openQuote, "[|") :: (rest.filter (!·.isComment)).map Lexeme.letter? := by
    unfold lettersOf letters lexemes
    dsimp only
    rw [hpieces]
    rfl
  refine ⟨_, hletters, fun h => ?_⟩
  have hmoved := Lexeme.moved_cut 0 (0 + byteLength ['[', '|']) text
  have hrest : ∀ lexeme ∈ rest, (!lexeme.isComment) = true := by
    intro lexeme hmem
    obtain ⟨lexeme', hmem', hsame⟩ :=
      exists_of_forall₂ hmoved.flip (List.mem_of_mem_filter hmem)
    rw [hsame.isComment_eq, h lexeme' hmem']
    rfl
  rw [List.filter_eq_self.2 hrest, lettersOf_eq h]
  exact Lexeme.letters_of_moved hmoved

/-- A closing mark is the last letter of its line, unless it goes on from an opening bracket. -/
theorem lettersOf_closeQuote (h : Uncommented text) (hfeed : '\n' ∉ text) (hreturn : '\r' ∉ text)
    (hlast : ∀ letter ∈ (lettersOf text).getLast?, letter.map Prod.fst ≠ some .openBracket) :
    lettersOf (text ++ ['|', ']']) = lettersOf text ++ [some (.closeQuote, "|]")] ∧
      Uncommented (text ++ ['|', ']']) := by
  have hstop : ∀ lexeme ∈ (Lexeme.cut 0 text).getLast?,
      lexeme.pattern? ≠ some (.symbol ['['] .openBracket) := by
    intro lexeme hmem hbracket
    obtain ⟨pieces, hpieces⟩ := List.getLast?_eq_some_iff.1 hmem
    have hletter : lexeme.letter? = some (.openBracket, String.ofList lexeme.text) := by
      rw [Lexeme.letter?, Lexeme.meaning?, hbracket]
      rfl
    have hcounts : lexeme.isSpacing = false := by simp [Lexeme.isSpacing, hbracket]
    refine hlast (some (.openBracket, String.ofList lexeme.text)) ?_ rfl
    rw [lettersOf_eq h, hpieces, ← hletter]
    simp [hcounts]
  let quote : Lexeme := ⟨some (.symbol ['|', ']'] .closeQuote), ['|', ']'], 0 + byteLength text⟩
  have hquote : Lexeme.cut (0 + byteLength text) ['|', ']'] = [quote] := by
    have hfirst : Pattern.first? (['|', ']'] ++ []) =
        some (.symbol ['|', ']'] .closeQuote, ['|', ']'].length) := rfl
    have hcut := Lexeme.cut_append hfirst rfl (0 + byteLength text)
    rwa [List.append_nil, Lexeme.cut] at hcut
  have hcut : Lexeme.cut 0 (text ++ ['|', ']']) = Lexeme.cut 0 text ++ [quote] := by
    rw [Lexeme.cut_append_stop hfeed hreturn (by decide) (.inr ⟨rfl, h, hstop⟩), hquote]
  have hall : Uncommented (text ++ ['|', ']']) := by
    unfold Uncommented
    rw [hcut]
    exact List.forall_mem_append.2 ⟨h, List.forall_mem_singleton.2 rfl⟩
  refine ⟨?_, hall⟩
  rw [lettersOf_eq hall, lettersOf_eq h, hcut, List.filter_append, List.map_append]
  rfl

theorem isIndentation_of_not_blank {c : Char} (hc : Offside.isBlank c = false) :
    isIndentation c = false := by
  rw [isIndentation, Bool.or_eq_false_iff, beq_eq_false_iff_ne, beq_eq_false_iff_ne]
  constructor <;>
    · rintro rfl
      cases hc

/-- A line that begins with content begins at the margin. -/
theorem shape?_of_head {c : Char} (hc : Offside.isBlank c = false) (text : List Char) :
    shape? (c :: text) = some (0, lettersOf (c :: text)) := by
  have hindentation := isIndentation_of_not_blank hc
  have hbreak : withoutBreak (c :: text) = c :: withoutBreak text := by
    rw [withoutBreak]
    · rintro rfl
      cases hc
    · rintro rfl
      cases hc
  have hcontent : (⟨0, 0, c :: text⟩ : Line).hasContent = true := by
    simp [hasContent, hbreak, hindentation]
  have hwidth : (⟨0, 0, c :: text⟩ : Line).width = 0 := by simp [width, hindentation]
  rw [shape?, if_pos hcontent, shape, hwidth]
  rfl

/-- What stands behind content does not change the width of its line. -/
theorem shape?_of_mem {c : Char} (hc : Offside.isBlank c = false) {text more : List Char}
    (hfeed : '\n' ∉ text ++ c :: more) :
    shape? (text ++ c :: more) =
      some (Pattern.reachWhile isIndentation text, lettersOf (text ++ c :: more)) := by
  have hindentation := isIndentation_of_not_blank hc
  have hcontent : (⟨0, 0, text ++ c :: more⟩ : Line).hasContent = true := by
    rw [hasContent, withoutBreak_eq_self hfeed]
    simp only [Bool.not_eq_true', List.isEmpty_eq_false_iff, ne_eq, List.dropWhile_eq_nil_iff]
    intro hall
    have := hall c (by simp)
    simp [hindentation] at this
  have hwidth : (⟨0, 0, text ++ c :: more⟩ : Line).width = Pattern.reachWhile isIndentation text :=
    Pattern.reachWhile_append_stop hindentation text more
  rw [shape?, if_pos hcontent, shape, hwidth]
  rfl

theorem shapes_closeQuote_line : shapes ['|', ']'] = [(0, [some (.closeQuote, "|]")])] := by
  have hempty : Uncommented [] := by
    intro lexeme hmem
    rw [Lexeme.cut] at hmem
    cases hmem
  have hnone : lettersOf [] = [] := by
    rw [lettersOf_eq hempty, Lexeme.cut]
    rfl
  have hletters := (lettersOf_closeQuote hempty List.not_mem_nil List.not_mem_nil
    (by simp [hnone])).1
  rw [hnone, List.nil_append] at hletters
  rw [shapes_eq, show cut [] ['|', ']'] = [['|', ']']] from rfl, List.filterMap_cons,
    shape?_of_head (by decide), hletters]
  rfl

/-- What is read already belongs to the first line. -/
theorem exists_cut_eq (source : List Char) :
    ∃ first texts, ∀ read, cut read source = (read.reverse ++ first) :: texts := by
  induction source with
  | nil => exact ⟨[], [], fun read => by simp [cut]⟩
  | cons c source ih =>
    obtain ⟨first, texts, hcut⟩ := ih
    by_cases hc : c = '\n'
    · exact ⟨[c], cut [] source, fun read => by simp [cut, hc]⟩
    · exact ⟨c :: first, texts, fun read => by simp [cut, hc, hcut]⟩

/-- An opening mark before a source that begins with content. -/
theorem shapes_openQuote {c : Char} (hc : Offside.isBlank c = false) (source : List Char) :
    ∃ first ∈ cut [] (c :: source), ∃ rest,
      shapes (c :: source) = (0, lettersOf first) :: rest ∧
        shapes ('[' :: '|' :: c :: source) = (0, lettersOf ('[' :: '|' :: first)) :: rest := by
  have hfeed : c ≠ '\n' := by
    rintro rfl
    cases hc
  obtain ⟨first, texts, hcut⟩ := exists_cut_eq source
  have hsource : cut [] (c :: source) = (c :: first) :: texts := by simp [cut, hfeed, hcut]
  have hquoted : cut [] ('[' :: '|' :: c :: source) = ('[' :: '|' :: c :: first) :: texts := by
    simp [cut, hfeed, hcut]
  refine ⟨c :: first, by simp [hsource], texts.filterMap shape?, ?_, ?_⟩
  · rw [shapes_eq, hsource, List.filterMap_cons, shape?_of_head hc]
  · rw [shapes_eq, hquoted, List.filterMap_cons, shape?_of_head (by decide)]

/-- A closing mark behind a source that ends with content. -/
theorem shapes_closeQuote {c : Char} (hc : Offside.isBlank c = false) (source : List Char) :
    ∃ last ∈ cut [] (source ++ [c]), '\n' ∉ last ∧ ∃ before width,
      shapes (source ++ [c]) = before ++ [(width, lettersOf last)] ∧
        shapes (source ++ [c] ++ ['|', ']']) =
          before ++ [(width, lettersOf (last ++ ['|', ']']))] ∧
        ∀ text ∈ cut [] (source ++ [c] ++ ['|', ']']),
          text ∈ cut [] (source ++ [c]) ∨ text = last ++ ['|', ']'] := by
  have hfeed : c ≠ '\n' := by
    rintro rfl
    cases hc
  obtain ⟨texts, last, -, hafter, hlast⟩ := exists_cut_append [] source
  have hsource : cut [] (source ++ [c]) = texts ++ [last ++ [c]] := by
    simp [hafter, cut, hfeed]
  have hquoted : cut [] (source ++ [c] ++ ['|', ']']) = texts ++ [last ++ [c] ++ ['|', ']']] := by
    rw [List.append_assoc, hafter]
    simp [cut, hfeed]
  have hlast' : '\n' ∉ last ++ [c] := by
    simpa [Ne.symm hfeed] using hlast List.not_mem_nil
  refine ⟨last ++ [c], by simp [hsource], hlast', texts.filterMap shape?,
    Pattern.reachWhile isIndentation last, ?_, ?_, fun text hmem => ?_⟩
  · rw [shapes_eq, hsource, List.filterMap_append, List.filterMap_cons, shape?_of_mem hc hlast']
    rfl
  · have hlast'' : '\n' ∉ last ++ c :: ['|', ']'] := by
      simpa [Ne.symm hfeed] using hlast List.not_mem_nil
    rw [shapes_eq, hquoted, List.filterMap_append, List.append_assoc last, List.singleton_append,
      List.filterMap_cons, shape?_of_mem hc hlast'']
    rfl
  · rw [hquoted, List.mem_append, List.mem_singleton] at hmem
    exact hmem.imp_left fun htext => by simp [hsource, htext]

end Line

namespace Layout.LaidOut

variable {shapes : List (Nat × List (Option (Kind × String)))} {width : Nat}
  {letters : List (Option (Kind × String))} {marks marks' : List (List Mark)}
  {contents contents' : List (List (Kind × String))} {final final' : List Mark}

theorem unique (h : LaidOut shapes marks contents final)
    (h' : LaidOut shapes marks' contents' final') :
    marks' = marks ∧ contents' = contents ∧ final' = final := by
  have hfold := h'.fold.symm.trans h.fold
  have hletters := h'.letters.symm.trans h.letters
  simp only [Option.some.injEq, Prod.mk.injEq] at hfold
  refine ⟨hfold.1, ?_, hfold.2⟩
  exact List.map_injective_iff.2 (List.map_injective_iff.2 (Option.some_injective _)) hletters

/-- One more letter before all others. -/
theorem cons_letter (h : LaidOut ((width, letters) :: shapes) marks contents final)
    (letter : Kind × String) :
    ∃ contents', LaidOut ((width, some letter :: letters) :: shapes) marks contents' final ∧
      weave marks contents' = letter :: weave marks contents := by
  have hfold := h.fold
  obtain ⟨more, content, rest, rfl, rfl, hcontent, hrest, -⟩ := h.exists_cons
  refine ⟨(letter :: content) :: rest, ⟨hfold, ?_⟩, rfl⟩
  dsimp only at hcontent
  rw [List.map_cons, hcontent, hrest]
  rfl

theorem exists_concat (h : LaidOut (shapes ++ [(width, letters)]) marks contents final) :
    ∃ more before rest content, marks = more ++ [before] ∧ contents = rest ++ [content] ∧
      more.length = rest.length ∧ letters = content.map some ∧
        shapes.map Prod.snd = rest.map (·.map some) := by
  have hlength := h.length_eq
  have hletters := h.letters
  rw [List.map_append] at hletters
  obtain ⟨rest, last, rfl, hrest, hlast⟩ := List.map_eq_append_iff.1 hletters.symm
  obtain ⟨content, rfl, hcontent⟩ := List.map_eq_singleton_iff.1 hlast
  obtain ⟨more, before, rfl⟩ : ∃ more before, marks = more ++ [before] := by
    refine (List.eq_nil_or_concat' marks).resolve_left ?_
    rintro rfl
    simp at hlength
  exact ⟨more, before, rest, content, rfl, rfl, by simpa using hlength, hcontent.symm, hrest.symm⟩

/-- The last letter of the last line is the last one of all. -/
theorem getLast?_weave (h : LaidOut (shapes ++ [(width, letters)]) marks contents final)
    {letter : Option (Kind × String)} (hletter : letter ∈ letters.getLast?) :
    (weave marks contents).getLast? = letter := by
  obtain ⟨more, before, rest, content, rfl, rfl, hlength, rfl, -⟩ := h.exists_concat
  rw [List.getLast?_map] at hletter
  obtain ⟨last, hlast, rfl⟩ := Option.map_eq_some_iff.1 hletter
  rw [weave_append hlength]
  simp [weave, List.getLast?_append, hlast]

/-- A source with content ends with a letter of content. -/
theorem exists_last_letter {source : List Char}
    (h : LaidOut (Line.shapes source) marks contents final) (hsource : breaksLines source = true)
    (hne : Line.shapes source ≠ []) :
    ∃ letters letter, weave marks contents = letters ++ [letter] ∧ letter.1.isContent = true := by
  have hcontent {content : List (Kind × String)} (hmem : content ∈ contents) :=
    h.isContent hsource hmem
  obtain ⟨shapes, shape, hshapes⟩ := (List.eq_nil_or_concat' _).resolve_left hne
  obtain ⟨more, before, rest, content, rfl, rfl, hlength, -⟩ := (hshapes ▸ h).exists_concat
  obtain ⟨hne, hletters⟩ := hcontent (List.mem_append_right rest (List.mem_singleton_self content))
  obtain ⟨letters, letter, rfl⟩ := (List.eq_nil_or_concat' content).resolve_left hne
  refine ⟨weave more rest ++ (before.map Mark.letter ++ letters), letter, ?_,
    hletters letter (by simp)⟩
  rw [weave_append hlength]
  simp [weave]

/-- One more letter behind all others. -/
theorem concat_letter (h : LaidOut (shapes ++ [(width, letters)]) marks contents final)
    (letter : Kind × String) :
    ∃ contents', LaidOut (shapes ++ [(width, letters ++ [some letter])]) marks contents' final ∧
      weave marks contents' = weave marks contents ++ [letter] := by
  have hfold := h.fold
  obtain ⟨more, before, rest, content, rfl, rfl, hlength, rfl, hrest⟩ := h.exists_concat
  refine ⟨rest ++ [content ++ [letter]], ⟨?_, ?_⟩, ?_⟩
  · rw [List.map_append] at hfold ⊢
    exact hfold
  · rw [List.map_append, List.map_append, hrest]
    simp
  · rw [weave_append hlength, weave_append hlength]
    simp [weave]

end Layout.LaidOut

/-- A source without carriage returns and comments that neither begins nor ends with a blank
character. -/
@[mk_iff]
structure Quotable (source : List Char) : Prop where
  return_not_mem : '\r' ∉ source
  uncommented : ∀ text ∈ Line.cut [] source, Line.Uncommented text
  head_not_blank : ∀ c ∈ source.head?, isBlank c = false
  last_not_blank : ∀ c ∈ source.getLast?, isBlank c = false

/-- The test for sources that are `Quotable`. -/
def isQuotable (source : List Char) : Bool :=
  !source.contains '\r' &&
    (Line.cut [] source).all (fun text => (Lexeme.cut 0 text).all (!·.isComment)) &&
      source.head?.all (!isBlank ·) && source.getLast?.all (!isBlank ·)

theorem isQuotable_iff {source : List Char} : isQuotable source = true ↔ Quotable source := by
  simp [isQuotable, quotable_iff, Line.Uncommented, and_assoc, Option.all_eq_true]

namespace Quotable

open Layout

variable {source : List Char} {marks : List (List Mark)} {contents : List (List (Kind × String))}
  {final : List Mark}

/-- Between marks of which the closing one stands on a line of its own, every block is ended. -/
theorem exists_laidOut_lineFeed (h : Quotable source) (hne : source ≠ [])
    (hlaid : LaidOut (Line.shapes source) marks contents final) :
    ∃ all contents',
      LaidOut (Line.shapes ('[' :: '|' :: (source ++ ['\n', '|', ']']))) all contents' [] ∧
        weave all contents' = (.openQuote, "[|") ::
          (weave marks contents ++ ((between final).map Mark.letter ++ [(.closeQuote, "|]")])) := by
  obtain ⟨c, rest, rfl⟩ := List.exists_cons_of_ne_nil hne
  obtain ⟨first, hfirst, shapes, hshapes, hquoted⟩ :=
    Line.shapes_openQuote (h.head_not_blank c rfl) rest
  obtain ⟨letters, hletters, heq⟩ := Line.exists_lettersOf_openQuote first
  rw [hletters, heq (h.uncommented first hfirst)] at hquoted
  rw [hshapes] at hlaid
  obtain ⟨contents', hopened, hweave⟩ := hlaid.cons_letter (.openQuote, "[|")
  have hclosing : LaidOut (Line.shapes ['|', ']']) [[]] [[(.closeQuote, "|]")]] [] := by
    rw [Line.shapes_closeQuote_line]
    exact ⟨rfl, rfl⟩
  have hreturn : '\r' ∉ '[' :: '|' :: c :: rest := by
    simpa using h.return_not_mem
  have hsource : '[' :: '|' :: (c :: rest ++ ['\n', '|', ']']) =
      ('[' :: '|' :: c :: rest) ++ '\n' :: ['|', ']'] := rfl
  rw [hsource, Line.shapes_append hreturn, hquoted]
  obtain ⟨all, hall, hletters'⟩ := hopened.append hclosing (by simp)
    (by simp [Line.shapes_closeQuote_line]) (by simp) (by simp [Line.shapes_closeQuote_line])
  refine ⟨all, contents' ++ [[(.closeQuote, "|]")]], hall, ?_⟩
  rw [hletters', hweave]
  simp [weave]

/-- A closing mark on the last line is the letter behind the others, if that is no bracket. -/
theorem exists_laidOut (h : Quotable source) (hne : source ≠ [])
    (hlaid : LaidOut (Line.shapes source) marks contents final)
    (hlast : ∀ letter ∈ (weave marks contents).getLast?, letter.1 ≠ .openBracket) :
    ∃ contents',
      LaidOut (Line.shapes ('[' :: '|' :: (source ++ ['|', ']']))) marks contents' final ∧
        weave marks contents' =
          (.openQuote, "[|") :: (weave marks contents ++ [(.closeQuote, "|]")]) := by
  obtain ⟨init, d, rfl⟩ := (List.eq_nil_or_concat' source).resolve_left hne
  obtain ⟨last, hmem, hfeed, before, width, hshapes, hclosed, htexts⟩ :=
    Line.shapes_closeQuote (h.last_not_blank d (by simp)) init
  rw [hshapes] at hlaid
  have hbracket : ∀ letter ∈ (Line.lettersOf last).getLast?,
      letter.map Prod.fst ≠ some .openBracket := by
    rintro letter hletter heq
    obtain ⟨letter, rfl, hkind⟩ := Option.map_eq_some_iff.1 heq
    exact hlast letter (hlaid.getLast?_weave hletter) hkind
  obtain ⟨hletters, huncommented⟩ := Line.lettersOf_closeQuote (h.uncommented last hmem) hfeed
    (fun hreturn => h.return_not_mem (Line.mem_of_mem_cut hmem hreturn)) hbracket
  obtain ⟨contents₁, hlaid₁, hweave₁⟩ := hlaid.concat_letter (.closeQuote, "|]")
  rw [← hletters, ← hclosed] at hlaid₁
  obtain ⟨c, rest, hsource⟩ := List.exists_cons_of_ne_nil hne
  have hc : isBlank c = false := h.head_not_blank c (by simp [hsource])
  rw [hsource, List.cons_append] at hlaid₁ htexts ⊢
  obtain ⟨first, hfirst, shapes, hopened, hquoted⟩ :=
    Line.shapes_openQuote hc (rest ++ ['|', ']'])
  obtain ⟨letters, hletters', heq⟩ := Line.exists_lettersOf_openQuote first
  have hfirst' : Line.Uncommented first := by
    rcases htexts first hfirst with htext | rfl
    · exact h.uncommented first (hsource ▸ htext)
    · exact huncommented
  rw [hopened] at hlaid₁
  obtain ⟨contents₂, hlaid₂, hweave₂⟩ := hlaid₁.cons_letter (.openQuote, "[|")
  rw [hquoted, hletters', heq hfirst']
  exact ⟨contents₂, hlaid₂, by rw [hweave₂, hweave₁]⟩

/-- With a closing mark on the last line, the same blocks are open at the end. -/
theorem of_laidOut (h : Quotable source) (hne : source ≠ [])
    (hlaid : LaidOut (Line.shapes source) marks contents final) {marks' : List (List Mark)}
    {contents' : List (List (Kind × String))} {final' : List Mark}
    (hlaid' : LaidOut (Line.shapes ('[' :: '|' :: (source ++ ['|', ']'])))
      marks' contents' final') :
    final' = final ∧ ∃ more, weave marks' contents' = (.openQuote, "[|") :: more := by
  obtain ⟨init, d, rfl⟩ := (List.eq_nil_or_concat' source).resolve_left hne
  obtain ⟨last, -, -, before, width, hshapes, hclosed, -⟩ :=
    Line.shapes_closeQuote (h.last_not_blank d (by simp)) init
  obtain ⟨c, rest, hsource⟩ := List.exists_cons_of_ne_nil hne
  have hc : isBlank c = false := h.head_not_blank c (by simp [hsource])
  obtain ⟨first, -, shapes, hopened, hquoted⟩ := Line.shapes_openQuote hc (rest ++ ['|', ']'])
  obtain ⟨letters, hletters, -⟩ := Line.exists_lettersOf_openQuote first
  rw [hsource, List.cons_append] at hlaid' hclosed
  rw [hquoted, hletters] at hlaid'
  rw [hopened] at hclosed
  constructor
  · have hwidths := congrArg (List.map Prod.fst) hclosed
    rw [List.map_cons, List.map_append] at hwidths
    have hfold := hlaid.fold
    have hfold' := hlaid'.fold
    rw [hshapes, List.map_append, List.map_singleton] at hfold
    rw [List.map_cons, hwidths, List.map_singleton, hfold] at hfold'
    cases hfold'
    rfl
  · obtain ⟨more, content, rest, rfl, rfl, hcontent, -⟩ := hlaid'.exists_cons
    obtain ⟨letter, content, rfl, hletter, -⟩ := List.map_eq_cons_iff.1 hcontent.symm
    cases hletter
    exact ⟨content ++ weave more rest, rfl⟩

end Quotable

end Offside
