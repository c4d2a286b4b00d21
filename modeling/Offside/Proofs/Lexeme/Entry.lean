import Offside.Proofs.Lexeme.Pieces

/-! # Entries

What stands on one line: a comment, or spellings joined by blanks. A printed entry has the tokens
of the entry, however far the line is indented.
-/

namespace Offside

/-- A token without its place. -/
def Token.letter (token : Token) : Kind × String :=
  (token.kind, token.value)

def Spelling.letter (spelling : Spelling) : Kind × String :=
  (spelling.kind, String.ofList spelling.value)

/-- What is written on a line. A comment is written without blanks at its ends. -/
inductive Entry where
  | comment (text : List Char) (trimmed : trim text = text) (single : '\n' ∉ text)
  | content (first : Spelling) (rest : List Spelling)

namespace Lexeme

theorem exists_token {lexeme : Lexeme} {kind : Kind} {value : List Char}
    (h : lexeme.meaning? = some (kind, value)) (line : Line) (file : String) :
    ∃ token, lexeme.token line file = .ok token ∧
      token.letter = (kind, String.ofList value) := by
  unfold token
  rw [h]
  exact ⟨_, rfl, rfl⟩

theorem exists_tokens {spellings : List Spelling} {lexemes : List Lexeme}
    (h : List.Forall₂ Spelling.Claims spellings lexemes) (line : Line) (file : String) :
    ∃ tokens, lexemes.mapM (·.token line file) = .ok tokens ∧
      tokens.map Token.letter = spellings.map Spelling.letter := by
  induction h with
  | nil => exact ⟨[], rfl, rfl⟩
  | @cons spelling lexeme spellings lexemes hclaims _ ih =>
    obtain ⟨pattern?, text, offset⟩ := lexeme
    obtain ⟨rfl, rfl⟩ := hclaims
    obtain ⟨token, htoken, hletter⟩ := exists_token (spelling.meaning?_written offset) line file
    obtain ⟨tokens, htokens, hletters⟩ := ih
    refine ⟨token :: tokens, ?_, ?_⟩
    · rw [List.mapM_cons, htoken, htokens]
      rfl
    · rw [List.map_cons, List.map_cons, hletter, hletters, Spelling.letter]

end Lexeme

namespace Entry

/-- The tokens of an entry. -/
def letters : Entry → List (Kind × String)
  | comment text _ _ => [(.comment, String.ofList text)]
  | content first rest => (first :: rest).map Spelling.letter

def written : Entry → List Char
  | comment text _ _ => '/' :: '/' :: ' ' :: text
  | content first rest => Spelling.join first rest

/-- The text of an indented line. -/
def print (entry : Entry) (width : Nat) : List Char :=
  List.replicate width ' ' ++ (entry.written ++ ['\n'])

theorem letters_ne_nil (entry : Entry) : entry.letters ≠ [] := by
  cases entry <;> simp [letters]

theorem lineFeed_not_mem_written (entry : Entry) : '\n' ∉ entry.written := by
  cases entry with
  | comment text trimmed single => simp [written, single]
  | content first rest => exact Spelling.lineFeed_not_mem_join first rest

/-- An entry begins with something other than blanks. -/
theorem exists_written (entry : Entry) :
    ∃ c rest, entry.written ++ ['\n'] = c :: rest ∧
      Pattern.reachLineBreak (c :: rest) = 0 ∧ Pattern.isSpacing c = false := by
  cases entry with
  | comment text trimmed single => exact ⟨'/', _, rfl, rfl, rfl⟩
  | content first rest =>
    obtain ⟨c, more, hmore⟩ : ∃ c more, Spelling.join first rest ++ ['\n'] = c :: more :=
      List.exists_cons_of_ne_nil (by simp)
    have hfirst := Spelling.first?_join first rest
    rw [hmore] at hfirst
    obtain ⟨hbreak, hblanks, -⟩ := first.pattern_ne
    exact ⟨c, more, hmore, Pattern.head_of_first? hfirst hbreak hblanks⟩

theorem indentation_print (entry : Entry) (width : Nat) :
    (entry.print width).takeWhile Line.isIndentation = List.replicate width ' ' ∧
      (entry.print width).dropWhile Line.isIndentation = entry.written ++ ['\n'] := by
  obtain ⟨c, rest, hwritten, -, hc⟩ := entry.exists_written
  have hblank : ∀ d ∈ List.replicate width ' ', Line.isIndentation d = true := by
    intro d hmem
    rw [List.eq_of_mem_replicate hmem]
    rfl
  have hstop : ¬ Line.isIndentation c = true := by
    simp only [Pattern.isSpacing, Bool.or_eq_false_iff] at hc
    simp [Line.isIndentation, hc]
  unfold print
  rw [hwritten, List.takeWhile_append_of_pos hblank, List.dropWhile_append_of_pos hblank,
    List.takeWhile_cons_of_neg hstop, List.dropWhile_cons_of_neg hstop, List.append_nil]
  exact ⟨rfl, rfl⟩

theorem remark_written {text : List Char} (h : trim text = text) :
    Lexeme.remark ('/' :: '/' :: ' ' :: text) = text := by
  have hblank : trim (' ' :: text) = trim text := by
    unfold trim
    rw [List.dropWhile_cons_of_pos (by decide)]
  rw [Lexeme.remark, Lexeme.remark, hblank, h]
  simp

/-- The indentation of a printed line stands for nothing. -/
theorem filter_cut_print (entry : Entry) (width : Nat) :
    ∃ start, (Lexeme.cut 0 (entry.print width)).filter (!·.isSpacing) =
      (Lexeme.cut start (entry.written ++ ['\n'])).filter (!·.isSpacing) := by
  obtain ⟨c, rest, hwritten, -, hc⟩ := entry.exists_written
  unfold print
  rw [hwritten]
  exact Lexeme.filter_cut_blanks width hc rest 0

variable {entry : Entry} {line : Line} {width : Nat}

theorem width_eq (h : line.text = entry.print width) : line.width = width := by
  unfold Line.width
  rw [h, (entry.indentation_print width).1, List.length_replicate]

theorem isBlank_eq_false (h : line.text = entry.print width) : line.isBlank = false := by
  obtain ⟨c, rest, hwritten, hbreak, -⟩ := entry.exists_written
  unfold Line.isBlank
  dsimp only
  rw [h, (entry.indentation_print width).2, hwritten, hbreak]
  rfl

theorem exists_tokens (h : line.text = entry.print width) (file : String) :
    ∃ tokens, line.tokens file = .ok tokens ∧ tokens.map Token.letter = entry.letters := by
  obtain ⟨start, hstart⟩ := entry.filter_cut_print width
  unfold Line.tokens Line.lexemes
  rw [h, hstart]
  cases entry with
  | comment text trimmed single =>
    have hsingle : '\n' ∉ ' ' :: text := by simpa using single
    have hlength : ('/' :: '/' :: ' ' :: text).length = (' ' :: text).length + 2 := rfl
    rw [written, Lexeme.cut_append (Pattern.first?_comment hsingle []) hlength,
      List.filter_cons_of_pos (by rfl), Lexeme.filter_cut_lineBreak]
    have hmeaning : Lexeme.meaning? ⟨some .comment, '/' :: '/' :: ' ' :: text, start⟩ =
        some (.comment, text) := by
      rw [Lexeme.meaning?, remark_written trimmed]
    obtain ⟨token, htoken, hletter⟩ := Lexeme.exists_token hmeaning line file
    refine ⟨[token], ?_, ?_⟩
    · dsimp only [List.filter_nil]
      rw [List.mapM_cons, htoken]
      rfl
    · rw [List.map_singleton, hletter, letters]
  | content first rest =>
    have hpieces := Spelling.pieces_join first rest start
    rw [written]
    generalize (Lexeme.cut start _).filter _ = pieces at hpieces ⊢
    cases hpieces with
    | cons hfirst hrest =>
      dsimp only
      rw [Spelling.filter_isComment hrest]
      exact Lexeme.exists_tokens (.cons hfirst hrest) line file

end Entry

end Offside
