import Mathlib
import Offside.Proofs.Lexeme.Literals
import Offside.Proofs.Token.FirstPiece

/-! # Tokens of literals

A source that begins with a quote has the token of a literal first, or it is refused at the quote.
The literal ends at the first quote that no backslash takes along, and it is read by its escapes
alone, so each way of writing a text gives the text back.
-/

namespace Offside

open Escape (Writes Decodes closing?)
open Pattern (first?)

variable {value written body after rest : List Char} {source file : String}

/-- A string token at the start of a source, given its value. -/
structure Token.IsLiteral (token : Token) (value : List Char) : Prop where
  kind_eq : token.kind = .string
  value_eq : token.value = String.ofList value
  start_eq : token.start = 0

/-- A text between two quotes. -/
def Escape.quote (written : List Char) : List Char :=
  '"' :: (written ++ ['"'])

theorem Escape.lineFeed_not_mem_quote (h : '\n' ∉ written) : '\n' ∉ quote written := by
  simp [quote, h]

theorem Escape.quote_append_of_closing? (h : closing? rest = some (body, after))
    (hfeed : '\n' ∉ body) : '"' :: rest = quote body ++ after := by
  rw [(body_of_closing? h hfeed).1]
  simp [quote]

theorem Lexeme.meaning?_quote (body : List Char) :
    meaning? ⟨some .quoted, Escape.quote body, 0⟩ = some (.string, Escape.decode body) := by
  simp [meaning?, Escape.quote]

section Closed

variable (hsource : source.toList = '"' :: rest) (h : closing? rest = some (body, after))
  (hfeed : '\n' ∉ body)

include hsource h hfeed in
/-- The literal is the first piece of the source. -/
theorem first?_literal :
    source.toList = Escape.quote body ++ after ∧ '\n' ∉ Escape.quote body ∧
      first? source.toList = some (.quoted, (Escape.quote body).length) :=
  ⟨hsource.trans (Escape.quote_append_of_closing? h hfeed), Escape.lineFeed_not_mem_quote hfeed,
    hsource ▸ Pattern.first?_of_closing? h hfeed⟩

include hsource h hfeed in
theorem exists_literal_of_tokenize {tokens : List Token}
    (htokens : tokenize source file = .ok tokens) :
    ∃ token, tokens.head? = some token ∧ token.IsLiteral (Escape.decode body) ∧
      (byteLength (Escape.quote body) < UInt32.size →
        token.stop = byteLength (Escape.quote body)) := by
  obtain ⟨happend, hsingle, hfirst⟩ := first?_literal hsource h hfeed
  exact ⟨_, head?_of_tokenize happend hsingle hfirst (Lexeme.meaning?_quote body) htokens,
    ⟨rfl, rfl, rfl⟩, UInt32.toNat_ofNat_of_lt'⟩

include hsource h hfeed in
/-- No error stands on the literal. -/
theorem le_offset_of_tokenize_eq_error {error : SyntaxError}
    (herror : tokenize source file = .error error) :
    ∃ place, byteLength (Escape.quote body) ≤ place ∧ place ≤ byteLength source.toList ∧
      error.position.offset = place.toUInt32 := by
  obtain ⟨happend, hsingle, hfirst⟩ := first?_literal hsource h hfeed
  exact offset_of_tokenize_eq_error happend hsingle hfirst (Lexeme.meaning?_quote body) herror

end Closed

/-- Literals are read exactly. Each way of writing a text between quotes gives a token with the
text for its value, and the token ends behind the second quote if 32 bits hold the offset there. A
quote at the start of a source begins a literal just if a quote that no backslash takes along
follows on the same line. If the source is refused all the same, and 32 bits hold the offsets into
it, then it is refused behind the literal. -/
theorem literal_of_tokenize (file : String) :
    (∀ value written rest tokens, Writes value written →
      tokenize (String.ofList (Escape.quote written ++ '\n' :: rest)) file = .ok tokens →
      ∃ token, tokens.head? = some token ∧ token.IsLiteral value ∧
        (byteLength (Escape.quote written) < UInt32.size →
          token.stop = byteLength (Escape.quote written))) ∧
    (∀ rest body after, closing? rest = some (body, after) → '\n' ∉ body →
      (byteLength ('"' :: rest) < UInt32.size →
        ∀ error, tokenize (String.ofList ('"' :: rest)) file = .error error →
          byteLength (Escape.quote body) ≤ error.position.offset.toNat) ∧
      ∀ tokens, tokenize (String.ofList ('"' :: rest)) file = .ok tokens →
        ∃ token value, tokens.head? = some token ∧ Decodes body value ∧ token.IsLiteral value ∧
          (byteLength (Escape.quote body) < UInt32.size →
            token.stop = byteLength (Escape.quote body))) ∧
    ∀ rest, (∀ body after, closing? rest = some (body, after) → '\n' ∈ body) →
      tokenize (String.ofList ('"' :: rest)) file =
        .error ⟨.unrecognised "\"", .first file⟩ := by
  refine ⟨?written, ?closed, ?unclosed⟩
  case written =>
    intro value written rest tokens hwrites htokens
    obtain ⟨hclosing, hfeed⟩ :=
      Escape.closing?_eq_some_iff.2 ⟨rfl, Escape.body_of_writes hwrites⟩
    have hsource : (String.ofList (Escape.quote written ++ '\n' :: rest)).toList =
        '"' :: (written ++ '"' :: '\n' :: rest) := by
      simp [Escape.quote]
    obtain ⟨token, hhead, hliteral, hstop⟩ :=
      exists_literal_of_tokenize hsource hclosing hfeed htokens
    rw [Escape.decodes_iff.1 hwrites.decodes] at hliteral
    exact ⟨token, hhead, hliteral, hstop⟩
  case closed =>
    intro rest body after hclosing hfeed
    have hsource : (String.ofList ('"' :: rest)).toList = '"' :: rest := String.toList_ofList
    refine ⟨fun hlength error herror => ?_, fun tokens htokens => ?_⟩
    · obtain ⟨place, hle, hstop, hoffset⟩ :=
        le_offset_of_tokenize_eq_error hsource hclosing hfeed herror
      rw [hsource] at hstop
      rw [hoffset, UInt32.toNat_ofNat_of_lt' (Nat.lt_of_le_of_lt hstop hlength)]
      exact hle
    · obtain ⟨token, hhead, hliteral⟩ :=
        exists_literal_of_tokenize hsource hclosing hfeed htokens
      exact ⟨token, _, hhead, Escape.decodes_decode body, hliteral⟩
  case unclosed =>
    intro rest hunclosed
    exact tokenize_eq_error_of_first? (Pattern.first?_of_not_closing? hunclosed) file

/-- A quote, a tab and a backslash in a literal; a backslash that is kept, before a character that
no pattern claims and before the end of the source; and a quote that a backslash takes along. -/
theorem literal_of_tokenize_escapes :
    let value := ['"', '\t', '\\']
    let written := ['\\', '"', '\t', '\\', '\\']
    let tokens : List Token :=
      [⟨.string, "\"\t\\", ⟨⟨0, 1, 1, ""⟩, ⟨7, 1, 8, ""⟩⟩⟩,
       ⟨.terminator, "newline", .empty ⟨8, 2, 1, ""⟩⟩,
       ⟨.identifier, "r", ⟨⟨8, 2, 1, ""⟩, ⟨9, 2, 2, ""⟩⟩⟩, .eof ⟨9, 2, 2, ""⟩]
    let kept := ['\\', 'q']
    let error : SyntaxError := ⟨.unrecognised "@", ⟨4, 1, 5, ""⟩⟩
    let tokens' : List Token :=
      [⟨.string, "\\q", ⟨⟨0, 1, 1, ""⟩, ⟨4, 1, 5, ""⟩⟩⟩, .eof ⟨4, 1, 5, ""⟩]
    (Writes value written ∧
      tokenize (String.ofList (Escape.quote written ++ ['\n', 'r'])) "" = .ok tokens ∧
      byteLength (Escape.quote written) < UInt32.size ∧
      ∃ token, tokens.head? = some token ∧ token.IsLiteral value ∧
        token.stop = byteLength (Escape.quote written)) ∧
    (closing? (kept ++ ['"', '@']) = some (kept, ['@']) ∧ '\n' ∉ kept ∧
      tokenize (String.ofList ('"' :: (kept ++ ['"', '@']))) "" = .error error ∧
      byteLength ('"' :: (kept ++ ['"', '@'])) < UInt32.size ∧
      byteLength (Escape.quote kept) ≤ error.position.offset.toNat) ∧
    (closing? (kept ++ ['"']) = some (kept, []) ∧
      tokenize (String.ofList ('"' :: (kept ++ ['"']))) "" = .ok tokens' ∧
      byteLength (Escape.quote kept) < UInt32.size ∧
      ∃ token value, tokens'.head? = some token ∧ Decodes kept value ∧ token.IsLiteral value ∧
        token.stop = byteLength (Escape.quote kept)) ∧
    (∀ body after, closing? ['\\', '"'] = some (body, after) → '\n' ∈ body) ∧
      tokenize (String.ofList ['"', '\\', '"']) "" = .error ⟨.unrecognised "\"", .first ""⟩ := by
  intro value written tokens kept error tokens'
  have hwrites : Writes value written :=
    .escape (by decide) (.raw (by decide) (by decide) (by decide) (.escape (by decide) .nil))
  have htokens :
      tokenize (String.ofList (Escape.quote written ++ ['\n', 'r'])) "" = .ok tokens := by
    cbv
  have herror : tokenize (String.ofList ('"' :: (kept ++ ['"', '@']))) "" = .error error := by cbv
  have htokens' : tokenize (String.ofList ('"' :: (kept ++ ['"']))) "" = .ok tokens' := by cbv
  have hkept : '\n' ∉ kept := by decide
  have hwritten : byteLength (Escape.quote written) < UInt32.size := by decide
  have hquote : byteLength (Escape.quote kept) < UInt32.size := by decide
  have hlength : byteLength ('"' :: (kept ++ ['"', '@'])) < UInt32.size := by decide
  have hunclosed : ∀ body after, closing? ['\\', '"'] = some (body, after) → '\n' ∈ body := by
    rintro body after ⟨⟩
  obtain ⟨token, hhead, hliteral, hstop⟩ :=
    (literal_of_tokenize "").1 _ _ _ _ hwrites htokens
  obtain ⟨token', value', hhead', hdecodes, hliteral', hstop'⟩ :=
    ((literal_of_tokenize "").2.1 _ _ _ rfl hkept).2 _ htokens'
  exact ⟨⟨hwrites, htokens, hwritten, token, hhead, hliteral, hstop hwritten⟩,
    ⟨rfl, hkept, herror, hlength,
      ((literal_of_tokenize "").2.1 _ _ _ rfl hkept).1 hlength _ herror⟩,
    ⟨rfl, htokens', hquote, token', value', hhead', hdecodes, hliteral', hstop' hquote⟩,
    hunclosed, (literal_of_tokenize "").2.2 _ hunclosed⟩

/-! ## A literal that is too long

The end of a literal of 4294967296 bytes has an offset that 32 bits do not hold, but cut to 0. So
has what stands behind it.
-/

theorem Escape.writes_replicate {c : Char} (quote : c ≠ '"') (slash : c ≠ '\\')
    (single : c ≠ '\n') (n : Nat) : Writes (List.replicate n c) (List.replicate n c) := by
  induction n with
  | zero => exact .nil
  | succ n ih => exact .raw quote slash single ih

theorem Escape.byteLength_quote (written : List Char) :
    byteLength (quote written) = byteLength written + 2 := by
  have hquote : byteLength ['"'] = 1 := rfl
  rw [quote, byteLength_cons, byteLength_append, hquote]
  exact Nat.add_comm ..

theorem Pattern.first?_quote (hwrites : Writes value written) (after : List Char) :
    '\n' ∉ Escape.quote written ∧
      first? (Escape.quote written ++ after) = some (.quoted, (Escape.quote written).length) := by
  obtain ⟨hclosing, hfeed⟩ :=
    Escape.closing?_eq_some_iff.2
      ⟨(rfl : _ = written ++ '"' :: after), Escape.body_of_writes hwrites⟩
  rw [← Escape.quote_append_of_closing? hclosing hfeed]
  exact ⟨Escape.lineFeed_not_mem_quote hfeed, first?_of_closing? hclosing hfeed⟩

/-- A literal alone on the first line. -/
theorem tokenize_literal (hwrites : Writes value written) (hafter : after = [] ∨ after = ['\n'])
    (file : String) :
    ∃ last, tokenize (String.ofList (Escape.quote written ++ after)) file =
      .ok [⟨.string, String.ofList value, ⟨.first file,
        ⟨(byteLength (Escape.quote written)).toUInt32, 1,
          (byteLength (Escape.quote written) + 1).toUInt32, file⟩⟩⟩, .eof last] := by
  obtain ⟨hfeed, hfirst⟩ := Pattern.first?_quote hwrites after
  have hmeaning := Lexeme.meaning?_quote written
  rw [Escape.decodes_iff.1 hwrites.decodes] at hmeaning
  exact tokenize_only hfeed hafter hfirst hmeaning file

/-- A literal before a character that no pattern claims. -/
theorem tokenize_literal_refused (hwrites : Writes value written) (file : String) :
    tokenize (String.ofList (Escape.quote written ++ ['@'])) file =
      .error ⟨.unrecognised "@", ⟨(byteLength (Escape.quote written)).toUInt32, 1,
        (byteLength (Escape.quote written) + 1).toUInt32, file⟩⟩ := by
  obtain ⟨hfeed, hfirst⟩ := Pattern.first?_quote hwrites ['@']
  have hline : '\n' ∉ Escape.quote written ++ ['@'] := by
    rw [List.mem_append, not_or]
    exact ⟨hfeed, by decide⟩
  let line : Line := ⟨1, 0, Escape.quote written ++ ['@']⟩
  have hblank : line.isBlank = false := Line.isBlank_of_first? hfirst (by decide) (by decide)
  have hpieces : (Lexeme.cut (byteLength (Escape.quote written)) ['@']).filter (!·.isSpacing) =
      [⟨none, ['@'], byteLength (Escape.quote written)⟩] := by
    have hnone : first? ['@'] = none := rfl
    rw [Lexeme.cut, hnone]
    simp [Lexeme.cut, Lexeme.isSpacing]
  have hcontent : line.tokens file =
      .error ⟨.unrecognised "@", line.position file (byteLength (Escape.quote written))⟩ := by
    rw [Line.tokens, Line.lexemes_of_first? rfl hfirst (by decide) (by decide), hpieces]
    rfl
  rw [tokenize, String.toList_ofList, Line.ofSource_of_not_mem hline, tokensOfLines,
    if_neg (by rw [hblank]; exact Bool.false_ne_true), hcontent]
  simp only [line, Line.position, Nat.zero_add]
  rfl

/-- 4294967294 letters between quotes, on a line of their own and before a character that no pattern
claims. -/
theorem not_literal_letters :
    let written := List.replicate 4294967294 'a'
    let token : Token := ⟨.string, String.ofList written, ⟨.first "f", ⟨0, 1, 1, "f"⟩⟩⟩
    (Writes written written ∧
      (∃ last, tokenize (String.ofList (Escape.quote written ++ ['\n'])) "f" =
        .ok [token, .eof last]) ∧
      token.stop ≠ byteLength (Escape.quote written)) ∧
    tokenize (String.ofList (Escape.quote written ++ ['@'])) "f" =
      .error ⟨.unrecognised "@", .first "f"⟩ := by
  intro written token
  have hwrites : Writes written written :=
    Escape.writes_replicate (by decide) (by decide) (by decide) _
  have hbytes : byteLength (Escape.quote written) = 4294967296 := by
    rw [Escape.byteLength_quote, byteLength_replicate]
    rfl
  obtain ⟨last, htokens⟩ := tokenize_literal hwrites (.inr rfl) "f"
  have hrefused := tokenize_literal_refused hwrites "f"
  rw [hbytes] at htokens hrefused ⊢
  exact ⟨⟨hwrites, ⟨last, htokens⟩, by decide⟩, hrefused⟩

end Offside
