import Offside.Proofs.Layout.Joined
import Offside.Proofs.Token.Lossless

/-! # What stands behind a mark

No mark goes without the line that it stands for: a stream begins with no mark, a block is not empty,
and neither is a line. This needs every line of blanks to be blank for the layout, which a carriage
return makes it only directly before a line feed.
-/

namespace Offside

/-- Whether something other than blanks stands on a line. -/
def Line.isWritten (line : Line) : Bool :=
  line.text.any fun c => !decide (IsGap c)

theorem Line.isWritten_eq_false_iff {line : Line} :
    line.isWritten = false ↔ ∀ c ∈ line.text, IsGap c := by
  simp [isWritten]

/-- Every carriage return of a line without anything written on it belongs to its line break. -/
def Line.BreaksBlanks (line : Line) : Prop :=
  line.isWritten = false → breaksLines line.text = true

instance (line : Line) : Decidable line.BreaksBlanks :=
  inferInstanceAs (Decidable (_ → _))

namespace Layout

/-- Whether a token of a kind may stand directly before one of another kind. -/
def MayPrecede (kind next : Kind) : Prop :=
  (kind = .indent → next.isContent = true) ∧
    (kind = .terminator → next ≠ .terminator ∧ next ≠ .indent)

/-- No block and no line of a stream is empty, and no mark stands before its first token. -/
structure Tidy (kinds : List Kind) : Prop where
  first : ∀ kind ∈ kinds.head?, kind ≠ .terminator ∧ kind ≠ .indent ∧ kind ≠ .outdent
  indent : ∀ before after, kinds = before ++ .indent :: after →
    ∃ kind ∈ after.head?, kind.isContent = true
  terminator : ∀ before kind after, kinds = before ++ .terminator :: kind :: after →
    kind ≠ .terminator ∧ kind ≠ .indent

/-! ## Chains of kinds -/

section Kinds

variable {kinds content following : List Kind}

theorem mayPrecede_of_isContent {next : Kind} (h : next.isContent = true) (kind : Kind) :
    MayPrecede kind next := by
  refine ⟨fun _ => h, fun _ => ⟨?_, ?_⟩⟩ <;> rintro rfl <;> cases h

theorem isContent_mayPrecede {kind : Kind} (h : kind.isContent = true) (next : Kind) :
    MayPrecede kind next := by
  constructor <;> rintro rfl <;> cases h

theorem outdent_mayPrecede (next : Kind) : MayPrecede .outdent next := by
  constructor <;> rintro ⟨⟩

/-- Tokens of a line may stand between any others. -/
theorem isChain_content (hcontent : ∀ kind ∈ content, kind.isContent = true) (hne : content ≠ [])
    (h : kinds.IsChain MayPrecede) (h' : following.IsChain MayPrecede) :
    (kinds ++ (content ++ following)).IsChain MayPrecede := by
  have hline : content.IsChain MayPrecede :=
    (List.pairwise_of_forall_mem_list fun kind hkind next _ =>
      isContent_mayPrecede (hcontent kind hkind) next).isChain
  refine h.append (hline.append h' fun kind hkind next _ => ?_) fun kind _ next hnext => ?_
  · exact isContent_mayPrecede (hcontent kind (List.mem_of_mem_getLast? hkind)) next
  · obtain ⟨first, rest, rfl⟩ := List.exists_cons_of_ne_nil hne
    obtain rfl : first = next := by simpa using hnext
    exact mayPrecede_of_isContent (hcontent first List.mem_cons_self) kind

theorem isChain_closing (blocks : Nat) (h : following.IsChain MayPrecede)
    (hnext : ∀ kind ∈ following.head?, kind ≠ .terminator ∧ kind ≠ .indent) :
    ((closing blocks).map Mark.kind ++ following).IsChain MayPrecede := by
  induction blocks with
  | zero => exact h
  | succ blocks ih =>
    rw [closing, List.map_cons, List.map_cons, List.cons_append, List.cons_append,
      List.isChain_cons_cons, List.isChain_cons]
    refine ⟨outdent_mayPrecede _, fun kind hkind => ⟨by rintro ⟨⟩, fun _ => ?_⟩, ih⟩
    cases blocks with
    | zero => exact hnext kind hkind
    | succ blocks =>
      obtain rfl : Kind.outdent = kind := by simpa [closing, Mark.kind] using hkind
      decide

/-- The marks before a line are one mark, or those that end some blocks. -/
theorem isChain_of_next? {levels left : List Nat} {width : Nat} {marks : List Mark}
    (h : next? levels width = some (marks, left)) : (marks.map Mark.kind).IsChain MayPrecede := by
  unfold next? at h
  split at h
  · cases h
    exact .nil
  · simp only [endWider_eq] at h
    split_ifs at h
    · cases h
      exact .singleton _
    · cases h
      exact .singleton _
    · cases h
      rw [← List.append_nil (List.map _ _)]
      exact isChain_closing _ .nil nofun

theorem tidy_of_isChain (hfirst : ∀ kind ∈ kinds.head?, kind.isContent = true ∨ kind = .eof)
    (hlast : kinds.getLast? = some .eof) (h : kinds.IsChain MayPrecede) : Tidy kinds := by
  refine ⟨fun kind hkind => ?_, ?_, ?_⟩
  · rcases hfirst kind hkind with hcontent | rfl
    · refine ⟨?_, ?_, ?_⟩ <;> rintro rfl <;> cases hcontent
    · exact ⟨nofun, nofun, nofun⟩
  · rintro before after rfl
    cases after with
    | nil => simp at hlast
    | cons next after =>
      have hnext := (List.isChain_append_cons_cons.1 h).2.1
      exact ⟨next, rfl, hnext.1 rfl⟩
  · rintro before next after rfl
    exact (List.isChain_append_cons_cons.1 h).2.1.2 rfl

end Kinds

/-! ## Streams -/

variable {file : String} {levels : List Nat} {lines : List Line} {marks : List (List Mark)}
  {final : List Mark} {body : List Token}

theorem map_kind_marks (marks : List Mark) (position : Position) :
    (marks.map (·.token position)).map Token.kind = marks.map Mark.kind := by
  rw [List.map_map]
  rfl

theorem Woven.isChain (h : Woven file lines marks body)
    (hfold : fold? levels (lines.map Line.width) = some (marks, final)) {following : List Kind}
    (hfollowing : following.IsChain MayPrecede) :
    (body.map Token.kind ++ following).IsChain MayPrecede := by
  induction h generalizing levels with
  | nil => exact hfollowing
  | @cons line lines marks more content after tokens nonempty covering later ih =>
    obtain ⟨marks, left, more, hnext, hmore, heq⟩ := fold?_cons_eq_some_iff.1 hfold
    obtain ⟨rfl, rfl⟩ := List.cons_eq_cons.1 heq
    have hcontent : ∀ kind ∈ content.map Token.kind, kind.isContent = true :=
      List.forall_mem_map.2 covering
    rw [List.map_append, List.map_append, map_kind_marks, List.append_assoc, List.append_assoc]
    exact isChain_content hcontent (by simpa using nonempty) (isChain_of_next? hnext) (ih hmore)

/-- No mark stands before the first token, whatever the lines are. -/
theorem isContent_or_eof_of_tokensOfLines {last : Position} {tokens : List Token}
    (h : tokensOfLines file [] last lines = .ok tokens) :
    ∀ token ∈ tokens.head?, token.kind.isContent = true ∨ token.kind = .eof := by
  induction lines generalizing tokens with
  | nil =>
    cases h
    rintro token ⟨⟩
    exact .inr rfl
  | cons line lines ih =>
    rw [tokensOfLines] at h
    split at h
    · exact ih h
    · cases hcontent : line.tokens file with
      | error => simp [enter?, hcontent, bind, Except.bind] at h
      | ok content =>
        cases content with
        | nil =>
          -- A line without tokens opens no block before the first token.
          simp only [enter?, hcontent, bind, Except.bind, List.isEmpty_nil, Bool.and_self,
            if_true] at h
          cases hfollowing : tokensOfLines file [] last lines with
          | error => simp [hfollowing] at h
          | ok following =>
            rw [hfollowing] at h
            cases h
            exact ih hfollowing
        | cons first rest =>
          simp only [enter?, hcontent, bind, Except.bind] at h
          split at h
          · cases h
          · cases h
            rintro token ⟨⟩
            exact .inl (Line.isContent_of_tokens hcontent first List.mem_cons_self)

theorem Woven.isChain_stream (h : Woven file lines marks body)
    (hfold : fold? levels (lines.map Line.width) = some (marks, final)) (last : Position) :
    ((body ++ (final.map (·.token last) ++ [Token.eof last])).map Token.kind).IsChain
      MayPrecede := by
  obtain ⟨blocks, hblocks⟩ := exists_closing hfold
  have hend : (final.map Mark.kind ++ [Kind.eof]).IsChain MayPrecede := by
    rw [hblocks]
    refine isChain_closing blocks (.singleton _) ?_
    rintro kind ⟨⟩
    exact ⟨nofun, nofun⟩
  rw [List.map_append, List.map_append, map_kind_marks]
  exact h.isChain hfold hend

end Layout

/-! ## Lines of blanks -/

namespace Line

variable {source : List Char} {line : Line}

/-- A line without anything written on it is blank if its carriage returns are in its line break. -/
theorem isBlank_of_breaksLines (hgaps : ∀ c ∈ line.text, IsGap c)
    (h : breaksLines line.text = true) : line.isBlank = true := by
  have htext : line.text.takeWhile isIndentation ++ line.text.dropWhile isIndentation =
      line.text := List.takeWhile_append_dropWhile
  have hhead := List.head?_dropWhile_not isIndentation line.text
  unfold isBlank
  dsimp only
  rw [← htext, List.forall_mem_append] at hgaps
  rw [← htext] at h
  generalize line.text.dropWhile isIndentation = rest at *
  cases rest with
  | nil => rfl
  | cons c more =>
    have hgap : IsGap c := hgaps.2 c List.mem_cons_self
    simp only [isIndentation, List.head?_cons, Bool.or_eq_false_iff, beq_eq_false_iff_ne] at hhead
    simp only [IsGap, List.mem_cons, List.not_mem_nil, or_false, hhead.1, hhead.2, false_or] at hgap
    rcases hgap with rfl | rfl
    · obtain ⟨later, rfl⟩ := List.head?_eq_some_iff.1 (head?_of_breaksLines h)
      rfl
    · rfl

theorem isBlank_eq (hmem : line ∈ ofSource source) (h : line.BreaksBlanks) :
    line.isBlank = !line.isWritten := by
  cases hwritten : line.isWritten with
  | false =>
    exact isBlank_of_breaksLines (isWritten_eq_false_iff.1 hwritten) (h hwritten)
  | true =>
    refine Bool.eq_false_iff.2 fun hblank => ?_
    rw [isWritten_eq_false_iff.2 (isGap_of_isBlank hmem hblank)] at hwritten
    cases hwritten

theorem solid_of_isWritten (hmem : line ∈ ofSource source) (h : line.isWritten = true)
    (file : String) : Solid file line := by
  have hink : ∃ c ∈ line.text, ¬ IsGap c := by simpa [isWritten] using h
  refine ⟨Bool.eq_false_iff.2 fun hblank => ?_, tokens_ne_nil_of_not_isGap hink⟩
  obtain ⟨c, hc, hgap⟩ := hink
  exact hgap (isGap_of_isBlank hmem hblank c hc)

end Line

namespace Layout

/-- No stream begins with a mark. Only the lines on which something is written are laid out, and no
block and no line of a stream is empty, if all carriage returns of the other lines are in their line
breaks. -/
theorem tidy_of_tokenize {source file : String} :
    (∀ tokens, tokenize source file = .ok tokens →
      ∀ token ∈ tokens.head?, token.kind.isContent = true ∨ token.kind = .eof) ∧
    ((∀ line ∈ Line.ofSource source.toList, line.BreaksBlanks) →
      tokenize source file =
        tokensOfLines file [] (endPosition file (Line.ofSource source.toList))
          ((Line.ofSource source.toList).filter (·.isWritten)) ∧
      ∀ tokens, tokenize source file = .ok tokens → Tidy (tokens.map Token.kind)) := by
  have hfirst (tokens : List Token) (h : tokenize source file = .ok tokens) :=
    isContent_or_eof_of_tokensOfLines h
  refine ⟨hfirst, fun hblanks => ?_⟩
  let lines := Line.ofSource source.toList
  have hlines : tokenize source file =
      tokensOfLines file [] (endPosition file lines) (lines.filter (·.isWritten)) := by
    have hfilter : lines.filter (·.isWritten) = lines.filter (!·.isBlank) :=
      List.filter_congr fun line hmem => by
        rw [Line.isBlank_eq hmem (hblanks line hmem), Bool.not_not]
    rw [hfilter, tokensOfLines_filter]
    rfl
  refine ⟨hlines, fun tokens h => ?_⟩
  have hsolid : ∀ line ∈ lines.filter (·.isWritten), Line.Solid file line := fun line hmem =>
    Line.solid_of_isWritten (List.mem_filter.1 hmem).1 (List.mem_filter.1 hmem).2 file
  have hhead := hfirst tokens h
  obtain ⟨marks, final, body, hfold, hwoven, rfl⟩ := woven_of_tokensOfLines hsolid (hlines ▸ h)
  refine tidy_of_isChain ?_ (by simp [Token.eof]) (hwoven.isChain_stream hfold _)
  rw [List.head?_map]
  rintro kind hkind
  obtain ⟨token, htoken, rfl⟩ := Option.mem_map.1 hkind
  exact hhead token htoken

/-- Blank lines that end in both ways, and one that does not end. -/
theorem tidy_of_tokenize_blanks :
    let source := "\t\r\na\n \t\r\n  b\n\r\n   \nc\n "
    let kinds : List Kind :=
      [.identifier, .indent, .identifier, .outdent, .terminator, .identifier, .eof]
    (∀ line ∈ Line.ofSource source.toList, line.BreaksBlanks) ∧
      (∃ tokens, tokenize source "" = .ok tokens ∧ tokens.map Token.kind = kinds) ∧
        Tidy kinds := by
  intro source kinds
  have hblanks : ∀ line ∈ Line.ofSource source.toList, line.BreaksBlanks := by decide
  let tokens : List Token :=
    [⟨.identifier, "a", ⟨⟨3, 2, 1, ""⟩, ⟨4, 2, 2, ""⟩⟩⟩,
     ⟨.indent, "indent", .empty ⟨9, 4, 1, ""⟩⟩,
     ⟨.identifier, "b", ⟨⟨11, 4, 3, ""⟩, ⟨12, 4, 4, ""⟩⟩⟩,
     ⟨.outdent, "dedent", .empty ⟨19, 7, 1, ""⟩⟩,
     ⟨.terminator, "newline", .empty ⟨19, 7, 1, ""⟩⟩,
     ⟨.identifier, "c", ⟨⟨19, 7, 1, ""⟩, ⟨20, 7, 2, ""⟩⟩⟩,
     ⟨.eof, "EOF", .empty ⟨22, 8, 2, ""⟩⟩]
  have h : tokenize source "" = .ok tokens := by cbv
  exact ⟨hblanks, ⟨tokens, h, rfl⟩, (tidy_of_tokenize.2 hblanks).2 tokens h⟩

/-- A line of two spaces and a carriage return is laid out, though nothing is written on it: its
block is empty. -/
theorem not_tidy_return :
    ¬ ∀ source file tokens, tokenize source file = .ok tokens → Tidy (tokens.map Token.kind) := by
  intro h
  have htokens : tokenize "a\n  \r" "" =
      .ok [⟨.identifier, "a", ⟨⟨0, 1, 1, ""⟩, ⟨1, 1, 2, ""⟩⟩⟩,
        ⟨.indent, "indent", .empty ⟨2, 2, 1, ""⟩⟩, ⟨.outdent, "dedent", .empty ⟨5, 2, 4, ""⟩⟩,
        ⟨.terminator, "newline", .empty ⟨5, 2, 4, ""⟩⟩, ⟨.eof, "EOF", .empty ⟨5, 2, 4, ""⟩⟩] := by
    cbv
  obtain ⟨kind, hkind, hcontent⟩ := (h _ _ _ htokens).indent [.identifier] _ rfl
  cases hkind
  cases hcontent

end Layout

end Offside
