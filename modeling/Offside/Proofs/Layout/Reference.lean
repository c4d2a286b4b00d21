import Mathlib
import Offside.Proofs.Layout.ContentLines

/-! # Layout as a fold

The marks between the lines of a source are those of a fold over the widths of its content lines,
and a source is refused for its layout where the fold is stuck.
-/

namespace Offside

namespace Layout

/-! ## The fold -/

/-- Every level that is wider is popped, with the marks of its end. -/
def endWider (width : Nat) : List Nat → List Mark × List Nat
  | [] => ([], [])
  | top :: outer =>
    if width < top then
      let (marks, left) := endWider width outer
      (.outdent :: .terminator :: marks, left)
    else ([], top :: outer)

/-- The marks before a line and the levels after it. The first line is the base, with nothing before
it. A line is stuck if its width is not the top of what is left. -/
def next? (levels : List Nat) (width : Nat) : Option (List Mark × List Nat) :=
  match levels with
  | [] => some ([], [width])
  | top :: _ =>
    if top < width then some ([.indent], width :: levels)
    else if width = top then some ([.terminator], levels)
    else
      let (marks, left) := endWider width levels
      if left.head? = some width then some (marks, left) else none

/-- The marks that end every level above the base. -/
def endAll : List Nat → List Mark
  | [] | [_] => []
  | _ :: outer => .outdent :: .terminator :: endAll outer

/-- The marks before each line of the given widths, and the marks behind the last one. -/
def fold? (levels : List Nat) : List Nat → Option (List (List Mark) × List Mark)
  | [] => some ([], endAll levels)
  | width :: rest =>
    match next? levels width with
    | none => none
    | some (marks, left) => (fold? left rest).map fun (more, final) => (marks :: more, final)

/-- Two blocks that end at once, and a line that falls between two levels. -/
example :
    fold? [] [0, 2, 4, 0, 3] =
      some ([[], [.indent], [.indent], [.outdent, .terminator, .outdent, .terminator], [.indent]],
        [.outdent, .terminator]) ∧
      fold? [] [0, 4, 2] = none := by
  decide

theorem fold?_cons_eq_some_iff {levels rest : List Nat} {width : Nat} {all : List (List Mark)}
    {final : List Mark} :
    fold? levels (width :: rest) = some (all, final) ↔ ∃ marks left more,
      next? levels width = some (marks, left) ∧ fold? left rest = some (more, final) ∧
        all = marks :: more := by
  rw [fold?]
  cases next? levels width with
  | none => simp
  | some entered =>
    obtain ⟨marks, left⟩ := entered
    simp only [Option.map_eq_some_iff, Prod.exists, Prod.mk.injEq, Option.some.injEq]
    constructor
    · rintro ⟨more, _, hmore, rfl, rfl⟩
      exact ⟨marks, left, more, ⟨rfl, rfl⟩, hmore, rfl⟩
    · rintro ⟨_, _, more, ⟨rfl, rfl⟩, hmore, rfl⟩
      exact ⟨more, final, hmore, rfl, rfl⟩

theorem endWider_eq (width : Nat) (levels : List Nat) :
    endWider width levels =
      (closing (levels.takeWhile (width < ·)).length, levels.dropWhile (width < ·)) := by
  induction levels with
  | nil => rfl
  | cons top outer ih =>
    rw [endWider, ih]
    split
    · next hwider =>
      rw [List.takeWhile_cons_of_pos (by simpa using hwider),
        List.dropWhile_cons_of_pos (by simpa using hwider), List.length_cons, closing]
    · next hnarrow =>
      rw [List.takeWhile_cons_of_neg (by simpa using hnarrow),
        List.dropWhile_cons_of_neg (by simpa using hnarrow), List.length_nil, closing]

theorem enter?_eq_next? (levels : List Nat) (width : Nat) :
    enter? levels width = next? levels width := by
  cases levels with
  | nil => rfl
  | cons top outer =>
    unfold enter? next?
    simp only [endWider_eq, eq_comm (a := width)]

theorem leave_eq_endAll (levels : List Nat) : leave levels = endAll levels := by
  fun_induction endAll levels with
  | case1 | case2 => rfl
  | case3 top outer hne ih =>
    obtain ⟨next, more, rfl⟩ := List.exists_cons_of_ne_nil hne
    rw [← ih]
    rfl

end Layout

/-! ## Streams -/

namespace Layout

/-- Lines with the marks before each of them, and the stream of these marks and the tokens of the
lines. -/
inductive Woven (file : String) : List Line → List (List Mark) → List Token → Prop where
  | nil : Woven file [] [] []
  | cons {line : Line} {lines : List Line} {marks : List Mark} {more : List (List Mark)}
      {content following : List Token} (tokens : line.tokens file = .ok content)
      (nonempty : content ≠ []) (covering : ∀ token ∈ content, token.kind.isContent = true)
      (later : Woven file lines more following) :
      Woven file (line :: lines) (marks :: more)
        (marks.map (·.token (line.position file 0)) ++ (content ++ following))

variable {file : String} {levels : List Nat} {last : Position} {line : Line} {lines : List Line}
  {tokens : List Token}

theorem tokensOfLines_cons_eq (h : Line.Solid file line) :
    tokensOfLines file levels last (line :: lines) =
      match next? levels line.width with
      | none => .error (line.layoutError file)
      | some (marks, left) => do
        let content ← line.tokens file
        let following ← tokensOfLines file left last lines
        return marks.map (·.token (line.position file 0)) ++ (content ++ following) := by
  rw [tokensOfLines, h.not_blank, if_neg Bool.false_ne_true, enter?_eq_next?]
  cases next? levels line.width with
  | none => rfl
  | some entered =>
    cases hcontent : line.tokens file with
    | error => rfl
    | ok content =>
      have hempty : content.isEmpty = false := by simpa using h.nonempty hcontent
      simp only [bind, Except.bind, hempty, Bool.and_false, Bool.false_eq_true, if_false]

theorem tokensOfLines_of_woven (hlines : ∀ line ∈ lines, Line.Solid file line)
    {marks : List (List Mark)} {final : List Mark} {body : List Token}
    (hfold : fold? levels (lines.map Line.width) = some (marks, final))
    (h : Woven file lines marks body) :
    tokensOfLines file levels last lines =
      .ok (body ++ (final.map (·.token last) ++ [.eof last])) := by
  induction h generalizing levels with
  | nil =>
    cases hfold
    rw [tokensOfLines, leave_eq_endAll]
    rfl
  | @cons line lines marks more content following tokens nonempty covering later ih =>
    obtain ⟨hline, hlines⟩ := List.forall_mem_cons.1 hlines
    rw [List.map_cons, fold?_cons_eq_some_iff] at hfold
    obtain ⟨_, left, _, hnext, hmore, heq⟩ := hfold
    obtain ⟨rfl, rfl⟩ := List.cons_eq_cons.1 heq
    rw [tokensOfLines_cons_eq hline, hnext, tokens]
    simp only [bind, Except.bind, ih hlines hmore]
    rw [List.append_assoc, List.append_assoc]
    rfl

theorem woven_of_tokensOfLines (hlines : ∀ line ∈ lines, Line.Solid file line)
    (h : tokensOfLines file levels last lines = .ok tokens) :
    ∃ marks final body, fold? levels (lines.map Line.width) = some (marks, final) ∧
      Woven file lines marks body ∧
        tokens = body ++ (final.map (·.token last) ++ [.eof last]) := by
  induction lines generalizing levels tokens with
  | nil =>
    cases h
    exact ⟨[], endAll levels, [], rfl, .nil, by rw [leave_eq_endAll]; rfl⟩
  | cons line lines ih =>
    obtain ⟨hline, hlines⟩ := List.forall_mem_cons.1 hlines
    rw [tokensOfLines_cons_eq hline] at h
    split at h
    · cases h
    · next marks left hnext =>
      cases hcontent : line.tokens file with
      | error => simp [hcontent, bind, Except.bind] at h
      | ok content =>
        cases hrest : tokensOfLines file left last lines with
        | error => simp [hcontent, hrest, bind, Except.bind] at h
        | ok following =>
          obtain ⟨more, final, body, hmore, hwoven, rfl⟩ := ih hlines hrest
          rw [hcontent, hrest] at h
          cases h
          have hfold := fold?_cons_eq_some_iff.2 ⟨marks, left, more, hnext, hmore, rfl⟩
          refine ⟨marks :: more, final, _, hfold, .cons hcontent (hline.nonempty hcontent)
            (Line.isContent_of_tokens hcontent) hwoven, ?_⟩
          rw [List.append_assoc, List.append_assoc]

/-- The fold is stuck at a line behind others, and no character of the others is refused. -/
structure StuckAt (file : String) (levels : List Nat) (before : List Line) (line : Line) : Prop where
  earlier : ∀ other ∈ before, ∃ content, other.tokens file = .ok content
  entered : (fold? levels (before.map Line.width)).isSome
  stuck : fold? levels ((before ++ [line]).map Line.width) = none

theorem stuckAt_nil_iff : StuckAt file levels [] line ↔ next? levels line.width = none := by
  constructor
  · rintro ⟨-, -, hstuck⟩
    cases hnext : next? levels line.width with
    | none => rfl
    | some => simp [fold?, hnext] at hstuck
  · intro hnext
    exact ⟨List.forall_mem_nil _, rfl, by simp [fold?, hnext]⟩

theorem stuckAt_cons_iff {first : Line} {before : List Line} :
    StuckAt file levels (first :: before) line ↔ (∃ content, first.tokens file = .ok content) ∧
      ∃ marks left, next? levels first.width = some (marks, left) ∧
        StuckAt file left before line := by
  constructor
  · rintro ⟨hearlier, hentered, hstuck⟩
    obtain ⟨hfirst, hearlier⟩ := List.forall_mem_cons.1 hearlier
    cases hnext : next? levels first.width with
    | none => simp [fold?, hnext] at hentered
    | some next =>
      obtain ⟨marks, left⟩ := next
      refine ⟨hfirst, marks, left, rfl, hearlier, ?_, ?_⟩
      · simpa [fold?, hnext] using hentered
      · simpa [fold?, hnext] using hstuck
  · rintro ⟨hfirst, marks, left, hnext, hearlier, hentered, hstuck⟩
    refine ⟨List.forall_mem_cons.2 ⟨hfirst, hearlier⟩, ?_, ?_⟩
    · simpa [fold?, hnext] using hentered
    · simpa [fold?, hnext] using hstuck

/-- The line where the fold is stuck is the first one, or it is one of those behind. -/
theorem exists_stuckAt_cons_iff {first : Line} {P : Line → Prop} :
    (∃ before line after, first :: lines = before ++ line :: after ∧
      StuckAt file levels before line ∧ P line) ↔
    (next? levels first.width = none ∧ P first) ∨
      ((∃ content, first.tokens file = .ok content) ∧ ∃ marks left,
        next? levels first.width = some (marks, left) ∧
          ∃ before line after, lines = before ++ line :: after ∧
            StuckAt file left before line ∧ P line) := by
  constructor
  · rintro ⟨before, line, after, heq, hstuck, hline⟩
    cases before with
    | nil =>
      obtain ⟨rfl, rfl⟩ := List.cons_eq_cons.1 heq
      exact .inl ⟨stuckAt_nil_iff.1 hstuck, hline⟩
    | cons _ before =>
      obtain ⟨rfl, rfl⟩ := List.cons_eq_cons.1 heq
      obtain ⟨htokens, marks, left, hnext, hstuck⟩ := stuckAt_cons_iff.1 hstuck
      exact .inr ⟨htokens, marks, left, hnext, before, line, after, rfl, hstuck, hline⟩
  · rintro (⟨hnext, hline⟩ | ⟨htokens, marks, left, hnext, before, line, after, rfl, hstuck, hline⟩)
    · exact ⟨[], first, lines, rfl, stuckAt_nil_iff.2 hnext, hline⟩
    · exact ⟨first :: before, line, after, rfl,
        stuckAt_cons_iff.2 ⟨htokens, marks, left, hnext, hstuck⟩, hline⟩

theorem malformed_iff (hlines : ∀ line ∈ lines, Line.Solid file line) {message : String}
    {position : Position} :
    tokensOfLines file levels last lines = .error ⟨.malformedLayout message, position⟩ ↔
      ∃ before line after, lines = before ++ line :: after ∧ StuckAt file levels before line ∧
        line.layoutError file = ⟨.malformedLayout message, position⟩ := by
  induction lines generalizing levels with
  | nil => simp [tokensOfLines]
  | cons first lines ih =>
    obtain ⟨hfirst, hlines⟩ := List.forall_mem_cons.1 hlines
    rw [exists_stuckAt_cons_iff, tokensOfLines_cons_eq hfirst]
    cases next? levels first.width with
    | none => simp
    | some entered =>
      obtain ⟨marks, left⟩ := entered
      simp only [← ih hlines]
      cases hcontent : first.tokens file with
      | error error =>
        obtain ⟨text, hcause⟩ := Line.cause_of_tokens hcontent
        have hother : error ≠ ⟨.malformedLayout message, position⟩ := by
          rintro rfl
          cases hcause
        simpa [bind, Except.bind] using hother
      | ok content =>
        cases hrest : tokensOfLines file left last lines <;>
          simp [hrest, bind, Except.bind, pure, Except.pure]

/-- The tokens of a source are the tokens of its content lines, with the marks of the fold before
each line and behind the last one. The source is refused for its layout at the first line where the
fold is stuck, unless a character is refused on a line before. -/
theorem tokenize_eq_fold {source file : String} (h : breaksLines source.toList = true) :
    let lines := Line.contentLines source.toList
    let last := endPosition file (Line.ofSource source.toList)
    (∀ tokens, tokenize source file = .ok tokens ↔
      ∃ marks final body, fold? [] (lines.map Line.width) = some (marks, final) ∧
        Woven file lines marks body ∧
          tokens = body ++ (final.map (·.token last) ++ [.eof last])) ∧
    ∀ message position, tokenize source file = .error ⟨.malformedLayout message, position⟩ ↔
      ∃ before line after, lines = before ++ line :: after ∧ StuckAt file [] before line ∧
        line.layoutError file = ⟨.malformedLayout message, position⟩ := by
  intro lines last
  have hsolid : ∀ line ∈ lines, Line.Solid file line := Line.solid_of_mem h file
  rw [tokenize_eq_contentLines]
  refine ⟨fun tokens => ⟨woven_of_tokensOfLines hsolid, ?_⟩, fun message position =>
    malformed_iff hsolid⟩
  rintro ⟨marks, final, body, hfold, hwoven, rfl⟩
  exact tokensOfLines_of_woven hsolid hfold hwoven

/-- A third line that falls between the levels of the first two. -/
theorem tokenize_eq_fold_between :
    let source := "a\r\n  b\r\n c"
    breaksLines source.toList = true ∧ ∃ before line after,
      Line.contentLines source.toList = before ++ line :: after ∧ StuckAt "" [] before line ∧
        line.layoutError "" =
          ⟨.malformedLayout "line is indented to column 2 which matches no enclosing block",
            ⟨8, 3, 1, ""⟩⟩ := by
  intro source
  have hbreaks : breaksLines source.toList = true := by decide
  have hrefused : tokenize source "" =
      .error ⟨.malformedLayout "line is indented to column 2 which matches no enclosing block",
        ⟨8, 3, 1, ""⟩⟩ := by cbv
  exact ⟨hbreaks, ((tokenize_eq_fold hbreaks).2 _ _).1 hrefused⟩

end Layout

end Offside
