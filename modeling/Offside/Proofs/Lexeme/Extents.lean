import Mathlib.Data.List.TakeWhile
import Offside.Lexeme.Basic
import Offside.Proofs.Source.Parts

/-! # Extents

What a pattern takes from the start of a text, and from it what the pieces of a text are. A piece
that separates is made of blanks, a comment runs to the end of its line, and what stands for a token
is spelled as the token says.
-/

namespace Offside

/-- A character that may stand between tokens. -/
def IsGap (c : Char) : Prop :=
  c ∈ [' ', '\t', '\r', '\n']

instance (c : Char) : Decidable (IsGap c) :=
  inferInstanceAs (Decidable (c ∈ _))

theorem forall_isGap_lineFeed : ∀ c ∈ ['\n'], IsGap c :=
  List.forall_mem_singleton.2 (by decide)

theorem forall_isGap_return : ∀ c ∈ ['\r', '\n'], IsGap c :=
  List.forall_mem_cons.2 ⟨by decide, forall_isGap_lineFeed⟩

/-- What may stand between the quotes of a literal. A backslash takes the character after it
along. -/
inductive Escape.Body : List Char → Prop where
  | nil : Body []
  | escape {c : Char} {rest : List Char} (single : c ≠ '\n') (more : Body rest) :
      Body ('\\' :: c :: rest)
  | plain {c : Char} {rest : List Char} (quote : c ≠ '"') (slash : c ≠ '\\') (single : c ≠ '\n')
      (more : Body rest) : Body (c :: rest)

namespace Kind

/-- Whether a token of this kind covers a part of the source. The layout marks and the end of the
source do not. -/
def isContent : Kind → Bool
  | eof | terminator | indent | outdent => false
  | _ => true

/-- Whether a token of this kind is written as it is. -/
def isPlain (kind : Kind) : Bool :=
  kind.isContent && kind != comment && kind != string

/-- How a token is written, given what is written and the value. A literal decodes to its value, and
a comment says what is left behind its pairs of slashes, without the blanks around it. -/
def Spells (kind : Kind) (text value : List Char) : Prop :=
  match kind with
  | string => ∃ body, Escape.Body body ∧ text = '"' :: (body ++ ['"']) ∧ value = Escape.decode body
  | comment => ∃ pairs rest, text = (List.replicate pairs ['/', '/']).flatten ++ rest ∧
      ¬ ['/', '/'] <+: rest ∧ value = trim rest
  | _ => text = value

theorem isContent_of_isPlain {kind : Kind} (h : kind.isPlain = true) : kind.isContent = true := by
  simp only [isPlain, Bool.and_eq_true] at h
  exact h.1.1

theorem spells_self {kind : Kind} (h : kind.isPlain = true) (text : List Char) :
    kind.Spells text text := by
  cases kind <;> first | rfl | cases h

theorem isPlain_ofWord (word : String) : (ofWord word).isPlain = true := by
  have hreserved : ∀ entry ∈ reserved, entry.2.isPlain = true := by decide
  unfold ofWord ofReserved?
  cases hlookup : reserved.lookup word with
  | none => rfl
  | some kind =>
    obtain ⟨before, after, heq, -⟩ := List.lookup_eq_some_iff.1 hlookup
    exact hreserved (word, kind) (heq ▸ List.mem_append_right before List.mem_cons_self)

theorem isPlain_of_symbol {text : List Char} {kind : Kind}
    (h : Pattern.symbol text kind ∈ Pattern.table) : kind.isPlain = true := by
  have htable : ∀ pattern ∈ Pattern.table, ∀ text kind, pattern = .symbol text kind →
      kind.isPlain = true := by
    simp [Pattern.table, isPlain, isContent]
  exact htable _ h text kind rfl

end Kind

/-! ## What a pattern takes -/

namespace Pattern

/-- What is known of a match and of the text behind it. -/
def Extent (matched rest : List Char) : Pattern → Prop
  | lineBreak | blanks => ∀ c ∈ matched, IsGap c
  | comment => ∃ remark, matched = '/' :: '/' :: remark ∧ '\n' ∉ remark ∧
      (rest = [] ∨ ∃ more, rest = '\n' :: more)
  | quoted => ∃ body, Escape.Body body ∧ matched = '"' :: (body ++ ['"'])
  | word | numeral | symbol .. => True

theorem isGap_of_isSpacing {c : Char} (h : isSpacing c = true) : IsGap c := by
  simp only [isSpacing, Bool.or_eq_true, beq_iff_eq] at h
  rcases h with (rfl | rfl) | rfl <;> decide

theorem reachWhile_le (test : Char → Bool) (text : List Char) :
    reachWhile test text ≤ text.length :=
  (List.takeWhile_sublist test).length_le

theorem reachWord_le (text : List Char) : reachWord text ≤ text.length := by
  unfold reachWord
  split
  · next c rest =>
    have hrest := reachWhile_le isWordRest rest
    split
    · rw [List.length_cons]
      omega
    · exact Nat.zero_le _
  · exact Nat.zero_le _

theorem reachNumeral_le (text : List Char) : reachNumeral text ≤ text.length := by
  have hwhole := reachWhile_le Char.isDigit text
  unfold reachNumeral
  dsimp only
  split
  · exact Nat.zero_le _
  · split
    · next rest hrest =>
      have hpart := reachWhile_le Char.isDigit rest
      have hlength := congrArg List.length hrest
      rw [List.length_drop, List.length_cons] at hlength
      split <;> omega
    · exact hwhole

theorem reachLineBreak_extent {text : List Char} (h : reachLineBreak text ≠ 0) :
    ∃ matched rest, text = matched ++ rest ∧ matched.length = reachLineBreak text ∧
      ∀ c ∈ matched, IsGap c := by
  revert h
  unfold reachLineBreak
  split
  · exact fun _ => ⟨['\n'], _, rfl, rfl, forall_isGap_lineFeed⟩
  · exact fun _ => ⟨['\r', '\n'], _, rfl, rfl, forall_isGap_return⟩
  · exact absurd rfl

theorem reachComment_extent {text : List Char} (h : reachComment text ≠ 0) :
    ∃ remark rest, text = '/' :: '/' :: remark ++ rest ∧ remark.length + 2 = reachComment text ∧
      '\n' ∉ remark ∧ (rest = [] ∨ ∃ more, rest = '\n' :: more) := by
  revert h
  unfold reachComment
  split
  · next line =>
    intro _
    refine ⟨line.takeWhile (· != '\n'), line.dropWhile (· != '\n'), ?_, Nat.add_comm _ _, ?_, ?_⟩
    · rw [List.cons_append, List.cons_append, List.takeWhile_append_dropWhile]
    · intro hmem
      exact absurd (List.mem_takeWhile_imp hmem) (by decide)
    · have hstop := List.head?_dropWhile_not (· != '\n') line
      cases hrest : line.dropWhile (· != '\n') with
      | nil => exact .inl rfl
      | cons c more =>
        rw [hrest] at hstop
        have hfeed : c = '\n' := by simpa using hstop
        exact .inr ⟨more, by rw [hfeed]⟩
  · exact absurd rfl

theorem reachClosing_extent {passed : Nat} {text : List Char} (h : reachClosing passed text ≠ 0) :
    ∃ body rest, text = body ++ '"' :: rest ∧ Escape.Body body ∧
      passed + body.length + 1 = reachClosing passed text := by
  fun_induction reachClosing passed text with
  | case1 | case3 | case5 | case6 => exact absurd rfl h
  | case2 passed => exact ⟨[], [], rfl, .nil, rfl⟩
  | case4 passed d rest => exact ⟨[], d :: rest, rfl, .nil, rfl⟩
  | case7 passed d rest hescaped _ _ ih =>
    obtain ⟨body, after, rfl, hbody, hreach⟩ := ih h
    refine ⟨'\\' :: d :: body, after, rfl, .escape hescaped hbody, ?_⟩
    rw [← hreach, List.length_cons, List.length_cons]
    omega
  | case8 passed c d rest hquote hfeed hslash ih =>
    obtain ⟨body, after, htext, hbody, hreach⟩ := ih h
    refine ⟨c :: body, after, by rw [htext, List.cons_append], .plain hquote hslash hfeed hbody, ?_⟩
    rw [← hreach, List.length_cons]
    omega

/-- A match is the beginning of the text, with what its pattern says of it. -/
theorem exists_extent (pattern : Pattern) {text : List Char} (h : pattern.reach text ≠ 0) :
    ∃ matched rest, text = matched ++ rest ∧ matched.length = pattern.reach text ∧
      pattern.Extent matched rest := by
  have split_at {size : Nat} (hle : size ≤ text.length) :
      ∃ matched rest, text = matched ++ rest ∧ matched.length = size ∧ True :=
    ⟨text.take size, text.drop size, (List.take_append_drop size text).symm,
      List.length_take_of_le hle, trivial⟩
  cases pattern with
  | lineBreak => exact reachLineBreak_extent h
  | blanks =>
    refine ⟨text.takeWhile isSpacing, text.dropWhile isSpacing,
      List.takeWhile_append_dropWhile.symm, rfl, fun c hmem => ?_⟩
    exact isGap_of_isSpacing (List.mem_takeWhile_imp hmem)
  | comment =>
    obtain ⟨remark, rest, htext, hlength, hextent⟩ := reachComment_extent h
    exact ⟨'/' :: '/' :: remark, rest, htext, hlength, remark, rfl, hextent⟩
  | word => exact split_at (reachWord_le text)
  | numeral => exact split_at (reachNumeral_le text)
  | quoted =>
    rw [reach] at h ⊢
    revert h
    unfold reachQuoted
    split
    · next inner =>
      intro h
      obtain ⟨body, rest, rfl, hbody, hreach⟩ := reachClosing_extent h
      refine ⟨'"' :: (body ++ ['"']), rest, by simp, ?_, body, hbody, rfl⟩
      rw [← hreach]
      simp only [List.length_cons, List.length_append, List.length_nil]
      omega
    · exact absurd rfl
  | symbol written kind =>
    refine split_at ?_
    rw [reach]
    split
    · next hprefix => exact (List.isPrefixOf_iff_prefix.1 hprefix).length_le
    · exact Nat.zero_le _

theorem length_of_first? {text : List Char} {pattern : Pattern} {size : Nat}
    (h : first? text = some (pattern, size)) : size ≤ text.length := by
  obtain ⟨-, hreach, hpos⟩ := of_first? h
  obtain ⟨matched, rest, rfl, hlength, -⟩ :=
    pattern.exists_extent (by omega : pattern.reach text ≠ 0)
  rw [List.length_append]
  omega

end Pattern

/-! ## What a piece is -/

namespace Lexeme

/-- A piece that stands for a token is one that a pattern claims, and no blanks. -/
theorem pattern_of_meaning? {lexeme : Lexeme} {kind : Kind} {value : List Char}
    (h : lexeme.meaning? = some (kind, value)) :
    ∃ pattern, lexeme.pattern? = some pattern ∧ pattern ≠ .lineBreak ∧ pattern ≠ .blanks := by
  unfold meaning? at h
  cases hpattern : lexeme.pattern? with
  | none => simp [hpattern] at h
  | some pattern =>
    rw [hpattern] at h
    refine ⟨pattern, rfl, ?_, ?_⟩
    · rintro rfl
      cases h
    · rintro rfl
      cases h

theorem tiles_cut (offset : Nat) (source : List Char) :
    Tiles Lexeme.offset Lexeme.text offset (cut offset source) := by
  fun_induction cut offset source with
  | case1 => trivial
  | case2 offset c rest _ _ _ text ih => exact ⟨rfl, ih⟩

/-- A piece is what its pattern takes from the text that begins with it. -/
structure Taken (lexeme : Lexeme) (after : List Char) : Prop where
  nonempty : lexeme.text ≠ []
  extent : ∀ pattern, lexeme.pattern? = some pattern →
    pattern ∈ Pattern.table ∧ pattern.Extent lexeme.text after

/-- A piece stands in its text, and its pattern is the first that matches there. -/
theorem exists_of_mem_cut {offset : Nat} {source : List Char} {lexeme : Lexeme}
    (h : lexeme ∈ cut offset source) :
    ∃ before after, source = before ++ (lexeme.text ++ after) ∧
      offset + byteLength before = lexeme.offset ∧ lexeme.text ≠ [] ∧
      ∀ pattern, lexeme.pattern? = some pattern →
        Pattern.first? (lexeme.text ++ after) = some (pattern, lexeme.text.length) := by
  fun_induction cut offset source with
  | case1 => cases h
  | case2 offset c rest pattern? size hmatch text ih =>
    have hsource : c :: rest = text ++ rest.drop (size - 1) := by simp [text]
    rcases List.mem_cons.1 h with rfl | hmem
    · refine ⟨[], rest.drop (size - 1), hsource, rfl, List.cons_ne_nil c _, ?_⟩
      rintro pattern rfl
      have hfirst : Pattern.first? (c :: rest) = some (pattern, size) := by
        split at hmatch
        · next hfound =>
          cases hmatch
          exact hfound
        · cases hmatch
      have hpos := (Pattern.of_first? hfirst).2.2
      have hle := Pattern.length_of_first? hfirst
      rw [List.length_cons] at hle
      have hsize : text.length = size := by
        simp only [text, List.length_cons, List.length_take]
        omega
      rw [← hsource, hsize]
      exact hfirst
    · obtain ⟨before, after, hrest, hoffset, hpiece⟩ := ih hmem
      refine ⟨text ++ before, after, ?_, ?_, hpiece⟩
      · rw [hsource, hrest, List.append_assoc]
      · rw [byteLength_append, ← hoffset]
        omega

theorem taken_of_mem_cut {offset : Nat} {source : List Char} {lexeme : Lexeme}
    (h : lexeme ∈ cut offset source) :
    ∃ before after, source = before ++ (lexeme.text ++ after) ∧
      offset + byteLength before = lexeme.offset ∧ lexeme.Taken after := by
  obtain ⟨before, after, hsource, hoffset, hne, hfirst⟩ := exists_of_mem_cut h
  refine ⟨before, after, hsource, hoffset, hne, fun pattern hpattern => ?_⟩
  obtain ⟨hlisted, hreach, hpos⟩ := Pattern.of_first? (hfirst pattern hpattern)
  obtain ⟨matched, rest, htext, hlength, hextent⟩ :=
    pattern.exists_extent (by omega : pattern.reach (lexeme.text ++ after) ≠ 0)
  obtain ⟨rfl, rfl⟩ := List.append_inj htext (hlength.trans hreach).symm
  exact ⟨hlisted, hextent⟩

theorem excerpt_of_mem_cut {source : List Char} {lexeme : Lexeme} (h : lexeme ∈ cut 0 source) :
    Excerpt source lexeme.offset (lexeme.offset + byteLength lexeme.text) lexeme.text := by
  obtain ⟨before, after, hsource, hoffset, -⟩ := taken_of_mem_cut h
  exact ⟨before, after, hsource, by omega, rfl⟩

/-- The value of a comment is what is left behind its pairs of slashes. -/
theorem spells_remark (text : List Char) : Kind.comment.Spells text (remark text) := by
  fun_induction remark text with
  | case1 rest ih =>
    obtain ⟨pairs, left, hrest, hleft, hvalue⟩ := ih
    refine ⟨pairs + 1, left, ?_, hleft, hvalue⟩
    rw [List.replicate_succ, List.flatten_cons, List.append_assoc, ← hrest]
    rfl
  | case2 text hslashes =>
    refine ⟨0, text, rfl, ?_, rfl⟩
    rintro ⟨rest, rfl⟩
    exact hslashes rest rfl

variable {lexeme : Lexeme} {after : List Char}

theorem Taken.isGap (h : lexeme.Taken after) (hspacing : lexeme.isSpacing = true) :
    ∀ c ∈ lexeme.text, IsGap c := by
  simp only [isSpacing, Bool.or_eq_true, decide_eq_true_eq] at hspacing
  rcases hspacing with hpattern | hpattern
  · exact (h.extent _ hpattern).2
  · exact (h.extent _ hpattern).2

theorem Taken.remark (h : lexeme.Taken after) (hcomment : lexeme.isComment = true) :
    ∃ remark, lexeme.text = '/' :: '/' :: remark ∧ '\n' ∉ remark ∧
      (after = [] ∨ ∃ more, after = '\n' :: more) :=
  (h.extent _ (of_decide_eq_true hcomment)).2

/-- A piece that stands for a token is written as the token says. -/
theorem Taken.spells (h : lexeme.Taken after) {kind : Kind} {value : List Char}
    (hmeaning : lexeme.meaning? = some (kind, value)) :
    kind.isContent = true ∧ kind.Spells lexeme.text value ∧
      (kind = .comment → lexeme.isComment = true) := by
  have plain {other : Kind} (hplain : other.isPlain = true)
      (hsome : some (other, lexeme.text) = some (kind, value)) :
      kind.isContent = true ∧ kind.Spells lexeme.text value ∧
        (kind = .comment → lexeme.isComment = true) := by
    cases hsome
    refine ⟨Kind.isContent_of_isPlain hplain, Kind.spells_self hplain _, ?_⟩
    rintro rfl
    cases hplain
  unfold meaning? at hmeaning
  split at hmeaning
  · next hpattern =>
    cases hmeaning
    exact ⟨rfl, spells_remark _, fun _ => decide_eq_true hpattern⟩
  · exact plain (Kind.isPlain_ofWord _) hmeaning
  · exact plain rfl hmeaning
  · next hpattern =>
    cases hmeaning
    obtain ⟨-, body, hbody, htext⟩ := h.extent _ hpattern
    refine ⟨rfl, ⟨body, hbody, htext, ?_⟩, nofun⟩
    rw [htext, List.tail_cons, List.dropLast_concat]
  · next hpattern => exact plain (Kind.isPlain_of_symbol (h.extent _ hpattern).1) hmeaning
  all_goals cases hmeaning

end Lexeme

end Offside
