import Mathlib.Data.List.TakeWhile
import Offside.Proofs.Source.Numbering

/-! # Located offsets

The line that a byte offset falls on, also where it falls inside a character. It can be found by
passing the lines one by one, and it leads back to the offset.
-/

namespace Offside

/-! ## Bytes before an offset -/

/-- A text in UTF-8. -/
def bytes (text : List Char) : List UInt8 :=
  text.flatMap String.utf8EncodeChar

theorem bytes_append (text rest : List Char) : bytes (text ++ rest) = bytes text ++ bytes rest :=
  List.flatMap_append

theorem length_bytes (text : List Char) : (bytes text).length = byteLength text := by
  induction text with
  | nil => rfl
  | cons c text ih =>
    rw [bytes, List.flatMap_cons, List.length_append, String.length_utf8EncodeChar, byteLength_cons,
      ← ih, bytes]

/-- Where a character is written with several bytes, each of them is 128 or more. -/
theorem count_utf8EncodeChar (c : Char) :
    (String.utf8EncodeChar c).count 10 = [c].count '\n' := by
  by_cases hc : c = '\n'
  · subst hc
    decide
  · have hval : c.val.toNat ≠ 10 := fun h => hc (Char.ext (UInt32.toNat_inj.1 h))
    have hne (n : Nat) (hn : n % 256 ≠ 10) : UInt8.ofNat n ≠ 10 := fun h => by
      have hnat := congrArg UInt8.toNat h
      rw [UInt8.toNat_ofNat'] at hnat
      exact hn hnat
    have hbytes : ∀ b ∈ String.utf8EncodeChar c, b ≠ 10 := by
      unfold String.utf8EncodeChar
      dsimp only
      split_ifs <;>
        simp only [List.forall_mem_cons, List.not_mem_nil, false_implies, implies_true,
          and_true] <;>
        and_intros <;> apply hne <;> omega
    rw [List.count_eq_zero.2 fun hmem => hbytes 10 hmem rfl,
      List.count_eq_zero.2 fun hmem => hc (List.mem_singleton.1 hmem).symm]

theorem count_bytes (text : List Char) : (bytes text).count 10 = text.count '\n' := by
  induction text with
  | nil => rfl
  | cons c text ih =>
    rw [bytes, List.flatMap_cons, List.count_append, count_utf8EncodeChar, ← bytes, ih,
      ← List.count_append, List.singleton_append]

/-- No line feed is passed before the last byte of a line, nor at all if it has none. -/
theorem count_take_bytes {text : List Char} {offset : Nat} (h : '\n' ∉ text.dropLast)
    (hoffset : offset < byteLength text ∨ '\n' ∉ text) :
    ((bytes text).take offset).count 10 = 0 := by
  by_cases hfeed : '\n' ∈ text
  · obtain ⟨body, rest, rfl⟩ := List.append_of_mem hfeed
    obtain rfl := Line.eq_nil_of_lineFeed h rfl
    rw [List.dropLast_concat] at h
    have hlt := hoffset.resolve_right (not_not.2 hfeed)
    rw [byteLength_append] at hlt
    have hone : byteLength ['\n'] = 1 := rfl
    rw [bytes_append, List.take_append_of_le_length (by rw [length_bytes]; omega)]
    have hle := (List.take_sublist offset (bytes body)).count_le 10
    rw [count_bytes, List.count_eq_zero.2 h] at hle
    exact Nat.le_zero.1 hle
  · have hle := (List.take_sublist offset (bytes text)).count_le 10
    rw [count_bytes, List.count_eq_zero.2 hfeed] at hle
    exact Nat.le_zero.1 hle

namespace Line

variable {source : List Char} {offset : Nat}

/-! ## The line of an offset -/

/-- The pieces of a text that each end just behind a line feed, and what follows the last one. -/
structure Splits (source : List Char) (texts : List (List Char)) : Prop where
  flatten_eq : texts.flatten = source
  exists_last : ∃ ended last, texts = ended ++ [last] ∧ '\n' ∉ last ∧
    ∀ text ∈ ended, ∃ body, text = body ++ ['\n'] ∧ '\n' ∉ body

theorem splits_cut (source : List Char) : Splits source (cut [] source) := by
  obtain ⟨ended, last, hcut, -, hlast⟩ := exists_cut_append [] source
  refine ⟨flatten_cut [] source, ended, last, hcut, hlast List.not_mem_nil, fun text hmem => ?_⟩
  obtain ⟨before, after, rfl⟩ := List.append_of_mem hmem
  rw [List.append_assoc, List.cons_append] at hcut
  obtain ⟨hbody, hnil | ⟨body, rfl⟩⟩ := of_cut_eq List.not_mem_nil hcut
  · simp at hnil
  · rw [List.dropLast_concat] at hbody
    exact ⟨body, rfl, hbody⟩

/-- Every offset of a source is that of a byte of some line or the end of the last line. -/
theorem exists_at? (h : offset ≤ byteLength source) :
    ∃ line earlier later, Behind source line earlier later ∧ at? source offset = some line ∧
      line.start ≤ offset ∧ (offset < line.stop ∨ '\n' ∉ line.text ∧ offset = line.stop) := by
  rcases Nat.lt_or_eq_of_le h with hlt | rfl
  · have hlength : offset < 0 + byteLength ((ofSource source).map text).flatten := by
      rwa [flatten_ofSource, Nat.zero_add]
    obtain ⟨line, hmem, hstart, hstop⟩ :=
      (tiles_ofSource source).exists_mem (Nat.zero_le offset) hlength
    obtain ⟨earlier, later, hbehind⟩ := exists_behind hmem
    exact ⟨line, earlier, later, hbehind, hbehind.at?_eq_of_le hstart (.inl hstop), hstart,
      .inl hstop⟩
  · obtain ⟨ended, last, hcut, -, hlast⟩ := exists_cut_append [] source
    have hlines := congrArg (ofTexts 1 0) hcut
    rw [← ofSource, ofTexts_append, ofTexts, ofTexts] at hlines
    have hbehind := behind_of_eq hlines
    have hlength := congrArg byteLength hbehind.source_eq
    rw [byteLength_append, ← hbehind.start_eq, List.map_nil, List.flatten_nil,
      List.append_nil] at hlength
    have hstart := le_of_le_of_eq (Nat.le_add_right _ _) hlength.symm
    exact ⟨_, _, [], hbehind, hbehind.at?_eq_of_le hstart (.inr ⟨rfl, hlength⟩), hstart,
      .inr ⟨hlast List.not_mem_nil, hlength⟩⟩

/-! ## The line of a place between characters -/

/-- What stands behind the last line feed of a text. -/
def lastPart (text : List Char) : List Char :=
  (text.reverse.takeWhile (· != '\n')).reverse

/-- What stands before the first line feed of a text. -/
def firstPart (text : List Char) : List Char :=
  text.takeWhile (· != '\n')

theorem not_mem_parts (before after : List Char) : '\n' ∉ lastPart before ++ firstPart after := by
  rw [List.mem_append, lastPart, firstPart, List.mem_reverse]
  rintro (hmem | hmem)
  · exact absurd (List.mem_takeWhile_imp hmem) (by decide)
  · exact absurd (List.mem_takeWhile_imp hmem) (by decide)

theorem takeWhile_of_not_mem {part : List Char} (h : '\n' ∉ part) (rest : List Char) :
    (part ++ rest).takeWhile (· != '\n') = part ++ rest.takeWhile (· != '\n') :=
  List.takeWhile_append_of_pos fun _ hmem => bne_iff_ne.2 fun hc => h (hc ▸ hmem)

theorem lastPart_append {before part : List Char} (h : BeginsAfter before) (hfeed : '\n' ∉ part) :
    lastPart (before ++ part) = part := by
  have hreverse : '\n' ∉ part.reverse := fun hmem => hfeed (List.mem_reverse.1 hmem)
  rw [lastPart, List.reverse_append, takeWhile_of_not_mem hreverse]
  rcases h with rfl | ⟨earlier, rfl⟩ <;> simp

theorem exists_append_of_le {before after text rest : List Char}
    (h : before ++ after = text ++ rest) (hle : byteLength text ≤ byteLength before) :
    ∃ part, before = text ++ part ∧ rest = part ++ after := by
  rcases List.append_eq_append_iff.1 h with ⟨part, rfl, rfl⟩ | hpart
  · have hpart : part = [] := by
      by_contra hne
      have hpos := byteLength_pos hne
      rw [byteLength_append] at hle
      omega
    subst hpart
    exact ⟨[], by simp, by simp⟩
  · exact hpart

/-- What is left of a line behind some part of it reaches up to the next line feed. -/
theorem eq_firstPart_append {text part rest more : List Char} (h : '\n' ∉ text.dropLast)
    (htext : text = part ++ rest) (hpart : '\n' ∉ part)
    (hmore : more = [] ∨ ∃ body, text = body ++ ['\n']) :
    rest = firstPart (rest ++ more) ∨ rest = firstPart (rest ++ more) ++ ['\n'] := by
  rcases eq_or_exists_lineFeed rest with hrest | ⟨body, behind, rfl, hbody⟩
  · have hnil : more = [] := by
      refine hmore.resolve_right ?_
      rintro ⟨body, hbody⟩
      have hmem : '\n' ∈ part ++ rest := by
        rw [← htext, hbody]
        exact List.mem_append_right _ List.mem_cons_self
      exact (List.mem_append.1 hmem).elim hpart hrest
    left
    rw [hnil, firstPart, takeWhile_of_not_mem hrest]
    simp
  · obtain rfl := eq_nil_of_lineFeed h (htext.trans (List.append_assoc _ _ _).symm)
    right
    rw [firstPart, List.append_assoc body, takeWhile_of_not_mem hbody]
    simp

/-- The line of a place holds what stands between the line feeds around the place, with the one
behind it if there is one. -/
theorem exists_line_around (before after : List Char) :
    ∃ line, at? (before ++ after) (byteLength before) = some line ∧
      line.number = 1 + before.count '\n' ∧
      byteLength before - line.start = byteLength (lastPart before) ∧
      (line.text = lastPart before ++ firstPart after ∨
        line.text = lastPart before ++ firstPart after ++ ['\n']) := by
  have hle : byteLength before ≤ byteLength (before ++ after) := by
    rw [byteLength_append]
    exact Nat.le_add_right _ _
  obtain ⟨line, earlier, later, hbehind, hat, hstart, hstop⟩ := exists_at? hle
  obtain ⟨part, hbefore, hrest⟩ :=
    exists_append_of_le hbehind.source_eq (hbehind.start_eq ▸ hstart)
  have hlength := congrArg byteLength hbefore
  rw [byteLength_append, ← hbehind.start_eq] at hlength
  rw [stop] at hstop
  obtain ⟨rest, htext, hafter⟩ := exists_append_of_le hrest (by omega)
  obtain ⟨hline, hlast⟩ := hbehind.eq_nil_or_exists_body
  have hfeed : '\n' ∉ part := by
    have hwithin : byteLength part < byteLength line.text ∨ '\n' ∉ line.text :=
      hstop.imp (by omega) And.left
    have hcount := count_take_bytes hline hwithin
    rw [htext, bytes_append, ← length_bytes, List.take_left, count_bytes] at hcount
    exact List.count_eq_zero.1 hcount
  have hpart : lastPart before = part := by
    rw [hbefore, lastPart_append hbehind.beginsAfter hfeed]
  refine ⟨line, hat, ?_, by rw [hpart]; omega, ?_⟩
  · rw [hbehind.number_eq, hbefore, List.count_append, hbehind.count_eq,
      List.count_eq_zero.2 hfeed, Nat.add_zero]
  · have hmore : (later.map text).flatten = [] ∨ ∃ body, line.text = body ++ ['\n'] :=
      hlast.imp_left fun hnil => by rw [hnil]; rfl
    rw [hpart, htext, hafter, List.append_assoc, List.append_cancel_left_eq,
      List.append_cancel_left_eq]
    exact eq_firstPart_append hline htext hfeed hmore

/-! ## Passing the lines -/

/-- The pieces of a text that each end just behind a line feed, and what follows the last one unless
it is empty, given the characters of the first one read so far, last one first. -/
def pieces (read : List Char) : List Char → List (List Char)
  | [] => if read.isEmpty then [] else [read.reverse]
  | c :: rest => if c = '\n' then (c :: read).reverse :: pieces [] rest else pieces (c :: read) rest

/-- Passes pieces until one of them holds the offset, given the number and the start of the next
one, and the start and the text of the one before. At the end of the source there is a last line
behind the last line feed, or the piece passed last is the last line. -/
def search (source : List Char) (offset number start : Nat) (passed : Nat × List Char) :
    List (List Char) → Nat × List Char × Nat
  | [] =>
    if source.isEmpty || source.getLast? == some '\n' then (number, [], 0)
    else (number - 1, passed.2, offset - passed.1)
  | text :: rest =>
    if start ≤ offset ∧ offset < start + byteLength text then (number, text, offset - start)
    else search source offset (number + 1) (start + byteLength text) (start, text) rest

/-- The number and the text of the line that holds an offset, and how many bytes into it. -/
def locate? (source : List Char) (offset : Nat) : Option (Nat × List Char × Nat) :=
  if byteLength source < offset then none
  else some (search source offset 1 0 (0, []) (pieces [] source))

/-- What is told of an offset on a line. -/
def place (line : Line) (offset : Nat) : Nat × List Char × Nat :=
  (line.number, line.text, offset - line.start)

theorem cut_eq_pieces (read source : List Char) :
    cut read source = pieces read source ++
      if read.isEmpty && source.isEmpty || source.getLast? == some '\n' then [[]] else [] := by
  induction source generalizing read with
  | nil => cases read <;> simp [cut, pieces]
  | cons c rest ih =>
    rw [cut, pieces]
    by_cases hc : c = '\n'
    · subst hc
      rw [if_pos rfl, if_pos rfl, ih]
      cases rest <;> simp
    · rw [if_neg hc, if_neg hc, ih]
      cases rest <;> simp [hc]

theorem search_eq (number start : Nat) (passed : Nat × List Char) (texts : List (List Char))
    (h : start ≤ offset) :
    search source offset number start passed texts =
      match (ofTexts number start texts).find? (offset < ·.stop) with
      | some line => line.place offset
      | none =>
        if source.isEmpty || source.getLast? == some '\n' then (number + texts.length, [], 0)
        else match (ofTexts number start texts).getLast? with
          | some line => line.place offset
          | none => (number - 1, passed.2, offset - passed.1) := by
  induction texts generalizing number start passed with
  | nil => rfl
  | cons text rest ih =>
    rw [search, ofTexts, List.find?_cons]
    by_cases hstop : offset < start + byteLength text
    · rw [if_pos ⟨h, hstop⟩]
      simp [stop, hstop, place]
    · rw [if_neg fun hmem => hstop hmem.2, ih _ _ _ (Nat.not_lt.1 hstop)]
      rw [stop, decide_eq_false hstop, List.getLast?_cons, List.length_cons, Nat.add_assoc,
        Nat.add_comm 1, Nat.add_sub_cancel]
      cases (ofTexts (number + 1) (start + byteLength text) rest).getLast? <;> rfl

/-- Passing the lines finds the line of an offset. -/
theorem locate?_eq (source : List Char) (offset : Nat) :
    locate? source offset = (at? source offset).map (·.place offset) := by
  rw [locate?, at?]
  split
  · rfl
  · next hend =>
    have hflat := flatten_cut [] source
    rw [search_eq _ _ _ _ (Nat.zero_le offset), ofSource]
    rw [cut_eq_pieces] at hflat ⊢
    simp only [List.isEmpty_nil, Bool.true_and, List.reverse_nil, List.nil_append] at hflat ⊢
    split_ifs at hflat ⊢ with hfeed
    · -- The line behind the last line feed is empty, so the offset is where it begins.
      rw [ofTexts_append, List.find?_append, List.getLast?_append]
      cases (ofTexts 1 0 (pieces [] source)).find? (offset < ·.stop) with
      | some line => rfl
      | none =>
        have hlength := congrArg byteLength hflat
        simp only [List.flatten_append, List.flatten_singleton, List.append_nil] at hlength
        have hzero : offset - (0 + byteLength (pieces [] source).flatten) = 0 := by omega
        rw [Option.none_or, ofTexts, ofTexts, List.find?_singleton, List.getLast?_singleton]
        dsimp only
        split_ifs <;> simp only [Option.none_or, Option.some_or, Option.map_some, place, hzero]
    · rw [List.append_nil] at hflat ⊢
      cases (ofTexts 1 0 (pieces [] source)).find? (offset < ·.stop) with
      | some line => rfl
      | none =>
        have hne : pieces [] source ≠ [] := by
          intro hnil
          rw [hnil] at hflat
          exact hfeed (by rw [← hflat]; rfl)
        obtain ⟨text, texts, htexts⟩ := List.exists_cons_of_ne_nil hne
        rw [htexts, ofTexts, List.getLast?_cons]
        rfl

/-- The line feeds before an offset count the lines before its own. The bytes of these lines, with
those before the offset on its own, make up the offset. -/
theorem exists_place (h : offset ≤ byteLength source) :
    ∃ number text into,
      (at? source offset).map (·.place offset) = some (number + 1, text, into) ∧
      number = ((bytes source).take offset).count 10 ∧
      (cut [] source)[number]? = some text ∧
      into ≤ byteLength text ∧
      byteLength ((cut [] source).take number).flatten + into = offset := by
  obtain ⟨line, earlier, later, hbehind, hat, hstart, hstop⟩ := exists_at? h
  rw [stop] at hstop
  have htexts := map_text_ofTexts 1 0 (cut [] source)
  rw [← ofSource, hbehind.lines_eq, List.map_append, List.map_cons] at htexts
  have hbytes : offset = (bytes (earlier.map text).flatten).length + (offset - line.start) := by
    rw [length_bytes, ← hbehind.start_eq]
    omega
  have hfit : offset - line.start ≤ (bytes line.text).length := by
    rw [length_bytes]
    omega
  have hline : ((bytes line.text).take (offset - line.start)).count 10 = 0 :=
    count_take_bytes hbehind.eq_nil_or_exists_body.1 (hstop.imp (by omega) And.left)
  have hcount : ((bytes source).take offset).count 10 = earlier.length := by
    rw [hbehind.source_eq, bytes_append, bytes_append, hbytes, List.take_length_add_append,
      List.count_append, count_bytes, hbehind.count_eq, List.take_append_of_le_length hfit, hline,
      Nat.add_zero]
  refine ⟨earlier.length, line.text, offset - line.start, ?_, hcount.symm, ?_, ?_, ?_⟩
  · rw [hat, Option.map_some, place, hbehind.number_eq, Nat.add_comm]
  · rw [← htexts]
    simp
  · rwa [length_bytes] at hfit
  · rw [← htexts, List.take_left' (List.length_map _), ← hbehind.start_eq]
    omega

/-- An offset is on a line unless it is beyond the source, and the line leads back to it. -/
theorem located_offset (source : List Char) (offset : Nat) :
    Splits source (cut [] source) ∧
    locate? source offset = (at? source offset).map (·.place offset) ∧
    (locate? source offset = none ↔ byteLength source < offset) ∧
    (offset ≤ byteLength source → ∃ number text into,
      locate? source offset = some (number + 1, text, into) ∧
      number = ((bytes source).take offset).count 10 ∧
      (cut [] source)[number]? = some text ∧
      into ≤ byteLength text ∧
      byteLength ((cut [] source).take number).flatten + into = offset) := by
  refine ⟨splits_cut source, locate?_eq source offset, ?_, fun h => ?_⟩
  · unfold locate?
    split <;> simp [*]
  · rw [locate?_eq]
    exact exists_place h

/-- An offset inside a character of the second line. -/
theorem located_offset_inside :
    let source := "é\n日b\n".toList
    5 ≤ byteLength source ∧ locate? source 5 = some (1 + 1, "日b\n".toList, 2) ∧
      1 = ((bytes source).take 5).count 10 ∧ (cut [] source)[1]? = some "日b\n".toList ∧
      2 ≤ byteLength "日b\n".toList ∧ byteLength ((cut [] source).take 1).flatten + 2 = 5 := by
  intro source
  have hlength : 5 ≤ byteLength source := by decide
  obtain ⟨number, text, into, hlocate, hrest⟩ := (located_offset source 5).2.2.2 hlength
  have hplace : locate? source 5 = some (1 + 1, "日b\n".toList, 2) := by decide
  cases hlocate.symm.trans hplace
  exact ⟨hlength, hplace, hrest⟩

end Line

end Offside
