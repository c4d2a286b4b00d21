import Offside.Proofs.Lexeme.Munch
import Offside.Proofs.Lexeme.OneLine

/-! # Literals

Where a literal ends, how a text may be written in it, and what it is read as. The quote that closes
a literal is the first that no backslash takes along, and no line feed may stand before it.
-/

namespace Offside

namespace Escape

/-- The characters that may follow a backslash in an escape, each with what the escape stands
for. -/
def escapes : List (Char × Char) :=
  [('n', '\n'), ('t', '\t'), ('r', '\r'), ('0', '\x00'), ('"', '"'), ('\\', '\\')]

/-- The ways of writing a text between quotes, each character raw or as its escape. -/
inductive Writes : List Char → List Char → Prop where
  | nil : Writes [] []
  | raw {c : Char} {value written : List Char} (quote : c ≠ '"') (slash : c ≠ '\\')
      (single : c ≠ '\n') (more : Writes value written) : Writes (c :: value) (c :: written)
  | escape {letter c : Char} {value written : List Char} (listed : (letter, c) ∈ escapes)
      (more : Writes value written) : Writes (c :: value) ('\\' :: letter :: written)

/-- What is written, read from left to right. A backslash that begins no escape is kept. -/
inductive Decodes : List Char → List Char → Prop where
  | nil : Decodes [] []
  | escape {letter c : Char} {written value : List Char} (listed : (letter, c) ∈ escapes)
      (more : Decodes written value) : Decodes ('\\' :: letter :: written) (c :: value)
  | slash {written value : List Char}
      (none : ∀ letter ∈ written.head?, letter ∉ escapes.map Prod.fst)
      (more : Decodes written value) : Decodes ('\\' :: written) ('\\' :: value)
  | plain {c : Char} {written value : List Char} (slash : c ≠ '\\') (more : Decodes written value) :
      Decodes (c :: written) (c :: value)

/-- What stands before the first quote that no backslash takes along, and what stands behind it. -/
def closing? : List Char → Option (List Char × List Char)
  | [] => none
  | '"' :: rest => some ([], rest)
  | '\\' :: c :: rest => (closing? rest).map fun (body, after) => ('\\' :: c :: body, after)
  | c :: rest => (closing? rest).map fun (body, after) => (c :: body, after)

variable {written value text body after : List Char}

/-! ## Escapes -/

theorem meaning?_eq_some_iff {letter c : Char} :
    meaning? letter = some c ↔ (letter, c) ∈ escapes := by
  constructor
  · unfold meaning?
    split_ifs
    all_goals rintro ⟨⟩ <;> simp_all [escapes]
  · have hall : ∀ entry ∈ escapes, meaning? entry.1 = some entry.2 := by decide
    exact hall (letter, c)

theorem meaning?_eq_none_iff {letter : Char} :
    meaning? letter = none ↔ letter ∉ escapes.map Prod.fst := by
  rw [Option.eq_none_iff_forall_not_mem]
  simp [Option.mem_def, meaning?_eq_some_iff]

theorem decodes_decode (written : List Char) : Decodes written (decode written) := by
  fun_induction decode written with
  | case1 => exact .nil
  | case2 c =>
    by_cases hslash : c = '\\'
    · subst hslash
      exact .slash (by simp) .nil
    · exact .plain hslash .nil
  | case3 d rest m hmeaning ih => exact .escape (meaning?_eq_some_iff.1 hmeaning) ih
  | case4 d rest hmeaning ih =>
    refine .slash (fun letter hletter => ?_) ih
    obtain rfl : d = letter := by simpa using hletter
    exact meaning?_eq_none_iff.1 hmeaning
  | case5 c d rest hslash ih => exact .plain hslash ih

/-- Reading is a function, and it is the decoder. -/
theorem decodes_iff : Decodes written value ↔ decode written = value := by
  constructor
  · intro h
    induction h with
    | nil => rfl
    | escape listed _ ih => rw [decode, if_pos rfl, meaning?_eq_some_iff.2 listed, ih]
    | @slash written value none _ ih =>
      cases written with
      | nil =>
        rw [← ih]
        rfl
      | cons d written =>
        rw [decode, if_pos rfl, meaning?_eq_none_iff.2 (none d rfl), ih]
    | plain slash _ ih => rw [decode_cons_of_ne slash, ih]
  · rintro rfl
    exact decodes_decode written

theorem Writes.decodes (h : Writes value written) : Decodes written value := by
  induction h with
  | nil => exact .nil
  | raw quote slash single _ ih => exact .plain slash ih
  | escape listed _ ih => exact .escape listed ih

theorem body_of_writes (h : Writes value written) : Body written := by
  have hsingle : ∀ entry ∈ escapes, entry.1 ≠ '\n' := by decide
  induction h with
  | nil => exact .nil
  | raw quote slash single _ ih => exact .plain quote slash single ih
  | escape listed _ ih => exact .escape (hsingle _ listed) ih

/-! ## The closing quote -/

theorem closing?_cons {c : Char} (quote : c ≠ '"') (slash : c ≠ '\\') (text : List Char) :
    closing? (c :: text) = (closing? text).map fun (body, after) => (c :: body, after) := by
  simp [closing?, slash]

theorem Body.closing?_eq (h : Body body) (after : List Char) :
    closing? (body ++ '"' :: after) = some (body, after) := by
  induction h with
  | nil => rfl
  | @escape c rest single _ ih =>
    rw [List.cons_append, List.cons_append, closing?, ih]
    rfl
  | @plain c rest quote slash single _ ih =>
    rw [List.cons_append, closing?_cons quote slash, ih]
    rfl

theorem body_of_closing? (h : closing? text = some (body, after)) (hfeed : '\n' ∉ body) :
    text = body ++ '"' :: after ∧ Body body := by
  fun_induction closing? text generalizing body with
  | case1 => cases h
  | case2 rest =>
    cases h
    exact ⟨rfl, .nil⟩
  | case3 c rest ih =>
    obtain ⟨⟨body, after⟩, hrest, ⟨⟩⟩ := Option.map_eq_some_iff.1 h
    simp only [List.mem_cons, not_or] at hfeed
    obtain ⟨rfl, hbody⟩ := ih hrest hfeed.2.2
    exact ⟨rfl, .escape (Ne.symm hfeed.2.1) hbody⟩
  | case4 c rest hquote hslash ih =>
    obtain ⟨⟨body, after⟩, hrest, ⟨⟩⟩ := Option.map_eq_some_iff.1 h
    rw [List.mem_cons, not_or] at hfeed
    obtain ⟨rfl, hbody⟩ := ih hrest hfeed.2
    have hplain : c ≠ '\\' := by
      rintro rfl
      obtain ⟨d, more, hmore⟩ : ∃ d more, body ++ '"' :: after = d :: more :=
        List.exists_cons_of_ne_nil (by simp)
      exact hslash d more rfl hmore
    exact ⟨rfl, .plain (fun hc => hquote hc) hplain (Ne.symm hfeed.1) hbody⟩

/-- A text before a quote is a body where the quote is the first that closes, on the same line. -/
theorem closing?_eq_some_iff :
    closing? text = some (body, after) ∧ '\n' ∉ body ↔ text = body ++ '"' :: after ∧ Body body := by
  constructor
  · rintro ⟨h, hfeed⟩
    exact body_of_closing? h hfeed
  · rintro ⟨rfl, hbody⟩
    exact ⟨hbody.closing?_eq after, hbody.lineFeed_not_mem⟩

end Escape

namespace Pattern

open Escape

variable {body after rest : List Char}

theorem first?_of_closing? (h : closing? rest = some (body, after)) (hfeed : '\n' ∉ body) :
    first? ('"' :: rest) = some (.quoted, ('"' :: (body ++ ['"'])).length) := by
  obtain ⟨rfl, hbody⟩ := body_of_closing? h hfeed
  have htable : table = [lineBreak, blanks, comment, word, numeral] ++ quoted :: table.drop 6 :=
    rfl
  have hbefore : ∀ other ∈ [lineBreak, blanks, comment, word, numeral],
      other.starts '"' = false := by
    decide
  refine first?_eq_some htable (fun other hmem => ?_) ?_ (Nat.succ_pos _)
  · exact reach_eq_zero_of_starts (hbefore other hmem) _
  · rw [reach, reachQuoted, reachClosing_body hbody, List.length_cons, List.length_append,
      List.length_singleton]
    omega

/-- Without a quote that closes on the line, no pattern claims the quote that opens. -/
theorem first?_of_not_closing? (h : ∀ body after, closing? rest = some (body, after) → '\n' ∈ body) :
    first? ('"' :: rest) = none := by
  cases hfirst : first? ('"' :: rest) with
  | none => rfl
  | some found =>
    obtain ⟨pattern, size⟩ := found
    obtain rfl := eq_quoted_of_first? hfirst
    obtain ⟨-, hreach, hpos⟩ := of_first? hfirst
    rw [reach, reachQuoted] at hreach
    have hclosing : reachClosing 1 rest ≠ 0 := by omega
    obtain ⟨body, after, rfl, hbody, -⟩ := reachClosing_extent hclosing
    exact absurd (h body after (hbody.closing?_eq after)) hbody.lineFeed_not_mem

end Pattern

end Offside
