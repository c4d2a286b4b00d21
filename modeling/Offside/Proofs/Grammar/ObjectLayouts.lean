import Offside.Proofs.Grammar.Contexts
import Offside.Proofs.Node.Pairs

/-! # Layouts of an object

The pairs of an object stand side by side with a comma between two of them, or on lines of their own
with a comma or the end of a line between two of them. Whatever the layout, the object is that of
its pairs: a key keeps its first place and has its last value.
-/

namespace Offside

open Grammar (lastWins insertPairs_eq_lastWins)
open Cursor (Passes lastKind)
open Production (Covers)

/-- A key with its value, which is read up to its last token. -/
inductive PairText : String × Node → List Token → Prop where
  | mk {key colon : Token} {node : Node} {text : List Token} : key.kind.namesField = true →
      colon.kind = .colon → Covers (fun nested => nested.expression) node text →
      PairText (key.value, node) (key :: colon :: text)

/-- Pairs with a comma between two of them. -/
inductive PairsText : List (String × Node) → List Token → Prop where
  | last {entry : String × Node} {text : List Token} : PairText entry text →
      PairsText [entry] text
  | cons {entry : String × Node} {entries : List (String × Node)} {comma : Token}
      {text more : List Token} : PairText entry text → comma.kind = .comma →
      PairsText entries more → PairsText (entry :: entries) (text ++ comma :: more)

/-- What may stand behind a pair on lines of its own: a comma or none, and terminators. -/
inductive SeparatorText : List Token → Prop where
  | lineEnd {terminators : List Token} : (∀ token ∈ terminators, token.kind = .terminator) →
      SeparatorText terminators
  | comma {comma : Token} {terminators : List Token} : comma.kind = .comma →
      (∀ token ∈ terminators, token.kind = .terminator) → SeparatorText (comma :: terminators)

/-- Pairs on lines of their own. Two of them are separated, unless the first one ends in a
terminator of its own. -/
inductive PairLinesText : List (String × Node) → List Token → Prop where
  | nil : PairLinesText [] []
  | cons {entry : String × Node} {entries : List (String × Node)}
      {text separator more : List Token} : PairText entry text → SeparatorText separator →
      (entries ≠ [] → separator ≠ [] ∨ lastKind none text = some .terminator) →
      PairLinesText entries more → PairLinesText (entry :: entries) (text ++ (separator ++ more))

/-- The texts of an object with given pairs. -/
inductive ObjectText (entries : List (String × Node)) : List Token → Prop where
  | empty {opening closing : Token} : entries = [] → opening.kind = .openCurly →
      closing.kind = .closeCurly → ObjectText entries [opening, closing]
  | flat {opening closing : Token} {text : List Token} : opening.kind = .openCurly →
      PairsText entries text → closing.kind = .closeCurly →
      ObjectText entries (opening :: (text ++ [closing]))
  | indented {opening indent outdent closing : Token} {leading text trailing : List Token} :
      opening.kind = .openCurly → indent.kind = .indent →
      (∀ token ∈ leading, token.kind = .terminator) → PairLinesText entries text →
      outdent.kind = .outdent → (∀ token ∈ trailing, token.kind = .terminator) →
      closing.kind = .closeCurly →
      ObjectText entries
        (opening :: indent :: (leading ++ (text ++ outdent :: (trailing ++ [closing]))))

variable {room : Nat} {input rest : List Token}

theorem PairText.readOff {entry : String × Node} {text : List Token} (h : PairText entry text) :
    (Phrase.pair entry).ReadOff text (EndsBefore text) := by
  cases h with
  | @mk key colon node text hkey hcolon hvalue =>
    obtain ⟨levels, hreads⟩ := hvalue.readOff_expression
    refine ⟨levels, fun room rest hroom hcontent hends => .pair hkey hcolon ?_⟩
    have hkind : key.kind ≠ .terminator := by
      intro hkind
      rw [hkind] at hkey
      cases hkey
    refine hreads hroom (fun token hmem => hcontent token (by simp_all)) ?_
    exact (hends.of_cons hkind).of_cons (by simp [hcolon])

theorem PairsText.readOff {entries : List (String × Node)} {text : List Token}
    (h : PairsText entries text) :
    (Phrase.pairs entries).ReadOff text (nextKind · = .closeCurly) := by
  induction h with
  | last hpair =>
    obtain ⟨levels, hreads⟩ := hpair.readOff
    refine ⟨levels, fun room rest hroom hcontent hclosing => .lastPair ?_ (by simp [hclosing])⟩
    exact hreads hroom hcontent (.inr (by rw [hclosing]; rfl))
  | @cons entry entries comma text more hpair hcomma hmore ih =>
    obtain ⟨levels, hreads⟩ := hpair.readOff
    obtain ⟨levels', hrest⟩ := ih
    refine ⟨max levels levels', fun room rest hroom hcontent hclosing => ?_⟩
    rw [List.append_assoc, List.cons_append] at hcontent ⊢
    have hfirst := hreads (Nat.le_trans (Nat.le_max_left _ _) hroom) hcontent
      (endsBefore_of_kind hcomma rfl)
    refine .consPair hfirst hcomma ?_
    exact hrest (Nat.le_trans (Nat.le_max_right _ _) hroom)
      (fun token hmem => hcontent token (by simp_all)) hclosing

/-- Pairs on lines of their own, and what closes them, begin neither with a terminator nor with a
comma. -/
theorem Reads.starts_of_pairLines {entries : List (String × Node)}
    (h : Reads room (.pairLines entries) input rest) :
    nextKind input ≠ .terminator ∧ nextKind input ≠ .comma := by
  cases h with
  | noPairLine houtdent => exact ⟨by simp [houtdent], by simp [houtdent]⟩
  | pairLine hpair | pairLineComma hpair =>
    have hnames := hpair.namesField_of_pair
    constructor <;> intro hkind <;> rw [hkind] at hnames <;> cases hnames

/-- A pair that others follow, or the end of all pairs, is a line of its own. -/
theorem Reads.pairLines_cons {entry : String × Node} {entries : List (String × Node)}
    {text separator : List Token} (hseparator : SeparatorText separator)
    (hneeded : separator ≠ [] ∨ lastKind none text = some .terminator ∨ nextKind input = .outdent)
    (hpair : EndsBefore text (separator ++ input) →
      Reads room (.pair entry) (text ++ (separator ++ input)) (separator ++ input))
    (hmore : Reads room (.pairLines entries) input rest) :
    Reads room (.pairLines (entry :: entries)) (text ++ (separator ++ input)) rest := by
  obtain ⟨hterminator, hcomma⟩ := hmore.starts_of_pairLines
  cases hseparator with
  | @comma comma terminators hkind hall =>
    rw [← afterTerminators_append hall hterminator] at hmore
    exact .pairLineComma (hpair (endsBefore_of_kind hkind rfl)) hkind hmore
  | lineEnd hall =>
    have hafter := afterTerminators_append hall hterminator
    have hended : lineEnded (text ++ (separator ++ input)) input =
        decide (lastKind none (text ++ separator) = some .terminator) := by
      rw [← List.append_assoc, lineEnded_append_right]
    by_cases hnil : separator = []
    · subst hnil
      rw [List.append_nil] at hended
      have hends := hneeded.resolve_left (fun hne => hne rfl)
      refine .pairLine (hpair (hends.imp_right fun houtdent => ?_)) hcomma ?_ (hafter.symm ▸ hmore)
      · rw [List.nil_append, houtdent]
        rfl
      · rw [hafter, hended, decide_eq_true_eq]
        exact hends
    · have hlast := lastKind_of_forall hall hnil
      obtain ⟨token, terminators, rfl⟩ := List.exists_cons_of_ne_nil hnil
      have hkind := hall token List.mem_cons_self
      refine .pairLine (hpair (endsBefore_of_kind hkind rfl)) (by simp [hkind]) (.inl ?_)
        (hafter.symm ▸ hmore)
      rw [hafter, hended, decide_eq_true_eq, Cursor.lastKind_append, hlast]

theorem PairLinesText.readOff {entries : List (String × Node)} {text : List Token}
    (h : PairLinesText entries text) :
    (Phrase.pairLines entries).ReadOff text (nextKind · = .outdent) := by
  induction h with
  | nil => exact ⟨0, fun room rest _ _ houtdent => .noPairLine houtdent⟩
  | @cons entry entries text separator more hpair hseparator hneeded hmore ih =>
    obtain ⟨levels, hreads⟩ := hpair.readOff
    obtain ⟨levels', hrest⟩ := ih
    refine ⟨max levels levels', fun room rest hroom hcontent houtdent => ?_⟩
    rw [List.append_assoc, List.append_assoc] at hcontent ⊢
    refine Reads.pairLines_cons hseparator ?_
      (hreads (Nat.le_trans (Nat.le_max_left _ _) hroom) hcontent)
      (hrest (Nat.le_trans (Nat.le_max_right _ _) hroom)
        (fun token hmem => hcontent token (by simp_all)) houtdent)
    by_cases hnil : entries = []
    · subst hnil
      cases hmore
      exact .inr (.inr houtdent)
    · exact (hneeded hnil).imp_right .inl

/-- Whatever its layout, an object is read off its text as the object of its pairs. -/
theorem ObjectText.readOff {entries : List (String × Node)} {text : List Token}
    (h : ObjectText entries text) :
    (Phrase.operand (.object (lastWins entries))).ReadOff text fun _ => True := by
  rw [← insertPairs_eq_lastWins]
  cases h with
  | empty hnil hopening hclosing =>
    subst hnil
    exact ⟨0, fun room rest _ _ _ => .emptyObject hopening hclosing⟩
  | @flat opening closing text hopening hpairs hclosing =>
    obtain ⟨levels, hreads⟩ := hpairs.readOff
    refine ⟨levels, fun room rest hroom hcontent _ => ?_⟩
    simp only [List.cons_append, List.append_assoc, List.nil_append] at hcontent ⊢
    refine .object hopening (hreads hroom (fun token hmem => hcontent token ?_) hclosing) hclosing
    exact List.mem_cons_of_mem _ hmem
  | @indented opening indent outdent closing leading text trailing hopening hindent hleading hpairs
      houtdent htrailing hclosing =>
    obtain ⟨levels, hreads⟩ := hpairs.readOff
    refine ⟨levels, fun room rest hroom hcontent _ => ?_⟩
    simp only [List.cons_append, List.append_assoc, List.nil_append] at hcontent ⊢
    have hbehind : ∀ token ∈ text ++ outdent :: (trailing ++ closing :: rest), token.kind ≠ .eof :=
      fun token hmem => hcontent token (.tail _ (.tail _ (List.mem_append_right _ hmem)))
    have hlines := hreads hroom hbehind houtdent
    have hstarts := hlines.starts_of_pairLines.1
    rw [← afterTerminators_append hleading hstarts] at hlines
    refine .objectLines hopening hindent hlines houtdent ?_ hclosing
    exact afterTerminators_append htrailing (by simp [hclosing])

/-- Every layout of an object stands for the object that has each key once, at its first place and
with its last value. -/
theorem object_of_text {entries : List (String × Node)} {text : List Token}
    (h : ObjectText entries text) :
    ∃ levels, ∀ {limit room : Nat} {c c' : Cursor}, levels ≤ room → Passes text c c' →
      (Grammar.within .standard limit room).object c = .ok (.object (lastWins entries)) c' := by
  obtain ⟨levels, hreads⟩ := h.readOff
  refine ⟨levels, fun {limit room c c'} hroom hpasses => ?_⟩
  have hcontent := hpasses.1 ▸ c.kind_ne_eof_of_mem_ahead
  have hkind : c.kind = .openCurly := by
    rw [c.kind_eq_nextKind, hpasses.1]
    cases h <;> assumption
  have haccepts := Grammar.accepts_object (P := fun _ => True)
    (g := Grammar.within .standard limit room) (Nested.exact_within limit room)
  exact haccepts.run_of_passes ⟨trivial, hkind⟩ hpasses (hreads hroom hcontent trivial)

/-- A key that is repeated behind a comma and a line end. -/
theorem object_of_text_repeated :
    let token (kind : Kind) (text : String) : Token := ⟨kind, text, default⟩
    let pair (key value : String) : List Token :=
      [token .identifier key, token .colon ":", token .identifier value]
    let comma := token .comma ","
    let lineEnd := token .terminator ""
    let last := pair "a" "z" ++ ([] ++ [])
    let lines := pair "a" "x" ++ ([comma] ++ (pair "b" "y" ++ ([lineEnd] ++ last)))
    let text := token .openCurly "\x7b" :: token .indent "" ::
      ([] ++ (lines ++ token .outdent "" :: ([lineEnd] ++ [token .closeCurly "\x7d"])))
    let c := Cursor.ofTokens text ""
    ∃ levels c', Passes text c c' ∧ (Grammar.within .standard levels levels).object c =
      .ok (.object [("a", .identifier "z"), ("b", .identifier "y")]) c' := by
  intro token pair comma lineEnd last lines text c
  have hpair (key value : String) : PairText (key, .identifier value) (pair key value) :=
    @PairText.mk (token .identifier key) (token .colon ":") (.identifier value)
      [token .identifier value] rfl rfl
      ⟨3, 3, Cursor.ofTokens [token .identifier value] "", _, rfl, rfl, rfl, rfl, rfl,
        rfl⟩
  have hlineEnd : ∀ token ∈ [lineEnd], token.kind = .terminator :=
    List.forall_mem_singleton.2 rfl
  have hlast : PairLinesText [("a", .identifier "z")] last :=
    .cons (hpair "a" "z") (.lineEnd (List.forall_mem_nil _)) (absurd rfl) .nil
  have hlines : PairLinesText
      [("a", .identifier "x"), ("b", .identifier "y"), ("a", .identifier "z")] lines :=
    .cons (hpair "a" "x") (@SeparatorText.comma comma [] rfl (List.forall_mem_nil _))
      (fun _ => .inl (by simp))
      (.cons (hpair "b" "y") (.lineEnd hlineEnd) (fun _ => .inl (by simp)) hlast)
  have htext : ObjectText [("a", .identifier "x"), ("b", .identifier "y"), ("a", .identifier "z")]
      text :=
    @ObjectText.indented _ (token .openCurly "\x7b") (token .indent "") (token .outdent "")
      (token .closeCurly "\x7d") [] lines [lineEnd] rfl rfl (List.forall_mem_nil _) hlines rfl
      hlineEnd rfl
  obtain ⟨c', hpasses, -⟩ := Passes.exists_of_ahead (List.append_nil _).symm
  obtain ⟨levels, hrun⟩ := object_of_text htext
  exact ⟨levels, c', hpasses, hrun (Nat.le_refl levels) hpasses⟩

end Offside
