import Mathlib.Data.List.TakeWhile
import Offside.Proofs.Grammar.Content

/-! # Brackets

Parentheses, brackets, braces, quotation marks and the marks around a block come in pairs. Each
phrase leaves as many of them open as it found, so those of a program that is accepted are properly
nested.
-/

namespace Offside

namespace Kind

/-- The kind that closes what this one opens. -/
def closer? : Kind → Option Kind
  | openParen => some closeParen
  | openBracket => some closeBracket
  | openCurly => some closeCurly
  | openQuote => some closeQuote
  | indent => some outdent
  | _ => none

def isCloser : Kind → Bool
  | closeParen | closeBracket | closeCurly | closeQuote | outdent => true
  | _ => false

def isBracket (kind : Kind) : Bool :=
  kind.closer?.isSome || kind.isCloser

theorem isCloser_of_closer? {opening closing : Kind} (h : opening.closer? = some closing) :
    closing.isCloser = true ∧ closing.closer? = none := by
  cases opening <;> simp only [closer?, Option.some.injEq, reduceCtorEq] at h <;> subst h <;>
    exact ⟨rfl, rfl⟩

end Kind

/-- The brackets of a token list, in order. -/
def brackets (tokens : List Token) : List Kind :=
  (tokens.map (·.kind)).filter Kind.isBracket

/-- The words of properly nested brackets. -/
inductive Dyck : List Kind → Prop where
  | nil : Dyck []
  | cons {opening closing : Kind} {inside after : List Kind} : opening.closer? = some closing →
      Dyck inside → Dyck after → Dyck (opening :: (inside ++ closing :: after))

/-- The closers that are still waited for behind a word, innermost first, given those waited for
before it. There is no answer if a closer comes that is not the one waited for. -/
def waiting? (awaited : List Kind) : List Kind → Option (List Kind)
  | [] => some awaited
  | kind :: rest =>
    match kind.closer? with
    | some closing => waiting? (closing :: awaited) rest
    | none =>
      if kind.isCloser then
        if awaited.head? = some kind then waiting? awaited.tail rest else none
      else waiting? awaited rest

/-! ## Nested words -/

section Words

variable {opening closing kind : Kind} {awaited word rest : List Kind}

theorem waiting?_opener (h : opening.closer? = some closing) :
    waiting? awaited (opening :: rest) = waiting? (closing :: awaited) rest := by
  rw [waiting?, h]

theorem waiting?_closer (h : closing.isCloser = true) (hnone : closing.closer? = none) :
    waiting? (closing :: awaited) (closing :: rest) = waiting? awaited rest := by
  simp [waiting?, hnone, h]

theorem waiting?_other (h : kind.isBracket = false) :
    waiting? awaited (kind :: rest) = waiting? awaited rest := by
  simp only [Kind.isBracket, Bool.or_eq_false_iff, Option.isSome_eq_false_iff,
    Option.isNone_iff_eq_none] at h
  simp [waiting?, h]

theorem waiting?_filter (awaited word : List Kind) :
    waiting? awaited (word.filter Kind.isBracket) = waiting? awaited word := by
  induction word generalizing awaited with
  | nil => rfl
  | cons kind word ih =>
    by_cases h : kind.isBracket = true
    · rw [List.filter_cons_of_pos h, waiting?, waiting?]
      simp only [ih]
    · rw [List.filter_cons_of_neg h, waiting?_other (Bool.eq_false_iff.2 h), ih]

theorem Dyck.waiting?_append (h : Dyck word) (awaited rest : List Kind) :
    waiting? awaited (word ++ rest) = waiting? awaited rest := by
  induction h generalizing awaited rest with
  | nil => rfl
  | @cons opening closing inside after hpair _ _ ih ih' =>
    obtain ⟨hcloser, hnone⟩ := Kind.isCloser_of_closer? hpair
    rw [List.cons_append, List.append_assoc, List.cons_append, waiting?_opener hpair, ih,
      waiting?_closer hcloser hnone, ih']

/-- Nested words with the closers that are waited for between them. -/
def Closing : List Kind → List Kind → Prop
  | [], word => Dyck word
  | closing :: outer, word =>
    ∃ inside after, word = inside ++ closing :: after ∧ Dyck inside ∧ Closing outer after

theorem Closing.nest (h : Closing (closing :: awaited) word)
    (hpair : opening.closer? = some closing) : Closing awaited (opening :: word) := by
  obtain ⟨inside, after, rfl, hinside, hafter⟩ := h
  cases awaited with
  | nil => exact .cons hpair hinside hafter
  | cons next outer =>
    obtain ⟨between, later, rfl, hbetween, hlater⟩ := hafter
    exact ⟨opening :: (inside ++ closing :: between), later, by simp, .cons hpair hinside hbetween,
      hlater⟩

theorem closing_of_waiting? (hword : ∀ kind ∈ word, kind.isBracket = true)
    (h : waiting? awaited word = some []) : Closing awaited word := by
  induction word generalizing awaited with
  | nil =>
    cases h
    exact .nil
  | cons kind word ih =>
    obtain ⟨hkind, hword⟩ := List.forall_mem_cons.1 hword
    rw [waiting?] at h
    cases hpair : kind.closer? with
    | some closing =>
      rw [hpair] at h
      exact (ih hword h).nest hpair
    | none =>
      have hcloser : kind.isCloser = true := by simpa [Kind.isBracket, hpair] using hkind
      simp only [hpair, hcloser, if_true, Option.ite_none_right_eq_some] at h
      obtain ⟨hhead, h⟩ := h
      obtain ⟨outer, rfl⟩ := List.head?_eq_some_iff.1 hhead
      exact ⟨[], word, rfl, .nil, ih hword h⟩

/-- Brackets are properly nested if each closer is the one waited for and none is left to wait
for. -/
theorem dyck_iff_waiting? (hword : ∀ kind ∈ word, kind.isBracket = true) :
    Dyck word ↔ waiting? [] word = some [] := by
  constructor
  · intro h
    have hempty := h.waiting?_append [] []
    rwa [List.append_nil] at hempty
  · exact closing_of_waiting? hword

end Words

/-! ## Phrases -/

/-- The brackets between two places are nested, so the same closers are waited for at both. -/
def Nests (input rest : List Token) : Prop :=
  ∀ awaited, waiting? awaited (input.map (·.kind)) = waiting? awaited (rest.map (·.kind))

section Nests

variable {token opening closing : Token} {kind opener : Kind} {input mid rest : List Token}

theorem Nests.refl (input : List Token) : Nests input input :=
  fun _ => rfl

theorem Nests.trans (h : Nests input mid) (h' : Nests mid rest) : Nests input rest :=
  fun awaited => (h awaited).trans (h' awaited)

theorem Nests.other (hkind : token.kind = kind) (hother : kind.isBracket = false)
    (h : Nests input rest) : Nests (token :: input) rest := by
  intro awaited
  rw [List.map_cons, hkind, waiting?_other hother, h]

theorem Nests.pair (hopening : opening.kind = opener) (hclosing : closing.kind = kind)
    (hpair : opener.closer? = some kind) (hinside : Nests input (closing :: mid))
    (hafter : Nests mid rest) : Nests (opening :: input) rest := by
  intro awaited
  obtain ⟨hcloser, hnone⟩ := Kind.isCloser_of_closer? hpair
  rw [List.map_cons, hopening, waiting?_opener hpair, hinside, List.map_cons, hclosing,
    waiting?_closer hcloser hnone, hafter]

theorem nests_others {tokens : List Token} (h : ∀ token ∈ tokens, token.kind = kind)
    (hother : kind.isBracket = false) (rest : List Token) : Nests (tokens ++ rest) rest := by
  induction tokens with
  | nil => exact .refl rest
  | cons token tokens ih =>
    obtain ⟨htoken, htokens⟩ := List.forall_mem_cons.1 h
    exact .other htoken hother (ih htokens)

theorem nests_afterTerminators (input : List Token) : Nests input (afterTerminators input) := by
  have hskipped : ∀ token ∈ input.takeWhile (·.kind = .terminator), token.kind = .terminator :=
    fun token hmem => by simpa using List.mem_takeWhile_imp hmem
  have hnests := nests_others hskipped rfl (afterTerminators input)
  rwa [afterTerminators, List.takeWhile_append_dropWhile] at hnests

theorem nests_of_afterTerminators (h : afterTerminators input = rest) : Nests input rest :=
  h ▸ nests_afterTerminators input

theorem Kind.isBracket_of_namesField {kind : Kind} (h : kind.namesField = true) :
    kind.isBracket = false := by
  cases kind <;> first | rfl | cases h

theorem Tables.isBracket_of_tighter? {power own : Power} {operation : Operation}
    (h : Tables.standard.tighter? power kind = some (own, operation)) :
    kind.isBracket = false := by
  have hmem := Tables.mem_kinds_of_tighter? h
  have hall : ∀ operation : Operation, ∀ kind ∈ operation.kinds, kind.isBracket = false := by
    rintro (_ | _) <;> decide
  exact hall operation kind hmem

end Nests

namespace Reading

variable {input rest : List Token}

theorem nests_accesses {fields : List String} (h : Accesses fields input rest) :
    Nests input rest := by
  induction h with
  | nil => exact .refl _
  | cons hdot hfield _ ih =>
    exact .other hdot rfl (.other rfl (Kind.isBracket_of_namesField hfield) ih)

theorem nests_optionalType {type? : Option String} (h : OptionalType type? input rest) :
    Nests input rest := by
  cases h with
  | none => exact .refl _
  | some hcolon hname => exact .other hcolon rfl (.other hname rfl (.refl _))

theorem nests_oneParam {param : Param} (h : OneParam param input rest) : Nests input rest := by
  cases h with
  | bare hname => exact .other hname rfl (.refl _)
  | enclosed hopening hname htype hclosing =>
    exact .pair hopening hclosing rfl (.other hname rfl (nests_optionalType htype)) (.refl _)

theorem nests_params {params : List Param} (h : Params params input rest) : Nests input rest := by
  induction h with
  | nil => exact .refl _
  | emptyPair hopening hclosing _ ih => exact .pair hopening hclosing rfl (.refl _) ih
  | cons hparam _ ih => exact (nests_oneParam hparam).trans ih

theorem nests_signature {params : List Param} {type? : Option String}
    (h : Signature (params, type?) input rest) : Nests input rest := by
  cases h with
  | mk _ hparams htype hassign =>
    exact (nests_params hparams).trans
      ((nests_optionalType htype).trans (.other hassign rfl (.refl _)))

theorem nests_pattern {pattern : CasePattern} (h : Pattern pattern input rest) :
    Nests input rest := by
  cases h with
  | bare htag => exact .other htag rfl (.refl _)
  | enclosed hopening htag hfirst hnames hclosing =>
    exact .pair hopening hclosing rfl
      (.other htag rfl (.other hfirst rfl (nests_others hnames rfl _))) (.refl _)

theorem nests_variants {indented : Bool} {variants : List Variant}
    (h : Variants indented variants input rest) : Nests input rest := by
  induction h with
  | last hname hfields => exact .other hname rfl (nests_params hfields)
  | cons hname hfields hbar _ ih =>
    exact .other hname rfl ((nests_params hfields).trans (.other hbar rfl ih))
  | consLine _ hname hfields hterminator hbar _ ih =>
    exact .other hname rfl
      ((nests_params hfields).trans (.other hterminator rfl (.other hbar rfl ih)))

end Reading

/-- Whatever is read, its brackets are nested. -/
theorem Reads.nests {room : Nat} {phrase : Phrase} {input rest : List Token}
    (h : Reads room phrase input rest) : Nests input rest := by
  induction h with
  | function hfn hsignature _ ih =>
    exact .other hfn rfl ((Reading.nests_signature hsignature).trans ih)
  | choice hhead _ hindent _ houtdent ih ihCases =>
    exact .other hhead rfl (ih.trans (.pair hindent houtdent rfl ihCases (.refl _)))
  | sequence hhead _ _ hterminator ih ihBody =>
    exact .other hhead rfl (ih.trans (ihBody.trans (.other hterminator rfl (.refl _))))
  | call _ _ _ _ ih ihItems | operation _ _ _ _ ih ihItems => exact ih.trans ihItems
  | other _ _ _ ih => exact ih
  | inner _ _ ih ihItems => exact ih.trans ihItems
  | noOperation | noArgument => exact .refl _
  | consOperation hoperator _ _ ih ihItems =>
    exact .other rfl (Tables.isBracket_of_tighter? hoperator) (ih.trans ihItems)
  | emptyPair hopening hclosing _ ih => exact .pair hopening hclosing rfl (.refl _) ih
  | consArgument _ _ ih ihItems => exact ih.trans ihItems
  | number hkind | string hkind | boolean hkind => exact .other hkind rfl (.refl _)
  | accessor hname hfields => exact .other hname rfl (Reading.nests_accesses hfields)
  | grouping hopening _ hclosing hfields ih =>
    exact .pair hopening hclosing rfl ih (Reading.nests_accesses hfields)
  | splice hampersand hopening _ hclosing ih =>
    exact .other hampersand rfl (.pair hopening hclosing rfl ih (.refl _))
  | quotation hopening _ hclosing ih => exact .pair hopening hclosing rfl ih (.refl _)
  | emptyArray hopening hclosing => exact .pair hopening hclosing rfl (.refl _) (.refl _)
  | array hopening _ hclosing ih => exact .pair hopening hclosing rfl ih (.refl _)
  | lastElement _ _ ih => exact ih
  | consElement _ hcomma _ ih ihRest => exact ih.trans (.other hcomma rfl ihRest)
  | emptyObject hopening hclosing => exact .pair hopening hclosing rfl (.refl _) (.refl _)
  | object hopening _ hclosing ih => exact .pair hopening hclosing rfl ih (.refl _)
  | objectLines hopening hindent _ houtdent hafter hclosing ih =>
    have hlines := (nests_afterTerminators _).trans ih
    exact .pair hopening hclosing rfl
      (.pair hindent houtdent rfl hlines (nests_of_afterTerminators hafter)) (.refl _)
  | pair hkey hcolon _ ih =>
    exact .other rfl (Kind.isBracket_of_namesField hkey) (.other hcolon rfl ih)
  | lastPair _ _ ih => exact ih
  | consPair _ hcomma _ ih ihRest => exact ih.trans (.other hcomma rfl ihRest)
  | noPairLine => exact .refl _
  | pairLineComma _ hcomma _ ih ihRest =>
    exact ih.trans (.other hcomma rfl ((nests_afterTerminators _).trans ihRest))
  | pairLine _ _ _ _ ih ihRest => exact ih.trans ((nests_afterTerminators _).trans ihRest)
  | conditional hhead _ hthen _ hterminator helse _ ih ihThen ihElse =>
    exact .other hhead rfl (ih.trans
      (.other hthen rfl (ihThen.trans (.other hterminator rfl (.other helse rfl ihElse)))))
  | arm hhead hpattern hassign _ ih =>
    exact .other hhead rfl ((Reading.nests_pattern hpattern).trans (.other hassign rfl ih))
  | lastArm _ _ ih => exact ih.trans (nests_afterTerminators _)
  | consArm _ _ _ ih ihRest => exact ih.trans ((nests_afterTerminators _).trans ihRest)
  | block hindent _ houtdent ih => exact .pair hindent houtdent rfl ih (.refl _)
  | sequenceBlock hindent _ _ houtdent ih => exact .pair hindent houtdent rfl ih (.refl _)
  | bodyBlock _ ih | bodyExpression _ ih => exact ih
  | comment hkind => exact .other hkind rfl (.refl _)
  | letFunction hhead hname hsignature _ ih =>
    exact .other hhead rfl (.other hname rfl ((Reading.nests_signature hsignature).trans ih))
  | letValue hhead hname _ _ htype hassign _ ih =>
    exact .other hhead rfl (.other hname rfl
      ((Reading.nests_optionalType htype).trans (.other hassign rfl ih)))
  | letIndented hhead hname _ _ htype hassign hindent _ hafter houtdent ih =>
    have hvalue := ih.trans (nests_of_afterTerminators hafter)
    exact .other hhead rfl (.other hname rfl ((Reading.nests_optionalType htype).trans
      (.other hassign rfl (.pair hindent houtdent rfl hvalue (.refl _)))))
  | dataType hhead hname hparams hassign hvariants =>
    exact .other hhead rfl (.other hname rfl ((Reading.nests_params hparams).trans
      (.other hassign rfl (Reading.nests_variants hvariants))))
  | dataIndented hhead hname hparams hassign hindent hvariants hafter houtdent =>
    have hlines := (Reading.nests_variants hvariants).trans (nests_of_afterTerminators hafter)
    exact .other hhead rfl (.other hname rfl ((Reading.nests_params hparams).trans
      (.other hassign rfl (.pair hindent houtdent rfl hlines (.refl _)))))
  | macroBody hhead hname hassign _ ih =>
    exact .other hhead rfl (.other hname rfl (.other hassign rfl ih))
  | expressionLine _ ih => exact ih
  | bind hhead hname hassign _ ih =>
    exact .other hhead rfl (.other hname rfl (.other hassign rfl ih))
  | result hhead _ ih => exact .other hhead rfl ih
  | noLine => exact .refl _
  | consLine _ _ _ _ ih ihRest => exact ih.trans ((nests_afterTerminators _).trans ihRest)

/-! ## Programs -/

theorem isBracket_of_mem_brackets (tokens : List Token) :
    ∀ kind ∈ brackets tokens, kind.isBracket = true :=
  fun _ hmem => (List.mem_filter.1 hmem).2

theorem brackets_append_ends {ends : List Token} (hends : ∀ token ∈ ends, token.kind = .eof)
    (tokens : List Token) : brackets (tokens ++ ends) = brackets tokens := by
  have hnone : (ends.map (·.kind)).filter Kind.isBracket = [] := by
    rw [List.filter_eq_nil_iff, List.forall_mem_map]
    intro token hmem
    rw [hends token hmem]
    exact Bool.false_ne_true
  rw [brackets, List.map_append, List.filter_append, hnone, List.append_nil, brackets]

/-- The brackets of a program are properly nested: each closer closes the bracket of its kind that
was opened last, and none is left open. -/
theorem dyck_of_parse {tokens : List Token} {file : String} {limit : Nat} {program : Program}
    (h : parse tokens file limit = .ok program) : Dyck (brackets tokens) := by
  obtain ⟨htrailing, hreads⟩ := parse_eq_ok_iff.1 h
  have hsplit := List.takeWhile_append_dropWhile (p := (·.kind != .eof)) (l := tokens)
  rw [← hsplit, brackets_append_ends (forall_eof_of_trailing? htrailing)]
  rw [dyck_iff_waiting? (isBracket_of_mem_brackets _), brackets, waiting?_filter]
  exact hreads.nests []

/-- An empty pair in a block in a quotation in braces. -/
theorem dyck_of_parse_block :
    let tokens : List Token := [⟨.openCurly, "\x7b", default⟩, ⟨.identifier, "k", default⟩,
      ⟨.colon, ":", default⟩, ⟨.openQuote, "[|", default⟩, ⟨.kwFn, "fn", default⟩,
      ⟨.openParen, "(", default⟩, ⟨.closeParen, ")", default⟩, ⟨.assignment, "=", default⟩,
      ⟨.indent, "indent", default⟩, ⟨.openBracket, "[", default⟩, ⟨.closeBracket, "]", default⟩,
      ⟨.outdent, "dedent", default⟩, ⟨.closeQuote, "|]", default⟩,
      ⟨.closeCurly, "\x7d", default⟩, .eof default]
    parse tokens "" 8 =
        .ok ⟨[.object [("k", .quoted (.function none [] none [.array []]))]]⟩ ∧
      Dyck (brackets tokens) := by
  intro tokens
  have h : parse tokens "" 8 =
      .ok ⟨[.object [("k", .quoted (.function none [] none [.array []]))]]⟩ := rfl
  exact ⟨h, dyck_of_parse h⟩

end Offside
