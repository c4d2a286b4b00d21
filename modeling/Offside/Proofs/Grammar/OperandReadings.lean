import Offside.Grammar.Levels
import Offside.Proofs.Grammar.Starts

/-! # Operands

With the productions of the next level exact, each production of an operand accepts the operands
that begin with its token.
-/

namespace Offside

/-- The productions that open a level read exactly what the grammar says, with some number of levels
left. -/
structure Nested.Exact (nested : Nested) (room : Nat) : Prop where
  expression : nested.expression.Accepts fun node => Reads room (.expression node)
  inner : ∀ power, (nested.inner power).Accepts fun node => Reads room (.inner power node)
  block : nested.block.Accepts fun nodes => Reads room (.block nodes)
  sequenceBlock : nested.sequenceBlock.Accepts fun nodes => Reads room (.sequenceBlock nodes)

namespace Grammar

open Parse

variable {g : Grammar} {room : Nat} {P : Cursor → Prop}

theorem numeral_eq : numeral = advance >>= fun token =>
    (Binary64.read? token.value.toList).elim
      (throw ⟨.invalidNumber token.value, token.span.start⟩) fun value => return .number value := by
  refine congrArg (advance >>= ·) (funext fun token => ?_)
  cases Binary64.read? token.value.toList <;> rfl

theorem accepts_numeral :
    numeral.AcceptsOn (fun c => P c ∧ c.kind = .number) fun node => Reads room (.operand node) := by
  have run_eq (token : Token) : ((Binary64.read? token.value.toList).elim
      (throw ⟨.invalidNumber token.value, token.span.start⟩)
      fun value => return .number value : Parse Node).Accepts
      fun node input rest => ∃ value, Binary64.read? token.value.toList = some value ∧
        node = .number value ∧ rest = input := by
    cases h : Binary64.read? token.value.toList with
    | none => exact acceptsOn_of_fails (fun _ _ _ _ => nofun) (by simp)
    | some value => exact (accepts_pure _).congr (by simp)
  rw [numeral_eq]
  refine .congrKind ((acceptsOn_advance ?_).bind run_eq) ?_
  · rintro c ⟨-, hkind⟩
    simp [hkind]
  · intro node input rest hkind
    constructor
    · rintro ⟨token, _, rfl, value, hvalue, rfl, rfl⟩
      exact .number hkind hvalue
    · intro h
      cases h with
      | number _ hvalue => exact ⟨_, _, rfl, _, hvalue, rfl, rfl⟩
      | _ => simp_all

theorem accepts_literal {kind : Kind} (h : kind = .number ∨ kind = .string ∨ kind = .boolean) :
    literal.AcceptsOn (fun c => P c ∧ c.kind = kind) fun node => Reads room (.operand node) := by
  refine .byKind fun kind' => ?_
  split
  · exact accepts_numeral
  · refine .congrKind ((acceptsOn_text ?_).bind fun _ => accepts_pure _) ?_
    · rintro c ⟨-, hkind⟩
      simp [hkind]
    · intro node input rest hkind
      constructor
      · rintro ⟨_, _, ⟨token, rfl, rfl⟩, rfl, rfl⟩
        exact .string hkind
      · intro h
        cases h with
        | string => exact ⟨_, _, ⟨_, rfl, rfl⟩, rfl, rfl⟩
        | _ => simp_all
  · refine .congrKind ((acceptsOn_text ?_).bind fun _ => accepts_pure _) ?_
    · rintro c ⟨-, hkind⟩
      simp [hkind]
    · intro node input rest hkind
      constructor
      · rintro ⟨_, _, ⟨token, rfl, rfl⟩, rfl, rfl⟩
        exact .boolean hkind
      · intro h
        cases h with
        | boolean => exact ⟨_, _, ⟨_, rfl, rfl⟩, rfl, rfl⟩
        | _ => simp_all
  · refine acceptsOn_of_fails (fun c v c' _ => unexpected_ne_ok _ c v c') ?_
    rintro c node rest ⟨⟨-, rfl⟩, rfl⟩
    simp_all

theorem accepts_accessor :
    accessor.AcceptsOn (fun c => P c ∧ c.kind = .identifier)
      fun node => Reads room (.operand node) := by
  refine .congrKind ((accepts_expect (by decide)).bind fun _ => accepts_accessTail _) ?_
  intro node input rest hkind
  constructor
  · rintro ⟨name, _, ⟨rfl, hname⟩, fields, hfields, rfl⟩
    exact .accessor hname hfields
  · intro h
    cases h with
    | accessor hname hfields => exact ⟨_, _, ⟨rfl, hname⟩, _, hfields, rfl⟩
    | _ => simp_all

theorem accepts_grouping (hg : g.nested.Exact room) :
    g.grouping.AcceptsOn (fun c => P c ∧ c.kind = .openParen)
      fun node => Reads room (.operand node) := by
  refine .congrKind ((accepts_expect (by decide)).bind fun _ => hg.expression.bind fun _ =>
    (accepts_expect (by decide)).bind fun _ => accepts_accessTail _) ?_
  intro node input rest hkind
  constructor
  · rintro ⟨_, _, ⟨rfl, hopening⟩, inner, _, hinner, _, _, ⟨rfl, hclosing⟩, fields, hfields, rfl⟩
    exact .grouping hopening hinner hclosing hfields
  · intro h
    cases h with
    | grouping hopening hinner hclosing hfields =>
      exact ⟨_, _, ⟨rfl, hopening⟩, _, _, hinner, _, _, ⟨rfl, hclosing⟩, _, hfields, rfl⟩
    | _ => simp_all

theorem accepts_splice (hg : g.nested.Exact room) :
    g.splice.AcceptsOn (fun c => P c ∧ c.kind = .ampersand)
      fun node => Reads room (.operand node) := by
  refine .congrKind ((accepts_expect (by decide)).bind fun _ =>
    (accepts_expect (by decide)).bind fun _ => hg.expression.bind fun _ =>
      (accepts_expect (by decide)).bind fun _ => accepts_pure _) ?_
  intro node input rest hkind
  constructor
  · rintro ⟨_, _, ⟨rfl, hampersand⟩, _, _, ⟨rfl, hopening⟩, inner, _, hinner, _, _,
      ⟨rfl, hclosing⟩, rfl, rfl⟩
    exact .splice hampersand hopening hinner hclosing
  · intro h
    cases h with
    | splice hampersand hopening hinner hclosing =>
      exact ⟨_, _, ⟨rfl, hampersand⟩, _, _, ⟨rfl, hopening⟩, _, _, hinner, _, _, ⟨rfl, hclosing⟩,
        rfl, rfl⟩
    | _ => simp_all

theorem accepts_quotation (hg : g.nested.Exact room) :
    g.quotation.AcceptsOn (fun c => P c ∧ c.kind = .openQuote)
      fun node => Reads room (.operand node) := by
  refine .congrKind ((accepts_expect (by decide)).bind fun _ => hg.expression.bind fun _ =>
    (accepts_expect (by decide)).bind fun _ => accepts_pure _) ?_
  intro node input rest hkind
  constructor
  · rintro ⟨_, _, ⟨rfl, hopening⟩, inner, _, hinner, _, _, ⟨rfl, hclosing⟩, rfl, rfl⟩
    exact .quotation hopening hinner hclosing
  · intro h
    cases h with
    | quotation hopening hinner hclosing =>
      exact ⟨_, _, ⟨rfl, hopening⟩, _, _, hinner, _, _, ⟨rfl, hclosing⟩, rfl, rfl⟩
    | _ => simp_all

theorem separated_expression_iff {nodes : List Node} {input rest : List Token} :
    Reading.Separated (fun node => Reads room (.expression node)) nodes input rest ↔
      Reads room (.elements nodes) input rest := by
  constructor
  · intro h
    induction h with
    | last hnode hstop => exact .lastElement hnode hstop
    | cons hnode hcomma _ ih => exact .consElement hnode hcomma ih
  · intro h
    induction nodes generalizing input with
    | nil => cases h
    | cons node nodes ih =>
      cases h with
      | lastElement hnode hstop => exact .last hnode hstop
      | consElement hnode hcomma h => exact .cons hnode hcomma (ih h)

theorem separated_pair_iff {entries : List (String × Node)} {input rest : List Token} :
    Reading.Separated (fun entry => Reads room (.pair entry)) entries input rest ↔
      Reads room (.pairs entries) input rest := by
  constructor
  · intro h
    induction h with
    | last hentry hstop => exact .lastPair hentry hstop
    | cons hentry hcomma _ ih => exact .consPair hentry hcomma ih
  · intro h
    induction entries generalizing input with
    | nil => cases h
    | cons entry entries ih =>
      cases h with
      | lastPair hentry hstop => exact .last hentry hstop
      | consPair hentry hcomma h => exact .cons hentry hcomma (ih h)

theorem expression_consumes : Reading.Consumes fun node => Reads room (.expression node) :=
  fun h => h.length_lt rfl

theorem pair_consumes : Reading.Consumes fun entry => Reads room (.pair entry) :=
  fun h => h.length_lt rfl

/-- What stands between the brackets of an array. -/
def elements (g : Grammar) : Parse (List Node) := do
  if (← kind) = .closeBracket then return [] else separated g.nested.expression

theorem array_eq (g : Grammar) :
    g.array = do
      let _ ← expect .openBracket
      let nodes ← g.elements
      let _ ← expect .closeBracket
      return .array nodes := by
  unfold array elements
  simp only [bind_assoc]
  congr
  funext _
  congr
  funext kind
  split <;> rfl

theorem accepts_array (hg : g.nested.Exact room) :
    g.array.AcceptsOn (fun c => P c ∧ c.kind = .openBracket)
      fun node => Reads room (.operand node) := by
  have elements_accept : g.elements.Accepts fun nodes input rest =>
      nextKind input = .closeBracket ∧ nodes = [] ∧ rest = input ∨
        Reads room (.elements nodes) input rest := by
    have starts {nodes : List Node} {input rest : List Token}
        (h : Reads room (.elements nodes) input rest) : nextKind input ≠ .closeBracket := by
      intro hkind
      cases h with
      | lastElement h | consElement h =>
        exact absurd hkind (h.nextKind_ne rfl)
    refine .byKind fun kind => .ite (fun hkind => ?_) fun hkind => ?_
    · refine .congrKind (accepts_pure []) ?_
      rintro nodes input rest rfl
      exact ⟨fun h => .inl ⟨hkind, h⟩, fun h => (h.resolve_right fun h => starts h hkind).2⟩
    · refine .congrKind (accepts_separated hg.expression expression_consumes) ?_
      rintro nodes input rest rfl
      rw [separated_expression_iff]
      exact ⟨.inr, fun h => h.resolve_left fun h => hkind h.1⟩
  rw [array_eq]
  refine .congrKind ((accepts_expect (by decide)).bind fun _ => elements_accept.bind fun _ =>
    (accepts_expect (by decide)).bind fun _ => accepts_pure _) ?_
  intro node input rest hkind
  constructor
  · rintro ⟨_, _, ⟨rfl, hopening⟩, nodes, _, ⟨-, rfl, rfl⟩ | h, _, _, ⟨rfl, hclosing⟩, rfl, rfl⟩
    · exact .emptyArray hopening hclosing
    · exact .array hopening h hclosing
  · intro h
    cases h with
    | emptyArray hopening hclosing =>
      exact ⟨_, _, ⟨rfl, hopening⟩, _, _, .inl ⟨hclosing, rfl, rfl⟩, _, _, ⟨rfl, hclosing⟩,
        rfl, rfl⟩
    | array hopening h hclosing =>
      exact ⟨_, _, ⟨rfl, hopening⟩, _, _, .inr h, _, _, ⟨rfl, hclosing⟩, rfl, rfl⟩
    | _ => simp_all

theorem accepts_pair (hg : g.nested.Exact room) :
    g.pair.AcceptsOn P fun entry => Reads room (.pair entry) := by
  refine .congr (accepts_fieldName.bind fun _ => (accepts_expect (by decide)).bind fun _ =>
    hg.expression.bind fun _ => accepts_pure _) ?_
  intro entry input rest
  constructor
  · rintro ⟨_, _, ⟨key, rfl, hkey, rfl⟩, _, _, ⟨rfl, hcolon⟩, node, _, hnode, rfl, rfl⟩
    exact .pair hkey hcolon hnode
  · intro h
    cases h with
    | pair hkey hcolon hnode =>
      exact ⟨_, _, ⟨_, rfl, hkey, rfl⟩, _, _, ⟨rfl, hcolon⟩, _, _, hnode, rfl, rfl⟩

/-- A pair on lines of its own, with the comma and the line end behind it. -/
inductive PairLine (room : Nat) : Reading (String × Node) where
  | comma {entry : String × Node} {comma : Token} {input mid : List Token} :
      Reads room (.pair entry) input (comma :: mid) → comma.kind = .comma →
      PairLine room entry input (afterTerminators mid)
  | noComma {entry : String × Node} {input mid : List Token} :
      Reads room (.pair entry) input mid → nextKind mid ≠ .comma →
      (lineEnded input (afterTerminators mid) = true ∨
        nextKind (afterTerminators mid) = .outdent) →
      PairLine room entry input (afterTerminators mid)

theorem pairLine_consumes : Reading.Consumes (PairLine room) := by
  intro entry input rest h
  cases h with
  | comma h =>
    exact Nat.lt_of_le_of_lt (length_afterTerminators_le _) (Nat.lt_of_succ_lt (pair_consumes h))
  | noComma h => exact Nat.lt_of_le_of_lt (length_afterTerminators_le _) (pair_consumes h)

theorem accepts_pairLine (hg : g.nested.Exact room) :
    g.pairLine.AcceptsOn P (PairLine room) := by
  have lineEnd (entry : String × Node) (comma : Prop) [Decidable comma] (c : Cursor) :=
    acceptsOn_endLine_unless c
      (fun ended kind => !ended && !decide comma && kind != .outdent) Kind.outdent.name entry
  refine .congr ((accepts_pair hg).bindAfter (S := fun entry start result input rest =>
    result = entry ∧
      (nextKind input = .comma ∧ rest = afterTerminators input.tail ∨
        nextKind input ≠ .comma ∧ rest = afterTerminators input ∧
          (lineEnded start rest = true ∨ nextKind rest = .outdent)))
    pair_consumes fun entry c => .byKind fun kind => ?_) ?_
  · refine .ite (fun hkind => ?_) fun hkind => ?_
    · have first : advance.AcceptsOn (fun c' => After c c' ∧ c'.kind = kind)
          fun token input rest => input = token :: rest :=
        acceptsOn_advance (by rintro c' ⟨-, rfl⟩; simp [hkind])
      refine .congrKind (first.bindOn (Q := After c) ?_ fun _ => lineEnd entry (kind = .comma) c) ?_
      · intro c' _ _ h run
        exact h.1.of_reaches (first.reaches h run)
      · rintro result input rest rfl
        obtain ⟨comma, mid, rfl, -⟩ := eq_cons_of_nextKind hkind (by decide)
        constructor
        · rintro ⟨_, _, h, rfl, rfl, -⟩
          obtain ⟨rfl, rfl⟩ := List.cons.inj h
          exact ⟨rfl, .inl ⟨hkind, rfl⟩⟩
        · rintro ⟨rfl, ⟨-, rfl⟩ | ⟨h, -⟩⟩
          · exact ⟨_, _, rfl, rfl, rfl, by simp [hkind]⟩
          · exact absurd hkind h
    · refine .congrKind ((lineEnd entry (kind = .comma) c).mono fun _ h => h.1) ?_
      rintro result input rest rfl
      simp [hkind, or_iff_not_imp_left]
  · intro entry input rest
    constructor
    · rintro ⟨_, mid, hentry, rfl, ⟨hcomma, rfl⟩ | ⟨hcomma, rfl, hend⟩⟩
      · obtain ⟨comma, mid, rfl, -⟩ := eq_cons_of_nextKind hcomma (by decide)
        exact .comma hentry hcomma
      · exact .noComma hentry hcomma hend
    · intro h
      cases h with
      | comma hentry hcomma => exact ⟨_, _, hentry, rfl, .inl ⟨hcomma, rfl⟩⟩
      | noComma hentry hcomma hend => exact ⟨_, _, hentry, rfl, .inr ⟨hcomma, rfl, hend⟩⟩

theorem many_pairLine_iff {entries : List (String × Node)} {input rest : List Token} :
    (PairLine room).Many (nextKind · ≠ .outdent) entries input rest ↔
      Reads room (.pairLines entries) input rest := by
  constructor
  · intro h
    induction h with
    | nil hstop => exact .noPairLine (not_not.1 hstop)
    | cons _ hline _ ih =>
      cases hline with
      | comma hentry hcomma => exact .pairLineComma hentry hcomma ih
      | noComma hentry hcomma hend => exact .pairLine hentry hcomma hend ih
  · intro h
    have goes {entry : String × Node} {input rest : List Token}
        (h : Reads room (.pair entry) input rest) : nextKind input ≠ .outdent := by
      intro hkind
      have := h.namesField_of_pair
      simp [hkind, Kind.namesField] at this
    induction entries generalizing input with
    | nil =>
      cases h with
      | noPairLine hstop => exact .nil (not_not.2 hstop)
    | cons entry entries ih =>
      cases h with
      | pairLineComma hentry hcomma h =>
        exact .cons (goes hentry) (.comma hentry hcomma) (ih h)
      | pairLine hentry hcomma hend h =>
        exact .cons (goes hentry) (.noComma hentry hcomma hend) (ih h)

theorem accepts_pairLines (hg : g.nested.Exact room) :
    (collect fun c => if c.kind = .outdent then none else some g.pairLine).AcceptsOn P
      fun entries => Reads room (.pairLines entries) := by
  refine .congr (acceptsOn_collect (P := fun _ => True) (R := PairLine room)
    (G := (nextKind · ≠ .outdent)) (fun _ _ => trivial) pairLine_consumes ?_ ?_).on
    fun _ _ _ => many_pairLine_iff
  · intro c _
    simp [Cursor.kind_eq_nextKind]
  · intro c item _ h
    split at h
    · cases h
    · cases h
      exact accepts_pairLine hg

/-- What stands between the brackets of an object. -/
def entries (g : Grammar) : Parse (List (String × Node)) := do
  match ← kind with
  | .indent => do
    let _ ← advance
    let _ ← skipTerminators
    let entries ← collect fun c => if c.kind = .outdent then none else some g.pairLine
    let _ ← expect .outdent
    let _ ← skipTerminators
    return entries
  | .closeCurly => return []
  | _ => separated g.pair

theorem object_eq (g : Grammar) :
    g.object = do
      let _ ← expect .openCurly
      let entries ← g.entries
      let _ ← expect .closeCurly
      return .object (entries.foldl insertPair []) := by
  unfold object entries
  simp only [bind_assoc]
  congr
  funext _
  congr
  funext kind
  split <;> simp only [bind_assoc, pure_bind]

/-- What stands between the brackets of an object. -/
inductive Entries (room : Nat) : Reading (List (String × Node)) where
  | lines {indent outdent : Token} {entries : List (String × Node)} {input mid : List Token} :
      indent.kind = .indent →
      Reads room (.pairLines entries) (afterTerminators input) (outdent :: mid) →
      outdent.kind = .outdent → Entries room entries (indent :: input) (afterTerminators mid)
  | none {input : List Token} : nextKind input = .closeCurly → Entries room [] input input
  | flat {entries : List (String × Node)} {input rest : List Token} :
      Reads room (.pairs entries) input rest → Entries room entries input rest

theorem accepts_entries (hg : g.nested.Exact room) :
    g.entries.AcceptsOn P (Entries room) := by
  have starts {entries : List (String × Node)} {input rest : List Token}
      (h : Reads room (.pairs entries) input rest) : (nextKind input).namesField = true := by
    cases h with
    | lastPair h | consPair h => exact h.namesField_of_pair
  refine .byKind fun kind => ?_
  split
  · refine .congrKind ((acceptsOn_advance ?_).bind fun _ => accepts_skipTerminators.bind fun _ =>
      (accepts_pairLines hg).bind fun _ => (accepts_expect (by decide)).bind fun _ =>
        accepts_skipTerminators.bind fun _ => accepts_pure _) ?_
    · rintro c ⟨-, hkind⟩
      simp [hkind]
    · intro entries input rest hkind
      constructor
      · rintro ⟨_, _, rfl, _, _, ⟨-, rfl⟩, _, _, hlines, _, _, ⟨rfl, houtdent⟩, _, _, ⟨-, rfl⟩,
          rfl, rfl⟩
        exact .lines hkind hlines houtdent
      · intro h
        cases h with
        | lines _ hlines houtdent =>
          exact ⟨_, _, rfl, _, _, ⟨rfl, rfl⟩, _, _, hlines, _, _, ⟨rfl, houtdent⟩, _, _,
            ⟨rfl, rfl⟩, rfl, rfl⟩
        | none h => simp [hkind] at h
        | flat h => simpa [hkind, Kind.namesField] using starts h
  · refine .congrKind (accepts_pure []) ?_
    intro entries input rest hkind
    constructor
    · rintro ⟨rfl, rfl⟩
      exact .none hkind
    · intro h
      cases h with
      | lines h => simp [h] at hkind
      | none => exact ⟨rfl, rfl⟩
      | flat h => simpa [hkind, Kind.namesField] using starts h
  · next hindent hclose =>
    refine .congrKind (accepts_separated (accepts_pair hg) pair_consumes) ?_
    rintro entries input rest rfl
    rw [separated_pair_iff]
    constructor
    · exact .flat
    · intro h
      cases h with
      | lines h => exact absurd h hindent
      | none h => exact absurd h hclose
      | flat h => exact h

theorem accepts_object (hg : g.nested.Exact room) :
    g.object.AcceptsOn (fun c => P c ∧ c.kind = .openCurly)
      fun node => Reads room (.operand node) := by
  rw [object_eq]
  refine .congrKind ((accepts_expect (by decide)).bind fun _ => (accepts_entries hg).bind fun _ =>
    (accepts_expect (by decide)).bind fun _ => accepts_pure _) ?_
  intro node input rest hkind
  constructor
  · rintro ⟨_, _, ⟨rfl, hopening⟩, entries, mid, hentries, _, _, ⟨hmid, hclosing⟩, rfl, rfl⟩
    cases hentries with
    | lines hindent hlines houtdent =>
      exact .objectLines hopening hindent hlines houtdent hmid hclosing
    | none => subst hmid; exact .emptyObject hopening hclosing
    | flat h => subst hmid; exact .object hopening h hclosing
  · intro h
    cases h with
    | emptyObject hopening hclosing =>
      exact ⟨_, _, ⟨rfl, hopening⟩, _, _, .none hclosing, _, _, ⟨rfl, hclosing⟩, rfl, rfl⟩
    | object hopening h hclosing =>
      exact ⟨_, _, ⟨rfl, hopening⟩, _, _, .flat h, _, _, ⟨rfl, hclosing⟩, rfl, rfl⟩
    | objectLines hopening hindent hlines houtdent hafter hclosing =>
      exact ⟨_, _, ⟨rfl, hopening⟩, _, _, .lines hindent hlines houtdent, _, _,
        ⟨hafter, hclosing⟩, rfl, rfl⟩
    | _ => simp_all

theorem accepts_conditional (hg : g.nested.Exact room) :
    g.conditional.AcceptsOn (fun c => P c ∧ c.kind = .kwIf)
      fun node => Reads room (.operand node) := by
  refine .congrKind ((accepts_expect (by decide)).bind fun _ => (hg.inner _).bind fun _ =>
    (accepts_expect (by decide)).bind fun _ => hg.block.bind fun _ =>
      (accepts_expect (by decide)).bind fun _ => (accepts_expect (by decide)).bind fun _ =>
        hg.block.bind fun _ => accepts_pure _) ?_
  intro node input rest hkind
  constructor
  · rintro ⟨_, _, ⟨rfl, hhead⟩, _, _, hcondition, _, _, ⟨rfl, hthen⟩, _, _, hthenBody, _, _,
      ⟨rfl, hterminator⟩, _, _, ⟨rfl, helse⟩, _, _, helseBody, rfl, rfl⟩
    exact .conditional hhead hcondition hthen hthenBody hterminator helse helseBody
  · intro h
    cases h with
    | conditional hhead hcondition hthen hthenBody hterminator helse helseBody =>
      exact ⟨_, _, ⟨rfl, hhead⟩, _, _, hcondition, _, _, ⟨rfl, hthen⟩, _, _, hthenBody, _, _,
        ⟨rfl, hterminator⟩, _, _, ⟨rfl, helse⟩, _, _, helseBody, rfl, rfl⟩
    | _ => simp_all

end Grammar

end Offside
