import Offside.Proofs.Grammar.PrintedLines

/-! # Parsing undoes printing

A printed tree is read as the tree, if there are as many levels as it is deep. The parentheses
around each part see to it that what follows a part cannot go on with it.
-/

namespace Offside

open Grammar

namespace Node

variable {room : Nat} {text rest : List Token}

theorem readsBack_identifier (name : String) : (identifier name).ReadsBack := by
  intro room text closing rest h hroom hclosing
  rw [levels] at hroom
  simp only [print, spelled_cons_iff, spelled_nil_iff] at h
  obtain ⟨token, _, rfl, ⟨htoken, rfl⟩, rfl⟩ := h
  obtain ⟨room, rfl⟩ : ∃ levels, room = levels + 1 := ⟨room - 1, by omega⟩
  refine expression_of_callee (.accessor htoken (.nil ?_)) hclosing (.inl htoken)
  simp [hclosing]

theorem readsBack_access {target : Node} (htarget : target.ReadsBack) (name : String) :
    (access target name).ReadsBack := by
  intro room text closing rest h hroom hclosing
  rw [levels] at hroom
  simp only [print, spelled_append_iff, spelled_cons_iff, spelled_nil_iff] at h
  obtain ⟨_, _, rfl, h, dot, _, rfl, hdot, field, _, rfl, ⟨hfield, rfl⟩, rfl⟩ := h
  obtain ⟨opening, inner, closing', rfl, hopening, hinner, hclosing'⟩ := parenthesized_spelled h
  obtain ⟨room, rfl⟩ : ∃ levels, room = levels + 1 := ⟨room - 1, by omega⟩
  simp only [List.cons_append, List.append_assoc, List.nil_append]
  refine expression_of_callee (.grouping hopening (htarget hinner (by omega) hclosing') hclosing'
    (.cons hdot hfield (.nil ?_))) hclosing (.inr hopening)
  simp [hclosing]

theorem print_operation (operation : Operation) (operator : String) (left right : Node) :
    (operation.node operator left right).print =
      parenthesized left.print ++ .operator operation operator :: parenthesized right.print := by
  cases operation with
  | arithmetic => rw [Operation.node, print]
  | comparison => rw [Operation.node, print]

theorem levels_operation (operation : Operation) (operator : String) (left right : Node) :
    (operation.node operator left right).levels = max left.levels (right.levels + 1) + 1 := by
  cases operation with
  | arithmetic => rw [Operation.node, levels]
  | comparison => rw [Operation.node, levels]

theorem readsBack_operation {left right : Node} (hleft : left.ReadsBack) (hright : right.ReadsBack)
    (operation : Operation) (operator : String) :
    (operation.node operator left right).ReadsBack := by
  intro room text closing rest h hroom hclosing
  rw [levels_operation] at hroom
  simp only [print_operation, spelled_append_iff, spelled_cons_iff] at h
  obtain ⟨first, _, rfl, hfirst, token, second, rfl, ⟨⟨own, hkind⟩, rfl⟩, hsecond⟩ := h
  obtain ⟨room, rfl⟩ : ∃ levels, room = levels + 1 := ⟨room - 1, by omega⟩
  simp only [List.cons_append, List.append_assoc]
  have hnext : nextKind (closing :: rest) = .closeParen := hclosing
  have hrank : Power.loosest.rank < own.rank := by
    cases hk : token.kind <;> rw [hk] at hkind <;> cases hkind <;> decide
  have hoperand : nextKind (token :: (second ++ closing :: rest)) ≠ .dot ∧
      (nextKind (token :: (second ++ closing :: rest))).startsInner = false := by
    cases hk : token.kind <;> rw [hk] at hkind <;> cases hkind <;>
      simp [hk, Kind.startsInner]
  refine .operation (.inr (nextKind_of_parenthesized hfirst _))
    (hleft.operand hfirst (by omega) hoperand.1) hoperand.2
    (.consOperation (Tables.tighter?_of_operator? hkind hrank)
      (hright.inner hsecond (by omega) ?_ ?_ own) (.noOperation (Tables.tighter?_eq_none ?_ _)))
  all_goals rw [hnext]; decide

theorem applyArguments_some (callee : Node) (waiting args : List Node) :
    applyArguments callee waiting (args.map some) = callOn callee (args.reverse ++ waiting) := by
  induction args generalizing waiting with
  | nil => rfl
  | cons arg args ih => simp [applyArguments, ih]

theorem arguments_of_spelled {args : List Node} (hargs : ∀ node ∈ args, node.ReadsBack)
    (h : Spelled (args.flatMap fun node => parenthesized node.print) text)
    (hroom : partLevels args ≤ room) (hnext : nextKind rest = .closeParen) :
    Reads room (.arguments (args.map some)) (text ++ rest) rest := by
  induction args generalizing text with
  | nil =>
    rw [List.flatMap_nil, spelled_nil_iff] at h
    subst h
    refine .noArgument ?_
    rw [List.nil_append, hnext]
    rfl
  | cons node args ih =>
    obtain ⟨hnode, hothers⟩ := List.forall_mem_cons.1 hargs
    rw [List.flatMap_cons, spelled_append_iff] at h
    obtain ⟨first, others, rfl, hfirst, htail⟩ := h
    rw [partLevels, Nat.max_le] at hroom
    have hopen : nextKind (others ++ rest) = .openParen ∨
        nextKind (others ++ rest) = .closeParen := by
      cases args with
      | nil =>
        rw [List.flatMap_nil, spelled_nil_iff] at htail
        subst htail
        exact .inr hnext
      | cons other args =>
        rw [List.flatMap_cons, spelled_append_iff] at htail
        obtain ⟨second, more, rfl, hsecond, -⟩ := htail
        rw [List.append_assoc]
        exact .inl (nextKind_of_parenthesized hsecond _)
    rw [List.append_assoc]
    refine .consArgument (hnode.inner hfirst hroom.1 ?_ ?_ .loosest)
      (ih hothers htail hroom.2)
    all_goals rcases hopen with hopen | hopen <;> rw [hopen] <;> decide

theorem applyArguments_of_ne_nil (callee : Node) {args : List Node} (hne : args ≠ []) :
    applyArguments callee [] (args.map some) = call callee args := by
  rw [applyArguments_some, List.append_nil, callOn, List.reverse_reverse]
  simp [hne]

theorem readsBack_call {callee : Node} {args : List Node} (hcallee : callee.ReadsBack)
    (hargs : ∀ node ∈ args, node.ReadsBack) : (call callee args).ReadsBack := by
  intro room text closing rest h hroom hclosing
  rw [levels] at hroom
  simp only [print, printAll_eq_map, spelled_append_iff] at h
  obtain ⟨first, others, rfl, hfirst, hothers⟩ := h
  obtain ⟨room, rfl⟩ : ∃ levels, room = levels + 1 := ⟨room - 1, by omega⟩
  have hnext : nextKind (closing :: rest) = .closeParen := hclosing
  rw [List.append_assoc]
  -- Either way the callee is followed by a parenthesis, and so by arguments.
  have call_of {items : List (Option Node)}
      (hopen : nextKind (others ++ closing :: rest) = .openParen)
      (hitems : Reads room (.arguments items) (others ++ closing :: rest) (closing :: rest)) :
      Reads (room + 1) (.expression (applyArguments callee [] items))
        (first ++ (others ++ closing :: rest)) (closing :: rest) := by
    refine .call (.inr (nextKind_of_parenthesized hfirst _))
      (hcallee.operand hfirst (by omega) ?_) ?_ hitems
    · rw [hopen]; decide
    · rw [hopen]; rfl
  by_cases hne : args = []
  · subst hne
    simp only [List.map_nil, Offside.arguments, parenthesized, List.nil_append, List.cons_append,
      spelled_cons_iff, spelled_nil_iff] at hothers
    obtain ⟨opening, _, rfl, hopening, closing', _, rfl, hclosing', rfl⟩ := hothers
    have hstop : Reads room (.arguments []) (closing :: rest) (closing :: rest) :=
      .noArgument (by rw [hnext]; rfl)
    exact call_of hopening (.emptyPair hopening hclosing' hstop)
  · obtain ⟨arg, more, rfl⟩ := List.exists_cons_of_ne_nil hne
    rw [List.map_cons, Offside.arguments, ← List.map_cons, List.flatMap_map] at hothers
    · rw [← applyArguments_of_ne_nil callee hne]
      refine call_of ?_ (arguments_of_spelled hargs hothers (by omega) hnext)
      rw [List.flatMap_cons, spelled_append_iff] at hothers
      obtain ⟨second, others, rfl, hsecond, -⟩ := hothers
      rw [List.append_assoc]
      exact nextKind_of_parenthesized hsecond _
    · simp

theorem readsBack_splice {node : Node} (hnode : node.ReadsBack) : (splice node).ReadsBack := by
  intro room text closing rest h hroom hclosing
  rw [levels] at hroom
  simp only [print, spelled_cons_iff] at h
  obtain ⟨ampersand, _, rfl, hampersand, h⟩ := h
  obtain ⟨opening, inner, closing', rfl, hopening, hinner, hclosing'⟩ := parenthesized_spelled h
  obtain ⟨room, rfl⟩ : ∃ levels, room = levels + 2 := ⟨room - 2, by omega⟩
  simp only [List.cons_append, List.append_assoc, List.nil_append]
  have hkind : ampersand.kind = .ampersand := hampersand
  refine expression_of_operand (.splice hampersand hopening (hnode hinner (by omega) hclosing')
    hclosing') hclosing ?_ ?_ <;> simp [hkind]

theorem readsBack_quoted {node : Node} (hnode : node.ReadsBack) : (quoted node).ReadsBack := by
  intro room text closing rest h hroom hclosing
  rw [levels] at hroom
  rw [print] at h
  obtain ⟨opening, inner, closing', rfl, hopen, hinner, hclose⟩ := enclosed_spelled h
  obtain ⟨room, rfl⟩ : ∃ levels, room = levels + 2 := ⟨room - 2, by omega⟩
  simp only [List.cons_append, List.append_assoc, List.nil_append]
  refine expression_of_operand (.quotation hopen (hnode.expression hinner (by omega) ?_) hclose)
    hclosing ?_ ?_
  · rw [nextKind_cons, hclose]; rfl
  · simp [hopen]
  · simp [hopen]

theorem readsBack_number (value : Binary64) : (number value).ReadsBack := by
  refine readsBack_of_symbol (.numeral value) .number (by rw [print]) (by rw [levels])
    (by decide) (by decide) (·.1) ?_
  rintro room token rest ⟨htoken, hvalue⟩
  exact .number htoken hvalue

theorem readsBack_string (value : String) : (string value).ReadsBack := by
  refine readsBack_of_symbol (.word .string value) .string (by rw [print]) (by rw [levels])
    (by decide) (by decide) (·.1) ?_
  rintro room token rest ⟨htoken, rfl⟩
  exact .string htoken

theorem readsBack_boolean (value : Bool) : (boolean value).ReadsBack := by
  refine readsBack_of_symbol (.word .boolean (if value then "true" else "false")) .boolean
    (by rw [print]) (by rw [levels]) (by decide) (by decide) (·.1) ?_
  rintro room token rest ⟨htoken, hvalue⟩
  have hnode : boolean value = boolean (token.value = "true") := by
    cases value <;> simp [hvalue]
  exact hnode ▸ .boolean htoken

/-- Items that are read before a comma and before whatever stops them are read one after the
other. -/
theorem separated_of_spelled {α : Type} {R : Reading α} {print : α → List Symbol} {items : List α}
    (hne : items ≠ []) (hitems : ∀ item ∈ items, ∀ {text rest : List Token},
      Spelled (print item) text → (nextKind rest).closes = true → R item (text ++ rest) rest)
    (h : Spelled (separate .comma (items.map print)) text)
    (hcloses : (nextKind rest).closes = true) (hcomma : nextKind rest ≠ .comma) :
    R.Separated items (text ++ rest) rest := by
  induction items generalizing text with
  | nil => exact absurd rfl hne
  | cons item items ih =>
    obtain ⟨hitem, hothers⟩ := List.forall_mem_cons.1 hitems
    cases items with
    | nil => exact .last (hitem h hcloses) hcomma
    | cons other items =>
      rw [separate_map_cons] at h
      simp only [spelled_append_iff, spelled_cons_iff] at h
      obtain ⟨first, _, rfl, hfirst, comma, others, rfl, hkind, htail⟩ := h
      rw [List.append_assoc, List.cons_append]
      refine .cons (hitem hfirst ?_) hkind (ih (by simp) hothers htail)
      rw [nextKind_cons, show comma.kind = .comma from hkind]
      rfl

theorem readsBack_array {elements : List Node} (helements : ∀ node ∈ elements, node.ReadsBack) :
    (array elements).ReadsBack := by
  intro room text closing rest h hroom hclosing
  rw [levels] at hroom
  rw [print, printAll_eq_map, List.map_map] at h
  obtain ⟨opening, inner, closing', rfl, hopen, hinner, hclosing'⟩ := enclosed_spelled h
  obtain ⟨room, rfl⟩ : ∃ levels, room = levels + 2 := ⟨room - 2, by omega⟩
  simp only [List.cons_append, List.append_assoc, List.nil_append]
  have hparts : ∀ node ∈ elements, node.levels + 1 ≤ room := partLevels_le_iff.1 (by omega)
  refine expression_of_operand ?_ hclosing (by simp [hopen]) (by simp [hopen])
  by_cases hne : elements = []
  · subst hne
    rw [List.map_nil, separate, spelled_nil_iff] at hinner
    subst hinner
    exact .emptyArray hopen hclosing'
  · have hclose : nextKind (closing' :: closing :: rest) = .closeBracket := hclosing'
    refine .array hopen (separated_expression_iff.1 (separated_of_spelled hne
      (fun node hmem _ _ h => (helements node hmem).expression h (hparts node hmem)) hinner ?_ ?_))
      hclosing'
    all_goals rw [hclose]; decide

theorem pair_of_spelled {entry : String × Node} (hentry : entry.2.ReadsBack)
    (h : Spelled (printPair entry) text) (hroom : entry.2.levels + 1 ≤ room)
    (hcloses : (nextKind rest).closes = true) : Reads room (.pair entry) (text ++ rest) rest := by
  obtain ⟨key, node⟩ := entry
  simp only [printPair, spelled_cons_iff] at h
  obtain ⟨name, _, rfl, ⟨hname, rfl⟩, colon, value, rfl, hcolon, hvalue⟩ := h
  exact .pair hname hcolon (hentry.expression hvalue hroom hcloses)

theorem readsBack_object {pairs : List (String × Node)} (hdistinct : (pairs.map (·.1)).Nodup)
    (hpairs : ∀ entry ∈ pairs, entry.2.ReadsBack) : (object pairs).ReadsBack := by
  intro room text closing rest h hroom hclosing
  rw [levels] at hroom
  rw [print, printPairs_eq_map] at h
  obtain ⟨opening, inner, closing', rfl, hopen, hinner, hclosing'⟩ := enclosed_spelled h
  obtain ⟨room, rfl⟩ : ∃ levels, room = levels + 2 := ⟨room - 2, by omega⟩
  simp only [List.cons_append, List.append_assoc, List.nil_append]
  have hparts : ∀ entry ∈ pairs, entry.2.levels + 1 ≤ room := pairLevels_le_iff.1 (by omega)
  refine expression_of_operand ?_ hclosing (by simp [hopen]) (by simp [hopen])
  by_cases hne : pairs = []
  · subst hne
    rw [List.map_nil, separate, spelled_nil_iff] at hinner
    subst hinner
    exact .emptyObject hopen hclosing'
  · rw [← insertPairs_of_nodup hdistinct]
    have hclose : nextKind (closing' :: closing :: rest) = .closeCurly := hclosing'
    refine .object hopen (separated_pair_iff.1 (separated_of_spelled hne
      (fun entry hmem _ _ h => pair_of_spelled (hpairs entry hmem) h (hparts entry hmem)) hinner
      ?_ ?_))
      hclosing'
    all_goals rw [hclose]; decide

theorem readsBack_conditional {condition : Node} {thenBody elseBody : List Node}
    (hcondition : condition.ReadsBack) (hthenBody : ∀ node ∈ thenBody, node.LineReadsBack false)
    (helseBody : ∀ node ∈ elseBody, node.LineReadsBack false) :
    (conditional condition thenBody elseBody).ReadsBack := by
  intro room text closing rest h hroom hclosing
  rw [levels] at hroom
  simp only [print, List.cons_append, List.append_assoc, spelled_cons_iff, spelled_append_iff] at h
  obtain ⟨head, _, rfl, hhead, first, _, rfl, hfirst, thenToken, _, rfl, hthen, second, _, rfl,
    hsecond, terminator, _, rfl, hterminator, elseToken, third, rfl, helse, hthird⟩ := h
  obtain ⟨room, rfl⟩ : ∃ levels, room = levels + 2 := ⟨room - 2, by omega⟩
  simp only [List.cons_append, List.append_assoc]
  have hkind : head.kind = .kwIf := hhead
  have hnext : thenToken.kind = .kwThen := hthen
  refine expression_of_operand (.conditional hkind
    (hcondition.inner hfirst (by omega) ?_ ?_ .loosest) hthen
    (block_of_spelled hthenBody hsecond (by omega)) hterminator helse
    (block_of_spelled helseBody hthird (by omega))) hclosing ?_ ?_
  · simp [hnext]
  · rw [nextKind_cons, hnext]; rfl
  · simp [hkind]
  · simp [hkind]

theorem readsBack_sequence {context : Node} {body : List Node} (hne : body ≠ [])
    (hcontext : context.ReadsBack) (hbody : ∀ node ∈ body, node.LineReadsBack true) :
    (sequence context body).ReadsBack := by
  intro room text closing rest h hroom hclosing
  rw [levels] at hroom
  simp only [print, List.cons_append, List.append_assoc, spelled_cons_iff, spelled_append_iff,
    spelled_nil_iff] at h
  obtain ⟨head, _, rfl, hhead, first, _, rfl, hfirst, second, _, rfl, hsecond, terminator, _, rfl,
    hterminator, rfl⟩ := h
  obtain ⟨room, rfl⟩ : ∃ levels, room = levels + 1 := ⟨room - 1, by omega⟩
  simp only [List.cons_append, List.append_assoc, List.nil_append]
  have hindent := nextKind_of_indented hsecond (terminator :: closing :: rest)
  refine .sequence hhead (hcontext.inner hfirst (by omega) ?_ ?_ .loosest)
    (sequenceBlock_of_spelled hne hbody hsecond (by omega)) hterminator
  · simp [hindent]
  · rw [hindent]; rfl

theorem arm_of_spelled {entry : CasePattern × Node} (hentry : entry.2.ReadsBack)
    (h : Spelled (printCase entry) text) (hroom : entry.2.levels + 1 ≤ room)
    (hcloses : (nextKind rest).closes = true) : Reads room (.arm entry) (text ++ rest) rest := by
  simp only [printCase, List.cons_append, spelled_cons_iff, spelled_append_iff] at h
  obtain ⟨head, _, rfl, hhead, first, _, rfl, hfirst, assign, second, rfl, hassign, hsecond⟩ := h
  simp only [List.cons_append, List.append_assoc]
  exact .arm hhead (Reading.pattern_of_spelled hfirst) hassign
    (hentry.expression hsecond hroom hcloses)

theorem arms_of_spelled {cases : List (CasePattern × Node)} (hne : cases ≠ [])
    (hcases : ∀ entry ∈ cases, entry.2.ReadsBack)
    (h : Spelled (separate .terminator (cases.map printCase)) text)
    (hroom : ∀ entry ∈ cases, entry.2.levels + 1 ≤ room)
    (hnext : nextKind rest = .outdent) : Reads room (.arms cases) (text ++ rest) rest := by
  have hrest : afterTerminators rest = rest := afterTerminators_of_ne (by rw [hnext]; decide)
  induction cases generalizing text with
  | nil => exact absurd rfl hne
  | cons entry entries ih =>
    obtain ⟨hentry, hothers⟩ := List.forall_mem_cons.1 hcases
    obtain ⟨hfits, hrooms⟩ := List.forall_mem_cons.1 hroom
    cases entries with
    | nil =>
      have harm : Reads room (.arm entry) (text ++ rest) rest :=
        arm_of_spelled hentry h hfits (by rw [hnext]; rfl)
      have hlast : Reads room (.arms [entry]) (text ++ rest) (afterTerminators rest) := by
        refine .lastArm harm fun hcase => ?_
        rw [hrest, hnext] at hcase
        cases hcase.1
      rwa [hrest] at hlast
    | cons other entries =>
      rw [separate_map_cons] at h
      simp only [spelled_append_iff, spelled_cons_iff] at h
      obtain ⟨first, _, rfl, hfirst, terminator, others, rfl, hterminator, htail⟩ := h
      have hkind : terminator.kind = .terminator := hterminator
      have htail := ih (by simp) hothers htail hrooms
      have hafter : afterTerminators (terminator :: (others ++ rest)) = others ++ rest := by
        rw [afterTerminators_cons_of_eq hkind, afterTerminators_of_ne]
        rw [htail.nextKind_of_arms]
        decide
      rw [List.append_assoc, List.cons_append]
      refine .consArm (arm_of_spelled hentry hfirst hfits ?_) ?_ (hafter.symm ▸ htail)
      · rw [nextKind_cons, hkind]; rfl
      · rw [hafter, lineEnded_append]
        exact decide_eq_true hkind

theorem readsBack_choice {scrutinee : Node} {cases : List (CasePattern × Node)} (hne : cases ≠ [])
    (hscrutinee : scrutinee.ReadsBack) (hcases : ∀ entry ∈ cases, entry.2.ReadsBack) :
    (choice scrutinee cases).ReadsBack := by
  intro room text closing rest h hroom hclosing
  rw [levels] at hroom
  simp only [print, List.cons_append, spelled_cons_iff, spelled_append_iff] at h
  obtain ⟨head, _, rfl, hhead, first, second, rfl, hfirst, hsecond⟩ := h
  have hnext := nextKind_of_indented hsecond (closing :: rest)
  obtain ⟨indent, inner, outdent, rfl, hindent, hinner, houtdent⟩ := indented_spelled hsecond
  rw [printCases_eq_map] at hinner
  obtain ⟨room, rfl⟩ : ∃ levels, room = levels + 1 := ⟨room - 1, by omega⟩
  simp only [List.cons_append, List.append_assoc, List.nil_append] at hnext ⊢
  refine .choice hhead (hscrutinee.inner hfirst (by omega) ?_ ?_ .loosest) hindent
    (arms_of_spelled hne hcases hinner (caseLevels_le_iff.1 (by omega)) houtdent) houtdent
  · simp [hnext]
  · rw [hnext]; rfl

theorem readsBack_function {params : List Param} {returnType? : Option String} {body : List Node}
    (hbody : ∀ node ∈ body, node.LineReadsBack false) :
    (function none params returnType? body).ReadsBack := by
  intro room text closing rest h hroom hclosing
  rw [levels] at hroom
  simp only [print, List.cons_append, spelled_cons_iff, spelled_append_iff] at h
  obtain ⟨head, _, rfl, hhead, first, second, rfl, hfirst, hsecond⟩ := h
  obtain ⟨room, rfl⟩ : ∃ levels, room = levels + 1 := ⟨room - 1, by omega⟩
  simp only [List.cons_append, List.append_assoc]
  exact .function hhead (Reading.signature_of_spelled hfirst)
    (.bodyBlock (block_of_spelled hbody hsecond (by omega)))

section Lines

variable {sequence : Bool}

theorem lineReadsBack_of_readsBack {node : Node} (hnode : node.ReadsBack)
    (hexpression : node.isDeclaration = false) : node.LineReadsBack sequence := by
  intro room text rest h hroom hnext
  rw [printLine, hexpression] at h
  rw [levelsOfLine, hexpression] at hroom
  exact .expressionLine (hnode.expression h hroom (closes_of_lineEnd hnext))

theorem lineReadsBack_comment (value : String) : (comment value).LineReadsBack sequence := by
  intro room text rest h hroom hnext
  simp only [printLine, isDeclaration, if_true, print, spelled_cons_iff, spelled_nil_iff] at h
  obtain ⟨token, _, rfl, ⟨htoken, rfl⟩, rfl⟩ := h
  exact .comment htoken

theorem lineReadsBack_letValue {value : Node} (hvalue : value.ReadsBack) (name : String)
    (type? : Option String) : (letValue name type? value).LineReadsBack sequence := by
  intro room text rest h hroom hnext
  rw [levelsOfLine, levels] at hroom
  simp only [printLine, isDeclaration, if_true, print, List.cons_append, spelled_cons_iff,
    spelled_append_iff] at h
  obtain ⟨head, _, rfl, hhead, token, _, rfl, ⟨htoken, rfl⟩, type, _, rfl, htype, assign, inner,
    rfl, hassign, hinner⟩ := h
  simp only [List.cons_append, List.append_assoc]
  have hkind : assign.kind = .assignment := hassign
  have htype : Reading.OptionalType type? (type ++ assign :: (inner ++ rest))
      (assign :: (inner ++ rest)) :=
    Reading.optionalType_of_spelled htype (by simp [hkind])
  obtain ⟨hident, hopen⟩ := htype.not_ahead hkind
  exact .letValue hhead htoken hident hopen htype hkind
    (hvalue.expression hinner hroom (closes_of_lineEnd hnext))

theorem lineReadsBack_dataType {variants : List Variant} (hne : variants ≠ []) (name : String)
    (params : List Param) : (dataType name params variants).LineReadsBack sequence := by
  intro room text rest h hroom hnext
  simp only [printLine, isDeclaration, if_true, print, List.cons_append, spelled_cons_iff,
    spelled_append_iff] at h
  obtain ⟨head, _, rfl, hhead, token, _, rfl, ⟨htoken, rfl⟩, first, _, rfl, hfirst, assign, second,
    rfl, hassign, hsecond⟩ := h
  simp only [List.cons_append, List.append_assoc]
  have hkind : assign.kind = .assignment := hassign
  refine .dataType hhead htoken (Reading.params_of_spelled hfirst ?_) hkind
    (Reading.variants_of_spelled hne hsecond ?_ ?_)
  · exact Reading.not_paramAhead (by simp [hkind]) (by simp [hkind])
  · exact Reading.not_paramAhead (by rcases hnext with h | h | h <;> simp [h])
      (by rcases hnext with h | h | h <;> simp [h])
  · rcases hnext with h | h | h <;> simp [h]

theorem lineReadsBack_macroBody {body : List Node}
    (hbody : ∀ node ∈ body, node.LineReadsBack false) (name : String) :
    (macroBody name body).LineReadsBack sequence := by
  intro room text rest h hroom hnext
  rw [levelsOfLine, levels] at hroom
  simp only [printLine, isDeclaration, if_true, print, spelled_cons_iff] at h
  obtain ⟨head, _, rfl, hhead, token, _, rfl, ⟨htoken, rfl⟩, assign, inner, rfl, hassign,
    hinner⟩ := h
  exact .macroBody hhead htoken hassign (.bodyBlock (block_of_spelled hbody hinner hroom))

theorem lineReadsBack_function {body : List Node}
    (hbody : ∀ node ∈ body, node.LineReadsBack false) (name : String) (params : List Param)
    (returnType? : Option String) :
    (function (some name) params returnType? body).LineReadsBack sequence := by
  intro room text rest h hroom hnext
  rw [levelsOfLine, levels] at hroom
  simp only [printLine, isDeclaration, if_true, print, List.cons_append, spelled_cons_iff,
    spelled_append_iff] at h
  obtain ⟨head, _, rfl, hhead, token, _, rfl, ⟨htoken, rfl⟩, first, second, rfl, hfirst,
    hsecond⟩ := h
  simp only [List.cons_append, List.append_assoc]
  exact .letFunction hhead htoken (Reading.signature_of_spelled hfirst)
    (.bodyBlock (block_of_spelled hbody hsecond hroom))

theorem lineReadsBack_bind {value : Node} (hvalue : value.ReadsBack) (name : String) :
    (bind name value).LineReadsBack true := by
  intro room text rest h hroom hnext
  rw [levelsOfLine, levels] at hroom
  simp only [printLine, isDeclaration, if_true, print, spelled_cons_iff] at h
  obtain ⟨head, _, rfl, hhead, token, _, rfl, ⟨htoken, rfl⟩, assign, inner, rfl, hassign,
    hinner⟩ := h
  exact .bind hhead htoken hassign (hvalue.expression hinner hroom (closes_of_lineEnd hnext))

theorem lineReadsBack_result {value : Node} (hvalue : value.ReadsBack) :
    (result value).LineReadsBack true := by
  intro room text rest h hroom hnext
  rw [levelsOfLine, levels] at hroom
  simp only [printLine, isDeclaration, if_true, print, spelled_cons_iff] at h
  obtain ⟨head, inner, rfl, hhead, hinner⟩ := h
  exact .result hhead (hvalue.expression hinner hroom (closes_of_lineEnd hnext))

end Lines

/-- What printing and reading come to in each place. -/
def Recovered : Place → Node → Prop
  | .operand, node => node.isDeclaration = false ∧ node.ReadsBack
  | .line inSequence, node => node.LineReadsBack inSequence

theorem WellFormed.recovered {known : Operation → String → Prop} {place : Place} {node : Node}
    (h : node.WellFormed known place) : node.Recovered place := by
  induction h with
  | comment => exact lineReadsBack_comment _
  | letValue _ ih => exact lineReadsBack_letValue ih.2 _ _
  | dataType hne => exact lineReadsBack_dataType hne _ _
  | macroBody _ ih => exact lineReadsBack_macroBody ih _
  | namedFunction _ ih => exact lineReadsBack_function ih _ _ _
  | bind _ ih => exact lineReadsBack_bind ih.2 _
  | result _ ih => exact lineReadsBack_result ih.2
  | expressionLine _ ih => exact lineReadsBack_of_readsBack ih.2 ih.1
  | function _ ih => exact ⟨rfl, readsBack_function ih⟩
  | choice hne _ _ ih ihCases =>
    exact ⟨rfl, readsBack_choice hne ih.2 fun entry hmem => (ihCases entry hmem).2⟩
  | conditional _ _ _ ih ihThen ihElse => exact ⟨rfl, readsBack_conditional ih.2 ihThen ihElse⟩
  | sequence hne _ _ ih ihBody => exact ⟨rfl, readsBack_sequence hne ih.2 ihBody⟩
  | call _ _ ih ihArgs => exact ⟨rfl, readsBack_call ih.2 fun node hmem => (ihArgs node hmem).2⟩
  | identifier => exact ⟨rfl, readsBack_identifier _⟩
  | access _ ih => exact ⟨rfl, readsBack_access ih.2 _⟩
  | arithmetic _ _ _ ih ihRight => exact ⟨rfl, readsBack_operation ih.2 ihRight.2 .arithmetic _⟩
  | comparison _ _ _ ih ihRight => exact ⟨rfl, readsBack_operation ih.2 ihRight.2 .comparison _⟩
  | splice _ ih => exact ⟨rfl, readsBack_splice ih.2⟩
  | quoted _ ih => exact ⟨rfl, readsBack_quoted ih.2⟩
  | number => exact ⟨rfl, readsBack_number _⟩
  | string => exact ⟨rfl, readsBack_string _⟩
  | boolean => exact ⟨rfl, readsBack_boolean _⟩
  | array _ ih => exact ⟨rfl, readsBack_array fun node hmem => (ih node hmem).2⟩
  | object hdistinct _ ih =>
    exact ⟨rfl, readsBack_object hdistinct fun entry hmem => (ih entry hmem).2⟩

end Node

theorem Program.WellFormed.spellable {known : Operation → String → Prop} {program : Program}
    (h : program.WellFormed known) : Spellable program.print := by
  refine spellable_separate (by decide) (List.forall_mem_map.2 fun node hmem => ?_)
  have := (h node hmem).spellable
  unfold Node.printLine
  split <;> simpa

/-- Some token list spells a well-formed program, and each that does is parsed as the program, with
any end-of-file tokens behind it and as many levels as the program is deep. A limit above the number
of tokens is always enough. -/
theorem parse_print {known : Operation → String → Prop} {program : Program}
    (h : program.WellFormed known) :
    (∃ text, Spelled program.print text) ∧ program.levels ≤ program.print.length + 1 ∧
      ∀ (text ends : List Token) (file : String) (limit : Nat), Spelled program.print text →
        (∀ token ∈ ends, token.kind = .eof) → program.levels ≤ limit →
          parse (text ++ ends) file limit = .ok program := by
  refine ⟨exists_spelled h.spellable, program.levels_le_length,
    fun text ends file limit htext hends hlimit => ?_⟩
  have hlines : ∀ node ∈ program.body, node.LineReadsBack false := fun node hmem =>
    (h node hmem).recovered
  have hreads : Reads limit (.lines false .eof program.body) (text ++ []) [] :=
    Node.lines_of_spelled hlines htext hlimit (.inr rfl) rfl
  rw [List.append_nil] at hreads
  have htoken (token : Token) (hmem : token ∈ text) : (token.kind != .eof) = true := by
    simpa using kind_ne_eof_of_spelled h.spellable htext token hmem
  have hend : ends.takeWhile (·.kind != .eof) = [] ∧ ends.dropWhile (·.kind != .eof) = ends := by
    cases ends with
    | nil => exact ⟨rfl, rfl⟩
    | cons first rest => simp [hends first List.mem_cons_self]
  refine parse_eq_ok_iff.2 ⟨?_, ?_⟩
  · rw [trailing?, List.dropWhile_append_of_pos htoken, hend.2]
    simpa using hends
  · rwa [List.takeWhile_append_of_pos htoken, hend.1, List.append_nil]

/-- A call without arguments, with no level to spare. -/
theorem parse_print_call :
    parse [⟨.openParen, "(", default⟩, ⟨.openParen, "(", default⟩, ⟨.identifier, "f", default⟩,
      ⟨.closeParen, ")", default⟩, ⟨.openParen, "(", default⟩, ⟨.closeParen, ")", default⟩,
      ⟨.closeParen, ")", default⟩, .eof default] "f" 3 = .ok ⟨[.call (.identifier "f") []]⟩ := by
  have hformed : Program.WellFormed (fun _ _ => True) ⟨[.call (.identifier "f") []]⟩ :=
    List.forall_mem_singleton.2 (.expressionLine (.call .identifier (List.forall_mem_nil _)))
  have hlevels : Program.levels ⟨[.call (.identifier "f") []]⟩ ≤ 3 := by decide
  exact (parse_print hformed).2.2 [⟨.openParen, "(", default⟩, ⟨.openParen, "(", default⟩,
    ⟨.identifier, "f", default⟩, ⟨.closeParen, ")", default⟩, ⟨.openParen, "(", default⟩,
    ⟨.closeParen, ")", default⟩, ⟨.closeParen, ")", default⟩] [.eof default] "f" 3
    (.cons rfl (.cons rfl (.cons ⟨rfl, rfl⟩ (.cons rfl (.cons rfl (.cons rfl (.cons rfl .nil)))))))
    (by decide) hlevels

end Offside
