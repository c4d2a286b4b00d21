import Offside.Proofs.Grammar.Contexts
import Offside.Proofs.Grammar.PrintedParts

/-! # Inline and indented forms

A body may stand on the line of its form or indented on a line of its own, and so may the variants
of a data type. Both are parsed as the same node, and both are taken up to their last tokens.
-/

namespace Offside

open Cursor (Passes lastKind)
open Production (Covers)
open Reading (ParamAhead)

/-! ## The texts -/

inductive TypeText : Option String → List Token → Prop where
  | none : TypeText none []
  | some {colon name : Token} : colon.kind = .colon → name.kind = .identifier →
      TypeText (some name.value) [colon, name]

inductive ParamText : Param → List Token → Prop where
  | bare {name : Token} : name.kind = .identifier → ParamText ⟨name.value, none⟩ [name]
  | enclosed {opening name closing : Token} {type? : Option String} {text : List Token} :
      opening.kind = .openParen → name.kind = .identifier → TypeText type? text →
      closing.kind = .closeParen →
      ParamText ⟨name.value, type?⟩ (opening :: name :: (text ++ [closing]))

/-- Parameters, with empty pairs of parentheses anywhere between them. -/
inductive ParamsText : List Param → List Token → Prop where
  | nil : ParamsText [] []
  | emptyPair {opening closing : Token} {params : List Param} {text : List Token} :
      opening.kind = .openParen → closing.kind = .closeParen → ParamsText params text →
      ParamsText params (opening :: closing :: text)
  | cons {param : Param} {params : List Param} {text more : List Token} : ParamText param text →
      ParamsText params more → ParamsText (param :: params) (text ++ more)

/-- Parameters that are written, a type or none, and the assignment. -/
inductive SignatureText : List Param → Option String → List Token → Prop where
  | mk {params : List Param} {type? : Option String} {written text : List Token} {assign : Token} :
      ParamsText params written → written ≠ [] → TypeText type? text →
      assign.kind = .assignment → SignatureText params type? (written ++ (text ++ [assign]))

inductive VariantText : Variant → List Token → Prop where
  | mk {name : Token} {fields : List Param} {text : List Token} : name.kind = .identifier →
      ParamsText fields text → VariantText ⟨name.value, fields⟩ (name :: text)

/-- Variants with a bar between two of them. Where they are indented, a terminator may stand before
the bar. -/
inductive VariantsText (indented : Bool) : List Variant → List Token → Prop where
  | last {variant : Variant} {text : List Token} : VariantText variant text →
      VariantsText indented [variant] text
  | cons {variant : Variant} {variants : List Variant} {bar : Token} {text more : List Token} :
      VariantText variant text → bar.kind = .pipe → VariantsText indented variants more →
      VariantsText indented (variant :: variants) (text ++ bar :: more)
  | consLine {variant : Variant} {variants : List Variant} {terminator bar : Token}
      {text more : List Token} : indented = true → VariantText variant text →
      terminator.kind = .terminator → bar.kind = .pipe → VariantsText indented variants more →
      VariantsText indented (variant :: variants) (text ++ terminator :: bar :: more)

/-- A text on a line of its own: indented, and ended by any number of terminators. -/
inductive Indents (text : List Token) : List Token → Prop where
  | mk {indent outdent : Token} {terminators : List Token} : indent.kind = .indent →
      (∀ token ∈ terminators, token.kind = .terminator) → outdent.kind = .outdent →
      Indents text (indent :: (text ++ (terminators ++ [outdent])))

/-- What stands before a body, up to the assignment: the rule that reads the form, and the node that
the form is with a body of one expression. -/
inductive HeaderText : Rule → (Node → Node) → List Token → Prop where
  | letValue {head name assign : Token} {type? : Option String} {text : List Token} :
      head.kind = .kwLet → name.kind = .identifier → TypeText type? text →
      assign.kind = .assignment →
      HeaderText .letDeclaration (.letValue name.value type?) (head :: name :: (text ++ [assign]))
  | letFunction {head name : Token} {params : List Param} {type? : Option String}
      {text : List Token} : head.kind = .kwLet → name.kind = .identifier →
      SignatureText params type? text →
      HeaderText .letDeclaration (fun body => .function (some name.value) params type? [body])
        (head :: name :: text)
  | function {head : Token} {params : List Param} {type? : Option String} {text : List Token} :
      head.kind = .kwFn → SignatureText params type? text →
      HeaderText .function (fun body => .function none params type? [body]) (head :: text)
  | macroBody {head name assign : Token} : head.kind = .kwMacro → name.kind = .identifier →
      assign.kind = .assignment →
      HeaderText .macroDeclaration (fun body => .macroBody name.value [body]) [head, name, assign]

/-- The inline and the indented text of a form, and what both are read as. -/
inductive FormTexts : Rule → Node → List Token → List Token → Prop where
  | body {rule : Rule} {form : Node → Node} {node : Node} {header text block : List Token} :
      HeaderText rule form header → Covers (fun nested => nested.expression) node text →
      Indents text block → FormTexts rule (form node) (header ++ text) (header ++ block)
  | variants {head name assign : Token} {params : List Param} {variants : List Variant}
      {written text text' block : List Token} : head.kind = .kwData → name.kind = .identifier →
      ParamsText params written → assign.kind = .assignment → VariantsText false variants text →
      VariantsText true variants text' → Indents text' block →
      FormTexts .dataDeclaration (.dataType name.value params variants)
        (head :: name :: (written ++ assign :: text)) (head :: name :: (written ++ assign :: block))

/-! ## Reading them -/

variable {room : Nat} {rest : List Token}

namespace Reading

theorem optionalType_of_text {type? : Option String} {text : List Token} (h : TypeText type? text)
    (hnext : nextKind rest ≠ .colon) : OptionalType type? (text ++ rest) rest := by
  cases h with
  | none => exact .none hnext
  | some hcolon hname => exact .some hcolon hname

theorem oneParam_of_text {param : Param} {text : List Token} (h : ParamText param text) :
    OneParam param (text ++ rest) rest := by
  cases h with
  | bare hname => exact .bare hname
  | enclosed hopening hname htype hclosing =>
    simp only [List.cons_append, List.append_assoc, List.nil_append]
    exact .enclosed hopening hname (optionalType_of_text htype (by simp [hclosing])) hclosing

theorem params_of_text {params : List Param} {text : List Token} (h : ParamsText params text)
    (hnext : ¬ ParamAhead rest) : Params params (text ++ rest) rest := by
  induction h with
  | nil => exact .nil hnext
  | emptyPair hopening hclosing _ ih => exact .emptyPair hopening hclosing ih
  | cons hparam _ ih =>
    rw [List.append_assoc]
    exact .cons (oneParam_of_text hparam) ih

theorem paramAhead_of_text {params : List Param} {text : List Token} (h : ParamsText params text)
    (hne : text ≠ []) : ParamAhead (text ++ rest) := by
  cases h with
  | nil => exact absurd rfl hne
  | emptyPair hopening hclosing => exact .inr ⟨hopening, .inl hclosing⟩
  | cons hparam =>
    rw [List.append_assoc]
    exact Grammar.paramAhead_of_oneParam (oneParam_of_text hparam)

theorem signature_of_text {params : List Param} {type? : Option String} {text : List Token}
    (h : SignatureText params type? text) : Signature (params, type?) (text ++ rest) rest := by
  cases h with
  | @mk written text assign hparams hne htype hassign =>
    simp only [List.append_assoc, List.cons_append, List.nil_append]
    have htail : OptionalType type? (text ++ assign :: rest) (assign :: rest) :=
      optionalType_of_text htype (by simp [hassign])
    obtain ⟨hident, hopen⟩ := htail.not_ahead hassign
    exact .mk (paramAhead_of_text hparams hne)
      (params_of_text hparams (not_paramAhead hident hopen)) htail hassign

theorem variants_of_text {indented : Bool} {variants : List Variant} {text : List Token}
    (h : VariantsText indented variants text) (hnext : ¬ ParamAhead rest)
    (hbar : ¬ VariantAhead indented rest) : Variants indented variants (text ++ rest) rest := by
  induction h with
  | last hvariant =>
    cases hvariant with
    | mk hname hfields => exact .last hname (params_of_text hfields hnext) hbar
  | cons hvariant hpipe _ ih =>
    cases hvariant with
    | mk hname hfields =>
      simp only [List.cons_append, List.append_assoc]
      refine .cons hname (params_of_text hfields ?_) hpipe ih
      exact not_paramAhead (by simp [hpipe]) (by simp [hpipe])
  | consLine hindented hvariant hterminator hpipe _ ih =>
    cases hvariant with
    | mk hname hfields =>
      simp only [List.cons_append, List.append_assoc]
      refine .consLine hindented hname (params_of_text hfields ?_) hterminator hpipe ih
      exact not_paramAhead (by simp [hterminator]) (by simp [hterminator])

end Reading

/-- What may follow a form: the end of its line, of its block or of the source. -/
def FormEnds (rest : List Token) : Prop :=
  nextKind rest = .terminator ∨ nextKind rest = .outdent ∨ nextKind rest = .eof

namespace FormEnds

theorem closes (h : FormEnds rest) : (nextKind rest).closes = true := by
  rcases h with hkind | hkind | hkind <;> rw [hkind] <;> rfl

theorem not_paramAhead (h : FormEnds rest) : ¬ ParamAhead rest := by
  rcases h with hkind | hkind | hkind <;>
    exact Reading.not_paramAhead (by simp [hkind]) (by simp [hkind])

theorem ne_pipe (h : FormEnds rest) : nextKind rest ≠ .pipe := by
  rcases h with hkind | hkind | hkind <;> simp [hkind]

/-- The end of an indented text. -/
theorem of_terminators {outdent : Token} {terminators : List Token}
    (h : ∀ token ∈ terminators, token.kind = .terminator) (houtdent : outdent.kind = .outdent) :
    FormEnds (terminators ++ outdent :: rest) := by
  cases terminators with
  | nil => exact .inr (.inl houtdent)
  | cons token => exact .inl (h token List.mem_cons_self)

end FormEnds

/-- A body of one expression, on the line of its form or indented. -/
inductive BodyText (node : Node) : List Token → Prop where
  | inline {text : List Token} : Covers (fun nested => nested.expression) node text →
      BodyText node text
  | indented {text block : List Token} : Covers (fun nested => nested.expression) node text →
      Indents text block → BodyText node block

theorem Production.Covers.readOff_formEnds {node : Node} {text : List Token}
    (h : Covers (fun nested => nested.expression) node text) :
    (Phrase.expression node).ReadOff text FormEnds := by
  obtain ⟨levels, hreads⟩ := h.readOff_expression
  exact ⟨levels, fun room rest hroom hcontent hends => hreads hroom hcontent (.inr hends.closes)⟩

theorem BodyText.readOff {node : Node} {text : List Token} (h : BodyText node text) :
    (Phrase.body [node]).ReadOff text FormEnds := by
  cases h with
  | inline hexpression =>
    obtain ⟨levels, hreads⟩ := hexpression.readOff_formEnds
    exact ⟨levels, fun room rest hroom hcontent hends =>
      .bodyExpression (hreads hroom hcontent hends)⟩
  | indented hexpression hblock =>
    obtain ⟨levels, hreads⟩ := hexpression.readOff_formEnds
    cases hblock with
    | @mk indent outdent terminators hindent hterminators houtdent =>
      refine ⟨levels + 1, fun room rest hroom hcontent _ => ?_⟩
      obtain ⟨room, rfl⟩ : ∃ fewer, room = fewer + 1 := ⟨room - 1, by omega⟩
      simp only [List.cons_append, List.append_assoc, List.nil_append] at hcontent ⊢
      have hline := hreads (by omega : levels ≤ room)
        (fun token hmem => hcontent token (List.mem_cons_of_mem _ hmem))
        (FormEnds.of_terminators hterminators houtdent)
      have hskip : afterTerminators (terminators ++ outdent :: rest) = outdent :: rest :=
        afterTerminators_append hterminators (by simp [houtdent])
      refine .bodyBlock (.block hindent
        (.consLine (hline.nextKind_ne rfl) (.expressionLine hline) ?_ ?_) houtdent)
      · rw [hskip]
        exact .inr houtdent
      · rw [hskip]
        exact .noLine houtdent

/-! ## The forms -/

namespace Rule

/-- What a rule reads. -/
def phrase : Rule → Node → Phrase
  | function => .expression
  | _ => .line false

/-- The kind of the token that a form with an inline and an indented text begins with. -/
def head? : Rule → Option Kind
  | letDeclaration => some .kwLet
  | dataDeclaration => some .kwData
  | macroDeclaration => some .kwMacro
  | function => some .kwFn
  | _ => none

/-- With enough levels left, a rule reads a text as a node, up to the end of the text, wherever a
form may end. -/
def Takes (rule : Rule) (node : Node) (text : List Token) : Prop :=
  ∃ levels, ∀ {limit room : Nat} {c c' : Cursor}, levels ≤ room → Passes text c c' →
    c'.kind = .terminator ∨ c'.kind = .outdent ∨ c'.kind = .eof →
    rule.parse (Grammar.within .standard limit room) c = .ok node c'

theorem acceptsOn_of_head {rule : Rule} {kind : Kind} (h : rule.head? = some kind)
    (limit room : Nat) : ∃ deeper,
      (rule.parse (Grammar.within .standard limit room)).AcceptsOn
        (fun c => True ∧ c.kind = kind) fun node => Reads (room + deeper) (rule.phrase node) := by
  have hexact := Nested.exact_within limit room
  cases rule with
  | letDeclaration =>
    cases h
    exact ⟨0, Grammar.accepts_letDeclaration hexact⟩
  | dataDeclaration =>
    cases h
    exact ⟨0, Grammar.accepts_dataDeclaration⟩
  | macroDeclaration =>
    cases h
    exact ⟨0, Grammar.accepts_macroDeclaration hexact⟩
  | function =>
    cases h
    exact ⟨1, Grammar.accepts_function hexact⟩
  | _ => cases h

theorem takes_of_readOff {rule : Rule} {node : Node} {head : Token} {text : List Token}
    (hhead : rule.head? = some head.kind)
    (h : (rule.phrase node).ReadOff (head :: text) FormEnds) : rule.Takes node (head :: text) := by
  obtain ⟨levels, hreads⟩ := h
  refine ⟨levels, fun {limit room c c'} hroom hpasses hends => ?_⟩
  obtain ⟨deeper, haccepts⟩ := acceptsOn_of_head hhead limit room
  have hkind : c.kind = head.kind := by
    rw [c.kind_eq_nextKind, hpasses.1]
    rfl
  have hcontent := hpasses.1 ▸ c.kind_ne_eof_of_mem_ahead
  rw [c'.kind_eq_nextKind] at hends
  exact haccepts.run_of_passes ⟨trivial, hkind⟩ hpasses (hreads (by omega) hcontent hends)

end Rule

namespace HeaderText

variable {rule : Rule} {form : Node → Node} {header : List Token}

theorem exists_head (h : HeaderText rule form header) :
    ∃ head text, header = head :: text ∧ rule.head? = some head.kind := by
  cases h with
  | letValue hhead | letFunction hhead | function hhead | macroBody hhead =>
    exact ⟨_, _, rfl, by rw [hhead]; rfl⟩

theorem readOff {node : Node} {text : List Token} (h : HeaderText rule form header)
    (hbody : BodyText node text) :
    (rule.phrase (form node)).ReadOff (header ++ text) FormEnds := by
  cases h with
  | @letValue head name assign type? typeText hhead hname htype hassign =>
    have htail (rest : List Token) :
        Reading.OptionalType type? (typeText ++ assign :: rest) (assign :: rest) :=
      Reading.optionalType_of_text htype (by simp [hassign])
    cases hbody with
    | inline hexpression =>
      obtain ⟨levels, hreads⟩ := hexpression.readOff_formEnds
      refine ⟨levels, fun room rest hroom hcontent hends => ?_⟩
      simp only [List.cons_append, List.append_assoc, List.nil_append] at hcontent ⊢
      obtain ⟨hident, hopen⟩ := (htail (text ++ rest)).not_ahead hassign
      refine .letValue hhead hname hident hopen (htail _) hassign ?_
      exact hreads hroom (fun token hmem => hcontent token (by simp_all)) hends
    | @indented text _ hexpression hblock =>
      obtain ⟨levels, hreads⟩ := hexpression.readOff_formEnds
      cases hblock with
      | @mk indent outdent terminators hindent hterminators houtdent =>
        refine ⟨levels, fun room rest hroom hcontent _ => ?_⟩
        simp only [List.cons_append, List.append_assoc, List.nil_append] at hcontent ⊢
        obtain ⟨hident, hopen⟩ :=
          (htail (indent :: (text ++ (terminators ++ outdent :: rest)))).not_ahead hassign
        have hbehind : ∀ token ∈ text ++ (terminators ++ outdent :: rest), token.kind ≠ .eof :=
          fun token hmem => hcontent token
            (.tail _ (.tail _ (List.mem_append_right _ (.tail _ (.tail _ hmem)))))
        have hvalue := hreads hroom hbehind (.of_terminators hterminators houtdent)
        exact .letIndented hhead hname hident hopen (htail _) hassign hindent hvalue
          (afterTerminators_append hterminators (by simp [houtdent])) houtdent
  | letFunction hhead hname hsignature =>
    obtain ⟨levels, hreads⟩ := hbody.readOff
    refine ⟨levels, fun room rest hroom hcontent hends => ?_⟩
    simp only [List.cons_append, List.append_assoc] at hcontent ⊢
    refine .letFunction hhead hname (Reading.signature_of_text hsignature) ?_
    exact hreads hroom (fun token hmem => hcontent token (by simp_all)) hends
  | function hhead hsignature =>
    obtain ⟨levels, hreads⟩ := hbody.readOff
    refine ⟨levels + 1, fun room rest hroom hcontent hends => ?_⟩
    obtain ⟨room, rfl⟩ : ∃ fewer, room = fewer + 1 := ⟨room - 1, by omega⟩
    simp only [List.cons_append, List.append_assoc] at hcontent ⊢
    refine .function hhead (Reading.signature_of_text hsignature) ?_
    exact hreads (by omega) (fun token hmem => hcontent token (by simp_all)) hends
  | macroBody hhead hname hassign =>
    obtain ⟨levels, hreads⟩ := hbody.readOff
    refine ⟨levels, fun room rest hroom hcontent hends => .macroBody hhead hname hassign ?_⟩
    exact hreads hroom (fun token hmem => hcontent token (by simp_all)) hends

theorem takes {node : Node} {text : List Token} (h : HeaderText rule form header)
    (hbody : BodyText node text) : rule.Takes (form node) (header ++ text) := by
  have hreads := h.readOff hbody
  obtain ⟨head, more, rfl, hhead⟩ := h.exists_head
  exact Rule.takes_of_readOff hhead hreads

end HeaderText

/-- The variants of a data type on one line. -/
theorem takes_variants {head name assign : Token} {params : List Param} {variants : List Variant}
    {written text : List Token} (hhead : head.kind = .kwData) (hname : name.kind = .identifier)
    (hparams : ParamsText params written) (hassign : assign.kind = .assignment)
    (hvariants : VariantsText false variants text) :
    Rule.dataDeclaration.Takes (.dataType name.value params variants)
      (head :: name :: (written ++ assign :: text)) := by
  refine Rule.takes_of_readOff (by rw [hhead]; rfl) ⟨0, fun room rest _ _ hends => ?_⟩
  simp only [List.cons_append, List.append_assoc]
  have hnext : ¬ ParamAhead (assign :: (text ++ rest)) :=
    Reading.not_paramAhead (by simp [hassign]) (by simp [hassign])
  refine .dataType hhead hname (Reading.params_of_text hparams hnext) hassign ?_
  refine Reading.variants_of_text hvariants hends.not_paramAhead ?_
  exact not_or.2 ⟨hends.ne_pipe, nofun⟩

theorem takes_indented_variants {head name assign : Token} {params : List Param}
    {variants : List Variant} {written text block : List Token} (hhead : head.kind = .kwData)
    (hname : name.kind = .identifier) (hparams : ParamsText params written)
    (hassign : assign.kind = .assignment) (hvariants : VariantsText true variants text)
    (hblock : Indents text block) :
    Rule.dataDeclaration.Takes (.dataType name.value params variants)
      (head :: name :: (written ++ assign :: block)) := by
  cases hblock with
  | @mk indent outdent terminators hindent hterminators houtdent =>
    refine Rule.takes_of_readOff (by rw [hhead]; rfl) ⟨0, fun room rest _ _ _ => ?_⟩
    simp only [List.cons_append, List.append_assoc, List.nil_append]
    have hnext : ¬ ParamAhead
        (assign :: indent :: (text ++ (terminators ++ outdent :: rest))) :=
      Reading.not_paramAhead (by simp [hassign]) (by simp [hassign])
    have hends : FormEnds (terminators ++ outdent :: rest) :=
      .of_terminators hterminators houtdent
    refine .dataIndented hhead hname (Reading.params_of_text hparams hnext) hassign hindent ?_
      (afterTerminators_append hterminators (by simp [houtdent])) houtdent
    refine Reading.variants_of_text hvariants hends.not_paramAhead (not_or.2 ⟨hends.ne_pipe, ?_⟩)
    rintro ⟨-, hterminator, hbar⟩
    cases terminators with
    | nil => exact absurd (houtdent.symm.trans hterminator) (by decide)
    | cons terminator terminators =>
      have hmore := (List.forall_mem_cons.1 hterminators).2
      exact (FormEnds.of_terminators hmore houtdent).ne_pipe hbar

/-- A form on one line and the same form indented are read as the same node, up to their ends. -/
theorem takes_of_formTexts {rule : Rule} {node : Node} {inline indented : List Token}
    (h : FormTexts rule node inline indented) :
    rule.Takes node inline ∧ rule.Takes node indented := by
  cases h with
  | body hheader hexpression hblock =>
    exact ⟨hheader.takes (.inline hexpression), hheader.takes (.indented hexpression hblock)⟩
  | variants hhead hname hparams hassign hinline hindented hblock =>
    exact ⟨takes_variants hhead hname hparams hassign hinline,
      takes_indented_variants hhead hname hparams hassign hindented hblock⟩

/-- A function with a parameter in parentheses. -/
theorem takes_of_formTexts_function :
    let token (kind : Kind) (text : String) : Token := ⟨kind, text, default⟩
    let type := [token .colon ":", token .identifier "T"]
    let param := token .openParen "(" :: token .identifier "x" :: (type ++ [token .closeParen ")"])
    let signature := param ++ [] ++ ([] ++ [token .assignment "="])
    let header := token .kwLet "let" :: token .identifier "f" :: signature
    let text := [token .identifier "x"]
    let lineEnd := token .terminator ""
    let block := token .indent "" :: (text ++ ([lineEnd] ++ [token .outdent ""]))
    let node : Node := .function (some "f") [⟨"x", some "T"⟩] none [.identifier "x"]
    Rule.letDeclaration.Takes node (header ++ text) ∧
      Rule.letDeclaration.Takes node (header ++ block) := by
  intro token type param signature header text lineEnd block node
  have htype : TypeText (some "T") type :=
    @TypeText.some (token .colon ":") (token .identifier "T") rfl rfl
  have hparam : ParamText ⟨"x", some "T"⟩ param :=
    @ParamText.enclosed (token .openParen "(") (token .identifier "x") (token .closeParen ")") _ _
      rfl rfl htype rfl
  have hsignature : SignatureText [⟨"x", some "T"⟩] none signature :=
    @SignatureText.mk _ _ (param ++ []) [] (token .assignment "=") (.cons hparam .nil) (by simp)
      .none rfl
  have hheader : HeaderText .letDeclaration
      (fun body => .function (some "f") [⟨"x", some "T"⟩] none [body]) header :=
    @HeaderText.letFunction (token .kwLet "let") (token .identifier "f") _ _ _ rfl rfl hsignature
  have htext : Covers (fun nested => nested.expression) (.identifier "x") text :=
    ⟨3, 3, Cursor.ofTokens text "", _, rfl, rfl, rfl, rfl, rfl, rfl⟩
  have hblock : Indents text block :=
    @Indents.mk text (token .indent "") (token .outdent "") [lineEnd] rfl
      (List.forall_mem_singleton.2 rfl) rfl
  exact takes_of_formTexts (.body hheader htext hblock)

end Offside
