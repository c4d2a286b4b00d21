import Mathlib.Data.List.Forall2
import Offside.Proofs.Node.WellFormed
import Offside.Token.Basic

/-! # Printed trees

A tree is printed with each part in parentheses and each body on lines of its own. What is printed
are symbols, which tell of a token what the grammar looks at.
-/

namespace Offside

/-- What is printed for a token. -/
inductive Symbol where
  /-- A token of this kind, with any text. -/
  | mark (kind : Kind)
  | word (kind : Kind) (text : String)
  /-- A name or a keyword that may name a field. -/
  | field (text : String)
  | operator (operation : Operation) (text : String)
  /-- Any numeral of this value. -/
  | numeral (value : Binary64)

namespace Symbol

def Spells (token : Token) : Symbol → Prop
  | mark kind => token.kind = kind
  | word kind text => token.kind = kind ∧ token.value = text
  | field text => token.kind.namesField = true ∧ token.value = text
  | operator operation text =>
    (∃ own, Tables.standard.operator? token.kind = some (own, operation)) ∧ token.value = text
  | numeral value => token.kind = .number ∧ Binary64.read? token.value.toList = some value

/-- There is a token for the symbol, and none that ends the stream. A numeral may be without one, if
its value has no text. -/
structure Spellable (symbol : Symbol) : Prop where
  exists_token : ∃ token : Token, symbol.Spells token
  kind_ne_eof : ∀ token : Token, symbol.Spells token → token.kind ≠ .eof

@[simp] theorem spellable_mark {kind : Kind} (h : kind ≠ .eof) : (mark kind).Spellable :=
  ⟨⟨⟨kind, "", default⟩, rfl⟩, fun _ hkind heof => h (hkind.symm.trans heof)⟩

@[simp] theorem spellable_word {kind : Kind} (h : kind ≠ .eof) (text : String) :
    (word kind text).Spellable :=
  ⟨⟨⟨kind, text, default⟩, rfl, rfl⟩, fun _ hword heof => h (hword.1.symm.trans heof)⟩

@[simp] theorem spellable_field (text : String) : (field text).Spellable := by
  refine ⟨⟨⟨.identifier, text, default⟩, rfl, rfl⟩, fun token hfield heof => ?_⟩
  have hkind := hfield.1
  rw [heof] at hkind
  cases hkind

@[simp] theorem spellable_operator (operation : Operation) (text : String) :
    (operator operation text).Spellable := by
  constructor
  · cases operation with
    | arithmetic => exact ⟨⟨.plus, text, default⟩, ⟨_, rfl⟩, rfl⟩
    | comparison => exact ⟨⟨.compare, text, default⟩, ⟨_, rfl⟩, rfl⟩
  · rintro token ⟨⟨own, hkind⟩, -⟩ heof
    rw [heof] at hkind
    cases hkind

theorem spellable_numeral {value : Binary64} {text : String}
    (h : Binary64.read? text.toList = some value) : (numeral value).Spellable :=
  ⟨⟨⟨.number, text, default⟩, rfl, h⟩, fun _ hnumeral => by simp [hnumeral.1]⟩

end Symbol

/-- Every symbol has a token. -/
def Spellable (symbols : List Symbol) : Prop :=
  ∀ symbol ∈ symbols, symbol.Spellable

@[simp] theorem spellable_nil : Spellable [] :=
  List.forall_mem_nil _

@[simp] theorem spellable_cons_iff {symbol : Symbol} {symbols : List Symbol} :
    Spellable (symbol :: symbols) ↔ symbol.Spellable ∧ Spellable symbols :=
  List.forall_mem_cons

@[simp] theorem spellable_append_iff {symbols others : List Symbol} :
    Spellable (symbols ++ others) ↔ Spellable symbols ∧ Spellable others :=
  List.forall_mem_append

/-- Tokens stand for symbols one by one. -/
def Spelled (symbols : List Symbol) (text : List Token) : Prop :=
  List.Forall₂ (fun symbol token => symbol.Spells token) symbols text

section Spelled

variable {text : List Token}

@[simp] theorem spelled_nil_iff : Spelled [] text ↔ text = [] :=
  List.forall₂_nil_left_iff

@[simp] theorem spelled_cons_iff {symbol : Symbol} {symbols : List Symbol} :
    Spelled (symbol :: symbols) text ↔
      ∃ token rest, text = token :: rest ∧ symbol.Spells token ∧ Spelled symbols rest := by
  constructor
  · intro h
    cases h with
    | cons hsymbol h => exact ⟨_, _, rfl, hsymbol, h⟩
  · rintro ⟨token, rest, rfl, hsymbol, h⟩
    exact .cons hsymbol h

@[simp] theorem spelled_append_iff {symbols others : List Symbol} :
    Spelled (symbols ++ others) text ↔
      ∃ first rest, text = first ++ rest ∧ Spelled symbols first ∧ Spelled others rest := by
  constructor
  · intro h
    induction symbols generalizing text with
    | nil => exact ⟨[], text, rfl, .nil, h⟩
    | cons symbol symbols ih =>
      cases h with
      | cons hsymbol h =>
        obtain ⟨first, rest, rfl, hfirst, hrest⟩ := ih h
        exact ⟨_ :: first, rest, rfl, .cons hsymbol hfirst, hrest⟩
  · rintro ⟨first, rest, rfl, hfirst, hrest⟩
    exact List.rel_append hfirst hrest

theorem exists_spelled {symbols : List Symbol} (h : Spellable symbols) :
    ∃ text, Spelled symbols text := by
  induction symbols with
  | nil => exact ⟨[], .nil⟩
  | cons symbol symbols ih =>
    obtain ⟨⟨⟨token, htoken⟩, -⟩, hrest⟩ := List.forall_mem_cons.1 h
    obtain ⟨text, htext⟩ := ih hrest
    exact ⟨token :: text, .cons htoken htext⟩

theorem kind_ne_eof_of_spelled {symbols : List Symbol} (h : Spellable symbols)
    (htext : Spelled symbols text) : ∀ token ∈ text, token.kind ≠ .eof := by
  induction htext with
  | nil => exact List.forall_mem_nil _
  | cons hsymbol _ ih =>
    obtain ⟨hfirst, hrest⟩ := List.forall_mem_cons.1 h
    exact List.forall_mem_cons.2 ⟨hfirst.kind_ne_eof _ hsymbol, ih hrest⟩

end Spelled

/-- In parentheses. -/
def parenthesized (symbols : List Symbol) : List Symbol :=
  .mark .openParen :: symbols ++ [.mark .closeParen]

def separate (separator : Kind) : List (List Symbol) → List Symbol
  | [] => []
  | [part] => part
  | part :: rest => part ++ .mark separator :: separate separator rest

theorem separate_map_cons {α : Type} (separator : Kind) (f : α → List Symbol) (first next : α)
    (rest : List α) :
    separate separator ((first :: next :: rest).map f) =
      f first ++ .mark separator :: separate separator ((next :: rest).map f) := rfl

/-- On lines of their own, one step further in. -/
def indented (lines : List (List Symbol)) : List Symbol :=
  .mark .indent :: separate .terminator lines ++ [.mark .outdent]

def typeSymbols : Option String → List Symbol
  | none => []
  | some name => [.mark .colon, .word .identifier name]

def Param.print (param : Param) : List Symbol :=
  match param.type? with
  | none => [.word .identifier param.name]
  | some _ => parenthesized (.word .identifier param.name :: typeSymbols param.type?)

def Variant.print (variant : Variant) : List Symbol :=
  .word .identifier variant.name :: variant.fields.flatMap Param.print

def CasePattern.print (pattern : CasePattern) : List Symbol :=
  match pattern.bound with
  | [] => [.word .identifier pattern.tag]
  | bound => parenthesized (.word .identifier pattern.tag :: bound.map (.word .identifier))

/-- The parameters of a function, which are an empty pair if there are none, and what stands between
them and the body. -/
def signature (params : List Param) (returnType? : Option String) : List Symbol :=
  (match params with
    | [] => parenthesized []
    | params => params.flatMap Param.print) ++ typeSymbols returnType? ++ [.mark .assignment]

/-- The arguments of a call. -/
def arguments : List (List Symbol) → List Symbol
  | [] => parenthesized []
  | args => args.flatMap parenthesized

namespace Node

/-- Whether the node is a line by itself and no expression. -/
def isDeclaration : Node → Bool
  | comment .. | letValue .. | dataType .. | macroBody .. | bind .. | result ..
  | function (some _) .. => true
  | _ => false

mutual

def print : Node → List Symbol
  | comment text => [.word .comment text]
  | letValue name type? value =>
    .mark .kwLet :: .word .identifier name :: typeSymbols type? ++
      .mark .assignment :: parenthesized (print value)
  | dataType name params variants =>
    .mark .kwData :: .word .identifier name :: params.flatMap Param.print ++
      .mark .assignment :: separate .pipe (variants.map Variant.print)
  | macroBody name body =>
    .mark .kwMacro :: .word .identifier name :: .mark .assignment :: indented (printLines body)
  | bind name value =>
    .mark .kwBind :: .word .identifier name :: .mark .assignment :: parenthesized (print value)
  | result value => .mark .kwReturn :: parenthesized (print value)
  | function none params returnType? body =>
    .mark .kwFn :: signature params returnType? ++ indented (printLines body)
  | function (some name) params returnType? body =>
    .mark .kwLet :: .word .identifier name :: signature params returnType? ++
      indented (printLines body)
  | choice scrutinee cases =>
    .mark .kwMatch :: parenthesized (print scrutinee) ++ indented (printCases cases)
  | conditional condition thenBody elseBody =>
    .mark .kwIf :: parenthesized (print condition) ++
      .mark .kwThen :: indented (printLines thenBody) ++
        .mark .terminator :: .mark .kwElse :: indented (printLines elseBody)
  | sequence context body =>
    .mark .kwDo :: parenthesized (print context) ++ indented (printLines body) ++
      [.mark .terminator]
  | call callee args => parenthesized (print callee) ++ arguments (printAll args)
  | identifier name => [.word .identifier name]
  | access target field => parenthesized (print target) ++ [.mark .dot, .field field]
  | arithmetic operator left right =>
    parenthesized (print left) ++ .operator .arithmetic operator :: parenthesized (print right)
  | comparison operator left right =>
    parenthesized (print left) ++ .operator .comparison operator :: parenthesized (print right)
  | splice inner => .mark .ampersand :: parenthesized (print inner)
  | quoted inner => .mark .openQuote :: parenthesized (print inner) ++ [.mark .closeQuote]
  | number value => [.numeral value]
  | string value => [.word .string value]
  | boolean value => [.word .boolean (if value then "true" else "false")]
  | array elements =>
    .mark .openBracket :: separate .comma ((printAll elements).map parenthesized) ++
      [.mark .closeBracket]
  | object pairs =>
    .mark .openCurly :: separate .comma (printPairs pairs) ++ [.mark .closeCurly]

def printAll : List Node → List (List Symbol)
  | [] => []
  | node :: rest => print node :: printAll rest

/-- Expressions that are lines stand in parentheses. -/
def printLines : List Node → List (List Symbol)
  | [] => []
  | node :: rest =>
    (if node.isDeclaration then print node else parenthesized (print node)) :: printLines rest

def printCases : List (CasePattern × Node) → List (List Symbol)
  | [] => []
  | (pattern, body) :: rest =>
    (.mark .kwCase :: pattern.print ++ .mark .assignment :: parenthesized (print body)) ::
      printCases rest

def printPairs : List (String × Node) → List (List Symbol)
  | [] => []
  | (key, value) :: rest =>
    (.field key :: .mark .colon :: parenthesized (print value)) :: printPairs rest

end

def printLine (node : Node) : List Symbol :=
  if node.isDeclaration then node.print else parenthesized node.print

def printCase (entry : CasePattern × Node) : List Symbol :=
  .mark .kwCase :: entry.1.print ++ .mark .assignment :: parenthesized entry.2.print

def printPair (entry : String × Node) : List Symbol :=
  .field entry.1 :: .mark .colon :: parenthesized entry.2.print

theorem printAll_eq_map (nodes : List Node) : printAll nodes = nodes.map print := by
  induction nodes with
  | nil => rfl
  | cons node nodes ih => rw [printAll, ih, List.map_cons]

theorem printLines_eq_map (nodes : List Node) : printLines nodes = nodes.map printLine := by
  induction nodes with
  | nil => rfl
  | cons node nodes ih => rw [printLines, ih, List.map_cons, printLine]

theorem printCases_eq_map (cases : List (CasePattern × Node)) :
    printCases cases = cases.map printCase := by
  induction cases with
  | nil => rfl
  | cons entry cases ih => rw [printCases, ih, List.map_cons, printCase]

theorem printPairs_eq_map (pairs : List (String × Node)) :
    printPairs pairs = pairs.map printPair := by
  induction pairs with
  | nil => rfl
  | cons entry pairs ih => rw [printPairs, ih, List.map_cons, printPair]

end Node

section Spellable

@[simp] theorem spellable_parenthesized_iff {symbols : List Symbol} :
    Spellable (parenthesized symbols) ↔ Spellable symbols := by
  simp [parenthesized]

theorem spellable_separate {separator : Kind} (hseparator : separator ≠ .eof)
    {parts : List (List Symbol)} (h : ∀ part ∈ parts, Spellable part) :
    Spellable (separate separator parts) := by
  fun_induction separate separator parts with
  | case1 => exact spellable_nil
  | case2 part => exact h part (List.mem_singleton_self part)
  | case3 part rest _ ih =>
    obtain ⟨hpart, hrest⟩ := List.forall_mem_cons.1 h
    simpa [hpart, hseparator] using ih hrest

theorem spellable_indented {lines : List (List Symbol)} (h : ∀ line ∈ lines, Spellable line) :
    Spellable (indented lines) := by
  simpa [indented] using spellable_separate (by decide) h

theorem spellable_flatMap {α : Type} {f : α → List Symbol} {items : List α}
    (h : ∀ item ∈ items, Spellable (f item)) : Spellable (items.flatMap f) := by
  intro symbol hmem
  obtain ⟨item, hitem, hsymbol⟩ := List.mem_flatMap.1 hmem
  exact h item hitem symbol hsymbol

@[simp] theorem spellable_typeSymbols (type? : Option String) : Spellable (typeSymbols type?) := by
  cases type? <;> simp [typeSymbols]

@[simp] theorem spellable_params (params : List Param) :
    Spellable (params.flatMap Param.print) := by
  refine spellable_flatMap fun param _ => ?_
  unfold Param.print
  split <;> simp

@[simp] theorem spellable_pattern (pattern : CasePattern) : Spellable pattern.print := by
  unfold CasePattern.print
  split
  · simp
  · have hbound : Spellable (pattern.bound.map (.word .identifier)) := by simp [Spellable]
    simpa using hbound

@[simp] theorem spellable_signature (params : List Param) (returnType? : Option String) :
    Spellable (signature params returnType?) := by
  unfold signature
  split <;> simp

theorem spellable_arguments {args : List (List Symbol)} (h : ∀ arg ∈ args, Spellable arg) :
    Spellable (arguments args) := by
  unfold arguments
  split
  · simp
  · exact spellable_flatMap fun arg hmem => spellable_parenthesized_iff.2 (h arg hmem)

variable {known : Operation → String → Prop}

theorem spellable_printLines {nodes : List Node} (h : ∀ node ∈ nodes, Spellable node.print) :
    Spellable (indented (Node.printLines nodes)) := by
  rw [Node.printLines_eq_map]
  refine spellable_indented (List.forall_mem_map.2 fun node hmem => ?_)
  unfold Node.printLine
  split <;> simpa using h node hmem

/-- A well-formed tree can be spelled, since its numbers have a text. -/
theorem Node.WellFormed.spellable {place : Place} {node : Node} (h : node.WellFormed known place) :
    Spellable node.print := by
  induction h with
  | comment | identifier | string | boolean => simp [Node.print]
  | letValue _ ih | bind _ ih | result _ ih | access _ ih | splice _ ih | quoted _ ih =>
    simpa [Node.print] using ih
  | dataType =>
    have hvariant (variant : Variant) : Spellable variant.print := by simp [Variant.print]
    simpa [Node.print] using
      spellable_separate (by decide) (List.forall_mem_map.2 fun variant _ => hvariant variant)
  | macroBody _ ih | namedFunction _ ih | function _ ih =>
    simpa [Node.print] using spellable_printLines ih
  | expressionLine _ ih => exact ih
  | choice _ _ _ ih ihCases =>
    have hcases : ∀ entry ∈ _, Spellable (Node.printCase entry) := fun entry hmem => by
      simpa [Node.printCase] using ihCases entry hmem
    simpa [Node.print, ih, Node.printCases_eq_map] using
      spellable_indented (List.forall_mem_map.2 hcases)
  | conditional _ _ _ ih ihThen ihElse =>
    simp [Node.print, ih, spellable_printLines ihThen, spellable_printLines ihElse]
  | sequence _ _ _ ih ihBody => simp [Node.print, ih, spellable_printLines ihBody]
  | call _ _ ih ihArgs =>
    simpa [Node.print, ih, Node.printAll_eq_map] using
      spellable_arguments (List.forall_mem_map.2 ihArgs)
  | arithmetic _ _ _ ih ihRight | comparison _ _ _ ih ihRight => simp [Node.print, ih, ihRight]
  | number h => simp [Node.print, Symbol.spellable_numeral h]
  | array _ ih =>
    have helements : ∀ node ∈ _, Spellable (parenthesized (Node.print node)) := fun node hmem =>
      spellable_parenthesized_iff.2 (ih node hmem)
    rw [← List.forall_mem_map] at helements
    simpa [Node.print, Node.printAll_eq_map, Function.comp_def] using
      spellable_separate (by decide) helements
  | object _ _ ih =>
    have hpairs : ∀ entry ∈ _, Spellable (Node.printPair entry) := fun entry hmem => by
      simpa [Node.printPair] using ih entry hmem
    simpa [Node.print, Node.printPairs_eq_map] using
      spellable_separate (by decide) (List.forall_mem_map.2 hpairs)

end Spellable

/-- The lines of a program, each but the last with a terminator behind it. -/
def Program.print (program : Program) : List Symbol :=
  separate .terminator (program.body.map Node.printLine)

end Offside
