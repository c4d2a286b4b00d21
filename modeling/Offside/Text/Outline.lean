import Offside.Text.Quoted

/-! # Outlines

Labelled data laid out as text, on one line or with one item per line.
-/

namespace Offside

/-- How the items of a group are enclosed: by two texts, and on one line by a blank inside them. -/
structure Brackets where
  opening : String
  closing : String
  padded : Bool

/-- Data as it is laid out: texts, groups of items, and items behind a label. -/
inductive Outline where
  | atom (text : String)
  | group (brackets : Brackets) (items : List Outline)
  | labelled (label : String) (item : Outline)

namespace Outline

/-- A named record of fields. -/
def record (name : String) (fields : List (String × Outline)) : Outline :=
  group ⟨name ++ " \x7b", "\x7d", true⟩
    (fields.map fun (field, item) => labelled (field ++ ": ") item)

/-- A name applied to one item. -/
def wrapped (name : String) (item : Outline) : Outline :=
  group ⟨name ++ "(", ")", false⟩ [item]

def list (items : List Outline) : Outline :=
  group ⟨"[", "]", false⟩ items

/-- Keys with their items. -/
def table (entries : List (String × Outline)) : Outline :=
  group ⟨"\x7b", "\x7d", false⟩
    (entries.map fun (key, item) => labelled (quoted key ++ ": ") item)

def text (value : String) : Outline :=
  atom (quoted value)

def optionalText : Option String → Outline
  | none => atom "None"
  | some value => wrapped "Some" (text value)

mutual

/-- An outline on one line, after what is written already. -/
def writeFlat (written : String) : Outline → String
  | atom text => written ++ text
  | labelled label item => writeFlat (written ++ label) item
  | group brackets items =>
    let pad := if brackets.padded && !items.isEmpty then " " else ""
    writeFlatItems (written ++ brackets.opening ++ pad) items ++ pad ++ brackets.closing

def writeFlatItems (written : String) : List Outline → String
  | [] => written
  | [item] => writeFlat written item
  | item :: rest => writeFlatItems (writeFlat written item ++ ", ") rest

end

/-- The start of a line at a depth. -/
def margin (depth : Nat) : String :=
  String.ofList (List.replicate (4 * depth) ' ')

mutual

/-- An outline with every item of a group on lines of its own, four columns further in. -/
def writeDeep (depth : Nat) (written : String) : Outline → String
  | atom text => written ++ text
  | labelled label item => writeDeep depth (written ++ label) item
  | group brackets items =>
    let opened := written ++ brackets.opening
    if items.isEmpty then opened ++ brackets.closing
    else writeDeepItems (depth + 1) (opened ++ "\n") items ++ margin depth ++ brackets.closing

def writeDeepItems (depth : Nat) (written : String) : List Outline → String
  | [] => written
  | item :: rest =>
    writeDeepItems depth (writeDeep depth (written ++ margin depth) item ++ ",\n") rest

end

/-- The outline on one line. -/
def flat (outline : Outline) : String :=
  writeFlat "" outline

/-- The outline over several lines. -/
def deep (outline : Outline) : String :=
  writeDeep 0 "" outline

end Outline

end Offside
