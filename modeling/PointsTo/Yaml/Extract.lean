import PointsTo.Yaml.Document

/-!
# Values of YAML documents

A schema tells which parts of a document matter. The value of a document under a schema holds these
parts, with the nodes that aliases mean in their places; what does not matter is not looked at, so an
alias there may stand for a node around it. There is a limit on how often aliases are followed.
-/

namespace PointsTo.Yaml

/-- Which parts of a node matter: itself as a scalar, its items, or its values under some keys. -/
inductive Schema where
  | scalar
  | list (item : Schema)
  | record (fields : List (String × Schema))

/-- A computation that counts how often it follows an alias. -/
abbrev Extraction := StateT Nat (Except Error)

namespace Document

/-- How many aliases may be followed in a document. -/
def limit (d : Document) : Nat := 100 * d.root.size

/-- The node that an alias means, and every other node itself. -/
def follow (d : Document) : Node → Extraction Node
  | .alias number => fun followed ↦
    if followed < d.limit then .ok ((d.anchors.node? number).getD .omitted, followed + 1)
    else .error .tooManyAliases
  | n => pure n

end Document

/-- A scalar as a value. Only plain scalars are typed by their spelling; a literal block that is tagged
as a whole number counts as one. -/
def scalarValue (tag : Option TypeTag) (style : ScalarStyle) (text : String) : Value :=
  let isPlain := style = .plain ∨ style = .literal ∧ tag = some .int ∧ text ≠ ""
  let v := if isPlain then Value.plain text else .text text
  match tag with
  | none => v
  | some tag => .tagged tag v

/-- The text of a key, if it is a scalar. -/
def keyText? : Node → Option String
  | .scalar _ _ text => some text
  | _ => none

mutual

/-- The value of a node. A collection that is none of what matters stands without its content, and so
does a mapping with a key that is not a scalar. -/
def extract (d : Document) : Schema → Node → Extraction Value
  | schema, n => do
    match schema, ← d.follow n with
    | _, .scalar tag style text => pure (scalarValue tag style text)
    | .list item, .sequence items => return .list (← items.mapM (extract d item))
    | .record fields, .mapping pairs =>
      let entries ← pairs.mapM fun (k, v) ↦ do
        match keyText? (← d.follow k) with
        | some key => return some (key, ← extractField d fields key v)
        | none => pure none
      match entries.mapM id with
      | some entries => pure (.record entries)
      | none => pure .unkeyed
    | _, _ => pure .unkeyed

/-- The value under a key, if it matters. -/
def extractField (d : Document) : List (String × Schema) → String → Node → Extraction Value
  | [], _, _ => pure .null
  | (name, schema) :: fields, key, n =>
    if name = key then extract d schema n else extractField d fields key n

end

/-- The value of a text under a schema. -/
def readValue (schema : Schema) (text : String) : Except Error Value := do
  let d ← read text
  let (v, _) ← (extract d schema d.root).run 0
  pure v

end PointsTo.Yaml
