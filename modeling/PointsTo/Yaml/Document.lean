import PointsTo.Yaml.Token

/-!
# YAML documents

A document is a tree of scalars, sequences and mappings, read from its tokens. A node that is left out
is an empty plain scalar. A node may be given a name by an anchor, and an alias stands for the node of
that name; it may even stand inside that node, so aliases are kept in the tree. A text holds one
document at most; a text without any stands for a node that is left out.
-/

namespace PointsTo.Yaml

inductive Node where
  | scalar (tag : Option TypeTag) (style : ScalarStyle) (text : String)
  | sequence (items : List Node)
  | mapping (pairs : List (Node × Node))
  /-- The anchored node with that number. -/
  | alias (number : Nat)
  deriving Inhabited

namespace Node

/-- A node that is left out. -/
def omitted : Node := .scalar none .plain ""

mutual

/-- How many marks a node consists of: one for a scalar or an alias, two for the ends of a collection. -/
def size : Node → Nat
  | .scalar _ _ _ | .alias _ => 1
  | .sequence items => 2 + sizes items
  | .mapping pairs => 2 + pairSizes pairs

def sizes : List Node → Nat
  | [] => 0
  | n :: ns => n.size + sizes ns

def pairSizes : List (Node × Node) → Nat
  | [] => 0
  | (k, v) :: pairs => k.size + v.size + pairSizes pairs

end

end Node

/-! ## Anchors -/

/-- The names given to nodes. A name gets as its number the count of different names before it. A number
may so be given twice, and then means the node that began last. -/
structure Anchors where
  names : List (String × Nat) := []
  /-- Which node a number means, the latest first; nodes are told apart by the order they began in. -/
  holders : List (Nat × Nat) := []
  /-- The nodes that have ended. -/
  nodes : List (Nat × Node) := []

namespace Anchors

/-- Gives a name to the node that begins here, which gets a number in the order of beginning. -/
def enter (a : Anchors) (name : String) : Anchors × Nat :=
  let number := a.names.length
  let order := a.holders.length
  let others := a.names.filter (·.1 ≠ name)
  ({ a with names := (name, number) :: others, holders := (number, order) :: a.holders }, order)

def leave (a : Anchors) (order : Nat) (n : Node) : Anchors := { a with nodes := (order, n) :: a.nodes }

/-- The node that a number means. -/
def node? (a : Anchors) (number : Nat) : Option Node :=
  (a.holders.lookup number).bind fun order ↦ a.nodes.lookup order

end Anchors

/-- A document, whose aliases mean the nodes of `anchors`. -/
structure Document where
  root : Node
  anchors : Anchors := {}

/-! ## Reading nodes -/

/-- The tokens that are left, what handles of tags stand for, and the names given so far. -/
structure Reader where
  tokens : List Token
  handles : List (String × List UInt8) := []
  anchors : Anchors := {}

/-- What may stand in front of a node. -/
structure Properties where
  anchor : Option String := none
  tag : Option TagText := none

namespace Reader

def drop (r : Reader) : Reader := { r with tokens := r.tokens.tail }

/-- The anchor and the tag in front of a node, in either order. -/
def properties (r : Reader) : Properties × Reader :=
  match r.tokens with
  | .anchor a :: .tag t :: rest | .tag t :: .anchor a :: rest =>
    ({ anchor := some a, tag := some t }, { r with tokens := rest })
  | .anchor a :: rest => ({ anchor := some a }, { r with tokens := rest })
  | .tag t :: rest => ({ tag := some t }, { r with tokens := rest })
  | _ => ({}, r)

/-- A tag in full. -/
def fullTag (r : Reader) (t : TagText) : Except Error (List UInt8) :=
  match t.handle with
  | none => .ok t.suffix
  | some handle =>
    match r.handles.lookup handle with
    | some meaning => .ok (meaning ++ t.suffix)
    | none => .error (.unknownHandle handle)

/-- A scalar under a tag. An exclamation mark alone is no tag for a scalar that is written. -/
def scalar (tag : Option (List UInt8)) (style : ScalarStyle) (text : String) : Node :=
  let tag := tag.filter (· ≠ "!".toUTF8.toList)
  .scalar (tag.map typeTag) style text

mutual

/-- Reads a node. Block collections are read if `block` holds, and entries at the indentation of the
surrounding mapping if `indentless` holds. -/
def node (block indentless : Bool) : Nat → Reader → Except Error (Node × Reader)
  | 0, _ => .error .unexpectedToken
  | fuel + 1, r => do
    match r.tokens with
    | .alias a :: _ =>
      match r.anchors.names.lookup a with
      | some number => pure (.alias number, r.drop)
      | none => .error (.unknownAnchor a)
    | _ =>
      let (properties, r) := r.properties
      let tag ← properties.tag.mapM r.fullTag
      match properties.anchor with
      | none => content block indentless tag properties.tag.isSome fuel r
      | some name =>
        let (anchors, order) := r.anchors.enter name
        let (n, r) ← content block indentless tag true fuel { r with anchors }
        pure (n, { r with anchors := r.anchors.leave order n })

/-- Reads a node behind its properties; if it has any, it may be left out. -/
def content (block indentless : Bool) (tag : Option (List UInt8)) (hasProperties : Bool) :
    Nat → Reader → Except Error (Node × Reader)
  | 0, _ => .error .unexpectedToken
  | fuel + 1, r =>
    match r.tokens, block, indentless with
    | .blockEntry :: _, _, true => indentlessSequence fuel [] r
    | .scalar style text :: _, _, _ => .ok (scalar tag style text, r.drop)
    | .flowSequenceStart :: _, _, _ => flowSequence fuel true [] r.drop
    | .flowMappingStart :: _, _, _ => flowMapping fuel true [] r.drop
    | .blockSequenceStart :: _, true, _ => blockSequence fuel [] r.drop
    | .blockMappingStart :: _, true, _ => blockMapping fuel [] r.drop
    | _, _, _ =>
      if hasProperties then .ok (.scalar (tag.map typeTag) .plain "", r) else .error .unexpectedToken

/-- Reads the entries of a block sequence; those read so far stand in `items`, reversed. -/
def blockSequence : Nat → List Node → Reader → Except Error (Node × Reader)
  | 0, _, _ => .error .unexpectedToken
  | fuel + 1, items, r => do
    match r.tokens with
    | .blockEntry :: .blockEntry :: _ | .blockEntry :: .blockEnd :: _ =>
      blockSequence fuel (.omitted :: items) r.drop
    | .blockEntry :: _ =>
      let (n, r) ← node true false fuel r.drop
      blockSequence fuel (n :: items) r
    | .blockEnd :: _ => pure (.sequence items.reverse, r.drop)
    | _ => .error .unexpectedToken

def indentlessSequence : Nat → List Node → Reader → Except Error (Node × Reader)
  | 0, _, _ => .error .unexpectedToken
  | fuel + 1, items, r => do
    match r.tokens with
    | .blockEntry :: .blockEntry :: _ | .blockEntry :: .key :: _ | .blockEntry :: .value :: _
    | .blockEntry :: .blockEnd :: _ => indentlessSequence fuel (.omitted :: items) r.drop
    | .blockEntry :: _ =>
      let (n, r) ← node true false fuel r.drop
      indentlessSequence fuel (n :: items) r
    | _ => pure (.sequence items.reverse, r)

/-- Reads the pairs of a block mapping. -/
def blockMapping : Nat → List (Node × Node) → Reader → Except Error (Node × Reader)
  | 0, _, _ => .error .unexpectedToken
  | fuel + 1, pairs, r => do
    match r.tokens with
    | .blockEnd :: _ => pure (.mapping pairs.reverse, r.drop)
    | .key :: _ =>
      let (k, r) ← blockPart fuel r.drop
      match r.tokens with
      | .value :: _ =>
        let (v, r) ← blockPart fuel r.drop
        blockMapping fuel ((k, v) :: pairs) r
      | _ => blockMapping fuel ((k, .omitted) :: pairs) r
    | _ => .error .unexpectedToken

/-- Reads a key or a value of a block mapping, which may be left out. -/
def blockPart : Nat → Reader → Except Error (Node × Reader)
  | 0, _ => .error .unexpectedToken
  | fuel + 1, r =>
    match r.tokens with
    | .key :: _ | .value :: _ | .blockEnd :: _ => .ok (.omitted, r)
    | _ => node true true fuel r

/-- Reads the entries of a flow sequence. An entry with a colon is a mapping of one pair. -/
def flowSequence : Nat → Bool → List Node → Reader → Except Error (Node × Reader)
  | 0, _, _, _ => .error .unexpectedToken
  | fuel + 1, first, items, r => do
    match r.tokens with
    | .flowSequenceEnd :: _ => pure (.sequence items.reverse, r.drop)
    | _ =>
      let r ← if first then pure r
        else match r.tokens with
          | .flowEntry :: _ => pure r.drop
          | _ => .error .unexpectedToken
      match r.tokens with
      | .flowSequenceEnd :: _ => pure (.sequence items.reverse, r.drop)
      | .key :: _ =>
        let (k, r) ← pairKey fuel r.drop
        let (v, r) ← flowValue fuel .flowSequenceEnd r
        flowSequence fuel false (.mapping [(k, v)] :: items) r
      | _ =>
        let (n, r) ← node false false fuel r
        flowSequence fuel false (n :: items) r

/-- Reads the key of a pair in a flow sequence. If it is left out, the token that shows so goes with
it. -/
def pairKey : Nat → Reader → Except Error (Node × Reader)
  | 0, _ => .error .unexpectedToken
  | fuel + 1, r =>
    match r.tokens with
    | .value :: _ | .flowEntry :: _ | .flowSequenceEnd :: _ => .ok (.omitted, r.drop)
    | _ => node false false fuel r

/-- Reads the pairs of a flow mapping. An entry without a colon is a key without a value. -/
def flowMapping : Nat → Bool → List (Node × Node) → Reader → Except Error (Node × Reader)
  | 0, _, _, _ => .error .unexpectedToken
  | fuel + 1, first, pairs, r => do
    match r.tokens with
    | .flowMappingEnd :: _ => pure (.mapping pairs.reverse, r.drop)
    | _ =>
      let r ← if first then pure r
        else match r.tokens with
          | .flowEntry :: _ => pure r.drop
          | _ => .error .unexpectedToken
      match r.tokens with
      | .flowMappingEnd :: _ => pure (.mapping pairs.reverse, r.drop)
      | .key :: _ =>
        let (k, r) ← flowPart fuel .flowMappingEnd true r.drop
        let (v, r) ← flowValue fuel .flowMappingEnd r
        flowMapping fuel false ((k, v) :: pairs) r
      | _ =>
        let (k, r) ← node false false fuel r
        flowMapping fuel false ((k, .omitted) :: pairs) r

/-- Reads a key or a value in a flow collection that ends with `close`. It may be left out before the
end or a comma, and a key also before a colon. -/
def flowPart : Nat → Token → Bool → Reader → Except Error (Node × Reader)
  | 0, _, _, _ => .error .unexpectedToken
  | fuel + 1, close, isKey, r =>
    match r.tokens, close, isKey with
    | .value :: _, _, true | .flowEntry :: _, _, _ | .flowSequenceEnd :: _, .flowSequenceEnd, _
    | .flowMappingEnd :: _, .flowMappingEnd, _ => .ok (.omitted, r)
    | _, _, _ => node false false fuel r

/-- Reads the value behind a colon, if there is one. -/
def flowValue : Nat → Token → Reader → Except Error (Node × Reader)
  | 0, _, _ => .error .unexpectedToken
  | fuel + 1, close, r =>
    match r.tokens with
    | .value :: _ => flowPart fuel close false r.drop
    | _ => .ok (.omitted, r)

end

/-- Reads a node with enough fuel: it takes at most five steps to pass a token. -/
def root (r : Reader) : Except Error (Node × Reader) :=
  node true false (5 * r.tokens.length + 5) r

end Reader

/-! ## Reading documents -/

/-- What the handles of tags stand for when no directive says otherwise. -/
def defaultHandles : List (String × List UInt8) :=
  [("!", "!".toUTF8.toList), ("!!", "tag:yaml.org,2002:".toUTF8.toList)]

/-- The directives in front of a document. Each handle is explained once, and the version is told once
and is 1.1 or 1.2. -/
def directives : List Token → Bool → List (String × List UInt8) →
    Except Error (List (String × List UInt8) × List Token)
  | .directive (.version major minor) :: rest, versioned, handles =>
    if versioned ∨ major ≠ 1 ∨ minor ≠ 1 ∧ minor ≠ 2 then .error .badDirective
    else directives rest true handles
  | .directive (.handle name meaning) :: rest, versioned, handles =>
    if (handles.lookup name).isSome then .error .badDirective
    else directives rest versioned ((name, meaning) :: handles)
  | rest, _, handles => .ok (handles ++ defaultHandles, rest)

/-- Nothing may follow a document but the line that ends it. -/
def atEnd (tokens : List Token) : Except Error Unit :=
  let rest := tokens.dropWhile fun
    | .documentEnd => true
    | _ => false
  if rest.isEmpty then .ok () else .error .severalDocuments

/-- The only document in the tokens of a reader. -/
def onlyDocument (r : Reader) : Except Error Document := do
  let (root, r) ← r.root
  atEnd r.tokens
  pure { root, anchors := r.anchors }

/-- The document of a list of tokens. -/
def document (tokens : List Token) : Except Error Document := do
  match tokens with
  | [] => pure { root := .omitted }
  | .directive _ :: _ | .documentStart :: _ =>
    let (handles, rest) ← directives tokens false []
    match rest with
    | .documentStart :: rest =>
      match rest with
      | [] | .directive _ :: _ | .documentStart :: _ | .documentEnd :: _ =>
        atEnd rest
        pure { root := .omitted }
      | _ => onlyDocument { tokens := rest, handles }
    | _ => .error .badDirective
  | _ => onlyDocument { tokens, handles := defaultHandles }

/-- Reads a text. -/
def read (text : String) : Except Error Document := do
  let tokens ← tokens text
  document tokens

end PointsTo.Yaml
