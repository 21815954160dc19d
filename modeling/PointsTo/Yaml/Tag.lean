import PointsTo.Value.Basic
import PointsTo.Yaml.Text

/-!
# YAML tags and directives

A tag says of which type a node is. It is written in full between `!<` and `>`, or as a handle and a
suffix, where directives in front of the document say what the handles stand for. Percent signs escape
single bytes, so a tag is a sequence of bytes; a zero byte ends it.
-/

namespace PointsTo.Yaml

def isNameChar (c : Char) : Bool := c.isAlphanum || c = '_' || c = '-'

/-! ## Identifiers -/

/-- Characters of a resource identifier; a full one may also hold the indicators of sequences. -/
def isUriChar (full : Bool) (c : Char) : Bool :=
  isNameChar c || c ∈ ";/?:@&=+$.!~*'()".toList || full && c ∈ ",[]".toList

/-- How many bytes follow the first one in the encoding of a character. -/
def continuation (first : Nat) : Option Nat :=
  if first < 0x80 then some 0
  else if first < 0xc0 then none
  else if first < 0xe0 then some 1
  else if first < 0xf0 then some 2
  else if first < 0xf8 then some 3
  else none

/-- How many bytes are due behind an escaped byte before which `due` were. -/
def dueAfter (due byte : Nat) : Option Nat :=
  if due = 0 then continuation byte else if byte / 64 = 2 then some (due - 1) else none

/-- The bytes of an identifier and what follows it. The escapes of a character stand together. -/
def uriBytes (full : Bool) : List Char → Nat → Except Error (List UInt8 × List Char)
  | '%' :: a :: b :: cs, due =>
    match Scalar.number 16 [a, b] with
    | none => .error .badUri
    | some byte =>
      match dueAfter due byte with
      | none => .error .badUri
      | some due => do
        let (bytes, rest) ← uriBytes full cs due
        pure (.ofNat byte :: bytes, rest)
  | _, _ + 1 => .error .badUri
  | [], 0 => .ok ([], [])
  | c :: cs, 0 =>
    if c = '%' then .error .badUri
    else if isUriChar full c then do
      let (bytes, rest) ← uriBytes full cs 0
      pure (String.utf8EncodeChar c ++ bytes, rest)
    else .ok ([], c :: cs)

/-- An identifier that is not empty. -/
def uri (full : Bool) (cs : List Char) : Except Error (List UInt8 × List Char) := do
  let (bytes, rest) ← uriBytes full cs 0
  if bytes.isEmpty then .error .badUri else pure (bytes, rest)

/-! ## Tags -/

/-- A tag as it is written; one without a handle is in full. -/
structure TagText where
  handle : Option String
  suffix : List UInt8

/-- The tag at the beginning of a text, and what follows it. An exclamation mark alone is in full. -/
def tagText : List Char → Except Error (TagText × List Char)
  | '!' :: '<' :: cs => do
    let (bytes, rest) ← uri true cs
    match rest with
    | '>' :: rest => pure (⟨none, bytes.takeWhile (· ≠ 0)⟩, rest)
    | _ => .error .badTag
  | '!' :: cs => do
    let name := cs.takeWhile isNameChar
    match cs.drop name.length with
    | '!' :: cs =>
      let (bytes, rest) ← uri false cs
      pure (⟨some (String.ofList ('!' :: name ++ ['!'])), bytes.takeWhile (· ≠ 0)⟩, rest)
    | cs =>
      let (bytes, rest) ← uriBytes false cs 0
      let suffix := (name.flatMap String.utf8EncodeChar ++ bytes).takeWhile (· ≠ 0)
      if suffix.isEmpty then pure (⟨none, "!".toUTF8.toList⟩, rest) else pure (⟨some "!", suffix⟩, rest)
  | _ => .error .badTag

/-- What a full tag says about a scalar. -/
def typeTag (bytes : List UInt8) : TypeTag :=
  match String.fromUTF8? ⟨bytes.toArray⟩ with
  | some "tag:yaml.org,2002:null" => .null
  | some "tag:yaml.org,2002:bool" => .bool
  | some "tag:yaml.org,2002:int" => .int
  | some "tag:yaml.org,2002:float" => .float
  | some s =>
    match s.toList with
    | ['!'] => .named s
    | '!' :: cs => .named (String.ofList cs)
    | _ => .other
  | none => if bytes.head? = some (.ofNat '!'.toNat) then .unnamed else .other

/-! ## Directives -/

inductive Directive where
  | version (major minor : Nat)
  | handle (name : String) (meaning : List UInt8)

/-- A number in a version. -/
def versionNumber (c : Cursor) : Except Error (Nat × Cursor) :=
  let digits := c.word Char.isDigit
  match Scalar.number 10 digits with
  | some n => if digits.length ≤ 9 then .ok (n, c.skip digits.length) else .error .badDirective
  | none => .error .badDirective

def versionDirective (c : Cursor) : Except Error (Directive × Cursor) := do
  let (major, c) ← versionNumber c.skipBlanks
  if c.rest.head? ≠ some '.' then .error .badDirective
  else
    let (minor, c) ← versionNumber (c.skip 1)
    pure (.version major minor, c)

/-- The handle that a directive is about: an exclamation mark, or a name between two of them. -/
def directiveHandle (c : Cursor) : Except Error (String × Cursor) :=
  match c.rest with
  | '!' :: cs =>
    let name := cs.takeWhile isNameChar
    match cs.drop name.length with
    | '!' :: _ => .ok (String.ofList ('!' :: name ++ ['!']), c.skip (name.length + 2))
    | _ => if name.isEmpty then .ok ("!", c.skip 1) else .error .badDirective
  | _ => .error .badDirective

def handleDirective (c : Cursor) : Except Error (Directive × Cursor) := do
  let (name, c) ← directiveHandle c.skipBlanks
  if !(c.rest.head?.any isBlank) then .error .badDirective
  else
    let c := c.skipBlanks
    let (bytes, rest) ← uri true c.rest
    if endsWord rest then
      pure (.handle name (bytes.takeWhile (· ≠ 0)), c.skip (c.rest.length - rest.length))
    else .error .badDirective

/-- The directive behind a percent sign, up to the end of its line. -/
def directive (c : Cursor) : Except Error (Directive × Cursor) := do
  let name := c.word isNameChar
  let c := c.skip name.length
  if !endsWord c.rest then .error .badDirective
  else
    let (d, c) ←
      if name = "YAML".toList then versionDirective c
      else if name = "TAG".toList then handleDirective c
      else .error .badDirective
    let c ← c.endLine .badDirective
    pure (d, c)

end PointsTo.Yaml
