import PointsTo.Value.Scalar

/-!
# Values in transit

A `Value` is what stands between a typed value and its text: a tree of scalars, lists and records.
Encoders produce values and printers write them; readers produce values from texts and decoders turn
them into typed values or say why they cannot. Readers leave open what only the decoder can know: a
`plain` scalar is typed by its spelling when it is needed, a tag may say more about a scalar, and a
`tuple` may be a list or a record given by position.
-/

namespace PointsTo

/-- What a tag says about the type of a scalar. -/
inductive TypeTag where
  | null
  | bool
  | int
  | float
  /-- The scalar stands for something of that name. -/
  | named (name : String)
  /-- The tag leaves it to the spelling. -/
  | unnamed
  /-- The scalar is a text. -/
  | other
  deriving DecidableEq, Repr

inductive Value where
  | null
  | bool (b : Bool)
  /-- The number `mantissa / 10 ^ places`, as it is to be written. -/
  | number (mantissa : Int) (places : Nat)
  | text (s : String)
  /-- An unquoted scalar; the empty one stands for an omitted value. -/
  | plain (s : String)
  /-- A scalar with a tag. -/
  | tagged (tag : TypeTag) (v : Value)
  | list (items : List Value)
  | tuple (items : List Value)
  | record (fields : List (String × Value))
  /-- A record of which some key is not a scalar. -/
  | unkeyed
  deriving Inhabited

/-- Why a value is not of the expected type. -/
inductive DecodeError where
  | unexpected (expected : String)
  | unknownName (name : String)
  | missingKey (key : String)
  | unknownKey
  | repeatedKey
  | wrongLength
  | unknownPoint (name : String)
  | notAPoint
  deriving DecidableEq, Repr

namespace Value

/-- A whole number. -/
def natural (n : Nat) : Value := .number n 0

def ofOption {α : Type} (encode : α → Value) : Option α → Value
  | none => .null
  | some a => encode a

/-! ## Scalars -/

/-- A value without its tag. -/
def untagged : Value → Value
  | .tagged _ v => v
  | v => v

/-- Whether a value is null. A scalar that is tagged as null has to be spelled so. -/
def isNull : Value → Except DecodeError Bool
  | .null => .ok true
  | .plain s => .ok (Scalar.isNull s)
  | .tagged .null (.plain s) =>
    if Scalar.isNullWord s then .ok true else .error (.unexpected "null")
  | _ => .ok false

def asText (v : Value) : Except DecodeError String :=
  match v.untagged with
  | .text s | .plain s => .ok s
  | _ => .error (.unexpected "text")

/-- A whole number below `bound`. -/
def asNatural (bound : Nat) (v : Value) : Except DecodeError Nat :=
  let n? := match v.untagged with
    | .number (.ofNat n) 0 => some n
    | .plain s => Scalar.natural? s
    | _ => none
  match n? with
  | some n => if n < bound then .ok n else .error (.unexpected "smaller number")
  | none => .error (.unexpected "whole number")

def asWord64 (v : Value) : Except DecodeError UInt64 := do
  let n ← v.asNatural UInt64.size
  pure (.ofNat n)

def asWord32 (v : Value) : Except DecodeError UInt32 := do
  let n ← v.asNatural UInt32.size
  pure (.ofNat n)

/-- The name that a value spells: as a text, as the tag of a null, or as the only key of a record that
holds null. -/
def spelledName : Value → Except DecodeError String
  | .record [(name, .null)] => .ok name
  | .tagged (.named name) (.plain s) =>
    if Scalar.isNull s then .ok name else .error (.unexpected "null")
  | .tagged (.named _) _ => .error (.unexpected "null")
  | v => v.asText

/-- One of some names. -/
def asName {α : Type} (names : List (String × α)) (v : Value) : Except DecodeError α := do
  let name ← v.spelledName
  match names.lookup name with
  | some a => pure a
  | none => .error (.unknownName name)

/-- Null is `none`. -/
def asOption {α : Type} (decode : Value → Except DecodeError α) (v : Value) :
    Except DecodeError (Option α) := do
  if ← v.isNull then pure none else some <$> decode v

/-! ## Lists and records -/

def asList {α : Type} (decode : Value → Except DecodeError α) (v : Value) :
    Except DecodeError (List α) :=
  match v.untagged with
  | .list items | .tuple items => items.mapM decode
  | .plain "" => .ok []
  | _ => .error (.unexpected "list")

/-- What is known of the records of a type. -/
structure Shape where
  keys : List String
  /-- Whether other keys are errors. -/
  closed : Bool := false
  /-- Whether a tuple may stop early. -/
  openEnded : Bool := false

/-- The entries of a record under the keys of a shape. Each key may occur once. -/
def entries (shape : Shape) (v : Value) : Except DecodeError (List (String × Value)) :=
  match v.untagged with
  | .record fields =>
    let known := fields.filter (·.1 ∈ shape.keys)
    if shape.closed && known.length < fields.length then .error .unknownKey
    else if (known.map Prod.fst).Nodup then .ok known
    else .error .repeatedKey
  | .tuple items =>
    if items.length = shape.keys.length ∨ shape.openEnded ∧ items.length < shape.keys.length then
      .ok (shape.keys.zip items)
    else .error .wrongLength
  | .plain "" => .ok []
  | _ => .error (.unexpected "record")

/-- The entry under a key that has to be there. -/
def required {α : Type} (decode : Value → Except DecodeError α) (key : String)
    (entries : List (String × Value)) : Except DecodeError α :=
  match entries.lookup key with
  | some v => decode v
  | none => .error (.missingKey key)

/-- The entry under a key, or else a default. -/
def orElse {α : Type} (decode : Value → Except DecodeError α) (default : α) (key : String)
    (entries : List (String × Value)) : Except DecodeError α :=
  match entries.lookup key with
  | some v => decode v
  | none => .ok default

/-- The entry under a key, where absence and null are both `none`. -/
def optional {α : Type} (decode : Value → Except DecodeError α) (key : String)
    (entries : List (String × Value)) : Except DecodeError (Option α) :=
  orElse (asOption decode) none key entries

end Value

end PointsTo
