/-!
# Unquoted scalars

An unquoted word in a document has no type of its own: it is read as whatever its spelling suggests.
Nothing and `null` are null, `true` and `false` are truth values, digits are numbers, and everything
else is a text. A text whose spelling suggests something else has to be quoted.
-/

namespace PointsTo.Scalar

/-- What a spelling suggests. -/
inductive Kind where
  | null
  | bool
  | natural (value : Nat)
  /-- A number with a minus sign, which may be zero. -/
  | negative (magnitude : Nat)
  | decimal
  | word
  deriving DecidableEq, Repr

def isNullWord (s : String) : Bool := s ∈ ["null", "Null", "NULL", "~"]

/-- Whether a spelling means null, as nothing does. -/
def isNull (s : String) : Bool := s.isEmpty || isNullWord s

def isBool (s : String) : Bool := s ∈ ["true", "True", "TRUE", "false", "False", "FALSE"]

/-! ## Whole numbers -/

def digitValue (c : Char) : Option Nat :=
  if '0' ≤ c ∧ c ≤ '9' then some (c.toNat - '0'.toNat)
  else if 'a' ≤ c ∧ c ≤ 'z' then some (c.toNat - 'a'.toNat + 10)
  else if 'A' ≤ c ∧ c ≤ 'Z' then some (c.toNat - 'A'.toNat + 10)
  else none

/-- The number that digits denote in a base; there has to be a digit. -/
def number (base : Nat) (cs : List Char) : Option Nat :=
  if cs.isEmpty then none
  else
    cs.foldlM
      (fun n c ↦ (digitValue c).bind fun d ↦ if d < base then some (n * base + d) else none) 0

/-- Several digits of which the first is zero. -/
def isPadded : List Char → Bool
  | '0' :: c :: cs => (c :: cs).all Char.isDigit
  | _ => false

/-- A number without sign: hexadecimal, octal, binary, or decimal without leading zeros. -/
def unsigned : List Char → Option Nat
  | '0' :: 'x' :: cs => number 16 cs
  | '0' :: 'o' :: cs => number 8 cs
  | '0' :: 'b' :: cs => number 2 cs
  | cs => if isPadded cs then none else number 10 cs

/-- A natural number, possibly with a plus sign. -/
def natural? (s : String) : Option Nat :=
  match s.toList with
  | '+' :: cs => unsigned cs
  | cs => unsigned cs

/-- The magnitude of a number with a minus sign. -/
def negative? (s : String) : Option Nat :=
  match s.toList with
  | '-' :: cs => unsigned cs
  | _ => none

/-- Whether a sign, if any, is followed by several digits of which the first is zero. -/
def isPaddedText (s : String) : Bool :=
  match s.toList with
  | '+' :: cs | '-' :: cs => isPadded cs
  | cs => isPadded cs

/-! ## Decimal fractions -/

/-- The least number too large for the binary64 format, which is halfway between the largest finite
number and the next power of two. -/
def overflow : Nat := Nat.pow 2 1024 - Nat.pow 2 970

/-- Whether `mantissa * 10 ^ (exponent - places)` is within the binary64 range. -/
def isFinite (mantissa places : Nat) (exponent : Int) : Bool :=
  let width := (Nat.toDigits 10 mantissa).length
  let shift := exponent - places
  if mantissa = 0 ∨ width + shift < 300 then true
  else if width + shift > 310 then false
  else if 0 ≤ shift then mantissa * Nat.pow 10 shift.toNat < overflow
  else mantissa < overflow * Nat.pow 10 (-shift).toNat

/-- The exponent of a decimal; nothing counts as zero. -/
def exponent? : List Char → Option Int
  | [] => some 0
  | c :: cs =>
    if c = 'e' ∨ c = 'E' then
      match cs with
      | '-' :: ds => (number 10 ds).map fun n ↦ -(n : Int)
      | '+' :: ds => (number 10 ds).map fun n ↦ (n : Int)
      | ds => (number 10 ds).map fun n ↦ (n : Int)
    else none

/-- Digits with at most one point among them and perhaps an exponent, within the binary64 range. -/
def isUnsignedDecimal (cs : List Char) : Bool :=
  let whole := cs.takeWhile Char.isDigit
  let rest := cs.dropWhile Char.isDigit
  let (fraction, rest) := match rest with
    | '.' :: ds => (ds.takeWhile Char.isDigit, ds.dropWhile Char.isDigit)
    | _ => ([], rest)
  match number 10 (whole ++ fraction), exponent? rest with
  | some mantissa, some exponent => isFinite mantissa fraction.length exponent
  | _, _ => false

def isDecimal (s : String) : Bool :=
  if s ∈ [".inf", ".Inf", ".INF", "+.inf", "+.Inf", "+.INF", "-.inf", "-.Inf", "-.INF",
      ".nan", ".NaN", ".NAN"] then true
  else if isPaddedText s then false
  else
    match s.toList with
    | '+' :: cs | '-' :: cs => isUnsignedDecimal cs
    | cs => isUnsignedDecimal cs

/-- The whole number that a spelling suggests. Those of more than 128 bits do not count. -/
def integer? (s : String) : Option Kind :=
  match natural? s, negative? s with
  | some n, _ => if n < Nat.pow 2 128 then some (.natural n) else none
  | none, some n => if n ≤ Nat.pow 2 127 then some (.negative n) else none
  | none, none => none

/-- What a spelling suggests. Whole numbers of more than 128 bits count as decimals. -/
def kind (s : String) : Kind :=
  if isNull s then .null
  else if isBool s then .bool
  else (integer? s).getD (if isDecimal s then .decimal else .word)

end PointsTo.Scalar
