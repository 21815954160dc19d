import PointsTo.Value.Basic

/-!
# Reading JSON

A JSON text as a value. A number with a point or an exponent has places behind the point even if they
are zero, so that it is not taken for a whole number; neither is a zero with a minus sign. Of several
entries under one key the last counts.
-/

namespace PointsTo.Json

def isSpace (c : Char) : Bool := c = ' ' || c = '\n' || c = '\t' || c = '\r'

/-! ## Numbers -/

/-- The number of some digits before and after the point, times a power of ten. -/
def decimal (isNegative : Bool) (whole fraction : List Char) (exponent : Int) : Option Value := do
  let mantissa ← Scalar.number 10 (whole ++ fraction)
  if !Scalar.isFinite mantissa fraction.length exponent then none
  else
    let shift := exponent - fraction.length
    let (mantissa, places) :=
      if 0 ≤ shift then (mantissa * Nat.pow 10 (shift.toNat + 1), 1) else (mantissa, (-shift).toNat)
    pure (.number (if isNegative then -(mantissa : Int) else mantissa) places)

/-- The exponent at the beginning of a text, if there is one. -/
def exponent : List Char → Option (Option Int × List Char)
  | [] => some (none, [])
  | c :: cs =>
    if c = 'e' || c = 'E' then
      let (sign, cs) : Int × List Char := match cs with
        | '-' :: cs => (-1, cs)
        | '+' :: cs => (1, cs)
        | cs => (1, cs)
      let digits := cs.takeWhile Char.isDigit
      (Scalar.number 10 digits).map fun n ↦ (some (sign * n), cs.drop digits.length)
    else some (none, c :: cs)

/-- The digits behind a point, if there is one. -/
def fraction : List Char → Option (Option (List Char) × List Char)
  | '.' :: cs =>
    let digits := cs.takeWhile Char.isDigit
    if digits.isEmpty then none else some (some digits, cs.drop digits.length)
  | cs => some (none, cs)

/-- A number behind its sign. -/
def unsignedNumber (isNegative : Bool) (cs : List Char) : Option (Value × List Char) := do
  let whole := cs.takeWhile Char.isDigit
  if Scalar.isPadded whole then none
  else
    let n ← Scalar.number 10 whole
    let (digits, cs) ← fraction (cs.drop whole.length)
    let (power, cs) ← exponent cs
    if digits.isNone && power.isNone && !(isNegative && n = 0) then
      pure (.number (if isNegative then -(n : Int) else n) 0, cs)
    else
      let v ← decimal isNegative whole (digits.getD []) (power.getD 0)
      pure (v, cs)

/-! ## Texts -/

def escaped : Char → Option Char
  | '"' => some '"'
  | '\\' => some '\\'
  | '/' => some '/'
  | 'b' => some '\x08'
  | 'f' => some '\x0c'
  | 'n' => some '\n'
  | 'r' => some '\r'
  | 't' => some '\t'
  | _ => none

/-- The character of two surrogates. -/
def paired (high low : Nat) : Option Char :=
  if 0xd800 ≤ high ∧ high < 0xdc00 ∧ 0xdc00 ≤ low ∧ low < 0xe000 then
    some (Char.ofNat (0x10000 + (high - 0xd800) * 0x400 + (low - 0xdc00)))
  else none

/-- Reads on in a text behind its opening quote; what was read so far stands in `acc`, reversed. -/
def quoted : List Char → List Char → Option (String × List Char)
  | '\\' :: 'u' :: a :: b :: c :: d :: cs, acc =>
    match Scalar.number 16 [a, b, c, d] with
    | none => none
    | some n =>
      if n.isValidChar then quoted cs (Char.ofNat n :: acc)
      else
        match cs with
        | '\\' :: 'u' :: a' :: b' :: c' :: d' :: cs =>
          match (Scalar.number 16 [a', b', c', d']).bind (paired n) with
          | some x => quoted cs (x :: acc)
          | none => none
        | _ => none
  | '\\' :: e :: cs, acc =>
    match escaped e with
    | some x => quoted cs (x :: acc)
    | none => none
  | '"' :: cs, acc => some (String.ofList acc.reverse, cs)
  | c :: cs, acc => if c = '\\' || c.toNat < 32 then none else quoted cs (c :: acc)
  | [], _ => none

/-! ## Values -/

/-- The entries of which none has the key of a later one. -/
def lastEntries : List (String × Value) → List (String × Value)
  | [] => []
  | (key, v) :: entries =>
    let later := lastEntries entries
    if later.any (·.1 = key) then later else (key, v) :: later

mutual

/-- Reads a value with blanks in front of it. -/
def value : Nat → List Char → Option (Value × List Char)
  | 0, _ => none
  | fuel + 1, cs =>
    match cs.dropWhile isSpace with
    | 'n' :: 'u' :: 'l' :: 'l' :: cs => some (.null, cs)
    | 't' :: 'r' :: 'u' :: 'e' :: cs => some (.bool true, cs)
    | 'f' :: 'a' :: 'l' :: 's' :: 'e' :: cs => some (.bool false, cs)
    | '"' :: cs => (quoted cs []).map fun (s, cs) ↦ (.text s, cs)
    | '[' :: cs => list fuel true [] cs
    | '\x7b' :: cs => record fuel true [] cs
    | '-' :: cs => unsignedNumber true cs
    | cs => unsignedNumber false cs

/-- Reads on in a list, behind its bracket or behind an item. -/
def list : Nat → Bool → List Value → List Char → Option (Value × List Char)
  | 0, _, _, _ => none
  | fuel + 1, first, items, cs =>
    match cs.dropWhile isSpace, first with
    | ']' :: cs, _ => some (.tuple items.reverse, cs)
    | ',' :: cs, false => do
      let (v, cs) ← value fuel cs
      list fuel false (v :: items) cs
    | cs, true => do
      let (v, cs) ← value fuel cs
      list fuel false (v :: items) cs
    | _, _ => none

/-- Reads on in a record, behind its brace or behind an entry. -/
def record : Nat → Bool → List (String × Value) → List Char → Option (Value × List Char)
  | 0, _, _, _ => none
  | fuel + 1, first, entries, cs =>
    match cs.dropWhile isSpace, first with
    | '\x7d' :: cs, _ => some (.record (lastEntries entries.reverse), cs)
    | ',' :: cs, false => entry fuel entries cs
    | cs, true => entry fuel entries cs
    | _, _ => none

/-- Reads an entry and the rest of the record. -/
def entry : Nat → List (String × Value) → List Char → Option (Value × List Char)
  | 0, _, _ => none
  | fuel + 1, entries, cs =>
    match cs.dropWhile isSpace with
    | '"' :: cs => do
      let (key, cs) ← quoted cs []
      match cs.dropWhile isSpace with
      | ':' :: cs =>
        let (v, cs) ← value fuel cs
        record fuel false ((key, v) :: entries) cs
      | _ => none
    | _ => none

end

/-- The value of a text. Every step but one in three passes a character. -/
def read (text : String) : Option Value := do
  let cs := text.toList
  let (v, rest) ← value (3 * cs.length + 3) cs
  if rest.all isSpace then pure v else none

end PointsTo.Json
