import PointsTo.Value.Json
import PointsTo.Yaml.Text

/-!
# Writing YAML

A value as a block document: two spaces for each level, the entries of a sequence at the indentation
of the key they stand under, `[]` and `{}` for what is empty. A text is written plain if it then reads
as the same text; otherwise it is quoted, by single quotes if they do and by double quotes with escapes
if not. A text with line breaks is written as a literal block.
-/

namespace PointsTo.Yaml

/-! ## Styles of scalars -/

inductive Style where
  | plain
  | single
  | double
  | literal
  deriving DecidableEq, Repr

/-- Characters that need no escape. -/
def isPrintable (c : Char) : Bool :=
  c = '\n' || (' ' ≤ c && c ≤ '~') || ('\xa0' ≤ c && c ≤ '\ufffd' && c ≠ '\ufeff') ||
    '\uffff' < c

/-- Whether some character and the one after it satisfy `p`. -/
def anyPair (p : Char → Char → Bool) (cs : List Char) : Bool := (cs.zip cs.tail).any fun (c, d) ↦ p c d

/-- Whether a text, written plain, would be taken for something else than a scalar, or cut short. -/
def hasIndicators (cs : List Char) : Bool :=
  let first := match cs with
    | '-' :: '-' :: '-' :: _ | '.' :: '.' :: '.' :: _ => true
    | '-' :: rest | '?' :: rest => endsWord rest
    | c :: _ => c ∈ "#,[]\x7b\x7d&*!|>'\"%@`".toList
    | [] => false
  first || cs.getLast? = some ':' || anyPair (fun c d ↦ c = ':' && endsWord [d]) cs ||
    anyPair (fun c d ↦ endsWord [c] && d = '#') cs

/-- Whether a blank or a break stands at either end. -/
def hasLooseEnds (cs : List Char) : Bool :=
  let loose (c : Char) : Bool := c = ' ' || isBreak c
  cs.head?.any loose || cs.getLast?.any loose

def allowsSingle (cs : List Char) : Bool :=
  cs.all isPrintable && !anyPair (fun c d ↦ c = ' ' && isBreak d || isBreak c && d = ' ') cs

def allowsPlain (cs : List Char) : Bool :=
  allowsSingle cs && !hasLooseEnds cs && !cs.any isBreak && !hasIndicators cs

def allowsLiteral (cs : List Char) : Bool :=
  cs.all isPrintable && cs.getLast? ≠ some ' ' && !anyPair (fun c d ↦ c = ' ' && isBreak d) cs

/-- Whether a text, written plain, would not be read as a text. -/
def isAmbiguous (s : String) : Bool := Scalar.kind s ≠ .word || Scalar.isPaddedText s

def style (s : String) : Style :=
  let cs := s.toList
  if '\n' ∈ cs then if allowsLiteral cs then .literal else .double
  else if !isAmbiguous s && allowsPlain cs then .plain
  else if allowsSingle cs then .single
  else .double

/-! ## Scalars -/

def spaces (n : Nat) : List Char := List.replicate n ' '

/-- Sets in whatever follows a break, unless the flag says that it stands on a line already. -/
def setIn (indent : Nat) : Bool → List Char → List Char
  | _, [] => []
  | fresh, c :: cs =>
    if isBreak c then c :: setIn indent true cs
    else (if fresh then spaces indent else []) ++ c :: setIn indent false cs

/-- A text between single quotes, where a quote is doubled. -/
def singleText (indent : Nat) (cs : List Char) : List Char :=
  let body := setIn indent false (cs.flatMap fun c ↦ if c = '\'' then ['\'', '\''] else [c])
  let ending := if cs.getLast?.any isBreak then spaces indent else []
  '\'' :: body ++ ending ++ ['\'']

def upperHex (n width : Nat) : List Char :=
  (List.range width).reverse.map fun k ↦ (Json.hexDigit (n / Nat.pow 16 k % 16)).toUpper

/-- A character between double quotes. -/
def escapeText (c : Char) : List Char :=
  if c = '\x00' then ['\\', '0']
  else if c = '\x07' then ['\\', 'a']
  else if c = '\x08' then ['\\', 'b']
  else if c = '\t' then ['\\', 't']
  else if c = '\n' then ['\\', 'n']
  else if c = '\x0b' then ['\\', 'v']
  else if c = '\x0c' then ['\\', 'f']
  else if c = '\r' then ['\\', 'r']
  else if c = '\x1b' then ['\\', 'e']
  else if c = '"' then ['\\', '"']
  else if c = '\\' then ['\\', '\\']
  else if c = '\x85' then ['\\', 'N']
  else if c = '\u2028' then ['\\', 'L']
  else if c = '\u2029' then ['\\', 'P']
  else if isPrintable c then [c]
  else if c.toNat ≤ 0xff then '\\' :: 'x' :: upperHex c.toNat 2
  else if c.toNat ≤ 0xffff then '\\' :: 'u' :: upperHex c.toNat 4
  else '\\' :: 'U' :: upperHex c.toNat 8

def doubleText (cs : List Char) : List Char := '"' :: cs.flatMap escapeText ++ ['"']

/-- The header of a literal block: its indentation if that could not be seen, and how it ends. -/
def literalHeader (cs : List Char) : List Char :=
  let indentation := if cs.head?.any fun c ↦ c = ' ' || isBreak c then ['2'] else []
  let ending := match cs.reverse with
    | [] => ['-']
    | c :: rest =>
      if !isBreak c then ['-'] else if rest.head?.all isBreak then ['+'] else []
  '|' :: indentation ++ ending

def literalText (indent : Nat) (cs : List Char) : List Char :=
  literalHeader cs ++ '\n' :: setIn indent true cs

/-- The text of a scalar whose further lines are set in by `indent`. -/
def scalarText (indent : Nat) (s : String) : List Char :=
  match style s with
  | .plain => s.toList
  | .single => singleText indent s.toList
  | .double => doubleText s.toList
  | .literal => literalText indent s.toList

def keyText (s : String) : List Char :=
  match style s with
  | .plain => s.toList
  | .single => singleText 0 s.toList
  | .double | .literal => doubleText s.toList

/-! ## Collections -/

/-- Begins a new line, unless the text so far ends with one. -/
def freshLine (soFar : List Char) : List Char := if soFar.getLast?.all isBreak then soFar else soFar ++ ['\n']

mutual

/-- The text of a node in a block that is set in by `indent`, following its key or dash on the same
line. A sequence stands at the indentation of its key. -/
def nodeText (indent : Nat) : Value → List Char
  | .null | .unkeyed => " null".toList
  | .bool b => if b then " true".toList else " false".toList
  | .number mantissa places => ' ' :: (Json.number mantissa places).toList
  | .text s | .plain s => ' ' :: scalarText (indent + 2) s
  | .tagged _ v => nodeText indent v
  | .list [] | .tuple [] => " []".toList
  | .record [] => " \x7b\x7d".toList
  | .list items | .tuple items => '\n' :: spaces indent ++ itemsText indent items
  | .record fields => '\n' :: spaces (indent + 2) ++ fieldsText (indent + 2) fields

/-- The text of a node behind a dash, where a collection begins on the same line. -/
def itemText (indent : Nat) : Value → List Char
  | .list [] | .tuple [] => " []".toList
  | .record [] => " \x7b\x7d".toList
  | .list items | .tuple items => ' ' :: itemsText (indent + 2) items
  | .record fields => ' ' :: fieldsText (indent + 2) fields
  | .null | .unkeyed => " null".toList
  | .bool b => if b then " true".toList else " false".toList
  | .number mantissa places => ' ' :: (Json.number mantissa places).toList
  | .text s | .plain s => ' ' :: scalarText (indent + 2) s
  | .tagged _ v => itemText indent v

/-- Items from the first dash on. -/
def itemsText (indent : Nat) : List Value → List Char
  | [] => []
  | [v] => '-' :: itemText indent v
  | v :: vs => freshLine ('-' :: itemText indent v) ++ spaces indent ++ itemsText indent vs

/-- Entries from the first key on. -/
def fieldsText (indent : Nat) : List (String × Value) → List Char
  | [] => []
  | [(k, v)] => keyText k ++ ':' :: nodeText indent v
  | (k, v) :: fields =>
    freshLine (keyText k ++ ':' :: nodeText indent v) ++ spaces indent ++ fieldsText indent fields

end

/-- The document that holds a value. -/
def write (v : Value) : String :=
  let body := match v with
    | .list (v :: vs) | .tuple (v :: vs) => itemsText 0 (v :: vs)
    | .record (f :: fs) => fieldsText 0 (f :: fs)
    | v => (nodeText 0 v).drop 1
  String.ofList (freshLine body)

end PointsTo.Yaml
