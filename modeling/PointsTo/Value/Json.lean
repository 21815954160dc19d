import PointsTo.Value.Basic

/-!
# JSON texts

A value as an indented JSON text: two spaces for each level, one item or entry on a line, a blank
after each colon, and nothing between the brackets of an empty list or record.
-/

namespace PointsTo.Json

def hexDigit (n : Nat) : Char :=
  if n < 10 then Char.ofNat ('0'.toNat + n) else Char.ofNat ('a'.toNat + (n - 10))

/-- A character between quotes. Control characters are escaped, by a letter where there is one. -/
def escape (c : Char) : List Char :=
  if c = '"' then ['\\', '"']
  else if c = '\\' then ['\\', '\\']
  else if c = '\n' then ['\\', 'n']
  else if c = '\r' then ['\\', 'r']
  else if c = '\t' then ['\\', 't']
  else if c = '\x08' then ['\\', 'b']
  else if c = '\x0c' then ['\\', 'f']
  else if c.toNat < 32 then ['\\', 'u', '0', '0', hexDigit (c.toNat / 16), hexDigit (c.toNat % 16)]
  else [c]

def quote (s : String) : String := "\"" ++ String.ofList (s.toList.flatMap escape) ++ "\""

/-- A number with the given count of places after the point. -/
def number (mantissa : Int) (places : Nat) : String :=
  if places = 0 then toString mantissa
  else
    let scale := Nat.pow 10 places
    let digits := toString (mantissa.natAbs % scale)
    let padding := String.ofList (List.replicate (places - digits.length) '0')
    (if mantissa < 0 then "-" else "") ++ toString (mantissa.natAbs / scale) ++ "." ++
      padding ++ digits

/-- Lines between brackets, set in from the closing one by two spaces. -/
def block (opening closing indent : String) (items : List String) : String :=
  if items.isEmpty then opening ++ closing
  else
    opening ++ "\n" ++ ",\n".intercalate (items.map fun item ↦ indent ++ "  " ++ item) ++ "\n" ++
      indent ++ closing

mutual

/-- The text of a value whose last line is set in by `indent`. -/
def render (indent : String) : Value → String
  | .null | .unkeyed => "null"
  | .bool b => if b then "true" else "false"
  | .number mantissa places => number mantissa places
  | .text s | .plain s => quote s
  | .tagged _ v => render indent v
  | .list items | .tuple items => block "[" "]" indent (renderItems (indent ++ "  ") items)
  | .record fields => block "\x7b" "\x7d" indent (renderFields (indent ++ "  ") fields)

def renderItems (indent : String) : List Value → List String
  | [] => []
  | v :: vs => render indent v :: renderItems indent vs

def renderFields (indent : String) : List (String × Value) → List String
  | [] => []
  | (key, v) :: fields => (quote key ++ ": " ++ render indent v) :: renderFields indent fields

end

/-- The indented text of a value. -/
def text (v : Value) : String := render "" v

end PointsTo.Json
