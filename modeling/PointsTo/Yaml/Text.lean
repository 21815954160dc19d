/-!
# Characters of YAML texts

A text is read with every kind of line ending turned into a single break first, and is refused if it
holds control characters. A `Cursor` is what is left of such a text, with the place where that begins.
-/

namespace PointsTo.Yaml

/-- Why a text is not a YAML document. -/
inductive Error where
  | controlCharacter
  | unexpectedCharacter
  | misplacedTab
  | unclosedQuote
  | badEscape
  | badBlockHeader
  | badDirective
  | badAnchor
  | unknownAnchor (name : String)
  | badTag
  | unknownHandle (handle : String)
  | badUri
  | markerInQuotes
  | misplacedColon
  | misplacedEntry
  | misplacedKey
  | misplacedValue
  | missingColon
  | unexpectedToken
  | severalDocuments
  | tooManyAliases
  deriving DecidableEq, Repr

def isBreak (c : Char) : Bool := c = '\n' || c = '\u2028' || c = '\u2029'

def isBlank (c : Char) : Bool := c = ' ' || c = '\t'

def isIndicator (c : Char) : Bool := c ∈ ",[]\x7b\x7d".toList

/-- Whether a word ends here: at a blank, a break or the end of the text. -/
def endsWord : List Char → Bool
  | [] => true
  | c :: _ => isBlank c || isBreak c

/-- A line that begins or ends a document. -/
def isMarker : List Char → Bool
  | '-' :: '-' :: '-' :: cs | '.' :: '.' :: '.' :: cs => endsWord cs
  | _ => false

/-- Characters that may stand in a text. -/
def isAdmissible (c : Char) : Bool :=
  c = '\t' || c = '\n' || c = '\r' || c = '\x85' || (' ' ≤ c && c ≤ '~') ||
    ('\xa0' ≤ c && c ≤ '\ufffd') || 0x10000 ≤ c.toNat

/-- Turns carriage returns and next-line characters into line breaks. -/
def unifyBreaks : List Char → List Char
  | '\r' :: '\n' :: cs => '\n' :: unifyBreaks cs
  | c :: cs => (if c = '\r' || c = '\x85' then '\n' else c) :: unifyBreaks cs
  | [] => []

/-- The characters to read. -/
def characters (text : String) : Except Error (List Char) :=
  if text.toList.all isAdmissible then .ok (unifyBreaks text.toList) else .error .controlCharacter

/-- A place in a text. -/
structure Place where
  line : Nat := 0
  column : Nat := 0
  /-- How many bytes stand before it. -/
  index : Nat := 0

namespace Place

/-- The place behind a character. -/
def after (p : Place) (c : Char) : Place :=
  if isBreak c then ⟨p.line + 1, 0, p.index + c.utf8Size⟩
  else ⟨p.line, p.column + 1, p.index + c.utf8Size⟩

def afterAll (p : Place) (cs : List Char) : Place := cs.foldl after p

end Place

structure Cursor where
  rest : List Char
  place : Place := {}

namespace Cursor

/-- Further by some characters. -/
def skip (c : Cursor) (n : Nat) : Cursor := ⟨c.rest.drop n, c.place.afterAll (c.rest.take n)⟩

/-- The characters from here on that satisfy `p`, none of them a break. -/
def word (c : Cursor) (p : Char → Bool) : List Char := c.rest.takeWhile fun x ↦ p x && !isBreak x

/-- Behind the blanks that stand here. -/
def skipBlanks (c : Cursor) : Cursor := c.skip (c.word isBlank).length

/-- Behind the rest of the line, which may only be blanks and a comment, and behind its end. -/
def endLine (c : Cursor) (e : Error) : Except Error Cursor :=
  let c := c.skipBlanks
  let c := if c.rest.head? = some '#' then c.skip (c.word fun _ ↦ true).length else c
  if c.rest.head?.all isBreak then .ok (c.skip 1) else .error e

end Cursor

end PointsTo.Yaml
