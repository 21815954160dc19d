import PointsTo.Yaml.ScalarText
import PointsTo.Yaml.Tag

/-!
# YAML tokens

A text is cut into tokens in which the indentation is explicit: where a block collection begins and
ends there is a token for it. A key that is not announced by `?` is recognised by the colon behind it,
which has to follow on the same line; the tokens that announce such a key are then put in before it.
-/

namespace PointsTo.Yaml

inductive Token where
  | directive (d : Directive)
  | documentStart
  | documentEnd
  | blockSequenceStart
  | blockMappingStart
  | blockEnd
  | flowSequenceStart
  | flowSequenceEnd
  | flowMappingStart
  | flowMappingEnd
  | blockEntry
  | flowEntry
  | key
  | value
  | alias (name : String)
  | anchor (name : String)
  | tag (tag : TagText)
  | scalar (style : ScalarStyle) (text : String)

/-- Where a key may have begun that a colon has yet to confirm. -/
structure PossibleKey where
  /-- Whether nothing but a key can stand there. -/
  required : Bool
  /-- How many tokens stand before it. -/
  position : Nat
  place : Place

structure Scanner where
  cursor : Cursor
  tokens : Array Token := #[]
  /-- How far the current block collection is set in, less than zero at the top. -/
  indent : Int := -1
  /-- The same for the collections around it. -/
  indents : List Int := []
  /-- Whether a key may begin here. -/
  keyAllowed : Bool := true
  possible : Option PossibleKey := none
  /-- The possible keys around each open flow collection. -/
  outer : List (Option PossibleKey) := []

namespace Scanner

/-- Whether a flow collection is open. -/
def inFlow (s : Scanner) : Bool := !s.outer.isEmpty

def push (s : Scanner) (t : Token) : Scanner := { s with tokens := s.tokens.push t }

/-- Puts a token in at a place among the others. -/
def putAt (s : Scanner) (i : Nat) (t : Token) : Scanner :=
  { s with tokens := s.tokens.take i ++ #[t] ++ s.tokens.drop i }

/-- Goes on behind `n` characters and appends a token. -/
def consume (s : Scanner) (n : Nat) (t : Token) : Scanner :=
  { s with cursor := s.cursor.skip n }.push t

/-! ## Blanks and comments -/

/-- Passes blanks, comments and line breaks, and byte order marks at the beginning of a line. A tab may
not stand where a key may begin, and outside of flow collections a key may begin on every new line. -/
def passBlanks (inFlow : Bool) : List Char → Place → Bool → Bool → Cursor × Bool
  | [], p, allowed, _ => (⟨[], p⟩, allowed)
  | c :: cs, p, allowed, comment =>
    if isBreak c then passBlanks inFlow cs (p.after c) (allowed || !inFlow) false
    else if comment || c = '#' then passBlanks inFlow cs (p.after c) allowed true
    else if c = ' ' || (c = '\t' && (inFlow || !allowed)) || (c = '\ufeff' && p.column = 0) then
      passBlanks inFlow cs (p.after c) allowed false
    else (⟨c :: cs, p⟩, allowed)

def toNextToken (s : Scanner) : Scanner :=
  let (cursor, keyAllowed) := passBlanks s.inFlow s.cursor.rest s.cursor.place s.keyAllowed false
  { s with cursor, keyAllowed }

/-- The column of the cursor. -/
def column (s : Scanner) : Nat := s.cursor.place.column

/-! ## Indentation -/

/-- Opens a block collection at a column that is set in further than the current one. -/
def openBlock (s : Scanner) (column : Nat) (position : Nat) (t : Token) : Scanner :=
  if s.inFlow || s.indent ≥ column then s
  else { s with indents := s.indent :: s.indents, indent := column }.putAt position t

def closeBlocks (column : Int) : List Int → Int → Array Token → List Int × Int × Array Token
  | [], indent, tokens => ([], indent, tokens)
  | outer :: indents, indent, tokens =>
    if indent > column then closeBlocks column indents outer (tokens.push .blockEnd)
    else (outer :: indents, indent, tokens)

/-- Closes the block collections that are set in further than a column. -/
def closeTo (s : Scanner) (column : Int) : Scanner :=
  if s.inFlow then s
  else
    let (indents, indent, tokens) := closeBlocks column s.indents s.indent s.tokens
    { s with indents, indent, tokens }

/-! ## Possible keys -/

/-- Gives up a possible key, which must not have been required. -/
def giveUp : Option PossibleKey → Except Error (Option PossibleKey)
  | some key => if key.required then .error .missingColon else .ok none
  | none => .ok none

def dropKey (s : Scanner) : Except Error Scanner := do
  let possible ← giveUp s.possible
  pure { s with possible }

/-- Notes that a key may begin here. -/
def noteKey (s : Scanner) : Except Error Scanner := do
  if s.keyAllowed then
    let s ← s.dropKey
    let key : PossibleKey :=
      { required := !s.inFlow && s.indent = s.column
        position := s.tokens.size
        place := s.cursor.place }
    pure { s with possible := some key }
  else pure s

/-- Gives up the keys that did not end on their line, or not within 1024 bytes. -/
def dropStale (s : Scanner) : Except Error Scanner := do
  let here := s.cursor.place
  let check (key? : Option PossibleKey) : Except Error (Option PossibleKey) :=
    match key? with
    | some key =>
      if key.place.line < here.line ∨ key.place.index + 1024 < here.index then giveUp key?
      else .ok key?
    | none => .ok none
  let possible ← check s.possible
  let outer ← s.outer.mapM check
  pure { s with possible, outer }

/-! ## Tokens -/

/-- A line that begins or ends a document closes everything. -/
def marker (s : Scanner) (t : Token) : Except Error Scanner := do
  let s ← (s.closeTo (-1)).dropKey
  pure ({ s with keyAllowed := false }.consume 3 t)

def directive (s : Scanner) : Except Error Scanner := do
  let s ← (s.closeTo (-1)).dropKey
  let (d, cursor) ← Yaml.directive (s.cursor.skip 1)
  pure ({ s with cursor, keyAllowed := false }.push (.directive d))

def openFlow (s : Scanner) (t : Token) : Except Error Scanner := do
  let s ← s.noteKey
  let s := { s with outer := s.possible :: s.outer, possible := none, keyAllowed := true }
  pure (s.consume 1 t)

def closeFlow (s : Scanner) (t : Token) : Except Error Scanner := do
  let s ← s.dropKey
  let s := match s.outer with
    | [] => s
    | possible :: outer => { s with possible, outer }
  pure ({ s with keyAllowed := false }.consume 1 t)

def flowEntry (s : Scanner) : Except Error Scanner := do
  let s ← s.dropKey
  pure ({ s with keyAllowed := true }.consume 1 .flowEntry)

def blockEntry (s : Scanner) : Except Error Scanner := do
  if !s.inFlow && !s.keyAllowed then .error .misplacedEntry
  else
    let s ← (s.openBlock s.column s.tokens.size .blockSequenceStart).dropKey
    pure ({ s with keyAllowed := true }.consume 1 .blockEntry)

def key (s : Scanner) : Except Error Scanner := do
  if !s.inFlow && !s.keyAllowed then .error .misplacedKey
  else
    let s ← (s.openBlock s.column s.tokens.size .blockMappingStart).dropKey
    pure ({ s with keyAllowed := !s.inFlow }.consume 1 .key)

/-- A colon confirms the possible key, or else follows a key that was announced. -/
def value (s : Scanner) : Except Error Scanner :=
  match s.possible with
  | some key =>
    let s := (s.putAt key.position .key).openBlock key.place.column key.position .blockMappingStart
    .ok ({ s with possible := none, keyAllowed := false }.consume 1 .value)
  | none =>
    if s.inFlow then .ok ({ s with keyAllowed := false }.consume 1 .value)
    else if s.keyAllowed then
      let s := s.openBlock s.column s.tokens.size .blockMappingStart
      .ok ({ s with keyAllowed := true }.consume 1 .value)
    else .error .misplacedValue

/-- An anchor or an alias, from its indicator on. -/
def reference (s : Scanner) (token : String → Token) : Except Error Scanner := do
  let s ← s.noteKey
  let name := (s.cursor.skip 1).word isNameChar
  let rest := s.cursor.rest.drop (name.length + 1)
  let ended := endsWord rest || rest.head?.any fun c ↦ c ∈ "?:,]\x7d%@`".toList
  if name.isEmpty || !ended then .error .badAnchor
  else pure ({ s with keyAllowed := false }.consume (name.length + 1) (token (String.ofList name)))

/-- A tag, which ends at a blank, or at a comma in a flow collection. -/
def tag (s : Scanner) : Except Error Scanner := do
  let s ← s.noteKey
  let (tag, rest) ← tagText s.cursor.rest
  if endsWord rest || s.inFlow && rest.head? = some ',' then
    pure ({ s with keyAllowed := false }.consume (s.cursor.rest.length - rest.length) (.tag tag))
  else .error .badTag

def blockText (s : Scanner) (folded : Bool) : Except Error Scanner := do
  let s ← s.dropKey
  let (text, cursor) ← blockScalar folded s.indent (s.cursor.skip 1)
  let style := if folded then ScalarStyle.folded else .literal
  pure ({ s with cursor, keyAllowed := true }.push (.scalar style text))

def quoted (s : Scanner) (double : Bool) : Except Error Scanner := do
  let s ← s.noteKey
  let c := s.cursor.skip 1
  let (text, cursor) ←
    if double then doubleQuoted c.rest c.place (.blanks []) []
    else singleQuoted c.rest c.place (.blanks []) []
  pure ({ s with cursor, keyAllowed := false }.push (.scalar .quoted text))

def plain (s : Scanner) : Except Error Scanner := do
  let s ← s.noteKey
  let (text, cursor, broken) ←
    plainText s.inFlow (s.indent + 1).toNat s.cursor.rest s.cursor.place (.blanks []) []
  pure ({ s with cursor, keyAllowed := broken }.push (.scalar .plain text))

/-- Whether a plain scalar may begin with `c`. -/
def startsPlain (inFlow : Bool) (c : Char) (cs : List Char) : Bool :=
  if c = '-' then !(cs.head?.any isBlank)
  else if c = '?' || c = ':' then !inFlow && !endsWord cs
  else !(isBlank c) && c ∉ ",[]\x7b\x7d#&*!|>'\"%@`".toList

/-- Reads the next token, which begins with `c`. -/
def token (s : Scanner) (c : Char) (cs : List Char) : Except Error Scanner :=
  if s.column = 0 && c = '%' then s.directive
  else if s.column = 0 && isMarker (c :: cs) then
    s.marker (if c = '-' then .documentStart else .documentEnd)
  else if c = '[' then s.openFlow .flowSequenceStart
  else if c = '\x7b' then s.openFlow .flowMappingStart
  else if c = ']' then s.closeFlow .flowSequenceEnd
  else if c = '\x7d' then s.closeFlow .flowMappingEnd
  else if c = ',' then s.flowEntry
  else if c = '-' && endsWord cs then s.blockEntry
  else if c = '?' && (s.inFlow || endsWord cs) then s.key
  else if c = ':' && (s.inFlow || endsWord cs) then s.value
  else if c = '*' then s.reference .alias
  else if c = '&' then s.reference .anchor
  else if c = '!' then s.tag
  else if c = '|' && !s.inFlow then s.blockText false
  else if c = '>' && !s.inFlow then s.blockText true
  else if c = '\'' then s.quoted false
  else if c = '"' then s.quoted true
  else if startsPlain s.inFlow c cs then s.plain
  else .error .unexpectedCharacter

/-- Reads all tokens. Every token passes a character, so a text of `n` characters has at most `n`. -/
def run : Nat → Scanner → Except Error (List Token)
  | 0, _ => .error .unexpectedCharacter
  | n + 1, s => do
    let s ← s.toNextToken.dropStale
    let s := s.closeTo s.column
    match s.cursor.rest with
    | [] =>
      let s ← (s.closeTo (-1)).dropKey
      pure s.tokens.toList
    | c :: cs =>
      let s ← s.token c cs
      run n s

end Scanner

/-- The tokens of a text. -/
def tokens (text : String) : Except Error (List Token) := do
  let cs ← characters text
  Scanner.run (cs.length + 1) { cursor := { rest := cs } }

end PointsTo.Yaml
