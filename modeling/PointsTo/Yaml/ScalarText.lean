import PointsTo.Value.Scalar
import PointsTo.Yaml.Text

/-!
# Scalars in YAML texts

Plain and quoted scalars may go over several lines. Between two words on one line blanks are kept;
across lines they are dropped, a single break becomes a space, and of several breaks all but the first
are kept. Block scalars keep their lines, or fold them in the same way, and lose their indentation.
-/

namespace PointsTo.Yaml

inductive ScalarStyle where
  | plain
  | quoted
  | literal
  | folded
  deriving DecidableEq, Repr

/-! ## Gaps between words -/

/-- What stands between two words of a scalar. -/
inductive Gap where
  | blanks (cs : List Char)
  /-- A first break, empty if it was escaped, and the breaks after it. -/
  | breaks (first more : List Char)

namespace Gap

def push : Gap → Char → Gap
  | blanks cs, c => if isBreak c then breaks [c] [] else blanks (cs ++ [c])
  | breaks first more, c => if isBreak c then breaks first (more ++ [c]) else breaks first more

/-- What a gap contributes to the scalar. -/
def text : Gap → List Char
  | blanks cs => cs
  | breaks ['\n'] [] => [' ']
  | breaks ['\n'] more => more
  | breaks first more => first ++ more

def hasBreak : Gap → Bool
  | blanks _ => false
  | breaks _ _ => true

end Gap

/-! ## Quoted scalars -/

/-- The escapes of a single letter. -/
def escaped : Char → Option Char
  | '0' => some '\x00'
  | 'a' => some '\x07'
  | 'b' => some '\x08'
  | 't' | '\t' => some '\t'
  | 'n' => some '\n'
  | 'v' => some '\x0b'
  | 'f' => some '\x0c'
  | 'r' => some '\r'
  | 'e' => some '\x1b'
  | ' ' => some ' '
  | '"' => some '"'
  | '/' => some '/'
  | '\\' => some '\\'
  | 'N' => some '\x85'
  | '_' => some '\xa0'
  | 'L' => some '\u2028'
  | 'P' => some '\u2029'
  | _ => none

/-- The character of a code in hexadecimal digits. -/
def coded (digits : List Char) : Option Char :=
  (Scalar.number 16 digits).bind fun n ↦ if n.isValidChar then some (Char.ofNat n) else none

/-- Reads on in a scalar between single quotes. What was read so far stands in `acc`, reversed. -/
def singleQuoted : List Char → Place → Gap → List Char → Except Error (String × Cursor)
  | [], _, _, _ => .error .unclosedQuote
  | c :: cs, p, gap, acc =>
    if isBreak c || isBlank c then singleQuoted cs (p.after c) (gap.push c) acc
    else if p.column = 0 && isMarker (c :: cs) then .error .markerInQuotes
    else
      let acc := gap.text.reverse ++ acc
      if c = '\'' then
        match cs with
        | '\'' :: cs => singleQuoted cs ((p.after c).after c) (.blanks []) ('\'' :: acc)
        | cs => .ok (String.ofList acc.reverse, ⟨cs, p.after c⟩)
      else singleQuoted cs (p.after c) (.blanks []) (c :: acc)

/-- Reads on in a scalar between double quotes, where a backslash begins an escape. -/
def doubleQuoted : List Char → Place → Gap → List Char → Except Error (String × Cursor)
  | [], _, _, _ => .error .unclosedQuote
  | c :: cs, p, gap, acc =>
    if isBreak c || isBlank c then doubleQuoted cs (p.after c) (gap.push c) acc
    else if p.column = 0 && isMarker (c :: cs) then .error .markerInQuotes
    else
      let acc := gap.text.reverse ++ acc
      if c = '"' then .ok (String.ofList acc.reverse, ⟨cs, p.after c⟩)
      else if c = '\\' then
        match cs with
        | [] => .error .badEscape
        | 'x' :: a :: b :: cs =>
          match coded [a, b] with
          | some e => doubleQuoted cs (p.afterAll [c, 'x', a, b]) (.blanks []) (e :: acc)
          | none => .error .badEscape
        | 'u' :: a :: b :: d :: e :: cs =>
          match coded [a, b, d, e] with
          | some x => doubleQuoted cs (p.afterAll [c, 'u', a, b, d, e]) (.blanks []) (x :: acc)
          | none => .error .badEscape
        | 'U' :: a :: b :: d :: e :: a' :: b' :: d' :: e' :: cs =>
          let digits := [a, b, d, e, a', b', d', e']
          match coded digits with
          | some x => doubleQuoted cs (p.afterAll (c :: 'U' :: digits)) (.blanks []) (x :: acc)
          | none => .error .badEscape
        | e :: cs =>
          if isBreak e then doubleQuoted cs ((p.after c).after e) (.breaks [] []) acc
          else
            match escaped e with
            | some x => doubleQuoted cs ((p.after c).after e) (.blanks []) (x :: acc)
            | none => .error .badEscape
      else doubleQuoted cs (p.after c) (.blanks []) (c :: acc)

/-! ## Plain scalars -/

/-- Reads on in a plain scalar, inside a flow collection or not, whose further lines have to be set in
by `indent`. The flag of the result tells whether a break was passed behind the scalar. -/
def plainText (flow : Bool) (indent : Nat) :
    List Char → Place → Gap → List Char → Except Error (String × Cursor × Bool)
  | [], p, gap, acc => .ok (String.ofList acc.reverse, ⟨[], p⟩, gap.hasBreak)
  | c :: cs, p, gap, acc =>
    let stop := Except.ok (String.ofList acc.reverse, ⟨c :: cs, p⟩, gap.hasBreak)
    if c = '\t' && gap.hasBreak && p.column < indent then .error .misplacedTab
    else if isBreak c || isBlank c then plainText flow indent cs (p.after c) (gap.push c) acc
    else
      let afterGap := match gap with
        | .blanks [] => false
        | _ => true
      if afterGap && (!flow && p.column < indent || p.column = 0 && isMarker (c :: cs) || c = '#') then
        stop
      else if flow && c = ':' && cs.head?.any (fun d ↦ d = '?' || isIndicator d) then
        .error .misplacedColon
      else if c = ':' && endsWord cs then stop
      else if flow && isIndicator c then stop
      else plainText flow indent cs (p.after c) (.blanks []) (c :: (gap.text.reverse ++ acc))

/-! ## Block scalars -/

/-- What becomes of the breaks at the end of a block scalar. -/
inductive Chomp where
  | strip
  | clip
  | keep
  deriving DecidableEq, Repr

/-- The header of a block scalar: how to end it, and by how much it is set in if that is said. -/
def blockHeader : List Char → Except Error (Chomp × Option Nat × List Char)
  | cs =>
    let chomp? (c : Char) : Option Chomp :=
      if c = '+' then some .keep else if c = '-' then some .strip else none
    let digit? (c : Char) : Option Nat := if c.isDigit then Scalar.digitValue c else none
    match cs with
    | [] => .ok (.clip, none, [])
    | c :: cs =>
      match chomp? c, digit? c with
      | some chomp, _ =>
        match cs.head?.bind digit? with
        | some 0 => .error .badBlockHeader
        | some n => .ok (chomp, some n, cs.tail)
        | none => .ok (chomp, none, cs)
      | none, some 0 => .error .badBlockHeader
      | none, some n =>
        match cs.head?.bind chomp? with
        | some chomp => .ok (chomp, some n, cs.tail)
        | none => .ok (.clip, some n, cs)
      | none, none => .ok (.clip, none, c :: cs)

/-- What was found while looking for the next line of a block scalar that is not empty. -/
structure BlockGap where
  breaks : List Char
  cursor : Cursor
  /-- The widest indentation passed. -/
  widest : Nat

/-- Passes empty lines and indentation, up to the indentation of the scalar if it is known. -/
def blockGap (indent : Option Nat) : List Char → Place → Nat → List Char → Except Error BlockGap
  | [], p, widest, breaks => .ok ⟨breaks, ⟨[], p⟩, max widest p.column⟩
  | c :: cs, p, widest, breaks =>
    let inside := indent.all fun n ↦ p.column < n
    if c = ' ' && inside then blockGap indent cs (p.after c) widest breaks
    else if c = '\t' && inside then .error .misplacedTab
    else if isBreak c then blockGap indent cs (p.after c) (max widest p.column) (breaks ++ [c])
    else .ok ⟨breaks, ⟨c :: cs, p⟩, max widest p.column⟩

/-- The lines of a block scalar read so far. -/
structure BlockLines where
  text : List Char := []
  /-- The break behind the last line. -/
  last : List Char := []
  /-- The breaks of the empty lines after it. -/
  more : List Char := []
  /-- Whether the last line began with a blank. -/
  blank : Bool := false

namespace BlockLines

/-- Appends a line. Folding turns a single break between lines that begin with words into a space. -/
def add (b : BlockLines) (folded : Bool) (line : List Char) : List Char :=
  let blank := line.head?.any isBlank
  let joint :=
    if folded && b.last = ['\n'] && !b.blank && !blank then
      if b.more.isEmpty then [' '] else []
    else b.last
  b.text ++ joint ++ b.more ++ line

def finish (b : BlockLines) : Chomp → List Char
  | .strip => b.text
  | .clip => b.text ++ b.last
  | .keep => b.text ++ b.last ++ b.more

end BlockLines

/-- Reads the lines of a block scalar that is set in by `indent`. Every round passes a line. -/
def blockLines (folded : Bool) (indent : Nat) :
    Nat → BlockLines → Cursor → Except Error (BlockLines × Cursor)
  | 0, b, c => .ok (b, c)
  | fuel + 1, b, c => do
    if c.place.column ≠ indent ∨ c.rest.isEmpty then pure (b, c)
    else
      let line := c.word fun _ ↦ true
      let ending := c.skip line.length
      let next := ending.skip 1
      let gap ← blockGap (some indent) next.rest next.place 0 []
      blockLines folded indent fuel
        { text := b.add folded line
          last := ending.rest.take 1
          more := gap.breaks
          blank := line.head?.any isBlank }
        gap.cursor

/-- Reads a block scalar from behind its indicator on; `parent` is how far the surroundings are set
in, less than zero at the top. -/
def blockScalar (folded : Bool) (parent : Int) (c : Cursor) : Except Error (String × Cursor) := do
  let (chomp, offset, rest) ← blockHeader c.rest
  let c ← (c.skip (c.rest.length - rest.length)).endLine .badBlockHeader
  let given := offset.map fun n ↦ (max parent 0 + n).toNat
  let gap ← blockGap given c.rest c.place 0 []
  let indent := given.getD (max (max gap.widest (parent + 1).toNat) 1)
  let (b, c) ← blockLines folded indent (gap.cursor.rest.length + 1) { more := gap.breaks } gap.cursor
  pure (String.ofList (b.finish chomp), c)

end PointsTo.Yaml
