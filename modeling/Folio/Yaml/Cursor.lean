/-!
# Positions in a text

A cursor is a place in a YAML text: what lies ahead, and the line and the column of the place,
which decide about nesting. Line breaks are read in their several spellings.
-/

namespace Folio.Yaml

def isSpaceOrTab (c : Char) : Bool := c = ' ' || c = '\t'

/-- The characters that break lines. -/
def isBreak (c : Char) : Bool :=
  c = '\r' || c = '\n' || c = '\x85' || c = '\u2028' || c = '\u2029'

def isGap (c : Char) : Bool := isSpaceOrTab c || isBreak c

/-- The characters that may stand in a text at all. -/
def isPrintable (c : Char) : Bool :=
  let n := c.toNat
  n = 9 || n = 0xa || n = 0xd || (0x20 ≤ n && n ≤ 0x7e) || n = 0x85
    || (0xa0 ≤ n && n ≤ 0xfffd) || 0x10000 ≤ n

/-- The characters of the names of anchors, tags and directives. -/
def isNameChar (c : Char) : Bool := c.isAlphanum || c = '-' || c = '_'

/-- The value of a hexadecimal digit. -/
def hexDigit? (c : Char) : Option Nat :=
  if c.isDigit then some (c.toNat - '0'.toNat)
  else if 'a' ≤ c ∧ c ≤ 'f' then some (c.toNat - 'a'.toNat + 10)
  else if 'A' ≤ c ∧ c ≤ 'F' then some (c.toNat - 'A'.toNat + 10)
  else none

/-- A place in a text. -/
structure Cursor where
  rest : List Char
  /-- How many characters lie behind. -/
  index : Nat := 0
  line : Nat := 0
  column : Nat := 0
  deriving DecidableEq, Repr

namespace Cursor

/-- The character that lies `n` characters ahead. -/
def at? (cur : Cursor) (n : Nat) : Option Char := cur.rest[n]?

/-- Does a gap or the end of the text lie `n` characters ahead? -/
def gapAt (cur : Cursor) (n : Nat) : Bool := (cur.at? n).all isGap

/-- Goes on by characters that break no line. -/
def skip (cur : Cursor) (n : Nat) : Cursor :=
  { cur with rest := cur.rest.drop n, index := cur.index + n, column := cur.column + n }

/-- Goes on behind a line break, and tells what it stands for. -/
def skipBreak (cur : Cursor) : List Char × Cursor :=
  let next (n : Nat) : Cursor :=
    { rest := cur.rest.drop n, index := cur.index + n, line := cur.line + 1, column := 0 }
  match cur.rest with
  | '\r' :: '\n' :: _ => (['\n'], next 2)
  | c :: _ => if c = '\u2028' || c = '\u2029' then ([c], next 1) else (['\n'], next 1)
  | [] => ([], cur)

/-- Goes on behind spaces and tabs. -/
def skipBlanks (cur : Cursor) : Cursor :=
  cur.skip (cur.rest.takeWhile isSpaceOrTab).length

/-- Goes on to the end of the line. -/
def skipLine (cur : Cursor) : Cursor :=
  cur.skip (cur.rest.takeWhile fun c => !isBreak c).length

/-- Goes on behind the rest of a line on which nothing but a comment is left. -/
def endLine? (cur : Cursor) : Option Cursor :=
  let cur := cur.skipBlanks
  let cur := if cur.at? 0 = some '#' then cur.skipLine else cur
  if (cur.at? 0).all isBreak then some cur.skipBreak.2 else none

/-- Is this the beginning of a line with three of the given characters, and nothing more? -/
def atMarker (cur : Cursor) (c : Char) : Bool :=
  cur.column = 0 && cur.rest.take 3 = [c, c, c] && cur.gapAt 3

/-- Does a document begin or end here? -/
def atDocumentMarker (cur : Cursor) : Bool := cur.atMarker '-' || cur.atMarker '.'

end Cursor

end Folio.Yaml
