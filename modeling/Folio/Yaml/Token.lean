import Folio.Yaml.Directive
import Folio.Yaml.Scalar

/-!
# Tokens

The tokens of a YAML text. Outside of brackets, the columns of the lines make up the nesting:
tokens for the beginning and the end of a block say where the column of the entries changes.

A key of a mapping is known to be one only when the colon behind it is met. Until then it is a
*possible* key, and its place among the tokens is kept.
-/

namespace Folio.Yaml

inductive Token where
  | directive (d : Directive)
  | documentStart
  | documentEnd
  | blockSequence
  | blockMapping
  | blockEnd
  | flowSequence
  | flowSequenceEnd
  | flowMapping
  | flowMappingEnd
  | blockEntry
  | flowEntry
  | key
  | value
  | anchor (name : List Char)
  | reference (name : List Char)
  | tag (t : WrittenTag)
  | scalar (text : List Char) (style : ScalarStyle)
  deriving DecidableEq, Repr

/-- A token that is a key of a mapping if a colon follows in the same line. -/
structure PossibleKey where
  /-- Nothing but a key may stand at this place. -/
  required : Bool
  /-- The place among the tokens. -/
  place : Nat
  cursor : Cursor
  deriving DecidableEq, Repr

/-- How far a text is cut into tokens. -/
structure Lexing where
  cursor : Cursor
  /-- More than the number of characters ahead, so fuel for reading any of them. -/
  fuel : Nat
  tokens : Array Token := #[]
  /-- How many brackets are open. -/
  depth : Nat := 0
  /-- The column of the entries of the present block. -/
  indent : Option Nat := none
  /-- The columns of the blocks around it, the innermost first. -/
  outer : List (Option Nat) := []
  /-- May a key begin here? -/
  keyAllowed : Bool := true
  /-- The possible key of the text outside of brackets and inside each open bracket, the innermost
  first. -/
  keys : List (Option PossibleKey) := [none]

namespace Lexing

def push (s : Lexing) (t : Token) : Lexing := { s with tokens := s.tokens.push t }

/-- Goes on by some characters, which are the given token. -/
def take (s : Lexing) (n : Nat) (t : Token) : Lexing :=
  { s.push t with cursor := s.cursor.skip n }

/-- Is a column left of the present block? -/
def leaves (column indent : Option Nat) : Bool :=
  match column, indent with
  | some c, some i => c < i
  | none, some _ => true
  | _, none => false

/-- Ends the blocks whose entries stand right of a column, or all blocks. -/
def endBlocks (column : Option Nat) :
    Option Nat → List (Option Nat) → Array Token → Option Nat × List (Option Nat) × Array Token
  | indent, [], tokens => (indent, [], tokens)
  | indent, outer :: rest, tokens =>
    if leaves column indent then endBlocks column outer rest (tokens.push .blockEnd)
    else (indent, outer :: rest, tokens)

/-- Ends the blocks whose entries stand right of a column, or all blocks. -/
def unindent (s : Lexing) (column : Option Nat) : Lexing :=
  if s.depth > 0 then s
  else
    let (indent, outer, tokens) := endBlocks column s.indent s.outer s.tokens
    { s with indent, outer, tokens }

/-- Begins a block if a column lies right of the present one. The token of the block goes to the
given place. -/
def indentTo (s : Lexing) (column place : Nat) (t : Token) : Lexing :=
  if s.depth = 0 ∧ s.indent.all (· < column) then
    { s with
      indent := some column, outer := s.indent :: s.outer
      tokens := s.tokens.insertIdxIfInBounds place t }
  else s

/-- The possible key at hand. -/
def key? (s : Lexing) : Option PossibleKey := s.keys.head?.join

/-- Gives up the possible key at hand. -/
def dropKey (s : Lexing) : Option Lexing :=
  match s.key? with
  | some { required := true, .. } => none
  | _ => some { s with keys := none :: s.keys.tail }

/-- Notes that the next token can be a key. -/
def noteKey (s : Lexing) : Option Lexing :=
  if s.keyAllowed then do
    let required := s.depth = 0 ∧ s.indent = some s.cursor.column
    let s ← s.dropKey
    return { s with
      keys := some ⟨required, s.tokens.size, s.cursor⟩ :: s.keys.tail, keyAllowed := false }
  else some { s with keyAllowed := false }

/-- Is a possible key still near enough? It has to stand in the same line. -/
def isNear (s : Lexing) (key : PossibleKey) : Bool :=
  key.cursor.line = s.cursor.line && s.cursor.index ≤ key.cursor.index + 1024

/-- Goes on behind gaps and comments. A new line may begin with a key, so it must not be indented
by tabs. A byte order mark at the beginning of a line is a gap. -/
def skipGaps : Nat → Lexing → Lexing
  | 0, s => s
  | fuel + 1, s =>
    match s.cursor.rest with
    | [] => s
    | c :: _ =>
      if c = ' ' ∨ (c = '\t' ∧ (s.depth > 0 ∨ !s.keyAllowed))
          ∨ (c = '\ufeff' ∧ s.cursor.column = 0) then
        skipGaps fuel { s with cursor := s.cursor.skip 1 }
      else if c = '#' then skipGaps fuel { s with cursor := s.cursor.skipLine }
      else if isBreak c then
        skipGaps fuel
          { s with cursor := s.cursor.skipBreak.2, keyAllowed := s.keyAllowed || s.depth = 0 }
      else s

/-- A directive. -/
def directive (s : Lexing) : Option Lexing := do
  let s ← (s.unindent none).dropKey
  let (d, cursor) ← Directive.read? s.fuel s.cursor
  return { s.push (.directive d) with cursor, keyAllowed := false }

/-- The beginning or the end of a document. -/
def documentMarker (s : Lexing) (t : Token) : Option Lexing := do
  let s ← (s.unindent none).dropKey
  return { s with keyAllowed := false }.take 3 t

/-- The opening of a bracket. -/
def openBracket (s : Lexing) (t : Token) : Option Lexing := do
  let s ← s.noteKey
  return { s with depth := s.depth + 1, keys := none :: s.keys, keyAllowed := true }.take 1 t

/-- The closing of a bracket. -/
def closeBracket (s : Lexing) (t : Token) : Option Lexing := do
  let s ← s.dropKey
  let s := if s.depth > 0 then { s with depth := s.depth - 1, keys := s.keys.tail } else s
  return { s with keyAllowed := false }.take 1 t

/-- The mark of an entry of a block, of a key, or of a value that has no key. -/
def blockMark (s : Lexing) (block t : Token) : Option Lexing :=
  if s.depth = 0 ∧ !s.keyAllowed then none
  else
    (s.indentTo s.cursor.column s.tokens.size block).dropKey.map fun s =>
      { s with keyAllowed := s.depth = 0 || t = Token.blockEntry }.take 1 t

/-- The colon in front of a value. -/
def valueMark (s : Lexing) : Option Lexing :=
  match s.key? with
  | some key =>
    if s.isNear key then
      let s := { s with
        tokens := s.tokens.insertIdxIfInBounds key.place .key
        keys := none :: s.keys.tail, keyAllowed := false }
      some ((s.indentTo key.cursor.column key.place .blockMapping).take 1 .value)
    else if key.required then none
    else s.blockMark .blockMapping .value
  | none => s.blockMark .blockMapping .value

/-- A name behind a mark. -/
def named (s : Lexing) (token : List Char → Token) : Option Lexing := do
  let s ← s.noteKey
  let name := (s.cursor.rest.drop 1).takeWhile isNameChar
  let next := s.cursor.skip (name.length + 1)
  let ends := next.gapAt 0 || (next.at? 0).any fun c => "?:,]\x7d%@\x60".toList.contains c
  if name = [] || !ends then none
  return s.take (name.length + 1) (token name)

/-- A tag in front of a value. -/
def tagged (s : Lexing) : Option Lexing := do
  let s ← s.noteKey
  let (tag, cursor) ← WrittenTag.read? (s.depth > 0) s.fuel s.cursor
  return { s.push (.tag tag) with cursor }

/-- A scalar that was read. -/
def scalar (s : Lexing) (text : List Char) (style : ScalarStyle) (cursor : Cursor) : Lexing :=
  { s.push (.scalar text style) with cursor }

/-- A scalar in quotes. -/
def quotedScalar (s : Lexing) (quote : Char) : Option Lexing := do
  let s ← s.noteKey
  let (text, cursor) ← quoted? quote s.fuel [] (.blanks []) (s.cursor.skip 1)
  return s.scalar text .quoted cursor

/-- A scalar that is a block of lines. -/
def blockScalar (s : Lexing) (literal : Bool) : Option Lexing := do
  let s ← s.dropKey
  let (text, cursor) ← block? literal s.indent s.fuel (s.cursor.skip 1)
  let style := if literal then ScalarStyle.literal else .folded
  return { s.scalar text style cursor with keyAllowed := true }

/-- A scalar without marks. -/
def plainScalar (s : Lexing) : Option Lexing := do
  let s ← s.noteKey
  let indent := match s.indent with
    | some i => i + 1
    | none => 0
  let (text, cursor, broken) ← plain? (s.depth > 0) indent s.fuel [] (.blanks []) s.cursor
  return { s.scalar text .plain cursor with keyAllowed := broken }

/-- The characters that begin something other than a plain scalar. -/
def indicators : List Char :=
  ['-', '?', ':', ',', '[', ']', '\x7b', '\x7d', '#', '&', '*', '!', '|', '>', '\'', '"', '%', '@',
    '\x60']

/-- May a plain scalar begin here? -/
def beginsPlain (s : Lexing) (c : Char) : Bool :=
  if indicators.contains c then
    (c = '-' && !(s.cursor.at? 1).any isSpaceOrTab)
      || (s.depth = 0 && (c = '?' || c = ':') && !s.cursor.gapAt 1)
  else !isGap c

/-- Reads the next token, which begins with a character at the place at hand. -/
def next (s : Lexing) (c : Char) : Option Lexing :=
  let flow := s.depth > 0
  if c = '%' ∧ s.cursor.column = 0 then s.directive
  else if s.cursor.atMarker '-' then s.documentMarker .documentStart
  else if s.cursor.atMarker '.' then s.documentMarker .documentEnd
  else if c = '[' then s.openBracket .flowSequence
  else if c = '\x7b' then s.openBracket .flowMapping
  else if c = ']' then s.closeBracket .flowSequenceEnd
  else if c = '\x7d' then s.closeBracket .flowMappingEnd
  else if c = ',' then s.dropKey.map fun s => { s with keyAllowed := true }.take 1 .flowEntry
  else if c = '-' && s.cursor.gapAt 1 then s.blockMark .blockSequence .blockEntry
  else if c = '?' && (flow || s.cursor.gapAt 1) then s.blockMark .blockMapping .key
  else if c = ':' && (flow || s.cursor.gapAt 1) then s.valueMark
  else if c = '*' then s.named .reference
  else if c = '&' then s.named .anchor
  else if c = '!' then s.tagged
  else if c = '|' && !flow then s.blockScalar true
  else if c = '>' && !flow then s.blockScalar false
  else if c = '\'' || c = '"' then s.quotedScalar c
  else if s.beginsPlain c then s.plainScalar
  else none

/-- Reads all tokens. Each but the last step leaves a character behind. -/
def run : Nat → Lexing → Option (List Token)
  | 0, _ => none
  | fuel + 1, s =>
    let s := skipGaps s.fuel s
    match s.cursor.rest with
    | [] => (s.unindent none).dropKey.map (·.tokens.toList)
    | c :: _ => ((s.unindent (some s.cursor.column)).next c).bind (run fuel)

end Lexing

/-- Cuts a text into tokens. -/
def tokens? (text : String) : Option (List Token) :=
  let cs := text.toList
  let fuel := cs.length + 1
  if cs.all isPrintable then Lexing.run fuel { cursor := { rest := cs }, fuel } else none

end Folio.Yaml
