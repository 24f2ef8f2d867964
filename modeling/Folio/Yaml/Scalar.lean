import Folio.Yaml.Cursor

/-!
# Scalars

A scalar is a text in one of five styles: plain, in single or double quotes, or as a block of
lines that are kept or folded. Each reader starts at the scalar and tells the text and where it
goes on, or `none` if the scalar is malformed. Readers take steps along the text, so their `fuel`
need not exceed the length of what lies ahead by more than one.
-/

namespace Folio.Yaml

inductive ScalarStyle where
  | plain
  | quoted
  | literal
  | folded
  deriving DecidableEq, Repr

/-- A gap between the words of a scalar. A gap without line breaks stays as it is. Otherwise the
first break is a space, unless more breaks follow it, which then stay. Blanks, and the breaks behind
the first, are kept backwards. -/
inductive Gap where
  | blanks (back : List Char)
  | lines (first back : List Char)
  deriving DecidableEq, Repr

namespace Gap

def isEmpty (g : Gap) : Bool := g = blanks []

def hasBreak : Gap → Bool
  | blanks _ => false
  | lines _ _ => true

def addBlank (c : Char) : Gap → Gap
  | blanks back => blanks (c :: back)
  | lines first back => lines first back

def addBreak (text : List Char) : Gap → Gap
  | blanks _ => lines text []
  | lines first back => lines first (text.reverse ++ back)

/-- What the gap stands for, backwards. -/
def textBack : Gap → List Char
  | blanks back => back
  | lines first back =>
    if first ≠ ['\n'] then back ++ first.reverse
    else if back = [] then [' '] else back

end Gap

/-- The character with a code in hexadecimal digits. -/
def ofHex? (digits : List Char) : Option Char := do
  let code ← digits.foldlM (fun n c => (hexDigit? c).map (16 * n + ·)) 0
  if code < 0xd800 ∨ (0xdfff < code ∧ code ≤ 0x10ffff) then some (Char.ofNat code) else none

/-- Reads what stands behind a backslash: the character, and how many characters it takes. -/
def escaped? (ahead : List Char) : Option (Char × Nat) :=
  match ahead with
  | [] => none
  | c :: cs =>
    let code (n : Nat) : Option (Char × Nat) :=
      let digits := cs.take n
      if digits.length = n then (ofHex? digits).map (·, n + 1) else none
    match c with
    | '0' => some ('\x00', 1)
    | 'a' => some ('\x07', 1)
    | 'b' => some ('\x08', 1)
    | 't' | '\t' => some ('\t', 1)
    | 'n' => some ('\n', 1)
    | 'v' => some ('\x0b', 1)
    | 'f' => some ('\x0c', 1)
    | 'r' => some ('\r', 1)
    | 'e' => some ('\x1b', 1)
    | ' ' => some (' ', 1)
    | '"' => some ('"', 1)
    | '/' => some ('/', 1)
    | '\\' => some ('\\', 1)
    | 'N' => some ('\x85', 1)
    | '_' => some ('\xa0', 1)
    | 'L' => some ('\u2028', 1)
    | 'P' => some ('\u2029', 1)
    | 'x' => code 2
    | 'u' => code 4
    | 'U' => code 8
    | _ => none

/-- Reads a quoted scalar behind its opening quote. `read` is the text so far, backwards. -/
def quoted? (quote : Char) : Nat → List Char → Gap → Cursor → Option (List Char × Cursor)
  | 0, _, _, _ => none
  | fuel + 1, read, gap, cur =>
    if cur.atDocumentMarker then none
    else
      match cur.rest with
      | [] => none
      | c :: cs =>
        if isSpaceOrTab c then quoted? quote fuel read (gap.addBlank c) (cur.skip 1)
        else if isBreak c then
          quoted? quote fuel read (gap.addBreak cur.skipBreak.1) cur.skipBreak.2
        else
          let read := gap.textBack ++ read
          if c = quote then
            if quote = '\'' ∧ cs.head? = some '\'' then
              quoted? quote fuel ('\'' :: read) (.blanks []) (cur.skip 2)
            else some (read.reverse, cur.skip 1)
          else if c = '\\' ∧ quote = '"' then
            if cs.head?.any isBreak then
              quoted? quote fuel read (.lines [] []) (cur.skip 1).skipBreak.2
            else
              match escaped? cs with
              | none => none
              | some (c, n) => quoted? quote fuel (c :: read) (.blanks []) (cur.skip (n + 1))
          else quoted? quote fuel (c :: read) (.blanks []) (cur.skip 1)

/-- The characters that end a plain scalar inside brackets. -/
def isFlowIndicator (c : Char) : Bool := [',', '[', ']', '\x7b', '\x7d'].contains c

/-- Does a plain scalar end in front of the character at hand? Outside of brackets its lines have to
be indented by `indent`. A comment and the mark of a document need a gap in front of them. -/
def endsPlain (flow : Bool) (indent : Nat) (gap : Gap) (cur : Cursor) (c : Char) : Bool :=
  (c = ':' && cur.gapAt 1) || (flow && isFlowIndicator c)
    || (!gap.isEmpty && ((!flow && cur.column < indent) || cur.atDocumentMarker || c = '#'))

/-- Reads a plain scalar. The answer tells also whether a line break was read behind the scalar. -/
def plain? (flow : Bool) (indent : Nat) :
    Nat → List Char → Gap → Cursor → Option (List Char × Cursor × Bool)
  | 0, _, _, _ => none
  | fuel + 1, read, gap, cur =>
    match cur.rest with
    | [] => some (read.reverse, cur, gap.hasBreak)
    | c :: _ =>
      if isSpaceOrTab c then
        if gap.hasBreak ∧ cur.column < indent ∧ c = '\t' then none
        else plain? flow indent fuel read (gap.addBlank c) (cur.skip 1)
      else if isBreak c then
        plain? flow indent fuel read (gap.addBreak cur.skipBreak.1) cur.skipBreak.2
      else if flow && c = ':' && (cur.at? 1).any fun c => isFlowIndicator c || c = '?' then none
      else if endsPlain flow indent gap cur c then some (read.reverse, cur, gap.hasBreak)
      else
        plain? flow indent fuel (c :: (gap.textBack ++ read)) (.blanks []) (cur.skip 1)

/-- What happens to the line breaks at the end of a block scalar. -/
inductive Chomping where
  | strip
  | clip
  | keep
  deriving DecidableEq, Repr

/-- Reads the mark of a chomping. -/
def chomping? : Char → Option Chomping
  | '-' => some .strip
  | '+' => some .keep
  | _ => none

/-- Reads the digit of an indentation. -/
def indentDigit? (c : Char) : Option Nat :=
  if '1' ≤ c ∧ c ≤ '9' then some (c.toNat - '0'.toNat) else none

/-- Reads chomping and indentation in either order, and tells how many characters they take. -/
def blockHeader (ahead : List Char) : Chomping × Option Nat × Nat :=
  match ahead with
  | [] => (.clip, none, 0)
  | c :: cs =>
    match chomping? c, indentDigit? c with
    | some chomping, _ =>
      match cs.head?.bind indentDigit? with
      | some n => (chomping, some n, 2)
      | none => (chomping, none, 1)
    | none, some n =>
      match cs.head?.bind chomping? with
      | some chomping => (chomping, some n, 2)
      | none => (.clip, some n, 1)
    | none, none => (.clip, none, 0)

/-- Goes on behind indentation and empty lines. The answer is the breaks of those lines, and the
largest column that was seen. -/
def blockBreaks (indent : Option Nat) :
    Nat → List Char → Nat → Cursor → Option (List Char × Nat × Cursor)
  | 0, _, _, _ => none
  | fuel + 1, breaks, deepest, cur =>
    let inside := indent.all (cur.column < ·)
    match cur.rest with
    | c :: _ =>
      if inside ∧ c = ' ' then
        blockBreaks indent fuel breaks (max deepest (cur.column + 1)) (cur.skip 1)
      else if inside ∧ c = '\t' then none
      else if isBreak c then
        blockBreaks indent fuel (breaks ++ cur.skipBreak.1) (max deepest cur.column) cur.skipBreak.2
      else some (breaks, max deepest cur.column, cur)
    | [] => some (breaks, max deepest cur.column, cur)

/-- Reads the lines of a block scalar. `read` is the text so far, backwards, `lead` the break in
front of the line at hand, and `more` the breaks of the empty lines behind it. `wasBlank` tells
whether the line before starts with a blank. Lines are folded only between lines that do not. -/
def blockLines (literal : Bool) (indent : Nat) (chomping : Chomping) :
    Nat → List Char → (lead more : List Char) → (wasBlank : Bool) → Cursor →
    Option (List Char × Cursor)
  | 0, _, _, _, _, _ => none
  | fuel + 1, read, lead, more, wasBlank, cur =>
    if cur.column ≠ indent ∨ cur.rest = [] then
      some (read.reverse ++ (if chomping = .strip then [] else lead)
        ++ (if chomping = .keep then more else []), cur)
    else
      let blank := cur.rest.head?.any isSpaceOrTab
      let folded := !literal && lead = ['\n'] && !wasBlank && !blank
      let joint := if folded then (if more = [] then [' '] else more) else lead ++ more
      let line := cur.rest.takeWhile fun c => !isBreak c
      let (lead, next) := (cur.skip line.length).skipBreak
      match blockBreaks (some indent) fuel [] 0 next with
      | none => none
      | some (more, _, next) =>
        let read := line.reverse ++ (joint.reverse ++ read)
        blockLines literal indent chomping fuel read lead more blank next

/-- Reads a block scalar behind its indicator. `parent` is the indentation that the lines must
exceed. -/
def block? (literal : Bool) (parent : Option Nat) (fuel : Nat) (cur : Cursor) :
    Option (List Char × Cursor) := do
  let (chomping, increment, n) := blockHeader cur.rest
  let cur ← (cur.skip n).endLine?
  let fixed := increment.map fun n => parent.getD 0 + n
  let (breaks, deepest, cur) ← blockBreaks fixed fuel [] 0 cur
  let least := match parent with
    | some p => p + 1
    | none => 1
  let indent := fixed.getD (max deepest least)
  blockLines literal indent chomping fuel [] [] breaks false cur

end Folio.Yaml
