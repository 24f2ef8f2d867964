import Folio.Yaml.Token
import Folio.Yaml.Tree

/-!
# Data

The data of a YAML text is a tree, and the values that its aliases stand for. `Data.read?` reads a
text with one document: it cuts the text into tokens, and descends along them.

Anchors have numbers, and an alias stands for the last value that has the number of its name. A name
can be used again, and its new number can be that of another name. The values are known only behind
the end of the document, and a value may contain an alias that stands for the value itself.
-/

namespace Folio.Yaml

/-- The names of anchors, each with the number of its last anchor. -/
abbrev AnchorNames := List (List Char × Nat)

/-- Gives an anchor its number, which is how many names are in use so far. A name that is used again
does not make them more, so the next new name takes the same number. -/
def AnchorNames.add (names : AnchorNames) (name : List Char) : AnchorNames × Nat :=
  ((name, names.length) :: names.filter fun known => known.1 ≠ name, names.length)

/-- How far the tokens of a document are read. -/
structure Parsing where
  tokens : List Token
  handles : Handles
  names : AnchorNames := []
  /-- The numbers of the anchors in reading order, and what they are put on as soon as it is
  read. -/
  anchored : Array (Nat × Tree) := #[]

namespace Parsing

/-- Reading something from the tokens ahead. -/
abbrev Parser (α : Type) := StateT Parsing Option α

def peek : Parser (Option Token) := do return (← get).tokens.head?

def skip : Parser Unit := modify fun s => { s with tokens := s.tokens.tail }

/-- Skips the given token if it is the next one. -/
def skipIf (t : Token) : Parser Bool := do
  if (← peek) = some t then
    skip
    return true
  else return false

/-- Is one of the given tokens the next one? -/
def atAny (ts : List Token) : Parser Bool := do return (← peek).any ts.contains

/-- Reads the name of an anchor. -/
def anchor? : Parser (Option (List Char)) := do
  if let some (.anchor name) ← peek then
    skip
    return some name
  else return none

/-- Reads a tag, whose handle has to be known. -/
def tag? : Parser (Option Tag) := do
  if let some (.tag tag) ← peek then
    skip
    return some (← tag.resolve? (← get).handles)
  else return none

/-- Reads an anchor and a tag, which may stand in either order. -/
def properties : Parser (Option (List Char) × Option Tag) := do
  match ← anchor? with
  | some name => return (some name, ← tag?)
  | none =>
    let tag ← tag?
    let name ← if tag.isSome then anchor? else pure none
    return (name, tag)

/-- Notes an anchor, whose value is read next. The answer is its place among the anchors. -/
def noteAnchor (name : List Char) : Parser Nat := do
  let s ← get
  let (names, number) := s.names.add name
  set { s with names, anchored := s.anchored.push (number, Tree.empty none) }
  return s.anchored.size

/-- Notes the value of the anchor at a place among the anchors. -/
def noteValue (place : Nat) (value : Tree) : Parser Unit :=
  modify fun s => { s with anchored := s.anchored.modify place fun (number, _) => (number, value) }

mutual

/-- Reads a tree. Blocks are allowed only outside of brackets, and a sequence may begin without a
token of its own if it is the value of a key. Every call takes a token or leads to one that does,
so `fuel` need not exceed the number of tokens by more than a few times. -/
def node : (fuel : Nat) → (block loose : Bool) → Parser Tree
  | 0, _, _ => failure
  | fuel + 1, block, loose => do
    if let some (.reference name) ← peek then
      skip
      return .reference (← (← get).names.lookup name)
    match ← properties with
    | (none, tag) => content fuel block loose false tag
    | (some name, tag) =>
      let place ← noteAnchor name
      let tree ← content fuel block loose true tag
      noteValue place tree
      return tree

/-- Reads a tree with the given tag. It may be left out if there is an anchor or a tag in front of
it. -/
def content : (fuel : Nat) → (block loose anchored : Bool) → Option Tag → Parser Tree
  | 0, _, _, _, _ => failure
  | fuel + 1, block, loose, anchored, tag => do
    let next ← peek
    if loose ∧ next = some .blockEntry then return .sequence (← looseItems fuel) tag
    match next with
    | some (.scalar text style) =>
      skip
      return .scalar (String.ofList text) style tag
    | some .flowSequence =>
      skip
      return .sequence (← flowItems fuel true) tag
    | some .flowMapping =>
      skip
      return .mapping (← flowEntries fuel true) tag
    | some .blockSequence =>
      if block then
        skip
        return .sequence (← blockItems fuel) tag
    | some .blockMapping =>
      if block then
        skip
        return .mapping (← blockEntries fuel) tag
    | _ => pure ()
    if anchored ∨ tag.isSome then return .empty tag else failure

/-- Reads a tree, which is left out if one of the given tokens comes next. -/
def nodeBefore : (fuel : Nat) → (block loose : Bool) → List Token → Parser Tree
  | 0, _, _, _ => failure
  | fuel + 1, block, loose, ts => do
    if ← atAny ts then return .empty none else node fuel block loose

/-- Reads the items of a block up to its end. -/
def blockItems : (fuel : Nat) → Parser (List Tree)
  | 0 => failure
  | fuel + 1 => do
    if ← skipIf .blockEnd then return []
    if ← skipIf .blockEntry then
      let item ← nodeBefore fuel true false [.blockEntry, .blockEnd]
      return item :: (← blockItems fuel)
    failure

/-- Reads items as long as there are some. -/
def looseItems : (fuel : Nat) → Parser (List Tree)
  | 0 => failure
  | fuel + 1 => do
    if ← skipIf .blockEntry then
      let item ← nodeBefore fuel true false [.blockEntry, .key, .value, .blockEnd]
      return item :: (← looseItems fuel)
    return []

/-- Reads the entries of a block up to its end. A value needs a key in front of it, which may be
left out behind its mark. -/
def blockEntries : (fuel : Nat) → Parser (List (Tree × Tree))
  | 0 => failure
  | fuel + 1 => do
    if ← skipIf .blockEnd then return []
    let ends := [.key, .value, .blockEnd]
    if ← skipIf .key then
      let key ← nodeBefore fuel true true ends
      let value ← if ← skipIf .value then nodeBefore fuel true true ends else pure (.empty none)
      return (key, value) :: (← blockEntries fuel)
    failure

/-- Reads the items between brackets. An item can be a mapping with one entry. -/
def flowItems : (fuel : Nat) → (first : Bool) → Parser (List Tree)
  | 0, _ => failure
  | fuel + 1, first => do
    if ← skipIf .flowSequenceEnd then return []
    if !first then
      if !(← skipIf .flowEntry) then failure
      if ← skipIf .flowSequenceEnd then return []
    let item ← if ← skipIf .key then flowPair fuel else node fuel false false
    return item :: (← flowItems fuel false)

/-- Reads a mapping without braces behind the mark of its key. If the key is left out, then the
token that comes in its place is skipped. -/
def flowPair : (fuel : Nat) → Parser Tree
  | 0 => failure
  | fuel + 1 => do
    let key ←
      if ← atAny [.value, .flowEntry, .flowSequenceEnd] then do
        skip
        pure (.empty none)
      else node fuel false false
    return .mapping [(key, ← flowValue fuel .flowSequenceEnd)] none

/-- Reads a value between brackets, if there is one. -/
def flowValue : (fuel : Nat) → Token → Parser Tree
  | 0, _ => failure
  | fuel + 1, closing => do
    if ← skipIf .value then nodeBefore fuel false false [.flowEntry, closing]
    else return .empty none

/-- Reads the entries between braces. -/
def flowEntries : (fuel : Nat) → (first : Bool) → Parser (List (Tree × Tree))
  | 0, _ => failure
  | fuel + 1, first => do
    if ← skipIf .flowMappingEnd then return []
    if !first then
      if !(← skipIf .flowEntry) then failure
      if ← skipIf .flowMappingEnd then return []
    let entry ←
      if ← skipIf .key then do
        let key ← nodeBefore fuel false false [.value, .flowEntry, .flowMappingEnd]
        pure (key, ← flowValue fuel .flowMappingEnd)
      else do
        pure (← node fuel false false, .empty none)
    return entry :: (← flowEntries fuel false)

end

/-- Reads a document, which may be left out behind the mark of its beginning. A text without any
token is a document that is left out. -/
def document (fuel : Nat) : Parser Tree := do
  let marked ← skipIf .documentStart
  match ← peek with
  | none => return .empty none
  | some .documentEnd => if marked then return .empty none else failure
  | some _ => node fuel true false

/-- Reads the directives in front of a document. -/
def directives : List Token → List Directive × List Token
  | .directive d :: rest =>
    let (ds, rest) := directives rest
    (d :: ds, rest)
  | ts => ([], ts)

/-- Skips the ends of documents. -/
def skipEnds : List Token → List Token
  | .documentEnd :: rest => skipEnds rest
  | ts => ts

end Parsing

/-- The data of a text: its tree, and what its aliases stand for. -/
structure Data where
  root : Tree
  anchored : List (Nat × Tree)

namespace Data

open Parsing

/-- Reads the tokens of a text with one document. Behind directives the document needs the mark of
its beginning. -/
def ofTokens? (tokens : List Token) : Option Data := do
  let (ds, body) := directives tokens
  let handles ← Directive.handles? ds
  if ds ≠ [] ∧ body.head? ≠ some .documentStart then none
  let (root, s) ← (document (8 * tokens.length + 8)).run { tokens := body, handles }
  if skipEnds s.tokens = [] then return ⟨root, s.anchored.toList.reverse⟩ else none

/-- Reads a text with one document. -/
def read? (text : String) : Option Data := do ofTokens? (← tokens? text)

/-- What an alias stands for: the value of the last of the anchors with a number. -/
def value? (d : Data) (anchor : Nat) : Option Tree := d.anchored.lookup anchor

end Data

end Folio.Yaml
