import Folio.Yaml.Tag

/-!
# Directives

A line in front of a document that begins with a percent sign is a directive. One kind tells the
version of YAML, the other what a handle stands for in the tags of the document.
-/

namespace Folio.Yaml

inductive Directive where
  | version (major minor : Nat)
  | handle (handle : List Char) (beginning : List UInt8)
  deriving DecidableEq, Repr

namespace Directive

/-- The number of a version has at most this many digits. -/
def maxDigits : Nat := 9

/-- Reads a number of a version. -/
def number? (cur : Cursor) : Option (Nat × Cursor) :=
  let digits := cur.rest.takeWhile Char.isDigit
  if digits = [] ∨ maxDigits < digits.length then none
  else
    some (digits.foldl (fun n c => 10 * n + (c.toNat - '0'.toNat)) 0, cur.skip digits.length)

/-- Reads the two numbers of a version. -/
def version? (cur : Cursor) : Option (Directive × Cursor) := do
  let (major, cur) ← number? cur
  if cur.at? 0 ≠ some '.' then none
  let (minor, cur) ← number? (cur.skip 1)
  return (version major minor, cur)

/-- Reads a handle and what it stands for. The handle has to be closed unless it is a lone
exclamation mark. -/
def handle? (fuel : Nat) (cur : Cursor) : Option (Directive × Cursor) := do
  let (name, closed) ← WrittenTag.handle? cur
  if !closed ∧ name ≠ ['!'] then none
  let cur := cur.skip name.length
  if !(cur.at? 0).any isSpaceOrTab then none
  let (beginning, cur) ← someTagOctets? true fuel cur.skipBlanks
  if cur.gapAt 0 then some (handle name beginning, cur) else none

/-- Reads a directive and goes on behind its line. -/
def read? (fuel : Nat) (cur : Cursor) : Option (Directive × Cursor) := do
  let name := (cur.rest.drop 1).takeWhile isNameChar
  let cur := cur.skip (name.length + 1)
  if !cur.gapAt 0 then none
  let (directive, cur) ←
    if name = "YAML".toList then version? cur.skipBlanks
    else if name = "TAG".toList then handle? fuel cur.skipBlanks
    else none
  return (directive, ← cur.endLine?)

/-- The handles that the directives of a document declare. -/
def declared (directives : List Directive) : Handles :=
  directives.filterMap fun
    | handle name beginning => some (name, beginning)
    | version _ _ => none

/-- The versions that the directives of a document tell. -/
def versions (directives : List Directive) : List (Nat × Nat) :=
  directives.filterMap fun
    | version major minor => some (major, minor)
    | handle _ _ => none

/-- What the handles of a document stand for. Its directives tell at most one version, which has to
be 1.1 or 1.2, and no handle twice. -/
def handles? (directives : List Directive) : Option Handles :=
  if [[], [(1, 1)], [(1, 2)]].contains (versions directives)
      ∧ ((declared directives).map Prod.fst).Nodup then
    some (declared directives ++ Handles.preset)
  else none

end Directive

end Folio.Yaml
