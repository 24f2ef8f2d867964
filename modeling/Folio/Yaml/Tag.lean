import Folio.Yaml.Cursor

/-!
# Tags

A tag says of what kind a value is. It is written behind an exclamation mark: either as a whole in
angle brackets, or as a handle, which stands for the beginning of the tag, and the rest. Octets
outside of ASCII are written by their hexadecimal digits behind a percent sign.

`WrittenTag.read?` reads what is written, and `WrittenTag.resolve?` puts the beginning in place of
the handle.
-/

namespace Folio.Yaml

/-- The octets of a text of ASCII characters. -/
def asciiOctets (text : List Char) : List UInt8 := text.map fun c => UInt8.ofNat c.toNat

/-- A tag. It can consist of any octets but zero, so it need not be a text. -/
structure Tag where
  octets : List UInt8
  deriving DecidableEq, Repr

namespace Tag

/-- The beginning of the tags of the types that all readers know. -/
def common : List UInt8 := asciiOctets "tag:yaml.org,2002:".toList

/-- The tag of values that are absent. -/
def absent : Tag := ⟨common ++ asciiOctets "null".toList⟩

/-- The tag of truth values. -/
def truth : Tag := ⟨common ++ asciiOctets "bool".toList⟩

/-- Does the tag name a type of its own? It does if it is a text that begins with an exclamation
mark. -/
def isLocal (t : Tag) : Bool :=
  t.octets.head? = some 0x21 && t.octets.tail.toByteArray.validateUTF8

end Tag

/-- Which beginnings of tags the handles stand for. -/
abbrev Handles := List (List Char × List UInt8)

/-- The handles that every document has unless it gives them another meaning. -/
def Handles.preset : Handles := [(['!'], [0x21]), (['!', '!'], Tag.common)]

/-- Reads an octet that is written as a percent sign and two digits. -/
def octet? : List Char → Option UInt8
  | '%' :: a :: b :: _ => do return UInt8.ofNat (16 * (← hexDigit? a) + (← hexDigit? b))
  | _ => none

/-- How many octets belong to the character that the given one begins. -/
def octetCount? (lead : UInt8) : Option Nat :=
  if lead < 0x80 then some 1
  else if lead &&& 0xe0 = 0xc0 then some 2
  else if lead &&& 0xf0 = 0xe0 then some 3
  else if lead &&& 0xf8 = 0xf0 then some 4
  else none

/-- Reads the written octets of one character. -/
def octets? (ahead : List Char) : Option (List UInt8) := do
  let lead ← octet? ahead
  let trail ← (List.range ((← octetCount? lead) - 1)).mapM fun i => do
    let octet ← octet? (ahead.drop (3 * (i + 1)))
    if octet &&& 0xc0 = 0x80 then some octet else none
  return lead :: trail

/-- The characters that stand for themselves in tags. Where nothing else can follow, commas and
square brackets do so as well. -/
def isTagChar (all : Bool) (c : Char) : Bool :=
  isNameChar c || ";/?:@&=+$.!~*\x27()".toList.contains c || (all && [',', '[', ']'].contains c)

/-- Reads characters of a tag as long as there are some. `fuel` need not exceed the number of
characters ahead by more than one. -/
def tagOctets? (all : Bool) : (fuel : Nat) → Cursor → Option (List UInt8 × Cursor)
  | 0, _ => none
  | fuel + 1, cur =>
    match cur.rest with
    | [] => some ([], cur)
    | c :: _ => do
      if c = '%' then
        let octets ← octets? cur.rest
        let (rest, next) ← tagOctets? all fuel (cur.skip (3 * octets.length))
        return (octets ++ rest, next)
      else if isTagChar all c then
        let (rest, next) ← tagOctets? all fuel (cur.skip 1)
        return (UInt8.ofNat c.toNat :: rest, next)
      else return ([], cur)

/-- Reads characters of a tag, of which there has to be one. An octet that is zero ends the tag,
whatever is written behind it. -/
def someTagOctets? (all : Bool) (fuel : Nat) (cur : Cursor) : Option (List UInt8 × Cursor) := do
  let (octets, next) ← tagOctets? all fuel cur
  if octets = [] then none else return (octets.takeWhile (· ≠ 0), next)

/-- A tag as it is written. A tag in angle brackets has no handle. -/
structure WrittenTag where
  handle : List Char
  rest : List UInt8
  deriving DecidableEq, Repr

namespace WrittenTag

/-- The handle at hand: an exclamation mark with a name behind it, and the mark that closes it. -/
def handle? (cur : Cursor) : Option (List Char × Bool) :=
  match cur.rest with
  | '!' :: cs =>
    let name := cs.takeWhile isNameChar
    if (cs.drop name.length).head? = some '!' then some ('!' :: name ++ ['!'], true)
    else some ('!' :: name, false)
  | _ => none

/-- Reads a tag, behind which there has to be a gap, or a comma if it stands in brackets. What
looks like a handle that is not closed is a part of the tag, and a lone exclamation mark is a tag
as a whole. -/
def read? (flow : Bool) (fuel : Nat) (cur : Cursor) : Option (WrittenTag × Cursor) := do
  let (tag, next) ←
    if cur.at? 1 = some '<' then do
      let (octets, next) ← someTagOctets? true fuel (cur.skip 2)
      if next.at? 0 ≠ some '>' then none
      some (WrittenTag.mk [] octets, next.skip 1)
    else do
      let (handle, closed) ← handle? cur
      let next := cur.skip handle.length
      if closed then do
        let (octets, next) ← someTagOctets? false fuel next
        some (WrittenTag.mk handle octets, next)
      else do
        let (octets, next) ← tagOctets? false fuel next
        let rest := (asciiOctets handle.tail ++ octets).takeWhile (· ≠ 0)
        some (if rest = [] then WrittenTag.mk [] [0x21] else WrittenTag.mk ['!'] rest, next)
  if next.gapAt 0 || (flow && next.at? 0 = some ',') then some (tag, next) else none

/-- The tag that is meant. -/
def resolve? (handles : Handles) (t : WrittenTag) : Option Tag :=
  if t.handle = [] then some ⟨t.rest⟩
  else (handles.lookup t.handle).map fun beginning => ⟨beginning ++ t.rest⟩

end WrittenTag

end Folio.Yaml
