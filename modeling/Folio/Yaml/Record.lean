import Folio.Table
import Folio.Yaml.Data

/-!
# Records

Reading texts, flags, tables and records from data. A scalar is a text whatever its style is, so
numbers are texts as well. A sequence or a mapping of which nothing is written is empty.

Aliases can make a short text stand for endless data, so there is a limit to the nesting of what is
read, and another to the number of aliases that are followed. What is not read counts for neither.
-/

namespace Folio.Yaml

/-- Reading something from data. The state is how many more aliases may be followed. -/
abbrev Reading (α : Type) := ReaderT Data (StateT Nat Option) α

namespace Data

/-- So many sequences and mappings may be nested in each other. -/
def maxDepth : Nat := 128

/-- So many aliases may be followed. -/
def aliasLimit (d : Data) : Nat := 100 * d.root.size

/-- Reads the whole of the data, when `read` knows how many sequences and mappings may be nested. -/
def decode? {α : Type} (d : Data) (read : (depth : Nat) → Tree → Reading α) : Option α :=
  (((read maxDepth d.root).run d).run d.aliasLimit).map Prod.fst

end Data

namespace Tree

/-- The value itself, or the value that an alias stands for. -/
def follow : Tree → Reading Tree
  | reference anchor => do
    match ← get with
    | 0 => failure
    | left + 1 =>
      set left
      (← read).value? anchor
  | t => return t

/-- The text of a scalar. -/
def text (t : Tree) : Reading String := do
  match ← t.follow with
  | scalar text _ _ => return text
  | _ => failure

/-- Plain scalars that stand for the absence of a value. -/
def absentWords : List String := ["~", "null", "Null", "NULL"]

/-- A text that may be absent. Only a plain scalar can stand for the absence: one that is empty or
one of the words for it if it has no tag, and one of the words, which it then has to be, if it has
the tag of absent values. -/
def optionalText (t : Tree) : Reading (Option String) := do
  match ← t.follow with
  | scalar text .plain none =>
    return if text = "" ∨ absentWords.contains text then none else some text
  | scalar text .plain (some tag) =>
    if tag ≠ Tag.absent then return some text
    if absentWords.contains text then return none else failure
  | scalar text _ _ => return some text
  | _ => failure

/-- A truth value, which is written plainly, or as a block of lines with the tag of truth
values. -/
def flag (t : Tree) : Reading Bool := do
  match ← t.follow with
  | scalar text style tag =>
    if style = .plain ∨ (style = .literal ∧ tag = some Tag.truth) then
      if ["true", "True", "TRUE"].contains text then return true
      if ["false", "False", "FALSE"].contains text then return false
    failure
  | _ => failure

/-- The items of a sequence. -/
def items (depth : Nat) (t : Tree) : Reading (List Tree) := do
  match ← t.follow with
  | sequence items _ => if depth = 0 then failure else return items
  | scalar "" .plain _ => return []
  | _ => failure

/-- The entries of a mapping. -/
def entries (depth : Nat) (t : Tree) : Reading (List (Tree × Tree)) := do
  match ← t.follow with
  | mapping entries _ => if depth = 0 then failure else return entries
  | scalar "" .plain _ => return []
  | _ => failure

def texts (depth : Nat) (t : Tree) : Reading (List String) := do
  (← t.items depth).mapM text

/-- A mapping from texts to texts. The last one of several entries under one key counts. -/
def table (depth : Nat) (t : Tree) : Reading (Table String) := do
  (← t.entries depth).foldlM (fun table (key, value) => do
    return table.put (← key.text) (← value.text)) []

/-- What kind of value this is, and what belongs to it: the key and the value of a mapping with one
entry. A tag that names a type of its own would say the kind in another way, which is refused. -/
def variant (t : Tree) : Reading (String × Tree) := do
  match ← t.follow with
  | mapping [(kind, content)] tag =>
    if tag.any Tag.isLocal then failure else return (← kind.text, content)
  | _ => failure

end Tree

/-- The entries of a mapping whose keys are known, each of them at most once. -/
abbrev Record := List (String × Tree)

namespace Record

/-- Reads a record. Entries with other keys are left out if they may occur. -/
def ofTree (known : List String) (others : Bool) (depth : Nat) (t : Tree) : Reading Record := do
  let fields ← (← t.entries depth).mapM fun (key, value) => do return (← key.text, value)
  let (fields, rest) := fields.partition fun field => known.contains field.1
  if (rest.isEmpty || others) ∧ (fields.map Prod.fst).Nodup then return fields else failure

/-- Reads an entry that has to be there. -/
def get {α : Type} (r : Record) (key : String) (read : Tree → Reading α) : Reading α :=
  match r.lookup key with
  | some tree => read tree
  | none => failure

/-- Reads an entry that may be missing. -/
def getD {α : Type} (r : Record) (key : String) (read : Tree → Reading α) (default : α) :
    Reading α :=
  match r.lookup key with
  | some tree => read tree
  | none => return default

end Record

end Folio.Yaml
