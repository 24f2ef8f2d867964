import Folio.Yaml.Scalar
import Folio.Yaml.Tag

/-!
# Trees

The data of a YAML text is a tree of scalars, sequences and mappings, whose entries keep their
order. Aliases are leaves of the tree. What they stand for is not part of it, since that may be
data that contains the alias.
-/

namespace Folio.Yaml

/-- A value. A scalar that is written plainly, without quotes and not as a block of lines, can mean
something other than its text, such as the absence of a value. An alias is a reference to the number
of an anchor. -/
inductive Tree where
  | scalar (text : String) (style : ScalarStyle) (tag : Option Tag)
  | sequence (items : List Tree) (tag : Option Tag)
  | mapping (entries : List (Tree × Tree)) (tag : Option Tag)
  | reference (anchor : Nat)
  deriving Inhabited

namespace Tree

/-- A value that is left out. -/
def empty (tag : Option Tag) : Tree := scalar "" .plain tag

mutual

/-- How many marks it takes to write the tree: one for a scalar or an alias, and two around a
sequence or a mapping. -/
def size : Tree → Nat
  | scalar _ _ _ => 1
  | sequence items _ => itemSize items + 2
  | mapping entries _ => entrySize entries + 2
  | reference _ => 1

/-- How many marks it takes to write the items. -/
def itemSize : List Tree → Nat
  | [] => 0
  | t :: rest => size t + itemSize rest

/-- How many marks it takes to write the keys and values. -/
def entrySize : List (Tree × Tree) → Nat
  | [] => 0
  | (key, value) :: rest => size key + size value + entrySize rest

end

end Tree

end Folio.Yaml
