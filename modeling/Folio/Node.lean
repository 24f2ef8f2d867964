import Folio.Inline
import Folio.Probe

/-!
# Nodes

The content of a document is a list of nodes: texts, labeled nodes (sections, and sub ranges of
other types), embeddings of other documents, expansions of blocks and definitions of terms. A
block is a reusable list of nodes with parameters.
-/

namespace Folio

/-- How sub ranges of the same type are numbered inside a node. -/
structure NestedRule where
  separator : String
  rule : Option LabelRule
  level : Option Nat
  deriving DecidableEq, Repr

/-- What a labeled node is, its body put aside. -/
structure Heading where
  key : NodeKey
  location : Location
  /-- The label type. Sections have none of their own. -/
  typ : Option String
  tag : Option String
  title : InlineText
  nested : Option NestedRule
  deriving DecidableEq, Repr

/-- A statement of a document. -/
inductive Node where
  | text (content : InlineText)
  | labeled (heading : Heading) (body : List Node)
  /-- The top level section of another document. -/
  | embedding (key : NodeKey) (location : Location) (link : String)
  | expansion (key : NodeKey) (location : Location) (block : String) (tag : Option String)
      (arguments : Table InlineText)
  | term (key : NodeKey) (location : Location) (tag : String) (text : InlineText)
  /-- Handles its body, and asks questions meanwhile. -/
  | probe (key : NodeKey) (location : Location) (questions : Probe.Questions) (body : List Node)

namespace Node

def location : Node → Location
  | text content => content.location
  | labeled heading _ => heading.location
  | embedding _ location _ => location
  | expansion _ location _ _ _ => location
  | term _ location _ _ => location
  | probe _ location _ _ => location

/-- The tag that was written for the node. -/
def tag? : Node → Option String
  | labeled heading _ => heading.tag
  | expansion _ _ _ tag _ => tag
  | term _ _ tag _ => some tag
  | _ => none

def isSection : Node → Bool
  | labeled heading _ => heading.typ.isNone
  | _ => false

end Node

/-- A parameter of a block. -/
structure Parameter where
  name : String
  default : Option InlineText
  deriving DecidableEq, Repr

/-- A reusable list of nodes. -/
structure Block where
  location : Location
  tag : String
  /-- The name that tells the block from all others: document, outer blocks, own tag. -/
  name : String
  parameters : List Parameter
  /-- The blocks that are known inside. -/
  blocks : List Block
  body : List Node

end Folio
