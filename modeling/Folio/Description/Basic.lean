import Folio.Table

/-!
# Descriptions

A description is a document as its author writes it: plain data, in which texts, links and tags
are not read yet.
-/

namespace Folio

/-- A node as it is written. -/
inductive NodeDescription where
  | text (text : String)
  | heading (tag : Option String) (title : String) (nodes : List NodeDescription)
  | subRange (typ : String) (tag : Option String) (title : String) (rule : Option String)
      (nodes : List NodeDescription)
  | embedding (link : String)
  | expansion (block : String) (tag : Option String) (arguments : Table String)
  | term (tag text : String)
  deriving Inhabited

/-- A parameter of a block as it is written. -/
structure ParameterDescription where
  name : String
  default : Option String := none
  deriving DecidableEq, Repr, Inhabited

/-- A block as it is written. -/
structure BlockDescription where
  tag : String
  parameters : List ParameterDescription := []
  blocks : List BlockDescription := []
  nodes : List NodeDescription := []
  deriving Inhabited

/-- A document as it is written. -/
structure Description where
  /-- Templates lend their blocks to other documents, and their own values are not needed. -/
  template : Bool := false
  declarations : List String := []
  blocks : List BlockDescription := []
  nodes : List NodeDescription := []
  deriving Inhabited

end Folio
