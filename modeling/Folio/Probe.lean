import Folio.Link

/-!
# Probes

A probe is a node that asks questions in each phase of a resolution, from the place where it
stands. `Folio.Resolution.Probing` answers them.
-/

namespace Folio.Probe

/-- A question to a resolution, or an action on it. -/
inductive Request where
  | nextId (typ : String)
  | subRange (typ : String)
  | expand (link : Link) (tag : Option String)
  | requestRange (typ : String)
  | requestDocument (link : Link)
  | registerTag (typ tag : String) (explicit : Bool)
  | registerBlock (tag name : String)
  | evaluateTag (tag : String)
  | attributes
  | sectionType
  | lookupTarget (link : Link)
  | lookupBlock (link : Link)
  | lookupTag (typ tag : String)
  | lookupValue (name : String)
  | setValue (name : String)
  | callStack
  | documentForLink (link : Link)
  | determineLink (link : Link)
  | roots
  | numberRange (typ : String)
  | claim (range : Nat)
  | setState (n : Nat)
  | state
  | increaseState
  deriving DecidableEq, Repr

/-- A request, and the number of the frame that it is made in, the frame of the probe if none is
given. -/
structure Question where
  request : Request
  frame : Option Nat := none
  deriving DecidableEq, Repr

/-- The questions of a probe in each phase. -/
structure Questions where
  register : List Question := []
  labels : List Question := []
  values : List Question := []
  deriving DecidableEq, Repr

end Folio.Probe
