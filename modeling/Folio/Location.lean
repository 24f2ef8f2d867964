/-!
# Locations

Nodes and errors carry the place they come from: the name of a source, and the number of a
statement in it together with its nesting depth.
-/

namespace Folio

/-- A place in a source. Line 0 stands for the source as a whole. -/
structure Location where
  source : String := ""
  line : Nat := 0
  column : Nat := 0
  deriving DecidableEq, Repr, Inhabited

namespace Location

/-- The location of a whole document. -/
def document (source : String) : Location := ⟨source, 0, 0⟩

/-- The written form: the source alone, or source, line and column between colons. -/
def text (l : Location) : String :=
  if l.line = 0 then l.source
  else l.source ++ ":" ++ toString l.line ++ ":" ++ toString l.column

end Location

end Folio
