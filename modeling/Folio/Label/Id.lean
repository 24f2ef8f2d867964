/-!
# Label ids

A label is identified by its type and by the ordinals that lead to it, the outermost first. Ids
do not depend on how numbers are shown. `Ordinals` hands them out, one sequence below each id.
-/

namespace Folio

/-- A label type and the ordinals on the way to a label. -/
structure LabelId where
  typ : String
  path : List Nat
  deriving DecidableEq, Repr, Inhabited

namespace LabelId

/-- The id of a label at the top. -/
def top (typ : String) (ordinal : Nat) : LabelId := ⟨typ, [ordinal]⟩

/-- The id of a label one step below. -/
def sub (id : LabelId) (ordinal : Nat) : LabelId := ⟨id.typ, id.path ++ [ordinal]⟩

/-- The id that goes on with the ordinals of another id. -/
def extend (id other : LabelId) : LabelId := ⟨id.typ, id.path ++ other.path⟩

/-- The ordinals with dashes between them. -/
def ordinals (id : LabelId) : String :=
  "-".intercalate (id.path.map toString)

/-- The written form: the type in front of the ordinals. -/
def text (id : LabelId) : String := id.typ ++ "-" ++ id.ordinals

end LabelId

/-- A sequence of siblings: the ordinals above them, and the ordinal of the latest one. -/
structure Ordinals where
  outer : List Nat := []
  count : Nat := 0
  deriving DecidableEq, Repr, Inhabited

namespace Ordinals

/-- Goes on to the next sibling. -/
def next (o : Ordinals) : Ordinals := { o with count := o.count + 1 }

/-- The id of the latest sibling. -/
def id (o : Ordinals) (typ : String) : LabelId := ⟨typ, o.outer ++ [o.count]⟩

/-- The sequence below an id. -/
def below (id : LabelId) : Ordinals := ⟨id.path, 0⟩

end Ordinals

end Folio
