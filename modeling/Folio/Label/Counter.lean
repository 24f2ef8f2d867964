import Folio.Format.Basic
import Folio.Label.Id

/-!
# Counters

A counter counts the labels of one type at one depth, below the places where the counting of the
depths above stands. It keeps two ordinals: the structural one makes up the id and always grows,
and the shown one, which can start again, makes up the name.

Counters are values. Every operation gives a new counter, so what a label was bound to stays.
-/

namespace Folio

/-- Where the counting of one depth stands. -/
structure Place where
  ordinal : Nat := 0
  shown : Nat := 0
  level : Option Nat := none
  deriving DecidableEq, Repr, Inhabited

/-- The counting of a label type at one depth. `outer` holds the places above, the nearest
first. -/
structure Counter where
  typ : String
  place : Place
  outer : List Place := []
  deriving DecidableEq, Repr, Inhabited

namespace Counter

/-- The counter of the top depth before its first label. -/
def top (typ : String) (level : Option Nat) : Counter :=
  { typ, place := { level } }

def level (c : Counter) : Option Nat := c.place.level

/-- Levels are words of 64 bits, so there are this many. -/
def levelCount : Nat := UInt64.size

/-- The level one below: 0 below a counter without a level, and again below the last level. -/
def levelBelow (level : Option Nat) : Nat :=
  match level with
  | some l => (l + 1) % levelCount
  | none => 0

/-- Goes on to the next label of the depth. -/
def next (c : Counter) : Counter :=
  { c with place := { c.place with ordinal := c.place.ordinal + 1, shown := c.place.shown + 1 } }

/-- Opens the depth below, before its first label. -/
def sub (c : Counter) : Counter :=
  { c with place := { level := some (levelBelow c.level) }, outer := c.place :: c.outer }

/-- Starts the shown ordinals again. -/
def reset (c : Counter) : Counter :=
  { c with place := { c.place with shown := 0 } }

/-- Sets the level, if one is given. -/
def withLevel (c : Counter) (level : Option Nat) : Counter :=
  { c with place := { c.place with level := level.or c.place.level } }

/-- The counter of the depth above. -/
def parent? (c : Counter) : Option Counter :=
  match c.outer with
  | [] => none
  | place :: outer => some { c with place, outer }

/-- The places from the top down to the present one. -/
def places (c : Counter) : List Place := (c.place :: c.outer).reverse

def id (c : Counter) : LabelId := ⟨c.typ, c.places.map Place.ordinal⟩

/-- The shown ordinals from the top down. -/
def numbers (c : Counter) : List Nat := c.places.map Place.shown

/-- The shown ordinals with points between them. -/
def decimalName (c : Counter) : String :=
  ".".intercalate (c.numbers.map toString)

/-- Adds the numbers of deeper depths to a name. `format` is the format of the depth that the
name ends with. -/
def extendName (format : NumberFormat) (name : String) : List Nat → String
  | [] => name
  | n :: deeper =>
    let own := format.sub.format n
    extendName format.sub (if name = "" then own else name ++ format.separator ++ own) deeper

/-- The shown ordinals in a format, which starts at the top. -/
def formattedName (format : NumberFormat) (c : Counter) : String :=
  match c.numbers with
  | [] => ""
  | n :: deeper => extendName format (format.format n) deeper

end Counter

end Folio
