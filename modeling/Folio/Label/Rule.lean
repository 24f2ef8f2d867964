import Folio.Label.Counter

/-!
# Label rules

A label rule says how the labels of one range are counted and named. It counts in one of three
schemes, or it glues a counting rule behind a fixed base. The operations of a composed rule act
on the part behind the base.
-/

namespace Folio

/-- How the ordinals of a counter make up a name. -/
inductive Scheme where
  /-- Counts, and shows nothing. -/
  | void
  /-- Decimal numbers with points between them. -/
  | numbered
  /-- Numbers in a format, whose first level is for the top depth. -/
  | freeForm (format : NumberFormat)
  deriving DecidableEq, Repr, Inhabited

/-- A counter with its scheme, or two rules of which the first one stands still. -/
inductive LabelRule where
  | count (scheme : Scheme) (counter : Counter)
  | composed (base : LabelRule) (separator : String) (current : LabelRule)
  deriving DecidableEq, Repr, Inhabited

namespace LabelRule

/-- Labels without names. Their level is 0 if none is given. -/
def void (typ : String) (level : Option Nat) : LabelRule :=
  count .void (.top typ (some (level.getD 0)))

def numbered (typ : String) (level : Option Nat) : LabelRule :=
  count .numbered (.top typ level)

def freeForm (typ : String) (format : NumberFormat) (level : Option Nat) : LabelRule :=
  count (.freeForm format) (.top typ level)

def typ : LabelRule → String
  | count _ c => c.typ
  | composed _ _ r => r.typ

/-- The display level of the labels. -/
def level : LabelRule → Option Nat
  | count _ c => c.level
  | composed _ _ r => r.level

/-- The kind of the rule in one word. -/
def kind : LabelRule → String
  | count .void _ => "void"
  | count .numbered _ => "numbered"
  | count (.freeForm _) _ => "freeform"
  | composed .. => "composed"

def id : LabelRule → LabelId
  | count _ c => c.id
  | composed b _ r => b.id.extend r.id

/-- Two texts with a separator between them, which an empty text takes away. -/
def glue (left separator right : String) : String :=
  if left = "" then right
  else if right = "" then left
  else left ++ separator ++ right

/-- The name of the label that the rule stands at. -/
def name : LabelRule → String
  | count .void _ => ""
  | count .numbered c => c.decimalName
  | count (.freeForm f) c => c.formattedName f
  | composed b s r => glue b.name s r.name

/-- The rule one depth above. Above the top of a composed rule lies its base. -/
def parent? : LabelRule → Option LabelRule
  | count s c => c.parent?.map (count s)
  | composed b _ r => r.parent?.or (some b)

/-- Goes on to the next label. -/
def next : LabelRule → LabelRule
  | count s c => count s c.next
  | composed b s r => composed b s r.next

/-- Opens the depth below, before its first label. -/
def sub : LabelRule → LabelRule
  | count s c => count s c.sub
  | composed b s r => composed b s r.sub

/-- Starts the shown ordinals of the present depth again. -/
def reset : LabelRule → LabelRule
  | count s c => count s c.reset
  | composed b s r => composed b s r.reset

/-- Sets the level, if one is given. -/
def withLevel : LabelRule → Option Nat → LabelRule
  | count s c, level => count s (c.withLevel level)
  | composed b s r, level => composed b s (r.withLevel level)

/-- The shown ordinal of the present depth. A composed rule has none of its own. -/
def shown? : LabelRule → Option Nat
  | count _ c => some c.place.shown
  | composed .. => none

/-- Glues a rule behind a base. It keeps its level, or lies one below the base. -/
def compose (base : LabelRule) (separator : String) (rule : LabelRule) : LabelRule :=
  composed base separator
    (rule.withLevel (some (rule.level.getD (Counter.levelBelow base.level))))

end LabelRule

end Folio
