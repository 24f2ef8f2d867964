import Folio.Label.Rule
import Folio.Location
import Folio.Table
import Folio.Text.Numeral

/-!
# Settings of label types

A document configures its label types: the rule, the display level and the separator of a type,
the abbreviation its labels are announced by, and the master type whose labels go in front. A
type may be configured in several steps, but rule and master only once.

The steps are actions on the settings. A step that fails keeps what it did before it failed.
-/

namespace Folio

/-- Why a type cannot be configured as asked. -/
inductive DeclarationError where
  | missingType
  | malformedHead
  | unassigned (index : Nat) (argument : String)
  | unnamedField (index : Nat) (argument : String)
  | unknownField (index : Nat) (argument field : String)
  | malformedMaster
  | unmarkedLevel (what : String)
  | malformedLevel (what text : String) (cause : Text.NumeralError)
  | levelZero (what text : String)
  | unknownKind (kind : String) (cause : FormatError)
  | ruleAlreadySet
  | masterAlreadySet (typ : String)
  deriving DecidableEq, Repr

/-- The wording of the cause. -/
def DeclarationError.message : DeclarationError → String
  | missingType => "at least the range type is required"
  | malformedHead => "expected label spec <name>[:<type>][:#<level>]"
  | unassigned index argument =>
    "argument " ++ toString index ++ " [" ++ argument ++ "] requires assignment"
  | unnamedField index argument =>
    "argument " ++ toString index ++ " [" ++ argument ++ "] requires non-empty field name"
  | unknownField index argument field =>
    "argument " ++ toString index ++ " [" ++ argument ++ "] uses unknown field " ++ field
      ++ " (use master or abbrev)"
  | malformedMaster => "expected master spec <name>[:#<level limit>]"
  | unmarkedLevel what => what ++ " must start with #"
  | malformedLevel what text cause =>
    "number required for " ++ what ++ ", but found " ++ Text.quoted text ++ ": " ++ cause.message
  | levelZero what text => "invalid " ++ what ++ " " ++ text
  | unknownKind kind cause =>
    "unknown label type " ++ Text.quoted kind ++ ": " ++ cause.message
  | ruleAlreadySet => "label type already set"
  | masterAlreadySet typ => "label master already set for " ++ typ

/-- What is configured for a label type. -/
structure TypeSettings where
  /-- Where the type is configured first. -/
  location : Location
  rule : Option LabelRule := none
  level : Option Nat := none
  separator : String := ""
  abbreviation : String := ""
  master : Option String := none
  /-- The deepest level of the master that is followed. -/
  limit : Option Nat := none
  deriving DecidableEq, Repr

/-- What is configured for the label types of a document. -/
abbrev Settings := Table TypeSettings

namespace Settings

/-- A step of configuration. -/
abbrev Step := EStateM DeclarationError Settings

/-- What is configured for a type so far. -/
def entry (settings : Settings) (typ : String) (location : Location) : TypeSettings :=
  (settings.lookup typ).getD { location }

/-- The text, or another one in its place if it is empty. -/
def orElse (s other : String) : String := if s = "" then other else s

/-- Sets rule, level, abbreviation and separator as far as they are given. -/
def setRule (location : Location) (typ abbreviation separator : String)
    (rule : Option LabelRule) (level : Option Nat) : Step Unit := do
  let info := entry (← get) typ location
  if rule.isSome && info.rule.isSome then throw .ruleAlreadySet
  modify (·.put typ
    { info with
      level := level.or info.level
      rule := rule.or info.rule
      abbreviation := orElse abbreviation info.abbreviation
      separator := orElse separator info.separator })

/-- Sets the master with its limit, and the separator. -/
def setMaster (location : Location) (typ master separator : String) (limit : Option Nat) :
    Step Unit := do
  let info := entry (← get) typ location
  if info.master.any (· ≠ master) then throw (.masterAlreadySet typ)
  modify (·.put typ { info with master := some master, limit, separator })

end Settings

end Folio
