import Folio.Declaration.Basic
import Folio.Text.Pieces

/-!
# Declarations

A declaration configures a label type in one line,

`name[:kind][:#level] [master=name[:#limit]] [abbrev=text]`.

The kind is `numbered`, `void` or a number format. A separator character in front of it is the
separator of the type, and if nothing else follows, no rule is set. Levels and limits are written
from 1 on and kept from 0 on.
-/

namespace Folio

/-- Reads a level after its mark `#`. `what` names the level in messages. -/
def readLevel (what text : String) : Except DeclarationError Nat :=
  match text.toList with
  | '#' :: digits =>
    match Text.readNumeral (String.ofList digits) with
    | .error cause => .error (.malformedLevel what text cause)
    | .ok 0 => .error (.levelZero what text)
    | .ok (level + 1) => .ok level
  | _ => .error (.unmarkedLevel what)

/-- Takes a separator character off the front of a text. -/
def splitSeparator (text : String) : String × String :=
  match text.toList with
  | c :: rest => if isSeparator c then (String.singleton c, String.ofList rest) else ("", text)
  | [] => ("", text)

/-- The rule of a kind that stands behind its separator. -/
def LabelRule.ofKind? (typ kind : String) (level : Option Nat) :
    Except DeclarationError LabelRule :=
  if kind = "numbered" then .ok (.numbered typ level)
  else if kind = "void" then .ok (.void typ level)
  else
    match NumberFormat.read? kind with
    | .ok format => .ok (.freeForm typ format level)
    | .error cause => .error (.unknownKind kind cause)

/-- Reads a kind with the separator in front of it. A bare separator gives no rule. -/
def readRuleKind (typ kind : String) (level : Option Nat) :
    Except DeclarationError (String × Option LabelRule) :=
  let (separator, rest) := splitSeparator kind
  if rest = "" ∧ separator ≠ "" then .ok (separator, none)
  else (LabelRule.ofKind? typ rest level).map fun rule => (separator, some rule)

/-- A declaration that is read. -/
structure Declaration where
  name : String
  rule : Option LabelRule := none
  level : Option Nat := none
  separator : String := ""
  abbreviation : String := ""
  master : Option String := none
  limit : Option Nat := none
  deriving DecidableEq, Repr

namespace Declaration

/-- What the arguments of a declaration say. -/
structure Arguments where
  abbreviation : String := ""
  master : Option String := none
  limit : Option Nat := none

/-- Cuts an argument at its first equals sign. -/
def splitAssignment (argument : String) : Option (String × String) :=
  match argument.toList.dropWhile (· ≠ '=') with
  | _ :: value => some (String.ofList (argument.toList.takeWhile (· ≠ '=')), String.ofList value)
  | [] => none

/-- Reads the argument that has the given number. A later one replaces an earlier one, but a
master without a limit leaves the limit of an earlier one. -/
def readArgument (index : Nat) (argument : String) (read : Arguments) :
    Except DeclarationError Arguments :=
  match splitAssignment argument with
  | none => .error (.unassigned index argument)
  | some (field, value) =>
    if field = "master" then
      match Text.pieces ':' value with
      | [name] => .ok { read with master := some name }
      | [name, limit] => do
        return { read with master := some name, limit := some (← readLevel "master limit" limit) }
      | _ => .error .malformedMaster
    else if field = "abbrev" then .ok { read with abbreviation := value }
    else if field = "" then .error (.unnamedField index argument)
    else .error (.unknownField index argument field)

/-- Reads the arguments from the given number on. -/
def readArguments (index : Nat) (read : Arguments) :
    List String → Except DeclarationError Arguments
  | [] => .ok read
  | argument :: rest => do readArguments (index + 1) (← readArgument index argument read) rest

/-- Cuts the head into the name, the kind and the level, which may both be absent. -/
def splitHead (head : String) : Except DeclarationError (String × Option String × Option String) :=
  let parts := Text.pieces ':' head
  let wellFormed := parts.all (· ≠ "") && !(parts.headD "").toList.contains '='
  match wellFormed, parts with
  | true, [name] => .ok (name, none, none)
  | true, [name, text] =>
    if text.toList.head? = some '#' then .ok (name, none, some text)
    else .ok (name, some text, none)
  | true, [name, kind, level] => .ok (name, some kind, some level)
  | _, _ => .error .malformedHead

/-- Reads a declaration. Faulty arguments are reported before a faulty head. -/
def read? (text : String) : Except DeclarationError Declaration :=
  match Text.words text with
  | [] => .error .missingType
  | head :: arguments => do
    let arguments ← readArguments 1 {} arguments
    let (name, kind, level) ← splitHead head
    let level ← level.mapM (readLevel "section level")
    let (separator, rule) ← match kind with
      | some kind => readRuleKind name kind level
      | none => pure ("", none)
    return {
      name, rule, level, separator
      abbreviation := arguments.abbreviation
      master := arguments.master
      limit := arguments.limit }

end Declaration

/-- Reads a declaration that stands at a location, and configures its type. -/
def Settings.declare (location : Location) (text : String) : Settings.Step Unit := do
  let d ← match Declaration.read? text with
    | .ok d => pure d
    | .error cause => throw cause
  setRule location d.name d.abbreviation d.separator d.rule d.level
  match d.master with
  | some master => setMaster location d.name master d.separator d.limit
  | none => pure ()

end Folio
