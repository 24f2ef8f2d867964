import Folio.Format.Style
import Folio.Text.Quoted

/-!
# Number formats

A format gives a style to every depth of a label, and a separator that stands between the number
of that depth and the number below it. It is written with one character for each style, followed
by the separator if there is one:

* `1.` is 1, 1.1, 1.1.1 and so on, since the last depth goes on for all deeper ones;
* `A-1.` is A, A-1, A-1.1 and so on;
* `1a` is 1, 1a, 1aa and so on, since nothing stands between two styles.

A last style without a separator takes the one before it, or a point if there is none.
-/

namespace Folio

/-- Why a text is no format. -/
inductive FormatError where
  | missing
  | invalidCharacter (c : Char) (spec : String)
  | doubleSeparator (c : Char) (spec : String)
  deriving DecidableEq, Repr

/-- The wording of the cause. -/
def FormatError.message : FormatError → String
  | missing => "number format missing"
  | invalidCharacter c spec =>
    "invalid character " ++ Text.quotedChar c ++ " in number format " ++ Text.quoted spec
  | doubleSeparator c spec =>
    "separator " ++ Text.quotedChar c ++ " without preceding number style in number format "
      ++ Text.quoted spec

/-- The characters that separate numbers. -/
def separators : List Char :=
  ['-', '.', '+', '*', '~', '/', '#', '_', '°', '^']

def isSeparator (c : Char) : Bool := separators.contains c

/-- The style of one depth, and what stands between its number and the one below. -/
structure FormatLevel where
  style : NumberStyle
  separator : String
  deriving DecidableEq, Repr, Inhabited

/-- The style of the present depth and of the deeper ones. -/
structure NumberFormat where
  level : FormatLevel
  deeper : List FormatLevel := []
  deriving DecidableEq, Repr, Inhabited

namespace NumberFormat

def style (f : NumberFormat) : NumberStyle := f.level.style

def separator (f : NumberFormat) : String := f.level.separator

/-- The text of an ordinal at the present depth. -/
def format (f : NumberFormat) (n : Nat) : String := f.style.format n

/-- The present depth and the deeper ones. -/
def levels (f : NumberFormat) : List FormatLevel := f.level :: f.deeper

/-- The format one depth below. The last depth goes on for ever. -/
def sub (f : NumberFormat) : NumberFormat :=
  match f.deeper with
  | [] => f
  | level :: deeper => ⟨level, deeper⟩

/-- The written form, every separator included. -/
def text (f : NumberFormat) : String :=
  String.join (f.levels.map fun l => String.singleton l.style.toChar ++ l.separator)

mutual

/-- Reads on behind a style. `last` is its separator if no more follows. -/
def afterStyle (spec : String) (style : NumberStyle) (last : String) :
    List Char → Except FormatError NumberFormat
  | [] => .ok ⟨⟨style, last⟩, []⟩
  | c :: cs =>
    match NumberStyle.ofChar? c with
    | some next => do
      let f ← afterStyle spec next "" cs
      return ⟨⟨style, ""⟩, f.levels⟩
    | none =>
      if isSeparator c then do
        let deeper ← afterSeparator spec (String.singleton c) cs
        return ⟨⟨style, String.singleton c⟩, deeper⟩
      else .error (.invalidCharacter c spec)

/-- Reads on behind a separator. -/
def afterSeparator (spec : String) (last : String) :
    List Char → Except FormatError (List FormatLevel)
  | [] => .ok []
  | c :: cs =>
    match NumberStyle.ofChar? c with
    | some next => do
      let f ← afterStyle spec next last cs
      return f.levels
    | none =>
      if isSeparator c then .error (.doubleSeparator c spec)
      else .error (.invalidCharacter c spec)

end

/-- Reads a written format. -/
def read? (spec : String) : Except FormatError NumberFormat :=
  match spec.toList with
  | [] => .error .missing
  | c :: cs =>
    match NumberStyle.ofChar? c with
    | some style => afterStyle spec style "." cs
    | none => .error (.invalidCharacter c spec)

end NumberFormat

end Folio
