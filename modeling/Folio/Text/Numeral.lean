/-!
# Reading numerals

A numeral is a text of decimal digits below `2 ^ 64`, with an optional `+` in front. The reader
goes from left to right and names the first thing that is wrong.
-/

namespace Folio.Text

/-- Why a text is no numeral. -/
inductive NumeralError where
  | empty
  | invalidDigit
  | tooLarge
  deriving DecidableEq, Repr

namespace NumeralError

/-- The wording of the cause. -/
def message : NumeralError → String
  | empty => "cannot parse integer from empty string"
  | invalidDigit => "invalid digit found in string"
  | tooLarge => "number too large to fit in target type"

end NumeralError

/-- Numerals stay below this bound. -/
def numeralBound : Nat := UInt64.size

/-- Reads digits behind a number that is already read. -/
def readDigits (read : Nat) : List Char → Except NumeralError Nat
  | [] => .ok read
  | c :: cs =>
    if ¬ c.isDigit then .error .invalidDigit
    else
      let n := 10 * read + (c.toNat - '0'.toNat)
      if n < numeralBound then readDigits n cs else .error .tooLarge

/-- Reads a numeral. -/
def readNumeral (s : String) : Except NumeralError Nat :=
  match s.toList with
  | [] => .error .empty
  | ['+'] => .error .invalidDigit
  | '+' :: cs => readDigits 0 cs
  | cs => readDigits 0 cs

end Folio.Text
