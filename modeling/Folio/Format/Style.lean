/-!
# Number styles

A style turns an ordinal into text: nothing, a decimal number, letters or a roman numeral.
Ordinals count from 1, and 0 has the empty text in every style.
-/

namespace Folio

/-- How an ordinal is shown. -/
inductive NumberStyle where
  | void
  | decimal
  | upperAlpha
  | lowerAlpha
  | upperRoman
  | lowerRoman
  deriving DecidableEq, Repr, Inhabited

namespace NumberStyle

/-- The character that stands for a style in a format. -/
def toChar : NumberStyle → Char
  | void => 'V'
  | decimal => '1'
  | upperAlpha => 'A'
  | lowerAlpha => 'a'
  | upperRoman => 'I'
  | lowerRoman => 'i'

/-- The style that a character stands for. -/
def ofChar? : Char → Option NumberStyle
  | 'V' => some void
  | '1' => some decimal
  | 'A' => some upperAlpha
  | 'a' => some lowerAlpha
  | 'I' => some upperRoman
  | 'i' => some lowerRoman
  | _ => none

@[simp]
theorem ofChar?_toChar (s : NumberStyle) : ofChar? s.toChar = some s := by
  cases s <;> rfl

/-- The letter number `k` of the alphabet that starts at `first`. -/
def letter (first : Char) (k : Nat) : Char :=
  Char.ofNat (first.toNat + k)

/-- The ordinal in letters, the last letter first. There is no digit zero: the letters stand for
the digits 1 to 26 in base 26. -/
def lettersBack (first : Char) (n : Nat) : List Char :=
  if n = 0 then []
  else letter first ((n - 1) % 26) :: lettersBack first ((n - 1) / 26)
termination_by n

/-- The ordinal in letters: a to z, then aa, ab and so on. -/
def letters (first : Char) (n : Nat) : String :=
  String.ofList (lettersBack first n).reverse

/-- The values that are written by roman symbols of their own, and the symbols. -/
def romanTable (upper : Bool) : List (Nat × String) :=
  if upper then
    [(1000, "M"), (900, "CM"), (500, "D"), (400, "CD"), (100, "C"), (90, "XC"), (50, "L"),
      (40, "XL"), (10, "X"), (9, "IX"), (5, "V"), (4, "IV"), (1, "I")]
  else
    [(1000, "m"), (900, "cm"), (500, "d"), (400, "cd"), (100, "c"), (90, "xc"), (50, "l"),
      (40, "xl"), (10, "x"), (9, "ix"), (5, "v"), (4, "iv"), (1, "i")]

/-- Writes every value of a table as often as it goes into what is left. -/
def greedy : List (Nat × String) → Nat → String
  | [], _ => ""
  | (value, symbols) :: smaller, n =>
    String.join (List.replicate (n / value) symbols) ++ greedy smaller (n % value)

/-- The ordinal as a roman numeral. -/
def roman (upper : Bool) (n : Nat) : String :=
  greedy (romanTable upper) n

/-- The text of an ordinal. -/
def format (style : NumberStyle) (n : Nat) : String :=
  if n = 0 then ""
  else
    match style with
    | void => ""
    | decimal => toString n
    | upperAlpha => letters 'A' n
    | lowerAlpha => letters 'a' n
    | upperRoman => roman true n
    | lowerRoman => roman false n

/-- Where the text of 0 is empty anyway, 0 is no case of its own. -/
theorem format_of_zero {style : NumberStyle} {text : Nat → String} (hzero : text 0 = "")
    (htext : ∀ n ≠ 0, style.format n = text n) (n : Nat) : style.format n = text n := by
  by_cases hn : n = 0
  · rw [hn, hzero]
    rfl
  · exact htext n hn

end NumberStyle

end Folio
