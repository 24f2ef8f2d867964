import Folio.Text.Blank

/-!
# Cutting texts

`cut p` cuts a list of characters at every character that satisfies `p`. There is always one
piece more than there are cuts, and pieces may be empty. `pieces` cuts at one separator, `words`
cuts at white space and drops the empty pieces.
-/

namespace Folio.Text

/-- The pieces between the characters that satisfy `p`. -/
def cut (p : Char → Bool) : List Char → List (List Char)
  | [] => [[]]
  | c :: cs => if p c then [] :: cut p cs else (cut p cs).modifyHead (c :: ·)

theorem cut_ne_nil (p : Char → Bool) (cs : List Char) : cut p cs ≠ [] := by
  induction cs with
  | nil => simp [cut]
  | cons c cs ih => by_cases h : p c <;> simp [cut, h, ih]

/-- The pieces of a text between the occurrences of a separator. -/
def pieces (separator : Char) (s : String) : List String :=
  (cut (· == separator) s.toList).map String.ofList

/-- The maximal runs of characters that are not white space. -/
def words (s : String) : List String :=
  ((cut isBlank s.toList).filter (· ≠ [])).map String.ofList

end Folio.Text
