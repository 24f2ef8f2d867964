import Folio.Format.Style
import Mathlib.Data.List.Shortlex
import Mathlib.Data.Nat.Digits.Defs
import Mathlib.Data.Set.Function

/-!
# Numbers in letters

Letters are digits from 1 to 26 in base 26. There is no digit zero, so no word has another one with
zeros in front beside it, and every number is the value of one word: `NumberStyle.lettersBack` takes
the digits off a number (`NumberStyle.ofDigits_lettersBack`), and a word gets its own letters back
from its value (`NumberStyle.lettersBack_ofDigits`).

A word of `k` letters has a value between those of `a…a` and `z…z`, which lie next to those of the
shorter and the longer words (`NumberStyle.pow_le_wordValue`, `NumberStyle.wordValue_le_pow`). So the
numbers go up as words do in a dictionary that has short words first
(`NumberStyle.wordValue_lt_of_shortlex`).

The main statement is `NumberStyle.bijOn_format_lowerAlpha`.
-/

namespace Folio.NumberStyle

/-! ## Letters as digits -/

/-- A letter of the alphabet in lower case. -/
def IsLetter (c : Char) : Prop := 'a' ≤ c ∧ c ≤ 'z'

instance (c : Char) : Decidable (IsLetter c) := inferInstanceAs (Decidable (_ ∧ _))

/-- The words that are made of letters. -/
def words : Set String := {s | s ≠ "" ∧ ∀ c ∈ s.toList, IsLetter c}

/-- The digit that a letter stands for, 1 for `a`. -/
def letterDigit (c : Char) : Nat := c.toNat - 'a'.toNat + 1

/-- The value of a list of letters in base 26. -/
def wordValue (cs : List Char) : Nat := Nat.ofDigits 26 (cs.map letterDigit).reverse

variable {c d : Char} {cs ds : List Char} {n m : Nat}

theorem isLetter_letter : ∀ k < 26, IsLetter (letter 'a' k) := by decide

theorem letterDigit_letter : ∀ k < 26, letterDigit (letter 'a' k) = k + 1 := by decide

theorem toUpper_letter : ∀ k < 26, (letter 'a' k).toUpper = letter 'A' k := by decide

theorem toNat_mem_Icc (h : IsLetter c) : 'a'.toNat ≤ c.toNat ∧ c.toNat ≤ 'z'.toNat := h

theorem letterDigit_mem_Icc (h : IsLetter c) : 1 ≤ letterDigit c ∧ letterDigit c ≤ 26 := by
  obtain ⟨ha, hz⟩ := toNat_mem_Icc h
  have hspan : 'z'.toNat = 'a'.toNat + 25 := rfl
  unfold letterDigit
  omega

theorem letter_letterDigit (h : IsLetter c) : letter 'a' (letterDigit c - 1) = c := by
  obtain ⟨ha, -⟩ := toNat_mem_Icc h
  rw [letter, letterDigit, Nat.add_sub_cancel, Nat.add_sub_cancel' ha, Char.ofNat_toNat]

theorem letterDigit_lt (hc : IsLetter c) (h : c < d) : letterDigit c < letterDigit d := by
  obtain ⟨ha, -⟩ := toNat_mem_Icc hc
  have hlt : c.toNat < d.toNat := h
  unfold letterDigit
  omega

/-! ## The digits of a number -/

@[simp]
theorem lettersBack_zero (first : Char) : lettersBack first 0 = [] := by
  rw [lettersBack, if_pos rfl]

@[simp]
theorem letters_zero (first : Char) : letters first 0 = "" := by
  rw [letters, lettersBack_zero]
  rfl

/-- Every number is the value of its letters. -/
theorem ofDigits_lettersBack (n : Nat) :
    Nat.ofDigits 26 ((lettersBack 'a' n).map letterDigit) = n := by
  fun_induction lettersBack 'a' n with
  | case1 => rfl
  | case2 n hn ih =>
    rw [List.map_cons, Nat.ofDigits_cons, ih, letterDigit_letter _ (Nat.mod_lt _ (by decide))]
    omega

theorem isLetter_of_mem_lettersBack (h : c ∈ lettersBack 'a' n) : IsLetter c := by
  fun_induction lettersBack 'a' n with
  | case1 => simp at h
  | case2 n hn ih =>
    rcases List.mem_cons.1 h with rfl | h
    · exact isLetter_letter _ (Nat.mod_lt _ (by decide))
    · exact ih h

theorem map_toUpper_lettersBack (n : Nat) :
    (lettersBack 'a' n).map Char.toUpper = lettersBack 'A' n := by
  fun_induction lettersBack 'a' n with
  | case1 => rw [lettersBack_zero, List.map_nil]
  | case2 n hn ih =>
    rw [List.map_cons, ih, toUpper_letter _ (Nat.mod_lt _ (by decide))]
    conv_rhs => rw [lettersBack, if_neg hn]

/-- Letters are taken off their own value. -/
theorem lettersBack_ofDigits (h : ∀ c ∈ cs, IsLetter c) :
    lettersBack 'a' (Nat.ofDigits 26 (cs.map letterDigit)) = cs := by
  induction cs with
  | nil => exact lettersBack_zero 'a'
  | cons c cs ih =>
    obtain ⟨hc, hcs⟩ := List.forall_mem_cons.1 h
    obtain ⟨hone, hbound⟩ := letterDigit_mem_Icc hc
    rw [List.map_cons, Nat.ofDigits_cons, lettersBack, if_neg (by omega)]
    have hmod : (letterDigit c + 26 * Nat.ofDigits 26 (cs.map letterDigit) - 1) % 26 =
        letterDigit c - 1 := by omega
    have hdiv : (letterDigit c + 26 * Nat.ofDigits 26 (cs.map letterDigit) - 1) / 26 =
        Nat.ofDigits 26 (cs.map letterDigit) := by omega
    rw [hmod, hdiv, ih hcs, letter_letterDigit hc]

theorem toList_letters (first : Char) (n : Nat) :
    (letters first n).toList = (lettersBack first n).reverse :=
  String.toList_ofList

theorem format_lowerAlpha (n : Nat) : lowerAlpha.format n = letters 'a' n :=
  format_of_zero (letters_zero 'a') (fun n hn => by rw [format, if_neg hn]) n

theorem format_upperAlpha (n : Nat) : upperAlpha.format n = letters 'A' n :=
  format_of_zero (letters_zero 'A') (fun n hn => by rw [format, if_neg hn]) n

theorem wordValue_letters (n : Nat) : wordValue (letters 'a' n).toList = n := by
  rw [toList_letters, wordValue, List.map_reverse, List.reverse_reverse, ofDigits_lettersBack]

theorem toList_letters_wordValue (h : ∀ c ∈ cs, IsLetter c) :
    (letters 'a' (wordValue cs)).toList = cs := by
  have hback : ∀ c ∈ cs.reverse, IsLetter c := fun c hc => h c (List.mem_reverse.1 hc)
  rw [toList_letters, wordValue, ← List.map_reverse, lettersBack_ofDigits hback, List.reverse_reverse]

theorem isLetter_of_mem_letters (h : c ∈ (letters 'a' n).toList) : IsLetter c := by
  rw [toList_letters, List.mem_reverse] at h
  exact isLetter_of_mem_lettersBack h

/-! ## The order of words -/

theorem wordValue_cons (c : Char) (cs : List Char) :
    wordValue (c :: cs) = wordValue cs + 26 ^ cs.length * letterDigit c := by
  rw [wordValue, List.map_cons, Nat.ofDigits_reverse_cons, List.length_map, wordValue]

/-- Of the words of one length, `a…a` has the smallest value. -/
theorem pow_le_wordValue (h : ∀ c ∈ cs, IsLetter c) : 26 ^ cs.length ≤ 25 * wordValue cs + 1 := by
  induction cs with
  | nil => simp
  | cons c cs ih =>
    obtain ⟨hc, hcs⟩ := List.forall_mem_cons.1 h
    have hdigit := Nat.mul_le_mul_left (26 ^ cs.length) (letterDigit_mem_Icc hc).1
    have hrest := ih hcs
    rw [wordValue_cons, List.length_cons, Nat.pow_succ]
    omega

/-- Of the words of one length, `z…z` has the largest value. -/
theorem wordValue_le_pow (h : ∀ c ∈ cs, IsLetter c) :
    25 * wordValue cs + 26 ≤ 26 ^ (cs.length + 1) := by
  induction cs with
  | nil => simp [wordValue]
  | cons c cs ih =>
    obtain ⟨hc, hcs⟩ := List.forall_mem_cons.1 h
    have hdigit := Nat.mul_le_mul_left (26 ^ cs.length) (letterDigit_mem_Icc hc).2
    have hrest := ih hcs
    rw [Nat.pow_succ] at hrest
    rw [wordValue_cons, List.length_cons, Nat.pow_succ, Nat.pow_succ]
    omega

theorem wordValue_lt_of_length (hs : ∀ c ∈ cs, IsLetter c) (hd : ∀ c ∈ ds, IsLetter c)
    (h : cs.length < ds.length) : wordValue cs < wordValue ds := by
  have hpow : 26 ^ (cs.length + 1) ≤ 26 ^ ds.length := Nat.pow_le_pow_right (by decide) h
  have hupper := wordValue_le_pow hs
  have hlower := pow_le_wordValue hd
  omega

theorem wordValue_lt_of_lex (hs : ∀ c ∈ cs, IsLetter c) (hd : ∀ c ∈ ds, IsLetter c)
    (hlength : cs.length = ds.length) (h : List.Lex (· < ·) cs ds) :
    wordValue cs < wordValue ds := by
  induction h with
  | nil => simp at hlength
  | @cons c cs ds h ih =>
    have hlength : cs.length = ds.length := Nat.succ.inj hlength
    have hrest := ih (List.forall_mem_cons.1 hs).2 (List.forall_mem_cons.1 hd).2 hlength
    rw [wordValue_cons, wordValue_cons, hlength]
    omega
  | @rel c cs d ds h =>
    -- the first letter outweighs all that stands behind it
    obtain ⟨hc, hcs⟩ := List.forall_mem_cons.1 hs
    have hlength : cs.length = ds.length := Nat.succ.inj hlength
    have hdigit := Nat.mul_le_mul_left (26 ^ ds.length) (letterDigit_lt hc h)
    have hupper := wordValue_le_pow hcs
    have hlower := pow_le_wordValue (List.forall_mem_cons.1 hd).2
    rw [hlength, Nat.pow_succ] at hupper
    rw [Nat.mul_succ] at hdigit
    rw [wordValue_cons, wordValue_cons, hlength]
    omega

/-- Values go up with the length of words, and in alphabetical order among words of one length. -/
theorem wordValue_lt_of_shortlex (hs : ∀ c ∈ cs, IsLetter c) (hd : ∀ c ∈ ds, IsLetter c)
    (h : List.Shortlex (· < ·) cs ds) : wordValue cs < wordValue ds := by
  rcases List.shortlex_def.1 h with hlength | ⟨hlength, hlex⟩
  · exact wordValue_lt_of_length hs hd hlength
  · exact wordValue_lt_of_lex hs hd hlength hlex

theorem lt_iff_shortlex (n m : Nat) : n < m ↔
    List.Shortlex (· < ·) (letters 'a' n).toList (letters 'a' m).toList := by
  have hvalue {n m : Nat} (h : List.Shortlex (· < ·) (letters 'a' n).toList (letters 'a' m).toList) :
      n < m := by
    simpa only [wordValue_letters] using wordValue_lt_of_shortlex
      (fun _ => isLetter_of_mem_letters) (fun _ => isLetter_of_mem_letters) h
  refine ⟨fun h => ?_, hvalue⟩
  by_contra hnot
  have hback : ¬List.Shortlex (· < ·) (letters 'a' m).toList (letters 'a' n).toList :=
    fun hback => Nat.lt_asymm h (hvalue hback)
  have heq := Std.Trichotomous.trichotomous _ _ hnot hback
  exact Nat.ne_of_lt h (by rw [← wordValue_letters n, heq, wordValue_letters])

/-- The numbers from 1 on are written as the words over the letters, each word once. The value of a
word in base 26 is its number, and numbers are ordered as their words are, by length and then by the
alphabet. In upper case the words are the same ones. -/
theorem bijOn_format_lowerAlpha : Set.BijOn lowerAlpha.format {n | 1 ≤ n} words ∧
    (∀ n, wordValue (lowerAlpha.format n).toList = n) ∧
    (∀ n m, n < m ↔
      List.Shortlex (· < ·) (lowerAlpha.format n).toList (lowerAlpha.format m).toList) ∧
    ∀ n, upperAlpha.format n = (lowerAlpha.format n).toUpper := by
  simp only [funext format_lowerAlpha, format_upperAlpha]
  refine ⟨⟨fun n hn => ⟨fun hempty => ?_, fun _ => isLetter_of_mem_letters⟩,
    fun n _ m _ heq => ?_, fun s ⟨hs, hletters⟩ => ?_⟩, wordValue_letters, lt_iff_shortlex,
    fun n => String.toList_injective ?_⟩
  · have hzero : n = 0 := by rw [← wordValue_letters n, hempty]; rfl
    exact absurd hn (by simp [hzero])
  · rw [← wordValue_letters n, heq, wordValue_letters]
  · have hlist := toList_letters_wordValue hletters
    refine ⟨wordValue s.toList, ?_, String.toList_injective hlist⟩
    refine Nat.one_le_iff_ne_zero.2 fun hzero => hs (String.toList_injective ?_)
    rw [← hlist, hzero, letters_zero]
  · rw [String.toUpper, String.toList_map, toList_letters, toList_letters, List.map_reverse,
      map_toUpper_lettersBack]

end Folio.NumberStyle
