import Folio.Format.Style
import Mathlib.Data.List.Infix
import Mathlib.Tactic.IntervalCases
import Mathlib.Tactic.Ring

/-!
# Roman numerals

A roman numeral is read by the subtractive rule: a symbol in front of a larger one counts negative
(`NumberStyle.subtractive`). It is written greedily, by the largest entry of a table that still goes
into the number. The table has one symbol for the thousands and then four entries for each decimal
place, and what is left behind the entries of a place is below the unit of this place
(`NumberStyle.toList_greedy_decade`). So the numeral is made up of the decimal digits, one group of
symbols for each (`NumberStyle.digitSymbols`, `NumberStyle.toList_roman`).

The symbols of a group are at least as large as the unit of its place, and the first symbol of what
follows is smaller. That is why groups are read one by one (`NumberStyle.subtractive_digitSymbols`),
and why a symbol is not repeated across groups (`NumberStyle.replicate_infix_append`).

The main statement is `NumberStyle.format_upperRoman_spec`.
-/

namespace Folio.NumberStyle

/-! ## Symbols -/

/-- The value of a roman symbol. -/
def symbolValue : Char → Nat
  | 'I' => 1
  | 'V' => 5
  | 'X' => 10
  | 'L' => 50
  | 'C' => 100
  | 'D' => 500
  | 'M' => 1000
  | _ => 0

/-- The sum of values by the subtractive rule: what stands in front of a larger value counts
negative. -/
def subtractive : List Nat → Int
  | [] => 0
  | v :: vs => (if v < vs.headD 0 then -(v : Int) else v) + subtractive vs

/-- The symbols of a decimal digit, from those for one, five and ten units of its place. -/
def digitSymbols {α : Type} (one five ten : α) (digit : Nat) : List α :=
  if digit = 9 then [one, ten]
  else if digit = 4 then [one, five]
  else List.replicate (digit / 5) five ++ List.replicate (digit % 5) one

variable {c : Char} {n k u v d : Nat} {vs ws : List Nat}

theorem symbolValue_eq_thousand_iff : symbolValue c = 1000 ↔ c = 'M' := by
  unfold symbolValue
  split <;> simp_all

theorem map_digitSymbols {α β : Type} (f : α → β) (one five ten : α) (digit : Nat) :
    (digitSymbols one five ten digit).map f = digitSymbols (f one) (f five) (f ten) digit := by
  unfold digitSymbols
  split
  · rfl
  · split
    · rfl
    · simp

/-! ## How numerals are written -/

theorem toList_greedy_cons (value : Nat) (symbols : String) (smaller : List (Nat × String)) (n : Nat) :
    (greedy ((value, symbols) :: smaller) n).toList =
      (List.replicate (n / value) symbols.toList).flatten ++ (greedy smaller (n % value)).toList := by
  rw [greedy, String.toList_append, String.toList_join, List.flatMap_def, List.map_replicate]

/-- An entry for a multiple of a unit takes its part of the units and leaves the rest. -/
theorem toList_greedy_unit (symbols : String) (smaller : List (Nat × String)) {rest : Nat}
    (hrest : rest < u) (q : Nat) :
    (greedy ((k * u, symbols) :: smaller) (rest + u * q)).toList =
      (List.replicate (q / k) symbols.toList).flatten ++
        (greedy smaller (rest + u * (q % k))).toList := by
  have hdiv : (rest + u * q) / u = q := by
    rw [Nat.add_mul_div_left _ _ (by omega), Nat.div_eq_of_lt hrest, Nat.zero_add]
  have hmod : (rest + u * q) % u = rest := by
    rw [Nat.add_mul_mod_self_left, Nat.mod_eq_of_lt hrest]
  rw [toList_greedy_cons, Nat.mul_comm k u, ← Nat.div_div_eq_div_mul, Nat.mod_mul, hdiv, hmod]

/-- The entries of one decimal place. -/
def decade (one five ten : Char) (unit : Nat) : List (Nat × String) :=
  [(9 * unit, String.ofList [one, ten]), (5 * unit, String.singleton five),
    (4 * unit, String.ofList [one, five]), (1 * unit, String.singleton one)]

/-- The entries of a decimal place write its digit and leave what is below the unit. -/
theorem toList_greedy_decade (one five ten : Char) (smaller : List (Nat × String)) (hu : 0 < u)
    (hn : n < 10 * u) : (greedy (decade one five ten u ++ smaller) n).toList =
      digitSymbols one five ten (n / u) ++ (greedy smaller (n % u)).toList := by
  have hq : n / u < 10 := (Nat.div_lt_iff_lt_mul hu).2 hn
  have hrest : n % u < u := Nat.mod_lt n hu
  conv_lhs => rw [← Nat.mod_add_div n u]
  generalize n / u = q at hq
  simp only [decade, List.cons_append, List.nil_append, toList_greedy_unit _ _ hrest]
  interval_cases q <;> simp [digitSymbols]

theorem romanTable_true : romanTable true =
    (1000, "M") :: (decade 'C' 'D' 'M' 100 ++ (decade 'X' 'L' 'C' 10 ++ decade 'I' 'V' 'X' 1)) := by
  decide

/-- A numeral is made up of the decimal digits, with all thousands in the first group. -/
theorem toList_roman (n : Nat) : (roman true n).toList =
    List.replicate (n / 1000) 'M' ++ (digitSymbols 'C' 'D' 'M' (n / 100 % 10) ++
      (digitSymbols 'X' 'L' 'C' (n / 10 % 10) ++ digitSymbols 'I' 'V' 'X' (n % 10))) := by
  have hhundreds : n % 1000 / 100 = n / 100 % 10 := by omega
  have htens : n % 1000 % 100 / 10 = n / 10 % 10 := by omega
  have hunits : n % 1000 % 100 % 10 / 1 = n % 10 := by omega
  have hlast : decade 'I' 'V' 'X' 1 = decade 'I' 'V' 'X' 1 ++ [] := rfl
  rw [roman, romanTable_true, toList_greedy_cons, hlast,
    toList_greedy_decade _ _ _ _ (by decide) (by omega),
    toList_greedy_decade _ _ _ _ (by decide) (by omega),
    toList_greedy_decade _ _ _ _ (by decide) (by omega), hhundreds, htens, hunits]
  simp [greedy]

/-- Tables with the same values write numbers in corresponding symbols. -/
theorem toList_greedy_of_forall₂ {f : Char → Char} {table table' : List (Nat × String)}
    (h : List.Forall₂ (fun e e' => e.1 = e'.1 ∧ e'.2.toList = e.2.toList.map f) table table')
    (n : Nat) : (greedy table' n).toList = (greedy table n).toList.map f := by
  induction h generalizing n with
  | nil => rfl
  | @cons e e' table table' he _ ih =>
    obtain ⟨value, symbols⟩ := e
    obtain ⟨value', symbols'⟩ := e'
    obtain ⟨rfl, hsymbols⟩ := he
    rw [toList_greedy_cons, toList_greedy_cons, ih, hsymbols, List.map_append, List.map_flatten,
      List.map_replicate]

theorem toList_roman_false (n : Nat) :
    (roman false n).toList = (roman true n).toList.map Char.toLower :=
  toList_greedy_of_forall₂ (by decide) n

/-! ## How numerals are read -/

theorem headD_replicate_append_le (k : Nat) (hv : v ≤ u) (h : vs.headD 0 ≤ u) :
    (List.replicate k v ++ vs).headD 0 ≤ u := by
  cases k with
  | zero => exact h
  | succ k => exact hv

/-- A group of symbols starts with five units at most. -/
theorem headD_digitSymbols_append_le (d : Nat) (h : vs.headD 0 ≤ 5 * u) :
    (digitSymbols u (5 * u) (10 * u) d ++ vs).headD 0 ≤ 5 * u := by
  have hone : u ≤ 5 * u := Nat.le_mul_of_pos_left u (by decide)
  unfold digitSymbols
  split
  · exact hone
  · split
    · exact hone
    · rw [List.append_assoc]
      exact headD_replicate_append_le _ (Nat.le_refl _) (headD_replicate_append_le _ hone h)

theorem subtractive_replicate (k : Nat) (h : vs.headD 0 ≤ v) :
    subtractive (List.replicate k v ++ vs) = k * v + subtractive vs := by
  induction k with
  | zero => simp
  | succ k ih =>
    have hhead := headD_replicate_append_le k (Nat.le_refl v) h
    rw [List.replicate_succ, List.cons_append, subtractive, if_neg (Nat.not_lt.2 hhead), ih]
    push_cast
    ring

/-- A smaller value counts negative in front of a larger one. -/
theorem subtractive_pair (hv : v < u) (h : vs.headD 0 ≤ u) :
    subtractive (v :: u :: vs) = u - v + subtractive vs := by
  rw [subtractive, subtractive, List.headD_cons, if_pos hv, if_neg (Nat.not_lt.2 h)]
  ring

/-- A group of symbols is read as its digit, if no symbol of more than one unit follows. -/
theorem subtractive_digitSymbols (hu : 0 < u) (d : Nat) (h : vs.headD 0 ≤ u) :
    subtractive (digitSymbols u (5 * u) (10 * u) d ++ vs) = u * d + subtractive vs := by
  have hfive : vs.headD 0 ≤ 5 * u := by omega
  have hten : vs.headD 0 ≤ 10 * u := by omega
  unfold digitSymbols
  split
  next hnine =>
    rw [List.cons_append, List.cons_append, List.nil_append, subtractive_pair (by omega) hten, hnine]
    push_cast
    ring
  next =>
    split
    next hfour =>
      rw [List.cons_append, List.cons_append, List.nil_append, subtractive_pair (by omega) hfive,
        hfour]
      push_cast
      ring
    next =>
      have hones := headD_replicate_append_le (d % 5) (Nat.le_mul_of_pos_left u (by decide)) hfive
      have hsum : (d : Int) = 5 * ↑(d / 5) + ↑(d % 5) := by omega
      rw [List.append_assoc, subtractive_replicate _ hones, subtractive_replicate _ h, hsum]
      push_cast
      ring

/-! ## Runs of symbols -/

/-- A run does not go on where a smaller symbol follows. -/
theorem replicate_infix_append (h : List.replicate k v <:+: vs ++ ws)
    (hfall : ∀ w ∈ vs, ws.headD 0 < w) :
    List.replicate k v <:+: vs ∨ List.replicate k v <:+: ws := by
  rcases List.infix_append_iff.1 h with h | h | ⟨left, right, heq, hleft, hright⟩
  · exact .inl h
  · exact .inr h
  -- a run on both sides would make the first symbol of `ws` one of `vs`
  cases right with
  | nil =>
    rw [List.append_nil] at heq
    exact .inl (heq ▸ hleft.isInfix)
  | cons w right =>
    cases left with
    | nil => exact .inr (heq ▸ hright.isInfix)
    | cons u left =>
      have hall : ∀ x ∈ u :: left ++ w :: right, x = v := fun x hx =>
        List.eq_of_mem_replicate (heq ▸ hx)
      obtain ⟨rest, rfl⟩ := hright
      have hlt := hfall u (hleft.subset (List.mem_cons_self ..))
      rw [hall u (by simp), List.cons_append, List.headD_cons, hall w (by simp)] at hlt
      exact (Nat.lt_irrefl v hlt).elim

theorem le_of_mem_digitSymbols (hv : v ∈ digitSymbols u (5 * u) (10 * u) d) : u ≤ v := by
  unfold digitSymbols at hv
  split at hv
  · rcases List.mem_pair.1 hv with rfl | rfl <;> omega
  · split at hv
    · rcases List.mem_pair.1 hv with rfl | rfl <;> omega
    · rcases List.mem_append.1 hv with hv | hv
      · rw [List.eq_of_mem_replicate hv]
        omega
      · rw [List.eq_of_mem_replicate hv]

/-- No symbol stands more than three times in a row in a group. -/
theorem le_three_of_infix_digitSymbols (hu : 0 < u) (hd : d < 10)
    (h : List.replicate k v <:+: digitSymbols u (5 * u) (10 * u) d) : k ≤ 3 := by
  unfold digitSymbols at h
  split at h
  · have hlength : k ≤ 2 := by simpa using h.length_le
    omega
  · split at h
    · have hlength : k ≤ 2 := by simpa using h.length_le
      omega
    · have hfall : ∀ w ∈ List.replicate (d / 5) (5 * u), (List.replicate (d % 5) u).headD 0 < w := by
        intro w hw
        have hhead : (List.replicate (d % 5) u ++ []).headD 0 ≤ u :=
          headD_replicate_append_le _ (Nat.le_refl u) (Nat.zero_le u)
        rw [List.append_nil] at hhead
        rw [List.eq_of_mem_replicate hw]
        omega
      rcases replicate_infix_append h hfall with h | h
      · have hlength : k ≤ d / 5 := by simpa using h.length_le
        omega
      · have hlength : k ≤ d % 5 := by simpa using h.length_le
        omega

/-! ## All decimal places -/

/-- The values of the symbols of the last decimal digits. -/
def digitValues : Nat → Nat → List Nat
  | 0, _ => []
  | p + 1, n =>
    digitSymbols (10 ^ p) (5 * 10 ^ p) (10 * 10 ^ p) (n / 10 ^ p % 10) ++ digitValues p n

theorem map_symbolValue_roman (n : Nat) : (roman true n).toList.map symbolValue =
    List.replicate (n / 1000) 1000 ++ digitValues 3 n := by
  simp [toList_roman, map_digitSymbols, digitValues, symbolValue]

/-- The first symbol of some digits has a smaller value than the place in front of them. -/
theorem headD_digitValues_lt (p n : Nat) : (digitValues p n).headD 0 < 10 ^ p := by
  induction p with
  | zero => exact Nat.one_pos
  | succ p ih =>
    have hpos : 0 < 10 ^ p := Nat.pow_pos (by decide)
    rw [digitValues, Nat.pow_succ]
    refine Nat.lt_of_le_of_lt (headD_digitSymbols_append_le _ ?_) ?_
    · omega
    · omega

theorem subtractive_digitValues (p n : Nat) : subtractive (digitValues p n) = (n % 10 ^ p : Nat) := by
  induction p with
  | zero => simp [digitValues, subtractive, Nat.mod_one]
  | succ p ih =>
    have hpos : 0 < 10 ^ p := Nat.pow_pos (by decide)
    rw [digitValues, subtractive_digitSymbols hpos _ (headD_digitValues_lt p n).le, ih, Nat.pow_succ,
      Nat.mod_mul]
    push_cast
    ring

theorem le_three_of_infix_digitValues (p : Nat)
    (h : List.replicate k v <:+: digitValues p n) : k ≤ 3 := by
  induction p with
  | zero =>
    have hlength : k ≤ 0 := by simpa [digitValues] using h.length_le
    omega
  | succ p ih =>
    have hpos : 0 < 10 ^ p := Nat.pow_pos (by decide)
    rcases replicate_infix_append h fun w hw =>
      (headD_digitValues_lt p n).trans_le (le_of_mem_digitSymbols hw) with h | h
    · exact le_three_of_infix_digitSymbols hpos (Nat.mod_lt _ (by decide)) h
    · exact ih h

/-! ## The text of a number -/

theorem subtractive_roman (n : Nat) : subtractive ((roman true n).toList.map symbolValue) = n := by
  have hhead : (digitValues 3 n).headD 0 < 1000 := headD_digitValues_lt 3 n
  rw [map_symbolValue_roman, subtractive_replicate _ hhead.le, subtractive_digitValues]
  omega

/-- Among the thousands there is no other symbol, and behind them no symbol stands four times in a
row. -/
theorem not_infix_roman (hc : c ≠ 'M') : ¬List.replicate 4 c <:+: (roman true n).toList := by
  intro h
  have hvalues := h.map symbolValue
  rw [List.map_replicate, map_symbolValue_roman] at hvalues
  rcases replicate_infix_append hvalues fun w hw =>
    List.eq_of_mem_replicate hw ▸ headD_digitValues_lt 3 n with h | h
  · have hmem : symbolValue c ∈ List.replicate (n / 1000) 1000 := h.subset (by simp)
    exact hc (symbolValue_eq_thousand_iff.1 (List.eq_of_mem_replicate hmem))
  · exact absurd (le_three_of_infix_digitValues 3 h) (by decide)

theorem roman_zero (upper : Bool) : roman upper 0 = "" := by
  cases upper <;> decide

theorem format_upperRoman (n : Nat) : upperRoman.format n = roman true n :=
  format_of_zero (roman_zero true) (fun n hn => by rw [format, if_neg hn]) n

theorem format_lowerRoman (n : Nat) : lowerRoman.format n = roman false n :=
  format_of_zero (roman_zero false) (fun n hn => by rw [format, if_neg hn]) n

/-- A roman numeral is read as its number, so every number has another one. It has an M for every
thousand and then one group of symbols for each of the other digits that is not zero, and no symbol
but M stands more than three times in a row. In lower case the numerals are the same ones. -/
theorem format_upperRoman_spec (n : Nat) :
    subtractive ((upperRoman.format n).toList.map symbolValue) = n ∧
    (upperRoman.format n).toList = List.replicate (n / 1000) 'M' ++
      (digitSymbols 'C' 'D' 'M' (n / 100 % 10) ++
        (digitSymbols 'X' 'L' 'C' (n / 10 % 10) ++ digitSymbols 'I' 'V' 'X' (n % 10))) ∧
    (∀ c ≠ 'M', ¬List.replicate 4 c <:+: (upperRoman.format n).toList) ∧
    (∀ m, upperRoman.format m = upperRoman.format n ↔ m = n) ∧
    lowerRoman.format n = (upperRoman.format n).toLower := by
  simp only [format_upperRoman, format_lowerRoman]
  refine ⟨subtractive_roman n, toList_roman n, fun c hc => not_infix_roman hc,
    fun m => ⟨fun heq => ?_, ?_⟩, ?_⟩
  · have hread := subtractive_roman m
    rw [heq, subtractive_roman n] at hread
    exact (Int.ofNat_inj.1 hread).symm
  · rintro rfl
    rfl
  · refine String.toList_injective ?_
    exact (toList_roman_false n).trans String.toList_map.symm

end Folio.NumberStyle
