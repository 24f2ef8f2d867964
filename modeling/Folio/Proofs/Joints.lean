import Folio.Proofs.Numbering.Rules

/-!
# Where names are joined

The name of a label is put together from parts, with separators between them. There are four places
where two parts meet (`Joint`): a depth stands behind the depths above it, in decimal numbers or in
a format, the current rule behind the base of a composed rule, and the own name of a label behind
the name of its lead.

A joint is clean if the separator stands there only between two parts that are not empty. An empty
part in front takes the separator away at all joints, an empty part behind it only in a composed
rule (`Layout.HasJoint.clean_iff`). So a depth without a text in a format, and an own name that is
empty behind a lead, leave a separator at the end (`Layout.not_forall_clean`).
-/

namespace Folio

/-! ## Empty texts of numbers -/

namespace NumberStyle

theorem format_zero (style : NumberStyle) : style.format 0 = "" := rfl

theorem letters_ne_empty (first : Char) {n : Nat} (h : n ≠ 0) : letters first n ≠ "" := by
  rw [letters, lettersBack, if_neg h]
  simp

/-- A number that is written greedily without any text is below all values of the table. -/
theorem lt_of_greedy_eq_empty {table : List (Nat × String)} {n : Nat}
    (htable : ∀ e ∈ table, e.1 ≠ 0 ∧ e.2 ≠ "") (h : greedy table n = "") :
    ∀ e ∈ table, n < e.1 := by
  induction table generalizing n with
  | nil => simp
  | cons e table ih =>
    obtain ⟨value, symbols⟩ := e
    obtain ⟨⟨hvalue, hsymbols⟩, htable⟩ := List.forall_mem_cons.1 htable
    rw [greedy, String.append_eq_empty_iff] at h
    have hlt : n < value := by
      have hcount : n / value = 0 := by
        by_contra hpos
        have hjoin := String.toList_eq_nil_iff.2 h.1
        simp only [String.toList_join, List.flatMap_eq_nil_iff, List.mem_replicate,
          and_imp] at hjoin
        exact hsymbols (String.toList_eq_nil_iff.1 (hjoin symbols hpos rfl))
      exact (Nat.div_eq_zero_iff_lt (Nat.pos_of_ne_zero hvalue)).1 hcount
    rw [Nat.mod_eq_of_lt hlt] at h
    exact List.forall_mem_cons.2 ⟨hlt, ih htable h.2⟩

theorem roman_ne_empty (upper : Bool) {n : Nat} (h : n ≠ 0) : roman upper n ≠ "" := by
  intro hempty
  have hlt : n < 1 := by
    cases upper
    · exact lt_of_greedy_eq_empty (by decide) hempty (1, "i") (by decide)
    · exact lt_of_greedy_eq_empty (by decide) hempty (1, "I") (by decide)
  omega

/-- Only the void style and the number 0 have no text. -/
theorem format_eq_empty_iff (style : NumberStyle) (n : Nat) :
    style.format n = "" ↔ style = void ∨ n = 0 := by
  by_cases hn : n = 0
  · simp [hn, format_zero]
  · unfold NumberStyle.format
    rw [if_neg hn]
    cases style with
    | void => simp
    | decimal => simp [hn]
    | upperAlpha => simpa [hn] using letters_ne_empty 'A' hn
    | lowerAlpha => simpa [hn] using letters_ne_empty 'a' hn
    | upperRoman => simpa [hn] using roman_ne_empty true hn
    | lowerRoman => simpa [hn] using roman_ne_empty false hn

end NumberStyle

/-! ## Joints -/

/-- What two parts of a name are that stand next to each other. -/
inductive Joint.Kind where
  /-- The decimal numbers of the depths above, and that of a depth. -/
  | numbers
  /-- The name of the depths above in a format, and the number of a depth in a style. -/
  | format (style : NumberStyle) (n : Nat)
  /-- The base of a composed rule, and its current rule. -/
  | composition
  /-- The name of a lead, and the own name. -/
  | lead
  deriving DecidableEq

/-- Two parts of a name, what is to separate them, and what they are joined to. -/
structure Joint where
  kind : Joint.Kind
  left : String
  separator : String
  right : String
  whole : String

/-- The separator stands between two parts and is away if one of them is empty. -/
structure Joint.Clean (j : Joint) : Prop where
  both : j.left ≠ "" → j.right ≠ "" → j.whole = j.left ++ j.separator ++ j.right
  left_empty : j.left = "" → j.whole = j.right
  right_empty : j.right = "" → j.whole = j.left

namespace LabelRule

/-- The places in which the name of a rule, or of a rule that it is made of, is joined. -/
inductive HasJoint : LabelRule → Joint → Prop
  | numbers {c p : Counter} (h : c.parent? = some p) :
      HasJoint (.count .numbered c)
        ⟨.numbers, p.decimalName, ".", toString c.place.shown, c.decimalName⟩
  | format (f : NumberFormat) {c p : Counter} (h : c.parent? = some p) :
      HasJoint (.count (.freeForm f) c)
        ⟨.format (NumberFormat.sub^[c.outer.length] f).style c.place.shown, p.formattedName f,
          (NumberFormat.sub^[p.outer.length] f).separator,
          (NumberFormat.sub^[c.outer.length] f).format c.place.shown, c.formattedName f⟩
  | above {scheme : Scheme} {c p : Counter} (h : c.parent? = some p) {j : Joint}
      (hj : HasJoint (.count scheme p) j) : HasJoint (.count scheme c) j
  | composition (base : LabelRule) (separator : String) (current : LabelRule) :
      HasJoint (.composed base separator current)
        ⟨.composition, base.name, separator, current.name,
          (composed base separator current).name⟩
  | base {base : LabelRule} (separator : String) (current : LabelRule) {j : Joint}
      (hj : HasJoint base j) : HasJoint (.composed base separator current) j
  | current (base : LabelRule) (separator : String) {current : LabelRule} {j : Joint}
      (hj : HasJoint current j) : HasJoint (.composed base separator current) j

/-- The rules that are made from formats as they are written. -/
inductive Built : LabelRule → Prop
  | void (typ : String) (level : Option Nat) : Built (.void typ level)
  | numbered (typ : String) (level : Option Nat) : Built (.numbered typ level)
  | freeForm (typ : String) (level : Option Nat) {spec : String} {format : NumberFormat}
      (h : NumberFormat.read? spec = .ok format) : Built (.freeForm typ format level)
  | compose {base rule : LabelRule} (hb : Built base) (separator : String) (hr : Built rule) :
      Built (.compose base separator rule)
  | next {rule : LabelRule} (h : Built rule) : Built rule.next
  | sub {rule : LabelRule} (h : Built rule) : Built rule.sub
  | reset {rule : LabelRule} (h : Built rule) : Built rule.reset
  | withLevel {rule : LabelRule} (h : Built rule) (level : Option Nat) :
      Built (rule.withLevel level)

end LabelRule

namespace Layout

/-- The places in which the name of a label is joined. -/
inductive HasJoint (l : Layout) : Label → Joint → Prop
  | rule (label : Label) {j : Joint} (hj : label.rule.HasJoint j) : HasJoint l label j
  | lead (lead : SlotId) (separator : String) (rule : LabelRule) :
      HasJoint l (.led lead separator rule)
        ⟨.lead, (l.name lead).getD "", separator, rule.name,
          l.labelName (.led lead separator rule)⟩

end Layout

/-! ## What joints are like -/

/-- An empty part in front takes the separator away, and in a composed rule an empty part behind
does so too. -/
structure Joint.Made (j : Joint) : Prop where
  whole : j.whole =
    if j.left = "" then j.right
    else if j.right = "" ∧ j.kind = .composition then j.left
    else j.left ++ j.separator ++ j.right
  numbers : j.kind = .numbers → j.left ≠ "" ∧ j.right ≠ ""
  format : ∀ style n, j.kind = .format style n → j.right = style.format n

namespace Joint.Made

variable {j : Joint}

/-- A joint that is not clean ends with its separator. -/
theorem whole_of_right_empty (h : j.Made) (hkind : j.kind ≠ .composition) (hleft : j.left ≠ "")
    (hright : j.right = "") : j.whole = j.left ++ j.separator := by
  rw [h.whole, if_neg hleft, if_neg (hkind ·.2), hright, String.append_empty]

theorem isClean_iff (h : j.Made) :
    j.Clean ↔ j.kind = .composition ∨ j.left = "" ∨ j.right ≠ "" ∨ j.separator = "" := by
  constructor
  · intro hclean
    by_contra hnot
    simp only [not_or, not_not] at hnot
    obtain ⟨hkind, hleft, hright, hseparator⟩ := hnot
    have hwhole := (hclean.right_empty hright).symm.trans
      (h.whole_of_right_empty hkind hleft hright)
    exact hseparator (String.append_eq_left_iff.1 hwhole.symm)
  · intro hcase
    refine ⟨fun hleft hright => ?_, fun hleft => ?_, fun hright => ?_⟩
    · rw [h.whole, if_neg hleft, if_neg (hright ·.1)]
    · rw [h.whole, if_pos hleft]
    · by_cases hleft : j.left = ""
      · rw [h.whole, if_pos hleft, hright, hleft]
      · by_cases hkind : j.kind = .composition
        · rw [h.whole, if_neg hleft, if_pos ⟨hright, hkind⟩]
        · have hseparator : j.separator = "" := by simpa [hkind, hleft, hright] using hcase
          rw [h.whole_of_right_empty hkind hleft hright, hseparator, String.append_empty]

end Joint.Made

theorem LabelRule.HasJoint.made {rule : LabelRule} {j : Joint} (h : rule.HasJoint j) : j.Made := by
  induction h with
  | @numbers c p h =>
    have hleft : p.decimalName ≠ "" := dotted_ne_empty p.numbers_ne_nil
    have hright : toString c.place.shown ≠ "" := by simp
    refine ⟨?_, fun _ => ⟨hleft, hright⟩, nofun⟩
    rw [if_neg hleft, if_neg (hright ·.1)]
    exact Counter.decimalName_of_parent h
  | format f h =>
    refine ⟨?_, nofun, fun style n hkind => ?_⟩
    · simp only [reduceCtorEq, and_false, if_false]
      exact Counter.formattedName_of_parent h f
    · cases hkind
      rfl
  | above _ _ ih => exact ih
  | composition base separator current =>
    refine ⟨?_, nofun, nofun⟩
    simp only [and_true]
    rfl
  | base _ _ _ ih => exact ih
  | current _ _ _ ih => exact ih

namespace Layout

variable {l : Layout} {label : Label} {j : Joint}

theorem HasJoint.made (h : l.HasJoint label j) : j.Made := by
  cases h with
  | rule _ hj => exact hj.made
  | lead lead separator rule =>
    refine ⟨?_, nofun, nofun⟩
    simp only [reduceCtorEq, and_false, if_false]
    rfl

/-- A joint is clean, unless an empty part stands behind the separator in a format or behind a lead.
Then the separator is the end of the joined name. Decimal numbers have no empty parts, and in a
format the empty ones are those in the void style and those of the number 0. -/
theorem HasJoint.clean_iff (h : l.HasJoint label j) :
    (j.Clean ↔ j.kind = .composition ∨ j.left = "" ∨ j.right ≠ "" ∨ j.separator = "") ∧
      (¬j.Clean → j.whole = j.left ++ j.separator ∧ j.right = "") ∧
      (j.kind = .numbers → j.left ≠ "" ∧ j.right ≠ "") ∧
      ∀ style n, j.kind = .format style n → (j.right = "" ↔ style = .void ∨ n = 0) := by
  have hmade := h.made
  refine ⟨hmade.isClean_iff, fun hnot => ?_, hmade.numbers, fun style n hkind => ?_⟩
  · simp only [hmade.isClean_iff, not_or, not_not] at hnot
    obtain ⟨hkind, hleft, hright, -⟩ := hnot
    exact ⟨hmade.whole_of_right_empty hkind hleft hright, hright⟩
  · rw [hmade.format style n hkind]
    exact style.format_eq_empty_iff n

/-- Numbers with a point behind them, above a depth without a text. -/
def pointed : NumberFormat := ⟨⟨.decimal, "."⟩, [⟨.void, "."⟩]⟩

/-- The first label below the first one. -/
def belowFirst : LabelRule := (LabelRule.freeForm "section" pointed none).next.sub.next

/-- The joint of its name. -/
def voidJoint : Joint := ⟨.format .void 1, "1", ".", "", "1."⟩

theorem hasJoint_voidJoint : HasJoint {} (.plain belowFirst) voidJoint :=
  .rule (.plain belowFirst) (.format pointed (c := Counter.next (Counter.sub
    (Counter.next (.top "section" none)))) rfl)

/-- The point of the numbers stands behind the name of the depth above. -/
theorem clean_iff_voidDepth : HasJoint {} (.plain belowFirst) voidJoint ∧ ¬voidJoint.Clean ∧
    voidJoint.whole = voidJoint.left ++ voidJoint.separator := by
  obtain ⟨hclean, hwhole, -⟩ := HasJoint.clean_iff hasJoint_voidJoint
  have hnot : ¬voidJoint.Clean := by
    rw [hclean]
    decide
  exact ⟨hasJoint_voidJoint, hnot, (hwhole hnot).1⟩

/-- The format `1.V` gives labels below the top a name with a point at the end. -/
theorem not_forall_clean : ¬ ∀ (l : Layout) (label : Label), label.rule.Built →
    ∀ j, l.HasJoint label j → j.Clean := by
  intro h
  have hread : NumberFormat.read? "1.V" = .ok pointed := rfl
  have hbuilt : belowFirst.Built := (LabelRule.Built.freeForm "section" none hread).next.sub.next
  have hclean := h {} (.plain belowFirst) hbuilt voidJoint hasJoint_voidJoint
  exact absurd (hclean.right_empty rfl) (by decide)

end Layout

end Folio
