import Folio.Format.Basic
import Mathlib.Computability.Language

/-!
# The grammar of number formats

A number format is written as a style, further styles with at most one separator in front of each,
and at most one separator at the end (`NumberFormat.grammar`). `NumberFormat.read?` reads exactly
these texts, and `NumberFormat.read?_grammar` says what it makes of them and of all others.

The reader has two states, behind a style and behind a separator, and a text that it accepts is
taken apart in the same way: `NumberFormat.Spells` relates such a text to its levels, where the
separator of the last level may come from the level before it. That is proved of the reader once
(`NumberFormat.read?_eq_ok_iff`). The order and the separators of the levels follow by
induction on the relation. A text that is no format is at fault where it can no longer go on to one
(`NumberFormat.BreaksAt`).
-/

namespace Folio

namespace NumberStyle

theorem eq_toChar_of_ofChar? {c : Char} {style : NumberStyle} (h : ofChar? c = some style) :
    c = style.toChar := by
  unfold ofChar? at h
  split at h <;> cases h <;> rfl

theorem toChar_injective : Function.Injective toChar := fun s t h =>
  Option.some.inj ((ofChar?_toChar s).symm.trans ((congrArg ofChar? h).trans (ofChar?_toChar t)))

theorem of_ofChar? {p : Char → Prop} (hp : ∀ style : NumberStyle, p style.toChar) {c : Char}
    (h : (ofChar? c).isSome) : p c := by
  obtain ⟨style, hstyle⟩ := Option.isSome_iff_exists.1 h
  exact eq_toChar_of_ofChar? hstyle ▸ hp style

theorem not_isSeparator {c : Char} (h : (ofChar? c).isSome) : ¬isSeparator c :=
  of_ofChar? (p := fun c => ¬isSeparator c) (fun style => by cases style <;> decide) h

@[simp]
theorem isSeparator_toChar (style : NumberStyle) : isSeparator style.toChar = false := by
  cases style <;> decide

theorem ofChar?_of_isSeparator {c : Char} (h : isSeparator c) : ofChar? c = none :=
  Option.not_isSome_iff_eq_none.1 fun hc => not_isSeparator hc h

end NumberStyle

namespace NumberFormat

open Computability
open NumberStyle (ofChar? toChar_injective)

/-! ## The grammar -/

/-- The texts of one style. -/
def styleTexts : Language Char := Set.range fun style : NumberStyle => [style.toChar]

/-- The texts of one separator. -/
def separatorTexts : Language Char := (fun c => [c]) '' {c | isSeparator c}

/-- A style, further styles with or without a separator in front of each, and a separator or
none. -/
def grammar : Language Char :=
  styleTexts * ((1 + separatorTexts) * styleTexts)∗ * (1 + separatorTexts)

/-- What follows the first style. -/
def styleTail : Language Char :=
  ((1 + separatorTexts) * styleTexts)∗ * (1 + separatorTexts)

/-- What follows a separator. -/
def separatorTail : Language Char := 1 + grammar

variable {spec last : String} {style : NumberStyle} {cs : List Char} {c : Char}

theorem grammar_eq : grammar = styleTexts * styleTail := mul_assoc ..

/-- The text goes on behind a separator as it may go on behind a style. -/
theorem styleTail_eq : styleTail = (1 + separatorTexts) * separatorTail := by
  rw [separatorTail, grammar_eq, mul_add, mul_one, ← mul_assoc]
  conv_lhs => rw [styleTail, ← Language.one_add_self_mul_kstar_eq_kstar, add_mul, one_mul,
    mul_assoc _ _ (1 + separatorTexts)]
  rfl

theorem cons_mem_grammar : c :: cs ∈ grammar ↔ (ofChar? c).isSome ∧ cs ∈ styleTail := by
  rw [grammar_eq, Language.mem_mul]
  constructor
  · rintro ⟨_, ⟨style, rfl⟩, w, hw, h⟩
    obtain ⟨rfl, rfl⟩ := List.cons.inj h
    exact ⟨by simp, hw⟩
  · rintro ⟨hc, hcs⟩
    obtain ⟨style, hstyle⟩ := Option.isSome_iff_exists.1 hc
    exact ⟨[c], ⟨style, by rw [NumberStyle.eq_toChar_of_ofChar? hstyle]⟩, cs, hcs, rfl⟩

theorem nil_not_mem_grammar : [] ∉ grammar := by
  rw [grammar_eq, Language.mem_mul]
  rintro ⟨_, ⟨style, rfl⟩, w, -, h⟩
  cases h

theorem nil_mem_separatorTail : [] ∈ separatorTail := .inl rfl

theorem cons_mem_separatorTail :
    c :: cs ∈ separatorTail ↔ (ofChar? c).isSome ∧ cs ∈ styleTail := by
  rw [separatorTail, Language.mem_add, cons_mem_grammar, Language.mem_one]
  simp

theorem mem_styleTail : cs ∈ styleTail ↔
    cs ∈ separatorTail ∨ ∃ c rest, isSeparator c ∧ rest ∈ separatorTail ∧ cs = c :: rest := by
  rw [styleTail_eq, add_mul, one_mul, Language.mem_add, Language.mem_mul]
  refine or_congr_right ⟨?_, ?_⟩
  · rintro ⟨_, ⟨c, hc, rfl⟩, rest, hrest, rfl⟩
    exact ⟨c, rest, hc, hrest, rfl⟩
  · rintro ⟨c, rest, hc, hrest, rfl⟩
    exact ⟨[c], ⟨c, hc, rfl⟩, rest, hrest, rfl⟩

theorem nil_mem_styleTail : [] ∈ styleTail := mem_styleTail.2 (.inl nil_mem_separatorTail)

theorem cons_mem_styleTail : c :: cs ∈ styleTail ↔
    (ofChar? c).isSome ∧ cs ∈ styleTail ∨ isSeparator c ∧ cs ∈ separatorTail := by
  rw [mem_styleTail, cons_mem_separatorTail]
  refine or_congr_right ⟨?_, fun h => ⟨c, cs, h.1, h.2, rfl⟩⟩
  rintro ⟨_, _, hc, hcs, h⟩
  obtain ⟨rfl, rfl⟩ := List.cons.inj h
  exact ⟨hc, hcs⟩

theorem cons_mem_styleTail_of_style (h : (ofChar? c).isSome) :
    c :: cs ∈ styleTail ↔ cs ∈ styleTail := by
  simp [cons_mem_styleTail, h, NumberStyle.not_isSeparator h]

theorem cons_mem_styleTail_of_separator (h : isSeparator c) :
    c :: cs ∈ styleTail ↔ cs ∈ separatorTail := by
  simp [cons_mem_styleTail, h, NumberStyle.ofChar?_of_isSeparator h]

/-- A text that starts with `front` can be in the language, but not if `c` comes next. -/
structure BreaksAt (L : Language Char) (front : List Char) (c : Char) : Prop where
  goesOn : ∃ more, front ++ more ∈ L
  breaks : ∀ more, front ++ c :: more ∉ L

theorem BreaksAt.cons {L M : Language Char} {front : List Char} {b c : Char}
    (h : BreaksAt M front c) (hb : ∀ w, b :: w ∈ L ↔ w ∈ M) : BreaksAt L (b :: front) c where
  goesOn := h.goesOn.imp fun _ hmore => (hb _).2 hmore
  breaks more hmore := h.breaks more ((hb _).1 hmore)

theorem breaksAt_styleTail (hs : ofChar? c = none) (hc : ¬isSeparator c) :
    BreaksAt styleTail [] c where
  goesOn := ⟨[], nil_mem_styleTail⟩
  breaks more := by simp [cons_mem_styleTail, hs, hc]

theorem breaksAt_separatorTail (hs : ofChar? c = none) : BreaksAt separatorTail [] c where
  goesOn := ⟨[], nil_mem_separatorTail⟩
  breaks more := by simp [cons_mem_separatorTail, hs]

theorem breaksAt_grammar (hs : ofChar? c = none) : BreaksAt grammar [] c where
  goesOn := ⟨[NumberStyle.decimal.toChar], cons_mem_grammar.2 ⟨by simp, nil_mem_styleTail⟩⟩
  breaks more := by simp [cons_mem_grammar, hs]

/-! ## The levels that a text spells -/

/-- A text of the grammar and its levels. A last style without a separator has the separator
`last`. -/
inductive Spells : String → List Char → List FormatLevel → Prop
  | bare (last : String) (style : NumberStyle) : Spells last [style.toChar] [⟨style, last⟩]
  | closed (last : String) (style : NumberStyle) {c : Char} (hc : isSeparator c) :
      Spells last [style.toChar, c] [⟨style, String.singleton c⟩]
  | joined (last : String) (style : NumberStyle) {cs : List Char} {levels : List FormatLevel}
      (h : Spells "" cs levels) : Spells last (style.toChar :: cs) (⟨style, ""⟩ :: levels)
  | separated (last : String) (style : NumberStyle) {c : Char} (hc : isSeparator c)
      {cs : List Char} {levels : List FormatLevel} (h : Spells (String.singleton c) cs levels) :
      Spells last (style.toChar :: c :: cs) (⟨style, String.singleton c⟩ :: levels)

/-- What stands behind a level, given what follows its style. Nothing but a separator can follow a
style and be no style. -/
def separatorBehind (last : String) : Option Char → String
  | none => last
  | some c => if isSeparator c then String.singleton c else ""

/-- The separator of the last one of some levels. -/
def lastSeparator (last : String) (levels : List FormatLevel) : String :=
  (levels.getLast?.map FormatLevel.separator).getD last

theorem lastSeparator_cons (last : String) (level : FormatLevel) (levels : List FormatLevel) :
    lastSeparator last (level :: levels) = lastSeparator level.separator levels := by
  rw [lastSeparator, lastSeparator, List.getLast?_cons, Option.map_some, Option.getD_some,
    Option.getD_map]

namespace Spells

variable {levels : List FormatLevel}

theorem ne_nil (h : Spells last cs levels) : cs ≠ [] ∧ levels ≠ [] := by
  cases h <;> simp

theorem exists_cons (h : Spells last cs levels) : ∃ (style : NumberStyle) (rest : List Char),
    cs = style.toChar :: rest ∧ rest ∈ styleTail := by
  induction h with
  | bare last style => exact ⟨style, [], rfl, nil_mem_styleTail⟩
  | closed last style hc =>
    exact ⟨style, _, rfl, (cons_mem_styleTail_of_separator hc).2 nil_mem_separatorTail⟩
  | joined last style h ih =>
    obtain ⟨next, rest, rfl, hrest⟩ := ih
    exact ⟨style, _, rfl, (cons_mem_styleTail_of_style (by simp)).2 hrest⟩
  | separated last style hc h ih =>
    obtain ⟨next, rest, rfl, hrest⟩ := ih
    exact ⟨style, _, rfl, (cons_mem_styleTail_of_separator hc).2
      (cons_mem_separatorTail.2 ⟨by simp, hrest⟩)⟩

theorem mem_grammar (h : Spells last cs levels) : cs ∈ grammar := by
  obtain ⟨style, rest, rfl, hrest⟩ := h.exists_cons
  exact cons_mem_grammar.2 ⟨by simp, hrest⟩

/-- There is a level for each style, in the order of the styles. -/
theorem map_style (h : Spells last cs levels) :
    levels.map FormatLevel.style = cs.filterMap ofChar? := by
  induction h with
  | bare last style => simp
  | closed last style hc => simp [NumberStyle.ofChar?_of_isSeparator hc]
  | joined last style h ih => simp [ih]
  | separated last style hc h ih => simp [ih, NumberStyle.ofChar?_of_isSeparator hc]

/-- The level of the style behind `front`. -/
theorem getElem?_eq (h : Spells last cs levels) {front rest : List Char} {style : NumberStyle}
    (hcs : cs = front ++ style.toChar :: rest) :
    levels[(front.filterMap ofChar?).length]? = some ⟨style, separatorBehind
      (lastSeparator last (levels.take (front.filterMap ofChar?).length)) rest.head?⟩ := by
  induction h generalizing front with
  | bare last first =>
    cases front with
    | nil =>
      obtain ⟨hfirst, rfl⟩ := List.cons.inj hcs
      simp [toChar_injective hfirst, separatorBehind, lastSeparator]
    | cons _ front => simp at hcs
  | @closed last first c hc =>
    cases front with
    | nil =>
      obtain ⟨hfirst, rfl⟩ := List.cons.inj hcs
      simp [toChar_injective hfirst, separatorBehind, hc]
    | cons _ front =>
      have hc' : c = style.toChar := by
        cases front with
        | nil => exact (List.cons.inj (List.cons.inj hcs).2).1
        | cons _ front => simp at hcs
      simp [hc'] at hc
  | @joined last first cs levels h ih =>
    cases front with
    | nil =>
      obtain ⟨hfirst, rfl⟩ := List.cons.inj hcs
      obtain ⟨next, more, rfl, -⟩ := h.exists_cons
      simp [toChar_injective hfirst, separatorBehind]
    | cons b front =>
      obtain ⟨rfl, htail⟩ := List.cons.inj hcs
      have hlevel := ih htail
      simpa [lastSeparator_cons] using hlevel
  | @separated last first c hc cs levels h ih =>
    cases front with
    | nil =>
      obtain ⟨hfirst, rfl⟩ := List.cons.inj hcs
      simp [toChar_injective hfirst, separatorBehind, hc]
    | cons b front =>
      obtain ⟨rfl, hbehind⟩ := List.cons.inj hcs
      cases front with
      | nil => simp [(List.cons.inj hbehind).1] at hc
      | cons b front =>
        obtain ⟨rfl, htail⟩ := List.cons.inj hbehind
        have hlevel := ih htail
        simpa [lastSeparator_cons, NumberStyle.ofChar?_of_isSeparator hc] using hlevel

end Spells

/-! ## What the reader accepts -/

mutual

theorem spells_of_afterStyle {style : NumberStyle} {last : String} : ∀ {cs : List Char}
    {format : NumberFormat}, afterStyle spec style last cs = .ok format →
      Spells last (style.toChar :: cs) format.levels
  | [], format, h => by
    cases h
    exact .bare last style
  | c :: cs, format, h => by
    rw [afterStyle] at h
    split at h
    next next hnext =>
      cases hrest : afterStyle spec next "" cs with
      | error cause => simp [hrest, bind, Except.bind] at h
      | ok rest =>
        rw [hrest] at h
        cases h
        rw [NumberStyle.eq_toChar_of_ofChar? hnext]
        exact .joined last style (spells_of_afterStyle hrest)
    next =>
      split at h
      next hc =>
        cases hrest : afterSeparator spec (String.singleton c) cs with
        | error cause => simp [hrest, bind, Except.bind] at h
        | ok levels =>
          rw [hrest] at h
          cases h
          rcases spells_of_afterSeparator hrest with ⟨rfl, rfl⟩ | hspells
          · exact .closed last style hc
          · exact .separated last style hc hspells
      next => cases h

theorem spells_of_afterSeparator {last : String} : ∀ {cs : List Char} {levels : List FormatLevel},
    afterSeparator spec last cs = .ok levels → cs = [] ∧ levels = [] ∨ Spells last cs levels
  | [], levels, h => by
    cases h
    exact .inl ⟨rfl, rfl⟩
  | c :: cs, levels, h => by
    rw [afterSeparator] at h
    split at h
    next next hnext =>
      cases hrest : afterStyle spec next last cs with
      | error cause => simp [hrest, bind, Except.bind] at h
      | ok rest =>
        rw [hrest] at h
        cases h
        rw [NumberStyle.eq_toChar_of_ofChar? hnext]
        exact .inr (spells_of_afterStyle hrest)
    next => split at h <;> cases h

end

/-- What is wrong with a character behind others. -/
def offence (spec : String) (front : List Char) (c : Char) : FormatError :=
  if isSeparator c ∧ front.getLast?.any isSeparator then .doubleSeparator c spec
  else .invalidCharacter c spec

mutual

theorem breaksAt_of_afterStyle {style : NumberStyle} {last : String} : ∀ {cs : List Char}
    {cause : FormatError}, afterStyle spec style last cs = .error cause →
      ∃ front c rest, cs = front ++ c :: rest ∧ BreaksAt styleTail front c ∧
        cause = offence spec (style.toChar :: front) c
  | [], _, h => by cases h
  | c :: cs, cause, h => by
    rw [afterStyle] at h
    split at h
    next next hnext =>
      cases hrest : afterStyle spec next "" cs with
      | ok rest => simp [hrest, bind, Except.bind, pure, Except.pure] at h
      | error cause =>
        rw [hrest] at h
        cases h
        obtain ⟨front, d, rest, rfl, hbreaks, rfl⟩ := breaksAt_of_afterStyle hrest
        refine ⟨c :: front, d, rest, rfl,
          hbreaks.cons fun w => cons_mem_styleTail_of_style (by simp [hnext]), ?_⟩
        rw [NumberStyle.eq_toChar_of_ofChar? hnext]
        rfl
    next hnext =>
      split at h
      next hc =>
        cases hrest : afterSeparator spec (String.singleton c) cs with
        | ok levels => simp [hrest, bind, Except.bind, pure, Except.pure] at h
        | error cause =>
          rw [hrest] at h
          cases h
          obtain ⟨front, d, rest, rfl, hbreaks, hcause⟩ := breaksAt_of_afterSeparator hc hrest
          exact ⟨c :: front, d, rest, rfl,
            hbreaks.cons fun w => cons_mem_styleTail_of_separator hc, hcause⟩
      next hc =>
        cases h
        exact ⟨[], c, cs, rfl, breaksAt_styleTail hnext hc, by simp [offence, hc]⟩

theorem breaksAt_of_afterSeparator {b : Char} (hb : isSeparator b) {last : String} :
    ∀ {cs : List Char} {cause : FormatError}, afterSeparator spec last cs = .error cause →
      ∃ front c rest, cs = front ++ c :: rest ∧ BreaksAt separatorTail front c ∧
        cause = offence spec (b :: front) c
  | [], _, h => by cases h
  | c :: cs, cause, h => by
    rw [afterSeparator] at h
    split at h
    next next hnext =>
      cases hrest : afterStyle spec next last cs with
      | ok rest => simp [hrest, bind, Except.bind, pure, Except.pure] at h
      | error cause =>
        rw [hrest] at h
        cases h
        obtain ⟨front, d, rest, rfl, hbreaks, rfl⟩ := breaksAt_of_afterStyle hrest
        refine ⟨c :: front, d, rest, rfl, hbreaks.cons fun w => ?_, ?_⟩
        · rw [cons_mem_separatorTail, hnext]
          simp
        · rw [NumberStyle.eq_toChar_of_ofChar? hnext]
          rfl
    next hnext =>
      refine ⟨[], c, cs, rfl, breaksAt_separatorTail hnext, ?_⟩
      split at h <;> cases h
      next hc => simp [offence, hc, hb]
      next hc => simp [offence, hc]

end

theorem Spells.exists_afterStyle {levels : List FormatLevel} (h : Spells last cs levels)
    (spec : String) {rest : List Char} (hcs : cs = style.toChar :: rest) :
    ∃ format, afterStyle spec style last rest = .ok format ∧ format.levels = levels := by
  induction h generalizing style rest with
  | bare last first =>
    obtain ⟨hfirst, rfl⟩ := List.cons.inj hcs
    exact ⟨_, rfl, by simp [NumberFormat.levels, toChar_injective hfirst]⟩
  | @closed last first c hc =>
    obtain ⟨hfirst, rfl⟩ := List.cons.inj hcs
    refine ⟨⟨⟨style, String.singleton c⟩, []⟩, ?_,
      by simp [NumberFormat.levels, toChar_injective hfirst]⟩
    rw [afterStyle, NumberStyle.ofChar?_of_isSeparator hc]
    simp [hc, afterSeparator, bind, Except.bind, pure, Except.pure]
  | joined last first h ih =>
    obtain ⟨hfirst, rfl⟩ := List.cons.inj hcs
    obtain ⟨next, more, rfl, -⟩ := h.exists_cons
    obtain ⟨format, hformat, hlevels⟩ := ih rfl
    refine ⟨⟨⟨style, ""⟩, format.levels⟩, ?_, ?_⟩
    · rw [afterStyle, NumberStyle.ofChar?_toChar]
      simp [hformat, bind, Except.bind, pure, Except.pure]
    · rw [← hlevels, toChar_injective hfirst, NumberFormat.levels]
  | @separated last first c hc cs levels h ih =>
    obtain ⟨hfirst, rfl⟩ := List.cons.inj hcs
    obtain ⟨next, more, rfl, -⟩ := h.exists_cons
    obtain ⟨format, hformat, hlevels⟩ := ih rfl
    refine ⟨⟨⟨style, String.singleton c⟩, format.levels⟩, ?_, ?_⟩
    · rw [afterStyle, NumberStyle.ofChar?_of_isSeparator hc]
      simp [hc, afterSeparator, hformat, bind, Except.bind, pure, Except.pure]
    · rw [← hlevels, toChar_injective hfirst, NumberFormat.levels]

/-! ## Reading -/

theorem levels_injective : Function.Injective levels := by
  rintro ⟨level, deeper⟩ ⟨level', deeper'⟩ h
  obtain ⟨rfl, rfl⟩ := List.cons.inj h
  rfl

theorem read?_eq_ok_iff {format : NumberFormat} :
    read? spec = .ok format ↔ Spells "." spec.toList format.levels := by
  constructor
  · intro h
    unfold read? at h
    split at h
    next => cases h
    next c cs hcs =>
      split at h
      next style hstyle =>
        rw [hcs, NumberStyle.eq_toChar_of_ofChar? hstyle]
        exact spells_of_afterStyle h
      next => cases h
  · intro h
    obtain ⟨style, rest, hcs, -⟩ := h.exists_cons
    obtain ⟨read, hread, hlevels⟩ := h.exists_afterStyle spec hcs
    rw [read?, hcs]
    dsimp only
    rw [NumberStyle.ofChar?_toChar, ← levels_injective hlevels]
    exact hread

/-- Every text of the grammar has its levels. -/
theorem exists_spells (last : String) : ∀ {cs : List Char}, cs ∈ grammar →
    ∃ levels, Spells last cs levels
  | [], h => (nil_not_mem_grammar h).elim
  | c :: cs, h => by
    obtain ⟨hc, hcs⟩ := cons_mem_grammar.1 h
    refine NumberStyle.of_ofChar? (p := fun c => ∃ levels, Spells last (c :: cs) levels)
      (fun style => ?_) hc
    match cs, hcs with
    | [], _ => exact ⟨_, .bare last style⟩
    | d :: ds, hcs =>
      rcases cons_mem_styleTail.1 hcs with hd | ⟨hd, hds⟩
      · obtain ⟨levels, hlevels⟩ := exists_spells "" (cons_mem_grammar.2 hd)
        exact ⟨_, .joined last style hlevels⟩
      · match ds, hds with
        | [], _ => exact ⟨_, .closed last style hd⟩
        | e :: es, hds =>
          obtain ⟨levels, hlevels⟩ := exists_spells (String.singleton d)
            (cons_mem_grammar.2 (cons_mem_separatorTail.1 hds))
          exact ⟨_, .separated last style hd hlevels⟩
termination_by cs => cs.length

theorem breaksAt_of_read? {cause : FormatError} (h : read? spec = .error cause) (hne : spec ≠ "") :
    ∃ front c rest, spec.toList = front ++ c :: rest ∧ BreaksAt grammar front c ∧
      cause = offence spec front c := by
  unfold read? at h
  split at h
  next hnil => exact (hne (String.toList_eq_nil_iff.1 hnil)).elim
  next c cs hcs =>
    rw [hcs]
    split at h
    next style hstyle =>
      obtain ⟨front, d, rest, rfl, hbreaks, rfl⟩ := breaksAt_of_afterStyle h
      refine ⟨c :: front, d, rest, rfl, hbreaks.cons fun w => ?_, ?_⟩
      · rw [cons_mem_grammar, hstyle]
        simp
      · rw [NumberStyle.eq_toChar_of_ofChar? hstyle]
    next hstyle =>
      cases h
      exact ⟨[], c, cs, rfl, breaksAt_grammar hstyle, by simp [offence]⟩

theorem exists_read?_iff : (∃ format, read? spec = .ok format) ↔ spec.toList ∈ grammar := by
  constructor
  · rintro ⟨format, h⟩
    exact (read?_eq_ok_iff.1 h).mem_grammar
  · intro h
    obtain ⟨levels, hlevels⟩ := exists_spells "." h
    obtain ⟨level, deeper, rfl⟩ := List.exists_cons_of_ne_nil hlevels.ne_nil.2
    exact ⟨⟨level, deeper⟩, read?_eq_ok_iff.2 hlevels⟩

/-- The reader accepts the texts of the grammar and no others. A format has a level for each style,
in the order of the styles, with the separator that follows the style, none if another style follows
directly, and for a last style that nothing follows the separator of the level before, or a point.
What is wrong with any other text, if it is not empty, is the first character with which it can no
longer become a format: a separator behind a separator, or a character that cannot stand there. -/
theorem read?_grammar (spec : String) :
    ((∃ format, read? spec = .ok format) ↔ spec ≠ "" ∧ spec.toList ∈ grammar) ∧
    (∀ format, read? spec = .ok format →
      format.levels.map FormatLevel.style = spec.toList.filterMap ofChar? ∧
      ∀ front (style : NumberStyle) rest, spec.toList = front ++ style.toChar :: rest →
        format.levels[(front.filterMap ofChar?).length]? = some ⟨style, separatorBehind
          (lastSeparator "." (format.levels.take (front.filterMap ofChar?).length)) rest.head?⟩) ∧
    ∀ cause, read? spec = .error cause → spec = "" ∧ cause = .missing ∨
      ∃ front c rest, spec.toList = front ++ c :: rest ∧ BreaksAt grammar front c ∧
        cause = offence spec front c := by
  refine ⟨?_, fun format h => ?_, fun cause h => ?_⟩
  · rw [exists_read?_iff]
    refine ⟨fun h => ⟨?_, h⟩, And.right⟩
    rintro rfl
    exact nil_not_mem_grammar h
  · have hspells := read?_eq_ok_iff.1 h
    exact ⟨hspells.map_style, fun front style rest hspec => hspells.getElem?_eq hspec⟩
  · by_cases hne : spec = ""
    · subst hne
      cases h
      exact .inl ⟨rfl, rfl⟩
    · exact .inr (breaksAt_of_read? h hne)

/-- Two separators without a style between them. -/
example : read? "1.-" = .error (.doubleSeparator '-' "1.-") := by decide

end NumberFormat

end Folio
