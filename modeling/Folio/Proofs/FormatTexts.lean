import Folio.Proofs.FormatGrammar
import Mathlib.Logic.Function.Iterate

/-!
# Number formats are written and read back

`NumberFormat.text` writes the levels of a format from the present one down, every separator
included. A format that was read is written at any depth as a text that is a format again
(`NumberFormat.read?_text_iterate_sub`), with the same styles at all depths.

The separators are the same ones, but for one kind of text and place. A last style directly behind
another one has no separator, and takes that from the style in front of it. When it stands alone,
since the writing starts there, nothing says so any more: it is read with a point
(`NumberFormat.not_forall_read?_text_iterate_sub`).
-/

namespace Folio

namespace NumberFormat

variable {spec last last' : String} {cs : List Char} {levels : List FormatLevel}
  {format : NumberFormat} {style : NumberStyle}

/-! ## The text of levels -/

/-- A level as it is written. -/
def spell (level : FormatLevel) : List Char := level.style.toChar :: level.separator.toList

theorem toList_text (format : NumberFormat) : format.text.toList = format.levels.flatMap spell := by
  rw [text, String.toList_join, List.flatMap_map]
  congr 1
  funext level
  simp [spell]

/-- What can stand behind a level: nothing or one separator. -/
def Separates (s : String) : Prop := s = "" ∨ ∃ c, isSeparator c ∧ s = String.singleton c

namespace Spells

theorem separates (h : Spells last cs levels) (hlast : Separates last) :
    ∀ level ∈ levels, Separates level.separator := by
  induction h with
  | bare last style => simpa using hlast
  | closed last style hc => exact List.forall_mem_singleton.2 (.inr ⟨_, hc, rfl⟩)
  | joined last style h ih => exact List.forall_mem_cons.2 ⟨.inl rfl, ih (.inl rfl)⟩
  | separated last style hc h ih =>
    exact List.forall_mem_cons.2 ⟨.inr ⟨_, hc, rfl⟩, ih (.inr ⟨_, hc, rfl⟩)⟩

theorem last_eq_empty (h : Spells last cs levels) (hlevels : levels = [⟨style, ""⟩]) :
    last = "" := by
  cases h with
  | bare => exact congrArg FormatLevel.separator (List.cons.inj hlevels).1
  | closed => simp at hlevels
  | joined _ _ h => exact (h.ne_nil.2 (List.cons.inj hlevels).2).elim
  | separated => simp at hlevels

/-- The levels below the first one are spelled behind it. -/
theorem deeper {level : FormatLevel} (h : Spells last cs (level :: levels)) (hne : levels ≠ []) :
    ∃ cs', Spells level.separator cs' levels := by
  cases h with
  | bare => exact (hne rfl).elim
  | closed => exact (hne rfl).elim
  | joined _ _ h => exact ⟨_, h⟩
  | separated _ _ _ h => exact ⟨_, h⟩

/-- Levels can be spelled with every separator included. Only a single level without a separator
depends on what is in front. -/
theorem spelled (h : Spells last cs levels) (hlast : Separates last)
    (halone : ∀ style, levels = [⟨style, ""⟩] → last' = "") :
    Spells last' (levels.flatMap spell) levels := by
  induction h generalizing last' with
  | bare last style =>
    rcases hlast with rfl | ⟨c, hc, rfl⟩
    · obtain rfl := halone style rfl
      exact .bare "" style
    · simpa [spell] using Spells.closed last' style hc
  | closed last style hc => simpa [spell] using Spells.closed last' style hc
  | joined last style h ih =>
    simpa [spell] using Spells.joined last' style (ih (.inl rfl) fun _ _ => rfl)
  | @separated last style c hc cs levels h ih =>
    have hspelled : Spells (String.singleton c) (levels.flatMap spell) levels :=
      ih (.inr ⟨c, hc, rfl⟩) fun _ => h.last_eq_empty
    simpa [spell] using Spells.separated last' style hc hspelled

/-- The last level has no separator if the text ends with two styles. -/
theorem lastSeparator_eq_empty_iff (h : Spells last cs levels) : lastSeparator last levels = "" ↔
    (∃ a b : NumberStyle, [a.toChar, b.toChar] <:+ cs) ∨ last = "" ∧ cs.length = 1 := by
  induction h with
  | bare last style =>
    have hlast : lastSeparator last [⟨style, last⟩] = last := rfl
    simp [hlast, List.suffix_cons_iff]
  | @closed last style c hc =>
    have hlast : lastSeparator last [⟨style, String.singleton c⟩] = String.singleton c := rfl
    have hne : ∀ b : NumberStyle, b.toChar ≠ c := by
      rintro b rfl
      simp at hc
    simp [hlast, List.suffix_cons_iff, hne]
  | joined last style h ih =>
    obtain ⟨next, rest, rfl, -⟩ := h.exists_cons
    rw [lastSeparator_cons, ih]
    constructor
    · rintro (⟨a, b, hab⟩ | ⟨-, hlength⟩)
      · exact .inl ⟨a, b, hab.trans (List.suffix_cons _ _)⟩
      · obtain rfl : rest = [] := by simpa using hlength
        exact .inl ⟨style, next, List.suffix_rfl⟩
    · rintro (⟨a, b, hab⟩ | ⟨-, hlength⟩)
      · rcases List.suffix_cons_iff.1 hab with heq | hab
        · exact .inr ⟨rfl, by rw [← (List.cons.inj heq).2]; rfl⟩
        · exact .inl ⟨a, b, hab⟩
      · simp at hlength
  | @separated last style c hc cs levels h ih =>
    obtain ⟨next, rest, rfl, -⟩ := h.exists_cons
    have hne : ∀ b : NumberStyle, b.toChar ≠ c := by
      rintro b rfl
      simp at hc
    rw [lastSeparator_cons, ih]
    simp [List.suffix_cons_iff, hne]

end Spells

/-! ## The text of a format -/

/-- The levels are those of a format that was read, from some depth on. -/
def Read (format : NumberFormat) : Prop :=
  ∃ last cs, Separates last ∧ Spells last cs format.levels

theorem read_of_read? (h : read? spec = .ok format) : format.Read :=
  ⟨".", spec.toList, .inr ⟨'.', by decide, rfl⟩, read?_eq_ok_iff.1 h⟩

theorem levels_sub (format : NumberFormat) :
    format.sub.levels = format.levels.drop (min 1 (format.levels.length - 1)) := by
  obtain ⟨level, deeper⟩ := format
  cases deeper <;> simp [sub, levels]

theorem levels_iterate_sub (format : NumberFormat) (d : Nat) :
    (sub^[d] format).levels = format.levels.drop (min d (format.levels.length - 1)) := by
  induction d with
  | zero => simp
  | succ d ih =>
    rw [Function.iterate_succ_apply', levels_sub, ih, List.length_drop, List.drop_drop]
    congr 1
    omega

theorem Read.sub (h : format.Read) : format.sub.Read := by
  obtain ⟨last, cs, hlast, h⟩ := h
  obtain ⟨level, deeper⟩ := format
  cases deeper with
  | nil => exact ⟨last, cs, hlast, h⟩
  | cons next deeper =>
    obtain ⟨cs', h'⟩ := h.deeper (by simp)
    exact ⟨level.separator, cs', h.separates hlast level (by simp [levels]), h'⟩

theorem Read.iterate_sub (h : format.Read) (d : Nat) : (NumberFormat.sub^[d] format).Read := by
  induction d with
  | zero => exact h
  | succ d ih =>
    rw [Function.iterate_succ_apply']
    exact ih.sub

/-- A single level without a separator. -/
def Alone (format : NumberFormat) : Prop := format.deeper = [] ∧ format.separator = ""

theorem Read.read?_text (h : format.Read) (halone : ¬format.Alone) :
    read? format.text = .ok format := by
  obtain ⟨last, cs, hlast, h⟩ := h
  rw [read?_eq_ok_iff, toList_text]
  refine h.spelled hlast fun style hlevels => (halone ?_).elim
  obtain ⟨hlevel, hdeeper⟩ := List.cons.inj hlevels
  exact ⟨hdeeper, congrArg FormatLevel.separator hlevel⟩

theorem read?_text_of_alone (h : format.Alone) :
    read? format.text = .ok ⟨⟨format.style, "."⟩, []⟩ := by
  rw [read?_eq_ok_iff, toList_text]
  obtain ⟨⟨style, separator⟩, deeper⟩ := format
  obtain ⟨rfl, rfl⟩ := h
  exact .bare "." style

theorem iterate_sub_of_deeper (h : format.deeper = []) (k : Nat) : sub^[k] format = format := by
  refine Function.iterate_fixed ?_ k
  rw [sub, h]

/-- The text of a format ends with two styles. -/
def EndsWithStyles (spec : String) : Prop :=
  ∃ a b : NumberStyle, [a.toChar, b.toChar] <:+ spec.toList

/-- At the depth of the last level, nothing stands behind it if the text ends with two styles. -/
theorem alone_iterate_sub_iff (h : read? spec = .ok format) (d : Nat) :
    (sub^[d] format).Alone ↔ format.levels.length ≤ d + 1 ∧ EndsWithStyles spec := by
  have hlevels := levels_iterate_sub format d
  have hpos : 0 < format.levels.length := by simp [levels]
  have hdeeper : (sub^[d] format).deeper = [] ↔ format.levels.length ≤ d + 1 := by
    have hlength : (sub^[d] format).deeper.length + 1 =
        format.levels.length - min d (format.levels.length - 1) := by
      rw [← List.length_drop, ← hlevels, levels, List.length_cons]
    rw [← List.length_eq_zero_iff]
    omega
  have hseparator (hnil : (sub^[d] format).deeper = []) :
      (sub^[d] format).separator = "" ↔ EndsWithStyles spec := by
    have hlast : (sub^[d] format).separator = lastSeparator "." (sub^[d] format).levels := by
      rw [levels, hnil]
      rfl
    rw [hlast, hlevels, lastSeparator, List.getLast?_drop, if_neg (by omega)]
    simpa [EndsWithStyles, lastSeparator] using (read?_eq_ok_iff.1 h).lastSeparator_eq_empty_iff
  exact (and_congr_right hseparator).trans (and_congr_left' hdeeper)

/-- A format that was read is written at every depth as a text that is read again, with the same
styles and so the same numbers at all depths from there on. The separators are the same ones, unless
the text of the format ends with two styles and only the last level is written. -/
theorem read?_text_iterate_sub (h : read? spec = .ok format) (d : Nat) :
    ∃ again, read? (sub^[d] format).text = .ok again ∧
      (∀ k, (sub^[k] again).style = (sub^[k] (sub^[d] format)).style ∧
        ∀ n, (sub^[k] again).format n = (sub^[k] (sub^[d] format)).format n) ∧
      ∀ k, (sub^[k] again).separator = (sub^[k] (sub^[d] format)).separator ↔
        ¬(format.levels.length ≤ d + 1 ∧ EndsWithStyles spec) := by
  rw [← alone_iterate_sub_iff h]
  by_cases halone : (sub^[d] format).Alone
  · -- A single level is that of all depths, with a point behind it in one case.
    refine ⟨_, read?_text_of_alone halone, fun k => ?_, fun k => ?_⟩ <;>
      rw [iterate_sub_of_deeper halone.1, iterate_sub_of_deeper rfl]
    · exact ⟨rfl, fun n => rfl⟩
    · have hpoint : (⟨⟨(sub^[d] format).style, "."⟩, []⟩ : NumberFormat).separator = "." := rfl
      simp [halone, halone.2, hpoint]
  · exact ⟨_, ((read_of_read? h).iterate_sub d).read?_text halone,
      fun k => ⟨rfl, fun n => rfl⟩, fun k => iff_of_true rfl halone⟩

/-- Numbers, letters and roman numerals, the last two with nothing between them. -/
def lettered : NumberFormat :=
  ⟨⟨.decimal, "-"⟩, [⟨.lowerAlpha, ""⟩, ⟨.upperRoman, ""⟩]⟩

/-- Below the top, two levels are written, and nothing between them is read back. -/
theorem read?_text_iterate_sub_lettered : read? "1-aI" = .ok lettered ∧
    ∃ again, read? "aI" = .ok again ∧
      ∀ k, (sub^[k] again).separator = (sub^[k] lettered.sub).separator := by
  have hread : read? "1-aI" = .ok lettered := by decide
  obtain ⟨again, hagain, -, hseparator⟩ := read?_text_iterate_sub hread 1
  refine ⟨hread, again, hagain, fun k => (hseparator k).2 fun h => ?_⟩
  exact absurd h.1 (by decide)

/-- Letters behind numbers, with nothing between them, are letters with points below the top. -/
theorem not_forall_read?_text_iterate_sub : ¬ ∀ spec format, read? spec = .ok format → ∀ d,
    ∃ again, read? (sub^[d] format).text = .ok again ∧
      ∀ k, (sub^[k] again).style = (sub^[k] (sub^[d] format)).style ∧
        (sub^[k] again).separator = (sub^[k] (sub^[d] format)).separator := by
  intro h
  obtain ⟨again, hread, hagain⟩ :=
    h "1a" ⟨⟨.decimal, ""⟩, [⟨.lowerAlpha, ""⟩]⟩ (by decide) 1
  have htext : read? (sub^[1] (⟨⟨.decimal, ""⟩, [⟨.lowerAlpha, ""⟩]⟩ : NumberFormat)).text =
      .ok ⟨⟨.lowerAlpha, "."⟩, []⟩ := by decide
  cases htext.symm.trans hread
  exact absurd (hagain 0).2 (by decide)

end NumberFormat

end Folio
