import Folio.Proofs.FormatGrammar
import Folio.Proofs.SplitDeclarations

/-!
# Declarations are read back

`Declaration.Parts` are the parts that a declaration can have: a name, a separator, a kind, a level,
a master with its limit and an abbreviation. They are written in one line, and declaring that line
for the first time gives the parts back (`Settings.declare_parts`).

One separator is the mark of levels as well. A kind behind it is read back only if a level follows,
since what stands alone behind the name is a level then (`Settings.not_forall_declare_parts`). The
other kinds cannot be taken for anything else: a format consists of styles and separators and starts
with a style (`NumberFormat.starts_of_read?`), so it has no separator in front that is not its own.
-/

namespace Folio

open Text

namespace NumberFormat

/-! ## The characters of a format -/

/-- A character that formats are written with. -/
def Writes (c : Char) : Prop := (NumberStyle.ofChar? c).isSome ∨ isSeparator c

variable {spec last : String} {format : NumberFormat} {cs : List Char} {levels : List FormatLevel}

theorem Spells.writes (h : Spells last cs levels) : ∀ c ∈ cs, Writes c := by
  have hstyle : ∀ style : NumberStyle, Writes style.toChar := fun style => .inl (by simp)
  induction h with
  | bare last style => simpa using hstyle style
  | closed last style hc => simpa using ⟨hstyle style, .inr hc⟩
  | joined last style h ih => exact List.forall_mem_cons.2 ⟨hstyle style, ih⟩
  | separated last style hc h ih =>
    exact List.forall_mem_cons.2 ⟨hstyle style, List.forall_mem_cons.2 ⟨.inr hc, ih⟩⟩

/-- A format starts with a style, and more styles and separators follow. -/
theorem starts_of_read? (h : read? spec = .ok format) : ∃ c cs, spec.toList = c :: cs ∧
    (NumberStyle.ofChar? c).isSome ∧ ∀ c ∈ cs, Writes c := by
  have hspells := read?_eq_ok_iff.1 h
  obtain ⟨style, rest, hspec, -⟩ := hspells.exists_cons
  refine ⟨style.toChar, rest, hspec, by simp, fun c hc => hspells.writes c ?_⟩
  rw [hspec]
  exact List.mem_cons_of_mem _ hc

end NumberFormat

namespace Declaration

open Statement (isBreak)

theorem not_isBreak_of_writes {c : Char} (h : NumberFormat.Writes c) : ¬isBreak c := by
  have hseparators : separators.all (fun c => !isBreak c) := by decide
  have hstyles : ∀ style : NumberStyle, ¬isBreak style.toChar := fun style => by
    cases style <;> decide
  exact h.elim (NumberStyle.of_ofChar? (p := fun c => ¬isBreak c) hstyles) fun h =>
    by simpa using List.all_eq_true.1 hseparators c (List.contains_iff_mem.1 h)

/-! ## Kinds -/

/-- How the labels of a type are made. -/
inductive Kind where
  | numbered
  | void
  /-- Numbers in a format, as it is written. -/
  | formatted (spec : String) (format : NumberFormat) (reads : NumberFormat.read? spec = .ok format)

namespace Kind

def text : Kind → String
  | numbered => "numbered"
  | void => "void"
  | formatted spec .. => spec

/-- How the labels are counted. -/
def scheme : Kind → Scheme
  | numbered => .numbered
  | void => .void
  | formatted _ format _ => .freeForm format

/-- The level of the rule, which is the one that is given. Labels without names are at level 0 if
none is. -/
def ruleLevel (level : Option Nat) : Kind → Option Nat
  | void => some (level.getD 0)
  | _ => level

/-- The rule that makes such labels. -/
def rule (typ : String) (level : Option Nat) (kind : Kind) : LabelRule :=
  .count kind.scheme (.top typ (kind.ruleLevel level))

/-- A kind does not start with a separator. -/
theorem exists_text (kind : Kind) : ∃ c cs, kind.text.toList = c :: cs ∧ ¬isSeparator c := by
  cases kind with
  | numbered => exact ⟨'n', _, rfl, by decide⟩
  | void => exact ⟨'v', _, rfl, by decide⟩
  | formatted spec format reads =>
    obtain ⟨c, cs, hspec, hc, -⟩ := NumberFormat.starts_of_read? reads
    exact ⟨c, cs, hspec, NumberStyle.not_isSeparator hc⟩

theorem text_ne_empty (kind : Kind) : kind.text ≠ "" := by
  obtain ⟨c, cs, htext, -⟩ := kind.exists_text
  exact fun h => by simp [h] at htext

theorem avoids_isBreak (kind : Kind) : Avoids isBreak kind.text := by
  cases kind with
  | numbered => decide
  | void => decide
  | formatted spec format reads =>
    obtain ⟨c, cs, hspec, hc, hcs⟩ := NumberFormat.starts_of_read? reads
    intro d hd
    rw [text, hspec] at hd
    rcases List.mem_cons.1 hd with rfl | hd
    · exact not_isBreak_of_writes (.inl hc)
    · exact not_isBreak_of_writes (hcs d hd)

theorem ofKind?_text (typ : String) (kind : Kind) (level : Option Nat) :
    LabelRule.ofKind? typ kind.text level = .ok (kind.rule typ level) := by
  cases kind with
  | numbered => rfl
  | void => rfl
  | formatted spec format reads =>
    obtain ⟨c, cs, hspec, hc, -⟩ := NumberFormat.starts_of_read? reads
    have hne : spec ≠ "numbered" ∧ spec ≠ "void" := by
      constructor <;>
      · rintro rfl
        obtain ⟨rfl, -⟩ := List.cons.inj hspec
        exact absurd hc (by decide)
    rw [text, LabelRule.ofKind?, if_neg hne.1, if_neg hne.2, reads]
    rfl

end Kind

/-! ## Parts -/

/-- The parts of a declaration. All but the name can be absent. -/
structure Parts where
  name : String
  name_ne : name ≠ ""
  name_avoids : Avoids (fun c => isBreak c || c == '=') name
  separator : Option Char := none
  isSeparator : ∀ c ∈ separator, isSeparator c
  kind : Option Kind := none
  level : Option Nat := none
  level_lt : ∀ n ∈ level, n + 1 < numeralBound
  /-- The master, with the deepest level that is followed. -/
  master : Option (String × Option Nat) := none
  master_avoids : ∀ m ∈ master, Avoids isBreak m.1
  limit_lt : ∀ m ∈ master, ∀ n ∈ m.2, n + 1 < numeralBound
  abbreviation : Option String := none
  abbreviation_avoids : ∀ x ∈ abbreviation, Avoids isBlank x

namespace Parts

variable {p : Parts}

def separatorText (p : Parts) : String := (p.separator.map String.singleton).getD ""

def kindText (p : Parts) : String := (p.kind.map Kind.text).getD ""

/-- The separator and the kind, as they stand between the name and the level. -/
def field (p : Parts) : Option String :=
  if p.separator.isSome || p.kind.isSome then some (p.separatorText ++ p.kindText) else none

/-- The parts with separator and kind in one. -/
def statement (p : Parts) : Statement where
  name := p.name
  kind := p.field
  level := p.level
  master := p.master
  abbreviation := p.abbreviation

/-- The parts as they are written. -/
def text (p : Parts) : String := p.statement.text

def rule (p : Parts) : Option LabelRule := p.kind.map (Kind.rule p.name p.level)

/-- The parts as they are read back. -/
def declaration (p : Parts) : Declaration where
  name := p.name
  rule := p.rule
  level := p.level
  separator := p.separatorText
  abbreviation := p.abbreviation.getD ""
  master := p.master.map Prod.fst
  limit := p.master.bind Prod.snd

/-! ## Parts are read back -/

theorem separatorText_of_some {c : Char} (h : p.separator = some c) :
    p.separatorText = String.singleton c := by
  rw [separatorText, h]
  rfl

theorem separatorText_of_none (h : p.separator = none) : p.separatorText = "" := by
  rw [separatorText, h]
  rfl

theorem kindText_of_some {kind : Kind} (h : p.kind = some kind) : p.kindText = kind.text := by
  rw [kindText, h]
  rfl

theorem kindText_of_none (h : p.kind = none) : p.kindText = "" := by
  rw [kindText, h]
  rfl

theorem eq_of_field {field : String} (h : p.field = some field) :
    field = p.separatorText ++ p.kindText ∧ field ≠ "" := by
  obtain ⟨hsome, hfield⟩ := Option.ite_none_right_eq_some.1 h
  obtain rfl := Option.some.inj hfield
  refine ⟨rfl, ?_⟩
  cases hs : p.separator with
  | some c => simp [separatorText_of_some hs]
  | none =>
    cases hk : p.kind with
    | some kind => simp [kindText_of_some hk, kind.text_ne_empty]
    | none => simp [hs, hk] at hsome

theorem wellFormed_statement (p : Parts) : p.statement.WellFormed where
  name_ne := p.name_ne
  name := p.name_avoids
  kind := by
    intro field hfield
    obtain ⟨rfl, hne⟩ := eq_of_field hfield
    refine ⟨hne, .append ?_ ?_⟩
    · cases hs : p.separator with
      | none => simp [separatorText_of_none hs, Avoids]
      | some c =>
        have hc := not_isBreak_of_writes (.inr (p.isSeparator c hs))
        simpa [separatorText_of_some hs, Avoids] using hc
    · cases hk : p.kind with
      | none => simp [kindText_of_none hk, Avoids]
      | some kind => exact kindText_of_some hk ▸ kind.avoids_isBreak
  level := p.level_lt
  master := p.master_avoids
  limit := p.limit_lt
  abbreviation := p.abbreviation_avoids

/-- No kind has a separator in front that is its own. -/
theorem splitSeparator_field (p : Parts) :
    splitSeparator (p.separatorText ++ p.kindText) = (p.separatorText, p.kindText) := by
  unfold splitSeparator
  cases hs : p.separator with
  | some c => simp [separatorText_of_some hs, p.isSeparator c hs]
  | none =>
    rw [separatorText_of_none hs, String.empty_append]
    cases hk : p.kind with
    | none => simp [kindText_of_none hk]
    | some kind =>
      obtain ⟨c, cs, htext, hc⟩ := kind.exists_text
      simp [kindText_of_some hk, htext, hc]

theorem readRuleKind_field {field : String} (h : p.field = some field) :
    readRuleKind p.name field p.level = .ok (p.separatorText, p.rule) := by
  obtain ⟨rfl, hne⟩ := eq_of_field h
  rw [readRuleKind, splitSeparator_field]
  dsimp only
  cases hk : p.kind with
  | none =>
    rw [kindText_of_none hk] at hne ⊢
    rw [if_pos ⟨rfl, by simpa using hne⟩, rule, hk]
    rfl
  | some kind =>
    rw [kindText_of_some hk, if_neg fun h => kind.text_ne_empty h.1, Kind.ofKind?_text, rule, hk]
    rfl

/-- Only the separator can be the mark of a level. -/
theorem head?_field {field : String} (h : p.field = some field) :
    field.toList.head? = some '#' ↔ p.separator = some '#' := by
  obtain ⟨rfl, hne⟩ := eq_of_field h
  cases hs : p.separator with
  | some c => simp [separatorText_of_some hs]
  | none =>
    rw [separatorText_of_none hs, String.empty_append] at hne ⊢
    cases hk : p.kind with
    | none => exact (hne (kindText_of_none hk)).elim
    | some kind =>
      obtain ⟨c, cs, htext, hc⟩ := kind.exists_text
      have hmark : c ≠ '#' := by
        rintro rfl
        exact hc (by decide)
      simp [kindText_of_some hk, htext, hmark]

/-- The parts are read back if a separator that is the mark of levels goes with a level. -/
theorem declaration?_statement (h : p.separator = some '#' → p.level.isSome) :
    p.statement.declaration? = .ok p.declaration := by
  have hhead : p.statement.readHead = .ok (p.level, p.separatorText, p.rule) := by
    unfold Statement.readHead statement
    cases hf : p.field with
    | none =>
      obtain ⟨hs, hk⟩ : p.separator = none ∧ p.kind = none := by simpa [field] using hf
      simp [separatorText_of_none hs, rule, hk]
    | some field =>
      have hread := readRuleKind_field hf
      cases hl : p.level with
      | some level => simp [← hl, hread, Except.map]
      | none =>
        have hmark : ¬field.toList.head? = some '#' := fun hmark => by
          simpa [hl] using h ((head?_field hf).1 hmark)
        rw [hl] at hread
        simp [hmark, hread, Except.map]
  rw [Statement.declaration?, hhead]
  rfl

/-- Otherwise the separator and the kind are read as the level. -/
theorem separator_of_mark (hs : p.separator = some '#') (hl : p.level = none) {d : Declaration}
    (hd : p.statement.declaration? = .ok d) : d.separator = "" := by
  have hf : p.field = some (p.separatorText ++ p.kindText) := by simp [field, hs]
  have hhead : p.statement.readHead =
      (readLevel "section level" (p.separatorText ++ p.kindText)).map (some ·, "", none) := by
    unfold Statement.readHead statement
    simp only [hf, hl]
    exact if_pos ((head?_field hf).2 hs)
  unfold Statement.declaration? at hd
  rw [hhead] at hd
  cases hlevel : readLevel "section level" (p.separatorText ++ p.kindText) with
  | error cause => simp [hlevel, Except.map] at hd
  | ok level =>
    rw [hlevel] at hd
    cases hd
    rfl

end Parts

end Declaration

namespace Settings

open Declaration

/-- A declaration is read back, and its type has all that is declared: the separator, a rule of the
kind with the level, the level, the abbreviation and the master with its limit. What makes an
exception is a separator that is the mark of levels, if no level follows. -/
theorem declare_parts (p : Parts) (location : Location) :
    declare location p.text [] = .ok () [(p.name,
      { location
        rule := p.kind.map (Kind.rule p.name p.level)
        level := p.level
        separator := p.separatorText
        abbreviation := p.abbreviation.getD ""
        master := p.master.map Prod.fst
        limit := p.master.bind Prod.snd })] ↔
    (p.separator = some '#' → p.level.isSome) := by
  have hs := p.wellFormed_statement
  refine ⟨fun h hmark => ?_, fun h => declare_new hs (Parts.declaration?_statement h) rfl location⟩
  by_contra hlevel
  have hlevel : p.level = none := by simpa using hlevel
  cases hd : p.statement.declaration? with
  | error cause =>
    have hfail : declare location p.text [] = _ := declare_of_error hs hd
    rw [hfail] at h
    cases h
  | ok d =>
    have hdeclare : declare location p.text [] = _ := declare_new hs hd rfl location
    rw [hdeclare] at h
    have hseparator : d.separator = p.separatorText := by
      injection h with _ h
      exact congrArg TypeSettings.separator (Prod.mk.inj (List.cons.inj h).1).2
    rw [Parts.separator_of_mark hmark hlevel hd, Parts.separatorText_of_some hmark] at hseparator
    exact absurd hseparator (by decide)

/-- Figures with letters behind a mark of levels, and no level. -/
def markedFigure : Parts where
  name := "figure"
  name_ne := by decide
  name_avoids := by decide
  separator := some '#'
  isSeparator := by simp only [Option.mem_some_iff, forall_eq']; decide
  kind := some (.formatted "a" ⟨⟨.lowerAlpha, "."⟩, []⟩ rfl)
  level_lt := by decide
  master_avoids := by decide
  limit_lt := by decide
  abbreviation_avoids := by decide

/-- Not every declaration is read back. -/
theorem not_forall_declare_parts : ¬ ∀ (p : Parts) (location : Location),
    declare location p.text [] = .ok () [(p.name,
      { location
        rule := p.kind.map (Kind.rule p.name p.level)
        level := p.level
        separator := p.separatorText
        abbreviation := p.abbreviation.getD ""
        master := p.master.map Prod.fst
        limit := p.master.bind Prod.snd })] := by
  intro h
  have hread : figureSeparator? (declare (.document "doc") markedFigure.text) = some "#" := by
    rw [figureSeparator?, h]
    rfl
  have htext : markedFigure.text = "figure:#a" := by decide +kernel
  have hfail : figureSeparator? (declare (.document "doc") "figure:#a") = none := by decide +kernel
  rw [htext, hfail] at hread
  cases hread

end Settings

end Folio
