import Folio.Proofs.Outcome
import Folio.Proofs.Statements

/-!
# Declarations in several steps

A declaration may be made in steps: rule and level first, and then the master and the abbreviation,
each on its own. Every setting of the type comes out as in a single declaration, whichever of the
two comes first, but for the separator. A master takes the separator of its own step, and that step
has none, so the one that the rule was declared with is lost (`Settings.declare_steps`).
-/

namespace Folio

namespace Table

variable {α : Type}

theorem put_put (key : String) (v w : α) (t : Table α) : (t.put key v).put key w = t.put key w := by
  induction t with
  | nil => simp [put]
  | cons e t ih =>
    obtain ⟨k, u⟩ := e
    by_cases h : key = k
    · simp [put, h]
    · by_cases hlt : key < k
      · simp [put, h, hlt]
      · simp [put, h, hlt, ih]

theorem put_inj {key : String} {v w : α} {t : Table α} : t.put key v = t.put key w ↔ v = w := by
  refine ⟨fun h => ?_, fun h => by rw [h]⟩
  have hlookup := congrArg (List.lookup key) h
  simpa using hlookup

end Table

/-- The settings of a type that is declared for the first time. -/
def Declaration.settings (d : Declaration) (location : Location) : TypeSettings :=
  { location, rule := d.rule, level := d.level, separator := d.separator
    abbreviation := d.abbreviation, master := d.master, limit := d.limit }

namespace Declaration.Statement

/-- The step for rule and level. -/
def base (s : Statement) : Statement := { s with master := none, abbreviation := none }

/-- The steps for the master and the abbreviation, as far as these are given. -/
def additions (s : Statement) : List Statement :=
  (s.master.map fun master => { name := s.name, master := some master }).toList ++
    (s.abbreviation.map fun abbreviation =>
      { name := s.name, abbreviation := some abbreviation }).toList

variable {s : Statement}

namespace WellFormed

theorem base (hs : s.WellFormed) : s.base.WellFormed where
  name_ne := hs.name_ne
  name := hs.name
  kind := hs.kind
  level := hs.level
  master := by simp [Statement.base]
  limit := by simp [Statement.base]
  abbreviation := by simp [Statement.base]

theorem ofMaster (hs : s.WellFormed) {master : String × Option Nat}
    (hm : s.master = some master) : WellFormed { name := s.name, master := some master } where
  name_ne := hs.name_ne
  name := hs.name
  kind := by simp
  level := by simp
  master := hm ▸ hs.master
  limit := hm ▸ hs.limit
  abbreviation := by simp

theorem ofAbbreviation (hs : s.WellFormed) {abbreviation : String}
    (ha : s.abbreviation = some abbreviation) :
    WellFormed { name := s.name, abbreviation := some abbreviation } where
  name_ne := hs.name_ne
  name := hs.name
  kind := by simp
  level := by simp
  master := by simp
  limit := by simp
  abbreviation := ha ▸ hs.abbreviation

end WellFormed

theorem declaration?_base (s : Statement) : s.base.declaration? = s.declaration?.map fun d =>
    { d with abbreviation := "", master := none, limit := none } := by
  have hhead : s.base.readHead = s.readHead := rfl
  unfold declaration?
  rw [hhead]
  cases s.readHead <;> rfl

theorem exists_of_declaration? {d : Declaration} (h : s.declaration? = .ok d) :
    ∃ level separator rule, d =
      { name := s.name, rule, level, separator
        abbreviation := s.abbreviation.getD ""
        master := s.master.map Prod.fst
        limit := s.master.bind Prod.snd } := by
  unfold declaration? at h
  cases hhead : s.readHead with
  | error cause => simp [hhead, Except.map] at h
  | ok read =>
    rw [hhead] at h
    cases h
    exact ⟨_, _, _, rfl⟩

end Declaration.Statement

namespace Settings

open Declaration

variable {settings : Settings} {location : Location} {typ : String} {info : TypeSettings}
  {s : Statement} {d : Declaration}

@[simp]
theorem entry_put (settings : Settings) (typ : String) (location : Location) (info : TypeSettings) :
    entry (settings.put typ info) typ location = info := by
  simp [entry]

theorem entry_of_new (h : settings.lookup typ = none) :
    entry settings typ location = { location } := by
  rw [entry, h, Option.getD_none]

@[simp]
theorem orElse_empty (text : String) : orElse text "" = text := by
  unfold orElse
  split <;> simp_all

@[simp]
theorem empty_orElse (text : String) : orElse "" text = text := by
  simp [orElse]

theorem setRule_eq (hinfo : entry settings typ location = info) {abbreviation separator : String}
    {rule : Option LabelRule} {level : Option Nat} (hrule : rule = none ∨ info.rule = none) :
    setRule location typ abbreviation separator rule level settings = .ok () (settings.put typ
      { info with
        level := level.or info.level
        rule := rule.or info.rule
        abbreviation := orElse abbreviation info.abbreviation
        separator := orElse separator info.separator }) := by
  have hfree : (rule.isSome && info.rule.isSome) = false := by
    rcases hrule with h | h <;> simp [h]
  refine (bind_of_ok rfl).trans ?_
  rw [hinfo, hfree]
  rfl

theorem setMaster_eq (hinfo : entry settings typ location = info) (hnone : info.master = none)
    {master separator : String} {limit : Option Nat} :
    setMaster location typ master separator limit settings = .ok () (settings.put typ
      { info with master := some master, limit, separator }) := by
  refine (bind_of_ok rfl).trans ?_
  rw [hinfo, hnone]
  rfl

theorem declare_of_ok (hs : s.WellFormed) (hd : s.declaration? = .ok d) :
    declare location s.text = (do
      setRule location d.name d.abbreviation d.separator d.rule d.level
      match d.master with
      | some master => setMaster location d.name master d.separator d.limit
      | none => pure ()) := by
  rw [declare, Statement.read?_text hs, hd]
  rfl

theorem declare_of_error (hs : s.WellFormed) {cause : DeclarationError}
    (hd : s.declaration? = .error cause) :
    declare location s.text settings = .error cause settings := by
  rw [declare, Statement.read?_text hs, hd]
  rfl

/-- A new type has what is declared for it. -/
theorem declare_new (hs : s.WellFormed) (hd : s.declaration? = .ok d)
    (hnew : settings.lookup s.name = none) (location : Location) :
    declare location s.text settings = .ok () (settings.put s.name (d.settings location)) := by
  obtain ⟨level, separator, rule, rfl⟩ := Statement.exists_of_declaration? hd
  rw [declare_of_ok hs hd]
  refine (bind_of_ok (setRule_eq (entry_of_new hnew) (.inr rfl))).trans ?_
  cases hm : s.master with
  | none => simp [Declaration.settings, pure, EStateM.pure]
  | some master =>
    refine (setMaster_eq (entry_put ..) rfl).trans ?_
    simp [Declaration.settings, Table.put_put]

/-- A step for the master keeps everything but the separator. -/
theorem declare_master (hs : s.WellFormed) {master : String × Option Nat}
    (hm : s.master = some master) (hnone : info.master = none) :
    declare location (Statement.text { name := s.name, master := some master })
        (settings.put s.name info) = .ok () (settings.put s.name
      { info with master := some master.1, limit := master.2, separator := "" }) := by
  rw [declare_of_ok (hs.ofMaster hm) rfl]
  refine (bind_of_ok (setRule_eq (entry_put ..) (.inl rfl))).trans ?_
  refine (setMaster_eq (entry_put ..) hnone).trans ?_
  simp [Table.put_put]

/-- A step for the abbreviation keeps everything else. -/
theorem declare_abbreviation (hs : s.WellFormed) {abbreviation : String}
    (ha : s.abbreviation = some abbreviation) (hempty : info.abbreviation = "") :
    declare location (Statement.text { name := s.name, abbreviation := some abbreviation })
        (settings.put s.name info) = .ok () (settings.put s.name { info with abbreviation }) := by
  rw [declare_of_ok (hs.ofAbbreviation ha) rfl]
  refine (bind_of_ok (setRule_eq (entry_put ..) (.inl rfl))).trans ?_
  simp [Table.put_put, hempty, pure, EStateM.pure]

/-- Makes declarations one after the other. -/
def declareAll (location : Location) (statements : List Statement) : Step Unit :=
  statements.forM fun s => declare location s.text

theorem declareAll_cons (location : Location) (s : Statement) (rest : List Statement) :
    declareAll location (s :: rest) = (do declare location s.text; declareAll location rest) := by
  simp [declareAll]

/-- The master and the abbreviation are added in either order, and a master takes the separator
away. -/
theorem declareAll_additions (hs : s.WellFormed) (settings : Settings) (location : Location)
    (info : TypeSettings) (hm : info.master = none) (ha : info.abbreviation = "")
    (hl : info.limit = none) {rest : List Statement}
    (hrest : rest = s.additions ∨ rest = s.additions.reverse) :
    declareAll location rest (settings.put s.name info) = .ok () (settings.put s.name
      { info with
        abbreviation := s.abbreviation.getD ""
        master := s.master.map Prod.fst
        limit := s.master.bind Prod.snd
        separator := if s.master.isSome then "" else info.separator }) := by
  obtain ⟨location', rule, level, separator, _, _, _⟩ := info
  cases hm
  cases ha
  cases hl
  unfold Statement.additions at hrest
  cases hmaster : s.master with
  | none =>
    cases habbreviation : s.abbreviation with
    | none =>
      obtain rfl : rest = [] := by simpa [hmaster, habbreviation] using hrest
      rfl
    | some abbreviation =>
      obtain rfl : rest = [{ name := s.name, abbreviation := some abbreviation }] := by
        simpa [hmaster, habbreviation] using hrest
      rw [declareAll_cons]
      exact bind_of_ok (declare_abbreviation hs habbreviation rfl)
  | some master =>
    cases habbreviation : s.abbreviation with
    | none =>
      obtain rfl : rest = [{ name := s.name, master := some master }] := by
        simpa [hmaster, habbreviation] using hrest
      rw [declareAll_cons]
      exact bind_of_ok (declare_master hs hmaster rfl)
    | some abbreviation =>
      obtain rfl | rfl : rest = [{ name := s.name, master := some master },
            { name := s.name, abbreviation := some abbreviation }] ∨
          rest = [{ name := s.name, abbreviation := some abbreviation },
            { name := s.name, master := some master }] := by
        simpa [hmaster, habbreviation] using hrest
      · rw [declareAll_cons]
        refine (bind_of_ok (declare_master hs hmaster rfl)).trans ?_
        rw [declareAll_cons]
        exact bind_of_ok (declare_abbreviation hs habbreviation rfl)
      · rw [declareAll_cons]
        refine (bind_of_ok (declare_abbreviation hs habbreviation rfl)).trans ?_
        rw [declareAll_cons]
        exact bind_of_ok (declare_master hs hmaster rfl)

/-- A single declaration of a new type and its steps, with the master and the abbreviation in either
order, fail alike. If they succeed, the steps lead to the same settings, but for the separator,
which is lost if there is a master. -/
theorem declare_steps (hs : s.WellFormed) (hnew : settings.lookup s.name = none)
    (location : Location) {rest : List Statement}
    (hrest : rest = s.additions ∨ rest = s.additions.reverse) :
    match s.declaration? with
    | .error cause =>
      declare location s.text settings = .error cause settings ∧
        declareAll location (s.base :: rest) settings = .error cause settings
    | .ok d =>
      let info := d.settings location
      declare location s.text settings = .ok () (settings.put s.name info) ∧
      declareAll location (s.base :: rest) settings = .ok () (settings.put s.name
        { info with separator := if s.master.isSome then "" else info.separator }) ∧
      (declareAll location (s.base :: rest) settings = declare location s.text settings ↔
        s.master = none ∨ info.separator = "") := by
  rw [declareAll_cons]
  cases hd : s.declaration? with
  | error cause =>
    have hbase : s.base.declaration? = .error cause := by
      rw [Statement.declaration?_base, hd]
      rfl
    exact ⟨declare_of_error hs hd, bind_of_error (declare_of_error hs.base hbase)⟩
  | ok d =>
    have hbase : s.base.declaration? =
        .ok { d with abbreviation := "", master := none, limit := none } := by
      rw [Statement.declaration?_base, hd]
      rfl
    have hsingle := declare_new hs hd hnew location
    obtain ⟨level, separator, rule, rfl⟩ := Statement.exists_of_declaration? hd
    have hadditions := declareAll_additions hs settings location
      { location, rule, level, separator } rfl rfl rfl hrest
    have hsteps : (do declare location s.base.text; declareAll location rest : Step Unit) settings =
        .ok () _ := (bind_of_ok (declare_new hs.base hbase hnew location)).trans hadditions
    refine ⟨hsingle, hsteps, ?_⟩
    rw [hsingle, hsteps]
    cases s.master with
    | none => simp [Declaration.settings]
    | some master => simp [Declaration.settings, Table.put_inj, eq_comm]

/-- Figures with letters, behind the label of the section that they are in. -/
def letteredFigure : Statement where
  name := "figure"
  kind := some "-a"
  level := some 1
  master := some ("section", some 0)
  abbreviation := some "Fig."

theorem wellFormed_letteredFigure : letteredFigure.WellFormed := by
  refine ⟨?_, ?_, ?_, ?_, ?_, ?_, ?_⟩ <;> decide +kernel

/-- The separator of lettered figures is lost when they are declared in steps. -/
theorem declare_steps_letteredFigure :
    letteredFigure.text = "figure:-a:#2 master=section:#1 abbrev=Fig." ∧
    (letteredFigure.base :: letteredFigure.additions).map Statement.text =
      ["figure:-a:#2", "figure master=section:#1", "figure abbrev=Fig."] ∧
    ∃ d, letteredFigure.declaration? = .ok d ∧ d.separator = "-" ∧ ∀ location rest,
      rest = letteredFigure.additions ∨ rest = letteredFigure.additions.reverse →
      declare location letteredFigure.text [] = .ok () [("figure", d.settings location)] ∧
      declareAll location (letteredFigure.base :: rest) [] =
        .ok () [("figure", { d.settings location with separator := "" })] := by
  refine ⟨by decide +kernel, by decide +kernel, ?_⟩
  cases hd : letteredFigure.declaration? with
  | error cause =>
    have hok : letteredFigure.declaration?.toOption.isSome := by decide +kernel
    simp [hd, Except.toOption] at hok
  | ok d =>
    have hsep : letteredFigure.declaration?.toOption.map Declaration.separator = some "-" := by
      decide +kernel
    refine ⟨d, rfl, by simpa [hd, Except.toOption] using hsep, fun location rest hrest => ?_⟩
    have hnew : ([] : Settings).lookup letteredFigure.name = none := rfl
    have hsteps := declare_steps wellFormed_letteredFigure hnew location hrest
    rw [hd] at hsteps
    exact ⟨hsteps.1, hsteps.2.1⟩

/-- The separator that figures have after a step. -/
def figureSeparator? (m : Step Unit) : Option String :=
  match m [] with
  | .ok _ settings => (settings.lookup "figure").map TypeSettings.separator
  | .error .. => none

/-- Steps do not always lead to what a single declaration does. -/
theorem not_forall_declare_steps : ¬ ∀ (s : Statement) (settings : Settings) (location : Location)
    (rest : List Statement), s.WellFormed → settings.lookup s.name = none →
    rest = s.additions ∨ rest = s.additions.reverse →
    declareAll location (s.base :: rest) settings = declare location s.text settings := by
  intro h
  have heq := h letteredFigure [] (.document "doc") _ wellFormed_letteredFigure rfl (.inl rfl)
  have hsteps : figureSeparator? (declareAll (.document "doc")
      (letteredFigure.base :: letteredFigure.additions)) = some "" := by decide +kernel
  have hsingle : figureSeparator? (declare (.document "doc") letteredFigure.text) = some "-" := by
    decide +kernel
  unfold figureSeparator? at hsteps hsingle
  rw [heq, hsingle] at hsteps
  exact absurd hsteps (by decide)

end Settings

end Folio
