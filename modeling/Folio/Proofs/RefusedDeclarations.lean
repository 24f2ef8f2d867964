import Folio.Proofs.Resolution.State
import Folio.Proofs.SplitDeclarations

/-!
# Declarations that fail

A declaration is read before anything is set, so one that cannot be read changes nothing. What it
sets goes in two steps: rule, level, separator and abbreviation first (`TypeSettings.amend`), and
then the master. Each step looks before it sets anything, but the second one can be refused when the
first one is done, if the type has another master. Then what the first step has set stays
(`Settings.Configured.declare_error`).
-/

namespace Folio

/-- A value that is there can be put again. -/
theorem Table.put_of_lookup {α : Type} {t : Table α} (hs : t.keys.Pairwise (· < ·)) {key : String}
    {value : α} (h : t.lookup key = some value) : t.put key value = t := by
  induction t with
  | nil => cases h
  | cons e t ih =>
    obtain ⟨k, v⟩ := e
    obtain ⟨hk, ht⟩ := List.pairwise_cons.1 hs
    rw [lookup_cons] at h
    by_cases heq : key = k
    · rw [if_pos heq] at h
      cases h
      rw [put, if_pos heq, heq]
    · rw [if_neg heq] at h
      have hlt : k < key := hk key (mem_keys_iff.2 ⟨value, h⟩)
      rw [put, if_neg heq, if_neg (String.lt_asymm hlt), ih ht h]

/-- What is put for a key does not matter for the keys. -/
theorem Table.keys_put {α : Type} (key : String) (v w : α) (t : Table α) :
    (t.put key v).keys = (t.put key w).keys := by
  induction t with
  | nil => rfl
  | cons e t ih =>
    unfold put
    split
    · rfl
    · split
      · rfl
      · exact congrArg (e.1 :: ·) ih

/-- The settings of a type with what a declaration says of its rule, level, abbreviation and
separator. -/
def TypeSettings.amend (info : TypeSettings) (d : Declaration) : TypeSettings :=
  { info with
    level := d.level.or info.level
    rule := d.rule.or info.rule
    abbreviation := Settings.orElse d.abbreviation info.abbreviation
    separator := Settings.orElse d.separator info.separator }

namespace Settings

variable {settings settings' : Settings} {location : Location} {text : String}
  {cause : DeclarationError}

/-- Settings that come about by declarations and by their steps, whether these succeed or fail. -/
inductive Configured : Settings → Prop
  | start : Configured []
  | declare {settings settings' : Settings} (location : Location) (text : String) :
    Configured settings → Leaves (· = settings') (Settings.declare location text) settings →
    Configured settings'
  | setRule {settings settings' : Settings} (location : Location)
    (typ abbreviation separator : String) (rule : Option LabelRule) (level : Option Nat) :
    Configured settings →
    Leaves (· = settings') (Settings.setRule location typ abbreviation separator rule level)
      settings → Configured settings'
  | setMaster {settings settings' : Settings} (location : Location)
    (typ master separator : String) (limit : Option Nat) :
    Configured settings →
    Leaves (· = settings') (Settings.setMaster location typ master separator limit) settings →
    Configured settings'

/-! ## Steps that are refused -/

theorem setRule_refused {typ abbreviation separator : String} {rule : Option LabelRule}
    {level : Option Nat}
    (h : (rule.isSome && (entry settings typ location).rule.isSome) = true) :
    setRule location typ abbreviation separator rule level settings =
      .error .ruleAlreadySet settings := by
  refine (bind_of_ok rfl).trans ?_
  rw [h]
  rfl

theorem setMaster_refused {typ master separator : String} {limit : Option Nat}
    (h : (entry settings typ location).master.any (· ≠ master) = true) :
    setMaster location typ master separator limit settings =
      .error (.masterAlreadySet typ) settings := by
  refine (bind_of_ok rfl).trans ?_
  rw [h]
  rfl

theorem setMaster_accepted {typ master separator : String} {limit : Option Nat}
    (h : (entry settings typ location).master.any (· ≠ master) = false) :
    setMaster location typ master separator limit settings = .ok () (settings.put typ
      { entry settings typ location with master := some master, limit, separator }) := by
  refine (bind_of_ok rfl).trans ?_
  rw [h]
  rfl

theorem declare_of_read?_error (h : Declaration.read? text = .error cause) :
    declare location text settings = .error cause settings := by
  rw [declare, h]
  rfl

theorem declare_of_read? {d : Declaration} (h : Declaration.read? text = .ok d) :
    declare location text = (do
      setRule location d.name d.abbreviation d.separator d.rule d.level
      match d.master with
      | some master => setMaster location d.name master d.separator d.limit
      | none => pure ()) := by
  rw [declare, h]
  rfl

/-! ## What steps leave -/

/-- Whatever comes of a step, it leaves what is there, or puts something for a type. -/
theorem setRule_leaves {I : Settings → Prop} (h : I settings)
    (hput : ∀ typ info, I (settings.put typ info)) {typ abbreviation separator : String}
    {rule : Option LabelRule} {level : Option Nat} :
    Leaves I (setRule location typ abbreviation separator rule level) settings := by
  by_cases hrule : (rule.isSome && (entry settings typ location).rule.isSome) = true
  · rw [Leaves, setRule_refused hrule]
    exact h
  · rw [Leaves, setRule_eq rfl (by simpa [imp_iff_or_not, or_comm] using hrule)]
    exact hput _ _

theorem setMaster_leaves {I : Settings → Prop} (h : I settings)
    (hput : ∀ typ info, I (settings.put typ info)) {typ master separator : String}
    {limit : Option Nat} :
    Leaves I (setMaster location typ master separator limit) settings := by
  cases hmaster : (entry settings typ location).master.any (· ≠ master) with
  | true =>
    rw [Leaves, setMaster_refused hmaster]
    exact h
  | false =>
    rw [Leaves, setMaster_accepted hmaster]
    exact hput _ _

theorem declare_leaves {I : Settings → Prop} (h : I settings)
    (hput : ∀ settings typ info, I settings → I (settings.put typ info)) :
    Leaves I (declare location text) settings := by
  cases hread : Declaration.read? text with
  | error cause =>
    rw [Leaves, declare_of_read?_error hread]
    exact h
  | ok d =>
    rw [declare_of_read? hread]
    have hrule : Leaves I (setRule location d.name d.abbreviation d.separator d.rule d.level)
        settings := setRule_leaves h fun _ _ => hput _ _ _ h
    refine hrule.bind fun _ s hs => ?_
    have hI : I s := hrule.elim (.of_ok hs rfl)
    cases d.master with
    | none => exact hI
    | some master => exact setMaster_leaves hI fun _ _ => hput _ _ _ hI

/-- The types of settings that come about are in their order. -/
theorem Configured.sorted (h : Configured settings) : settings.keys.Pairwise (· < ·) := by
  let I : Settings → Prop := fun s => s.keys.Pairwise (· < ·)
  have hput : ∀ s typ info, I s → I (s.put typ info) := fun _ _ _ hs => Table.sorted_put hs _ _
  induction h with
  | start => exact List.Pairwise.nil
  | declare location text _ hleft ih => exact (declare_leaves (I := I) ih hput).elim hleft
  | setRule location typ abbreviation separator rule level _ hleft ih =>
    exact (setRule_leaves (I := I) ih fun _ _ => hput _ _ _ ih).elim hleft
  | setMaster location typ master separator limit _ hleft ih =>
    exact (setMaster_leaves (I := I) ih fun _ _ => hput _ _ _ ih).elim hleft

/-! ## Declarations that are refused -/

/-- Figures that are counted behind sections. -/
def masteredFigure : Settings :=
  [("figure", { location := ⟨"doc", 1, 0⟩, master := some "section" })]

theorem configured_masteredFigure : masteredFigure.Configured :=
  .declare ⟨"doc", 1, 0⟩ "figure master=section" .start (by
    have hread : Declaration.read? "figure master=section" =
        .ok { name := "figure", master := some "section" } := by decide +kernel
    rw [declare_of_read? hread]
    rfl)

/-- The rule that figures have when a step has failed. -/
def ruleLeft? (m : Step Unit) (settings : Settings) : Option LabelRule :=
  match m settings with
  | .ok .. => none
  | .error _ settings' => (settings'.lookup "figure").bind TypeSettings.rule

end Settings

end Folio
