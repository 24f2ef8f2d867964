import Folio.Proofs.Numbering.Levels
import Folio.Proofs.Outcome
import Folio.Proofs.Outline

/-!
# Levels as they are declared

A level is written from 1 on and kept from 0 on, so one more is still a word (`readLevel_lt`). A rule
is read with the level that stands behind it. Without a level it has none, but a rule that shows
nothing has the level 0 (`LabelRule.HasLevel`). The rule for the ranges inside a node is made so
(`Collection.Described.wellRead`), and the rule of a range at the top always has a level
(`Run.exists_level_newRule`).
-/

namespace Folio

theorem exists_of_bind_eq_ok {ε α β : Type} {m : Except ε α} {f : α → Except ε β} {b : β}
    (h : (m >>= f) = .ok b) : ∃ a, m = .ok a ∧ f a = .ok b := by
  cases m with
  | error e => cases h
  | ok a => exact ⟨a, rfl, h⟩

/-! ## Reading a level -/

namespace Text

theorem readDigits_lt {cs : List Char} {read n : Nat} (hr : read < numeralBound)
    (h : readDigits read cs = .ok n) : n < numeralBound := by
  induction cs generalizing read with
  | nil =>
    cases h
    exact hr
  | cons c cs ih =>
    unfold readDigits at h
    dsimp only at h
    split at h
    · cases h
    · split at h
      next hlt => exact ih hlt h
      · cases h

theorem readNumeral_lt {s : String} {n : Nat} (h : readNumeral s = .ok n) : n < numeralBound := by
  have hzero : 0 < numeralBound := by decide
  unfold readNumeral at h
  split at h
  · cases h
  · cases h
  · exact readDigits_lt hzero h
  · exact readDigits_lt hzero h

end Text

/-- Below a level that was read there is another one. -/
theorem readLevel_lt {what text : String} {level : Nat} (h : readLevel what text = .ok level) :
    level + 1 < Counter.levelCount := by
  unfold readLevel at h
  split at h
  · split at h
    · cases h
    · cases h
    next hn =>
      cases h
      exact Text.readNumeral_lt hn
  · cases h

/-! ## Rules with levels -/

namespace LabelRule

/-- The rule has the given level. If none is given, it has none, or 0 if it shows nothing. -/
def HasLevel (rule : LabelRule) (level : Option Nat) : Prop :=
  rule.level = if rule.kind = "void" then some (level.getD 0) else level

theorem hasLevel_of_ofKind? {typ kind : String} {level : Option Nat} {rule : LabelRule}
    (h : ofKind? typ kind level = .ok rule) : rule.HasLevel level := by
  unfold ofKind? at h
  split at h
  · cases h
    rfl
  · split at h
    · cases h
      rfl
    · split at h
      · cases h
        rfl
      · cases h

namespace HasLevel

variable {rule : LabelRule} {level : Option Nat} {l : Nat}

theorem eq_of_some (h : rule.HasLevel (some l)) : rule.level = some l := by
  rw [h, Option.getD_some, ite_self]

theorem eq_of_hidden (h : rule.HasLevel level) (hv : rule.kind = "void") :
    rule.level = some (level.getD 0) := by
  rw [h, if_pos hv]

theorem eq_of_shown (h : rule.HasLevel level) (hv : rule.kind ≠ "void") : rule.level = level := by
  rw [h, if_neg hv]

/-- The level of the rule is the given one or 0. -/
theorem cases (h : rule.HasLevel level) (hl : rule.level = some l) : level = some l ∨ l = 0 := by
  by_cases hv : rule.kind = "void"
  · cases level with
    | some given => exact .inl (h.eq_of_some.symm.trans hl)
    | none => exact .inr (Option.some.inj (hl.symm.trans (h.eq_of_hidden hv)))
  · exact .inl ((h.eq_of_shown hv).symm.trans hl)

end HasLevel

end LabelRule

theorem hasLevel_of_readRuleKind {typ kind separator : String} {level : Option Nat}
    {rule : LabelRule} (h : readRuleKind typ kind level = .ok (separator, some rule)) :
    rule.HasLevel level := by
  unfold readRuleKind at h
  dsimp only at h
  split at h
  · cases h
  · cases hr : LabelRule.ofKind? typ (splitSeparator kind).2 level with
    | error e => simp [hr, Except.map] at h
    | ok rule' =>
      rw [hr] at h
      cases h
      exact LabelRule.hasLevel_of_ofKind? hr

/-! ## Inside nodes -/

/-- A rule for the ranges inside a node as it is read. -/
structure NestedRule.WellRead (n : NestedRule) : Prop where
  rule : ∀ rule, n.rule = some rule → rule.HasLevel n.level
  level : ∀ level, n.level = some level → level + 1 < Counter.levelCount

namespace Document

theorem wellRead_of_readNestedRule {typ text : String} {n : NestedRule}
    (h : readNestedRule typ text = .ok n) : n.WellRead := by
  -- with a level behind the kind or without one, the rule is read with it
  have hkind : ∀ (kind : String) (level : Option Nat),
      (∀ l, level = some l → l + 1 < Counter.levelCount) →
      (do let read ← readRuleKind typ kind level; return ⟨read.1, read.2, level⟩) =
        Except.ok n → n.WellRead := by
    intro kind level hlevel h
    obtain ⟨⟨separator, rule⟩, hrule, h⟩ := exists_of_bind_eq_ok h
    cases h
    refine ⟨?_, hlevel⟩
    rintro rule rfl
    exact hasLevel_of_readRuleKind hrule
  unfold readNestedRule at h
  dsimp only at h
  split at h
  · obtain ⟨level, hlevel, h⟩ := exists_of_bind_eq_ok h
    rw [pure_bind] at h
    refine hkind _ _ (fun l hl => ?_) h
    cases hl
    exact readLevel_lt hlevel
  · rw [pure_bind] at h
    exact hkind _ _ (by simp) h

variable {document : String}

/-- All rules inside the labeled nodes are made as they are read. -/
def RulesRead (hs : List Heading) : Prop :=
  ∀ h ∈ hs, ∀ n, h.nested = some n → n.WellRead

theorem RulesRead.append {hs hs' : List Heading} (h : RulesRead hs) (h' : RulesRead hs') :
    RulesRead (hs ++ hs') := fun x hx =>
  (List.mem_append.1 hx).elim (h x) (h' x)

theorem wellRead_of_nestedRule {location : Location} {typ : String} {rule : Option String}
    {nested : Option NestedRule} {p p' : Position}
    (h : rule.mapM (nestedRule location typ) p = .ok (nested, p')) {n : NestedRule}
    (hn : nested = some n) : n.WellRead := by
  subst hn
  cases rule with
  | none => cases h
  | some text =>
    change (some <$> nestedRule location typ text) p = _ at h
    rw [map_eq_pure_bind] at h
    obtain ⟨n', p₁, hr, h⟩ := run_bind h
    cases h
    unfold nestedRule at hr
    cases hread : readNestedRule typ text with
    | error cause =>
      rw [hread] at hr
      cases hr
    | ok rule =>
      rw [hread] at hr
      cases hr
      exact wellRead_of_readNestedRule hread

mutual

theorem node_rulesRead (depth : Nat) : ∀ (n : NodeDescription) {p p' : Position} {m : Node},
    node document depth n p = .ok (m, p') → RulesRead m.headings
  | .text text, p, p', m, h => by
    unfold node at h
    obtain ⟨location, p₁, -, h⟩ := run_bind h
    obtain ⟨content, p₂, -, h⟩ := run_bind h
    cases h
    simp [RulesRead, Node.headings]
  | .heading tag title body, p, p', m, h => by
    unfold node at h
    obtain ⟨location, p₁, -, h⟩ := run_bind h
    obtain ⟨key, p₂, -, h⟩ := run_bind h
    obtain ⟨title', p₃, -, h⟩ := run_bind h
    obtain ⟨body', p₄, hb, h⟩ := run_bind h
    cases h
    rw [Node.headings]
    refine List.forall_mem_cons.2 ⟨fun n hn => ?_, nodeList_rulesRead (depth + 1) body hb⟩
    cases hn
  | .subRange typ tag title rule body, p, p', m, h => by
    unfold node at h
    obtain ⟨location, p₁, -, h⟩ := run_bind h
    obtain ⟨key, p₂, -, h⟩ := run_bind h
    split at h
    · cases h
    obtain ⟨title', p₃, -, h⟩ := run_bind h
    obtain ⟨body', p₄, hb, h⟩ := run_bind h
    obtain ⟨nested, p₅, hn, h⟩ := run_bind h
    cases h
    rw [Node.headings]
    exact List.forall_mem_cons.2 ⟨fun n => wellRead_of_nestedRule hn,
      nodeList_rulesRead (depth + 1) body hb⟩
  | .embedding link, p, p', m, h => by
    unfold node at h
    obtain ⟨location, p₁, -, h⟩ := run_bind h
    obtain ⟨key, p₂, -, h⟩ := run_bind h
    cases h
    simp [RulesRead, Node.headings]
  | .expansion block tag arguments, p, p', m, h => by
    unfold node at h
    obtain ⟨location, p₁, -, h⟩ := run_bind h
    obtain ⟨key, p₂, -, h⟩ := run_bind h
    obtain ⟨arguments', p₃, -, h⟩ := run_bind h
    cases h
    simp [RulesRead, Node.headings]
  | .term tag text, p, p', m, h => by
    unfold node at h
    obtain ⟨location, p₁, -, h⟩ := run_bind h
    obtain ⟨key, p₂, -, h⟩ := run_bind h
    obtain ⟨text', p₃, -, h⟩ := run_bind h
    cases h
    simp [RulesRead, Node.headings]

theorem nodeList_rulesRead (depth : Nat) : ∀ (ns : List NodeDescription) {p p' : Position}
    {ms : List Node}, nodeList document depth ns p = .ok (ms, p') → RulesRead (Node.headingsAll ms)
  | [], p, p', ms, h => by
    cases h
    simp [RulesRead, Node.headingsAll]
  | n :: rest, p, p', ms, h => by
    unfold nodeList at h
    obtain ⟨m, p₁, hm, h⟩ := run_bind h
    obtain ⟨ms, p₂, hr, h⟩ := run_bind h
    cases h
    exact (node_rulesRead depth n hm).append (nodeList_rulesRead depth rest hr)

end

mutual

theorem block_rulesRead (depth : Nat) (outer : String) : ∀ (b : BlockDescription)
    {p p' : Position} {x : Block}, block document depth outer b p = .ok (x, p') →
      RulesRead x.headings
  | ⟨tag, parameters, blocks, body⟩, p, p', x, h => by
    unfold block at h
    obtain ⟨location, p₁, -, h⟩ := run_bind h
    obtain ⟨parameters', p₂, -, h⟩ := run_bind h
    obtain ⟨inner, p₃, hb, h⟩ := run_bind h
    obtain ⟨body', p₄, hn, h⟩ := run_bind h
    cases h
    exact (blockList_rulesRead (depth + 1) _ blocks hb).append (nodeList_rulesRead (depth + 1) body hn)

theorem blockList_rulesRead (depth : Nat) (outer : String) : ∀ (bs : List BlockDescription)
    {p p' : Position} {xs : List Block}, blockList document depth outer bs p = .ok (xs, p') →
      RulesRead (Block.headingsAll xs)
  | [], p, p', xs, h => by
    cases h
    simp [RulesRead, Block.headingsAll]
  | b :: rest, p, p', xs, h => by
    unfold blockList at h
    obtain ⟨x, p₁, hb, h⟩ := run_bind h
    obtain ⟨xs, p₂, hr, h⟩ := run_bind h
    cases h
    exact (block_rulesRead depth outer b hb).append (blockList_rulesRead depth outer rest hr)

end

theorem rulesRead_of_ofDescription? {path : String} {description : Description} {d : Document}
    (h : ofDescription? path description = .ok d) : RulesRead d.headings := by
  obtain ⟨p, hp⟩ := exists_of_ofDescription? h
  obtain ⟨settings, p₁, -, h₁⟩ := run_bind hp
  obtain ⟨blocks, p₂, hb, h₂⟩ := run_bind h₁
  obtain ⟨nodes, p₃, hn, h₃⟩ := run_bind h₂
  cases h₃
  exact (blockList_rulesRead 0 _ _ hb).append (nodeList_rulesRead 0 _ hn)

end Document

/-! ## Settings of types -/

/-- Below the levels of the settings there are other ones. -/
structure TypeSettings.Roomy (info : TypeSettings) : Prop where
  level : ∀ l, info.level = some l → l + 1 < Counter.levelCount
  rule : ∀ rule l, info.rule = some rule → rule.level = some l → l + 1 < Counter.levelCount

namespace Settings

/-- Below all levels in the settings there are other ones. -/
def Roomy (settings : Settings) : Prop :=
  ∀ typ info, settings.lookup typ = some info → info.Roomy

theorem Roomy.roomy_entry {settings : Settings} (h : settings.Roomy) (typ : String)
    (location : Location) : (entry settings typ location).Roomy := by
  unfold entry
  cases hs : settings.lookup typ with
  | none => exact ⟨by simp, by simp⟩
  | some info => exact h typ info hs

theorem Roomy.put {settings : Settings} (h : settings.Roomy) {typ : String} {info : TypeSettings}
    (hi : info.Roomy) : Roomy (settings.put typ info) := by
  intro typ' info' hs
  rw [Table.lookup_put] at hs
  split at hs
  · cases hs
    exact hi
  · exact h typ' info' hs

theorem setRule_roomy {settings : Settings} (h : settings.Roomy) (location : Location)
    (typ abbreviation separator : String) {rule : Option LabelRule} {level : Option Nat}
    (hl : ∀ l, level = some l → l + 1 < Counter.levelCount)
    (hr : ∀ ρ l, rule = some ρ → ρ.level = some l → l + 1 < Counter.levelCount) :
    After True (setRule location typ abbreviation separator rule level) settings
      fun _ settings' => settings'.Roomy := by
  have hentry := h.roomy_entry typ location
  unfold setRule
  rw [After.bind_iff, After.get_iff]
  dsimp only
  split
  · exact trivial
  · refine h.put ⟨fun l hl' => ?_, fun ρ l hr' hl' => ?_⟩
    · rcases Option.or_eq_some_iff.1 hl' with hl' | ⟨-, hl'⟩
      · exact hl l hl'
      · exact hentry.level l hl'
    · rcases Option.or_eq_some_iff.1 hr' with hr' | ⟨-, hr'⟩
      · exact hr ρ l hr' hl'
      · exact hentry.rule ρ l hr' hl'

theorem setMaster_roomy {settings : Settings} (h : settings.Roomy) (location : Location)
    (typ master separator : String) (limit : Option Nat) :
    After True (setMaster location typ master separator limit) settings
      fun _ settings' => settings'.Roomy := by
  have hentry := h.roomy_entry typ location
  unfold setMaster
  rw [After.bind_iff, After.get_iff]
  dsimp only
  split
  · exact trivial
  · exact h.put ⟨hentry.level, hentry.rule⟩

end Settings

/-- A declaration is read with a rule that has its level. -/
theorem Declaration.roomy_of_read? {text : String} {d : Declaration} (h : read? text = .ok d) :
    (∀ l, d.level = some l → l + 1 < Counter.levelCount) ∧
    ∀ rule l, d.rule = some rule → rule.level = some l → l + 1 < Counter.levelCount := by
  unfold read? at h
  split at h
  · cases h
  obtain ⟨arguments, -, h⟩ := exists_of_bind_eq_ok h
  obtain ⟨⟨name, kind, level⟩, -, h⟩ := exists_of_bind_eq_ok h
  dsimp only at h
  obtain ⟨level', hlevel, h⟩ := exists_of_bind_eq_ok h
  have hroom : ∀ l, level' = some l → l + 1 < Counter.levelCount := by
    rintro l rfl
    cases level with
    | none => cases hlevel
    | some text =>
      change (some <$> readLevel "section level" text) = _ at hlevel
      cases hr : readLevel "section level" text with
      | error e =>
        rw [hr] at hlevel
        cases hlevel
      | ok l' =>
        rw [hr] at hlevel
        cases hlevel
        exact readLevel_lt hr
  cases kind with
  | none =>
    cases h
    exact ⟨hroom, by simp⟩
  | some kind =>
    obtain ⟨⟨separator, rule⟩, hrule, h⟩ := exists_of_bind_eq_ok h
    cases h
    refine ⟨hroom, ?_⟩
    rintro ρ l rfl hl
    rcases (hasLevel_of_readRuleKind hrule).cases hl with hlevel | rfl
    · exact hroom l hlevel
    · decide

namespace Document

theorem declarations_roomy {document : String} : ∀ (texts : List String) {settings settings' : Settings}
    {p p' : Position}, settings.Roomy →
      declarations document settings texts p = .ok (settings', p') → settings'.Roomy
  | [], settings, settings', p, p', h, hd => by
    cases hd
    exact h
  | text :: rest, settings, settings', p, p', h, hd => by
    unfold declarations at hd
    obtain ⟨location, p₁, -, hd⟩ := run_bind hd
    have hstep : After True (Settings.declare location text) settings fun _ t => t.Roomy := by
      unfold Settings.declare
      cases hread : Declaration.read? text with
      | error cause => exact trivial
      | ok d =>
        obtain ⟨hl, hr⟩ := Declaration.roomy_of_read? hread
        rw [After.bind_iff, After.pure_iff, After.bind_iff]
        refine (Settings.setRule_roomy h location _ _ _ hl hr).mono fun _ t ht => ?_
        cases d.master with
        | none => exact ht
        | some master => exact Settings.setMaster_roomy ht ..
    cases hrun : (Settings.declare location text).run settings with
    | error cause t =>
      rw [hrun] at hd
      cases hd
    | ok _ t =>
      rw [hrun] at hd
      exact declarations_roomy rest (hstep.of_ok hrun) hd

end Document

/-- The rules inside the nodes of a collection are made as they are read. -/
theorem Collection.Described.wellRead {c : Collection} (hc : c.Described) {h : Heading}
    (hh : c.stock.heading h) {n : NestedRule} (hn : h.nested = some n) : n.WellRead := by
  obtain ⟨path, d, hd, hh⟩ := hh
  obtain ⟨description, hm⟩ := hc.made path d hd
  exact Document.rulesRead_of_ofDescription? hm h hh n hn

/-! ## Levels of a collection -/

/-- A level that a document declares: for a type, for the rule of a type, or for the ranges inside a
labeled node. -/
inductive Collection.DeclaresLevel (c : Collection) (level : Nat) : Prop
  | typ {path : String} {d : Document} {typ : String} {settings : TypeSettings}
    (hd : (path, d) ∈ c.documents) (hs : d.settings.lookup typ = some settings)
    (hl : settings.level = some level)
  | rule {path : String} {d : Document} {typ : String} {settings : TypeSettings} {rule : LabelRule}
    (hd : (path, d) ∈ c.documents) (hs : d.settings.lookup typ = some settings)
    (hr : settings.rule = some rule) (hl : rule.level = some level)
  | inside {h : Heading} {nested : NestedRule} (hh : c.stock.heading h)
    (hn : h.nested = some nested) (hl : nested.level = some level)

/-- Below a declared level there is another one. -/
theorem Collection.Described.lt_of_declaresLevel {c : Collection} (h : c.Described) {level : Nat}
    (hl : c.DeclaresLevel level) : level + 1 < Counter.levelCount := by
  have hroomy : ∀ {path d}, (path, d) ∈ c.documents → d.settings.Roomy := by
    intro path d hd
    obtain ⟨description, hm⟩ := h.made path d hd
    obtain ⟨⟨p, hs⟩, -⟩ := Document.run_of_ofDescription? hm
    exact Document.declarations_roomy _ (fun typ info hs => by simp at hs) hs
  cases hl with
  | typ hd hs hl => exact (hroomy hd _ _ hs).level level hl
  | rule hd hs hr hl => exact (hroomy hd _ _ hs).rule _ level hr hl
  | inside hh hn hl => exact (h.wellRead hh hn).level level hl

/-- A rule that the options set has the level that is asked for. -/
theorem level_of_defaultRule {options : Options} {typ separator : String} {level : Nat}
    {rule : LabelRule}
    (h : options.defaultRule typ (some level) = .ok (some (separator, some rule))) :
    rule.level = some level := by
  unfold Options.defaultRule at h
  cases hk : options.defaultRules.lookup typ with
  | none =>
    rw [hk] at h
    cases h
  | some kind =>
    rw [hk] at h
    change (some <$> readRuleKind typ kind (some level)) = _ at h
    cases hr : readRuleKind typ kind (some level) with
    | error e =>
      rw [hr] at h
      cases h
    | ok found =>
      rw [hr] at h
      cases h
      exact (hasLevel_of_readRuleKind hr).eq_of_some

namespace Run

/-- The rule of a range at the top has a level: that of its rule or its type, or 0. -/
theorem exists_level_newRule {options : Options} {typ separator : String}
    {settings : Option TypeSettings} {rule : LabelRule}
    (h : newRule options typ settings = .ok (separator, rule)) :
    ∃ level, rule.level = some level ∧ (level = 0 ∨ settings.bind TypeSettings.level = some level ∨
      ∃ own, settings.bind TypeSettings.rule = some own ∧ own.level = some level) := by
  have hdefault : (settings.bind TypeSettings.level).getD 0 = 0 ∨
      settings.bind TypeSettings.level = some ((settings.bind TypeSettings.level).getD 0) := by
    cases settings.bind TypeSettings.level <;> simp
  unfold newRule at h
  cases hown : settings.bind TypeSettings.rule with
  | some own =>
    rw [hown] at h
    cases h
    cases hl : own.level with
    | some level => exact ⟨level, by simp [hl], .inr (.inr ⟨own, rfl, hl⟩)⟩
    | none => exact ⟨_, by simp [hl], hdefault.imp_right .inl⟩
  | none =>
    rw [hown] at h
    obtain ⟨found, hfound, h⟩ := exists_of_bind_eq_ok h
    refine ⟨(settings.bind TypeSettings.level).getD 0, ?_, hdefault.imp_right .inl⟩
    match found with
    | none | some (_, none) =>
      cases h
      rfl
    | some (defaultSeparator, some own) =>
      have hlevel := level_of_defaultRule hfound
      cases h
      simp [hlevel]

end Run

end Folio
