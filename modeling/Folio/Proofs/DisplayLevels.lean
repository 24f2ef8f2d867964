import Folio.Proofs.DeclaredLevels
import Folio.Proofs.FoundTexts
import Folio.Proofs.Numbering.Trees
import Folio.Proofs.Resolution.Naming
import Folio.Proofs.Resolution.Origins

/-!
# Display levels follow nesting

Every label that is bound has a display level. At the top it is the level that is configured for the
label type. Below a slot it is one more than the level of the label there, whatever the rules are
(`Collection.Described.level_below`), with three exceptions: the level may be set for the range, it
may be pinned to a slot that was handed over, and labels that an own rule keeps hidden have the
level 0 (`Collection.not_forall_level_below`).

So a level is at most the sum of the largest level that is declared and the depth of the slot
(`Collection.Described.level_le`). Levels are words: a declared level leaves room for one more, but
below the last level the labels start again with 0 (`Collection.not_forall_level_succ_lt`).
-/

namespace Folio

open Resolution

/-- The range has an own rule that shows nothing. -/
def Range.Hidden (r : Range) : Prop := r.rule.map LabelRule.kind = some "void"

instance (r : Range) : Decidable r.Hidden := inferInstanceAs (Decidable (_ = _))

theorem Layout.LiesBelow.relabeled {l l' : Layout} {p : SlotId} {u t t' : Slot} {i : RangeId}
    {r : Range} (h : l.LiesBelow p u i r t) (hl : l.Relabeled l') (hp : t'.parent = t.parent)
    (hid : t'.id = t.id) : ∃ label, l'.LiesBelow p { u with label } i r t' := by
  obtain ⟨label, hu⟩ := hl.slot p u h.slot
  exact ⟨label, hu, h.nested, (hl.range? i).trans h.range, h.opened, hp.trans h.parent,
    hid ▸ h.path⟩

namespace Resolved

variable {c : Collection} {W : List (String × List Visit)} {s₀ s₁ s₂ s : Resolution}
  {p q : SlotId} {u t : Slot} {label upper : Label}

/-- The walk that comes to a slot binds its label, if it sets out on the range of an entry. -/
theorem label_of_bears (h : Resolved c W s₀ s₁ s₂ s) (hd : Declared c s₀ s₁) {root : String}
    {entries : List RangeEntry} {e : RangeEntry} (hlookup : s₁.roots.lookup root = some entries)
    (he : e ∈ entries) (hp : s₁.numbering.layout.Bears e.range p upper)
    (hu : s.numbering.layout.slot? p = some u) : u.label = some upper := by
  have hcovers : ∀ {e : RangeEntry} {label}, s₁.numbering.layout.Bears e.range p label →
      s₁.numbering.layout.Covers e.range p := by
    rintro e label ⟨r, _, f, _, _, _, hr, _, hf, hc, -⟩
    exact ⟨r, f, hr, hf, hc.reaches⟩
  have hroots : s.roots = s₁.roots := by rw [h.settled.same, h.bound.same]
  obtain ⟨label, hlabel⟩ := Option.isSome_iff_exists.1 ((h.isSome_label_iff hu).2
    ⟨root, entries, hroots ▸ hlookup, e, he, by
      rw [h.numbering_eq, h.bound.relabeled.covers_iff]
      exact hcovers hp⟩)
  obtain ⟨root', entries', e', hlookup', he', hp'⟩ :=
    h.borne.label p u label (h.numbering_eq ▸ hu) hlabel
  obtain ⟨r, -, -, -, hr, hnone, -⟩ := hd.configured root entries e hlookup he
  obtain ⟨r', -, -, -, hr', hnone', -⟩ := hd.configured root' entries' e' hlookup' he'
  -- both walks set out on one range, since only one range at the top covers the slot
  have hrange := hd.sound.covers_unique hr hr' hnone hnone' (hcovers hp) (hcovers hp')
  rw [← hrange] at hp'
  rw [hlabel, hd.sound.bears_unique hp hp']

/-- The level of a label is pinned to its slot, or it comes from the rule of the range at the top,
or from the label above. -/
theorem level_cases (h : Resolved c W s₀ s₁ s₂ s) (hd : Declared c s₀ s₁)
    (ht : s.numbering.layout.slot? q = some t) (hlabel : t.label = some label) :
    (t.parent = none ∧ (∃ k, t.id.path = [k]) ∧ ∃ rule, c.declarations.top rule ∧
      label.rule.level = t.pinned.or rule.level) ∨
    ∃ p u i r upper, s.numbering.layout.LiesBelow p u i r t ∧ u.label = some upper ∧
      label.rule.level = some (t.pinned.getD (r.levelBelow upper.rule.level)) := by
  obtain ⟨old, ht₁⟩ := h.slot?_eq ht
  obtain ⟨root, entries, e, hlookup, he, hq⟩ := h.borne.label q t label (h.numbering_eq ▸ ht) hlabel
  obtain ⟨v, -, -, own, hv, hparent, -, -, -, -, hown, -⟩ := hd.configured root entries e hlookup he
  rcases hd.ordered.level_of_bears hv hparent hq ht₁ with ⟨hp, hpath, rule, hrule, hlevel⟩ |
    ⟨p, u₁, i, r, upper, hbelow, hupper, hlevel⟩
  · refine .inl ⟨hp, hpath, ?_⟩
    cases hd.declared.range e.range v hv with
    | top own h _ hr hw =>
      refine ⟨own, h, ?_⟩
      rw [Range.ruleAtTop?, hr, hw, Option.map_some, Option.some.injEq, Layout.withLevel_none]
        at hrule
      rw [hlevel, hrule]
    | nested _ _ hp => exact (hp hparent).elim
    | handed hr => cases hown.symm.trans hr
  · obtain ⟨label', hbelow'⟩ := hbelow.relabeled h.bound.relabeled (rfl : t.parent = _) rfl
    rw [← h.numbering_eq] at hbelow'
    exact .inr ⟨p, _, i, r, upper, hbelow', h.label_of_bears hd hlookup he hupper hbelow'.slot, hlevel⟩

/-- The settings of ranges and slots in the end are declared. -/
theorem declaredBy (h : Resolved c W s₀ s₁ s₂ s) (hd : Declared c s₀ s₁) :
    s.numbering.layout.DeclaredBy c.declarations where
  range i r hr := by
    rw [h.numbering_eq, h.bound.relabeled.range?] at hr
    exact hd.declared.range i r hr
  pinned q t level ht hl := by
    obtain ⟨label, ht₁⟩ := h.slot?_eq ht
    exact hd.declared.pinned q _ level ht₁ hl

end Resolved

namespace Collection

/-- A rule at the top has a level, which is 0 or declared. -/
theorem exists_level_of_top {c : Collection} {rule : LabelRule} (h : c.declarations.top rule) :
    ∃ level, rule.level = some level ∧ (level = 0 ∨ c.DeclaresLevel level) := by
  obtain ⟨path, d, typ, separator, hd, hrule⟩ := h
  obtain ⟨level, hlevel, hzero | hsettings | ⟨own, hown, hl⟩⟩ := Run.exists_level_newRule hrule
  · exact ⟨level, hlevel, .inl hzero⟩
  · obtain ⟨settings, hs, hl⟩ := Option.bind_eq_some_iff.1 hsettings
    exact ⟨level, hlevel, .inr (.typ hd hs hl)⟩
  · obtain ⟨settings, hs, hr⟩ := Option.bind_eq_some_iff.1 hown
    exact ⟨level, hlevel, .inr (.rule hd hs hr hl)⟩

theorem declaresLevel_of_level {c : Collection} {level : Nat} (h : c.declarations.level level) :
    c.DeclaresLevel level :=
  let ⟨_, _, _, _, hd, hs, hl⟩ := h
  .typ hd hs hl

namespace Described

variable {c : Collection} {s : Resolution} {p q : SlotId} {u t : Slot} {i : RangeId} {r : Range}
  {label : Label}

/-- A resolution that succeeds has claimed slots with declared rules and levels. -/
theorem resolve_declared (h : c.Described) (hs : c.resolve = .ok () s) :
    ∃ W s₀ s₁ s₂, Resolved c W s₀ s₁ s₂ s ∧ Declared c s₀ s₁ :=
  h.resolve_spec (J := fun _ s₀ t => Declared c s₀ t)
    (fun _ _ hp => (Run.claimAll_spec hp hp.declared).mono fun _ _ ⟨⟨_, h⟩, _⟩ => h) hs

/-- A range below a slot has its own rule at the level that is set for the range. -/
theorem hasLevel_of_rule (h : c.Described) (hd : r.DeclaredBy c.declarations) (hp : r.parent ≠ none)
    {own : LabelRule} (hr : r.rule = some own) : own.HasLevel r.weight := by
  cases hd with
  | top _ _ hnone => exact (hp hnone).elim
  | nested nested hn _ hrule hw =>
    obtain ⟨heading, hh, hn⟩ := hn
    rw [hw]
    exact (h.wellRead hh hn).rule own (hrule ▸ hr)
  | handed hrule => cases hrule.symm.trans hr

/-- Every label has a level. -/
theorem exists_level {W : List (String × List Visit)} {s₀ s₁ s₂ : Resolution}
    (hr : Resolved c W s₀ s₁ s₂ s) (hd : Declared c s₀ s₁)
    (ht : s.numbering.layout.slot? q = some t) (hlabel : t.label = some label) :
    ∃ level, label.rule.level = some level := by
  rcases hr.level_cases hd ht hlabel with ⟨-, -, rule, hrule, hlevel⟩ | ⟨_, _, _, _, _, -, -, hlevel⟩
  · obtain ⟨level, hl, -⟩ := exists_level_of_top hrule
    rw [hl] at hlevel
    cases hpinned : t.pinned with
    | none => exact ⟨level, by rw [hlevel, hpinned, Option.none_or]⟩
    | some pinned => exact ⟨pinned, by rw [hlevel, hpinned, Option.some_or]⟩
  · exact ⟨_, hlevel⟩

/-- Below a label lie labels of the next level, unless the level is set for their range or pinned to
their slot. Labels that an own rule keeps hidden have the level 0. -/
theorem level_below (h : c.Described) (hs : c.resolve = .ok () s)
    (hu : s.numbering.layout.slot? p = some u) (hi : u.nested = some i)
    (hr : s.numbering.layout.range? i = some r) (hq : q ∈ s.numbering.layout.slotsOf i)
    (ht : s.numbering.layout.slot? q = some t) (hlabel : t.label = some label)
    (hweight : r.weight = none) (hpinned : t.pinned = none) :
    ∃ upper level, u.label = some upper ∧ upper.rule.level = some level ∧
      (r.Hidden → label.rule.level = some 0) ∧
      (¬r.Hidden → level + 1 < Counter.levelCount → label.rule.level = some (level + 1)) := by
  obtain ⟨W, s₀, s₁, s₂, hresolved, hd⟩ := h.resolve_declared hs
  obtain ⟨old, hu₁⟩ := hresolved.slot?_eq hu
  obtain ⟨old', ht₁⟩ := hresolved.slot?_eq ht
  rw [hresolved.numbering_eq, hresolved.bound.relabeled.slotsOf_eq] at hq
  obtain ⟨r', hbelow⟩ := hd.ordered.liesBelow_of_mem hu₁ hi hq ht₁
  have hparent : t.parent = some p := hbelow.parent
  rcases hresolved.level_cases hd ht hlabel with
    ⟨hnone, -⟩ | ⟨p', u', i', r', upper, hb, hupper, hlevel⟩
  · cases hparent.symm.trans hnone
  cases hparent.symm.trans hb.parent
  cases hu.symm.trans hb.slot
  cases hi.symm.trans hb.nested
  cases hr.symm.trans hb.range
  obtain ⟨level, hupperlevel⟩ := exists_level hresolved hd hu hupper
  have hown : ∀ own, r.rule = some own → own.HasLevel none := fun own hown =>
    hweight ▸ h.hasLevel_of_rule ((hresolved.declaredBy hd).range i r hr) (by simp [hb.opened]) hown
  rw [hpinned, Option.getD_none, Range.levelBelow, hweight, Option.getD_none, hupperlevel] at hlevel
  refine ⟨upper, level, hupper, hupperlevel, fun hhidden => ?_, fun hhidden hlt => ?_⟩
  · obtain ⟨own, hrule, hvoid⟩ := Option.map_eq_some_iff.1 hhidden
    rw [hlevel, hrule, Option.bind_some, (hown own hrule).eq_of_hidden hvoid]
    rfl
  · have hnone : r.rule.bind LabelRule.level = none := by
      cases hrule : r.rule with
      | none => rfl
      | some own =>
        exact (hown own hrule).eq_of_shown fun hvoid => hhidden (by simp [Range.Hidden, hrule, hvoid])
    rw [hlevel, hnone, Option.getD_none, Counter.levelBelow, Nat.mod_eq_of_lt hlt]

end Described

/-- A figure whose sub figures have letters. -/
def letteredFigures : Collection := single "/a" {
  declarations := ["figure:numbered:#4"]
  nodes := [.subRange "figure" none "X" (some "-a") [.subRange "figure" none "Y" none []]] }

/-- The letters stand one level below the numbers. -/
theorem level_below_letteredFigures : ∃ s u t upper label level,
    letteredFigures.resolve = .ok () s ∧ s.numbering.layout.slot? ⟨0⟩ = some u ∧
      s.numbering.layout.slot? ⟨1⟩ = some t ∧ u.nested = some ⟨1⟩ ∧ u.label = some upper ∧
      t.label = some label ∧ label.rule.kind = "composed" ∧ upper.rule.level = some level ∧
      label.rule.level = some (level + 1) := by
  obtain ⟨s, hs, hu, hr, hq, ht⟩ := letteredFigures.exists_resolve_and
    (P := fun s => (s.numbering.layout.slot? ⟨0⟩).map (fun u =>
        (u.nested, u.label.bind fun label => label.rule.level)) = some (some ⟨1⟩, some 3) ∧
      (s.numbering.layout.range? ⟨1⟩).map (fun r => (r.weight, decide r.Hidden)) =
        some (none, false) ∧
      ⟨1⟩ ∈ s.numbering.layout.slotsOf ⟨1⟩ ∧
      (s.numbering.layout.slot? ⟨1⟩).map (fun t =>
        (t.pinned, t.label.map fun label => label.rule.kind)) = some (none, some "composed"))
    (by decide +kernel)
  obtain ⟨u, hu, hfacts⟩ := Option.map_eq_some_iff.1 hu
  obtain ⟨r, hr, hset⟩ := Option.map_eq_some_iff.1 hr
  obtain ⟨t, ht, hbound⟩ := Option.map_eq_some_iff.1 ht
  obtain ⟨hnested, hthree⟩ := Prod.mk.inj hfacts
  obtain ⟨hweight, hshown⟩ := Prod.mk.inj hset
  obtain ⟨hpinned, hkind⟩ := Prod.mk.inj hbound
  obtain ⟨label, hlabel, hkind⟩ := Option.map_eq_some_iff.1 hkind
  obtain ⟨upper, level, hupper, hlevel, -, hbelow⟩ :=
    (single_described ..).level_below hs hu hnested hr hq ht hlabel hweight hpinned
  rw [hupper, Option.bind_some, hlevel] at hthree
  cases hthree
  exact ⟨s, u, t, upper, label, 3, hs, hu, ht, hnested, hupper, hlabel, hkind, hlevel,
    hbelow (of_decide_eq_false hshown) (by decide)⟩

/-- A figure whose sub figures have hidden labels. -/
def hiddenFigures : Collection := single "/a" {
  declarations := ["figure:numbered:#4"]
  nodes := [.subRange "figure" none "X" (some "void") [.subRange "figure" none "Y" none []]] }

/-- Labels need not lie one level below the label above, though nothing sets their level. -/
theorem not_forall_level_below : ¬∀ (c : Collection) (s : Resolution), c.Described →
    c.resolve = .ok () s → ∀ p q u t i r upper label, s.numbering.layout.slot? p = some u →
      u.nested = some i → s.numbering.layout.range? i = some r →
      q ∈ s.numbering.layout.slotsOf i → s.numbering.layout.slot? q = some t →
      u.label = some upper → t.label = some label → r.weight = none → t.pinned = none →
      ∃ level, upper.rule.level = some level ∧ label.rule.level = some (level + 1) := by
  intro h
  obtain ⟨s, hs, hu, hr, hq, ht⟩ := hiddenFigures.exists_resolve_and
    (P := fun s => (s.numbering.layout.slot? ⟨0⟩).map (fun u =>
        (u.nested, u.label.map fun label => label.rule.level)) = some (some ⟨1⟩, some (some 3)) ∧
      (s.numbering.layout.range? ⟨1⟩).map Range.weight = some none ∧
      ⟨1⟩ ∈ s.numbering.layout.slotsOf ⟨1⟩ ∧
      (s.numbering.layout.slot? ⟨1⟩).map (fun t =>
        (t.pinned, t.label.map fun label => label.rule.level)) = some (none, some (some 0)))
    (by decide +kernel)
  obtain ⟨u, hu, hfacts⟩ := Option.map_eq_some_iff.1 hu
  obtain ⟨r, hr, hweight⟩ := Option.map_eq_some_iff.1 hr
  obtain ⟨t, ht, hbound⟩ := Option.map_eq_some_iff.1 ht
  obtain ⟨hnested, hupper⟩ := Prod.mk.inj hfacts
  obtain ⟨hpinned, hlabel⟩ := Prod.mk.inj hbound
  obtain ⟨upper, hupper, hthree⟩ := Option.map_eq_some_iff.1 hupper
  obtain ⟨label, hlabel, hzero⟩ := Option.map_eq_some_iff.1 hlabel
  obtain ⟨level, -, hlevel⟩ := h hiddenFigures s (single_described ..) hs ⟨0⟩ ⟨1⟩ u t ⟨1⟩ r upper
    label hu hnested hr hq ht hupper hlabel hweight hpinned
  rw [hzero] at hlevel
  cases hlevel

/-! ## How far levels go -/

namespace Described

variable {c : Collection} {s : Resolution} {q : SlotId} {t : Slot} {r : Range} {label : Label}

/-- A rule that is set for a range has a declared level, or the level 0, or none. -/
theorem le_of_declaredBy (h : c.Described) (hd : r.DeclaredBy c.declarations) {M : Nat}
    (hM : ∀ level, c.DeclaresLevel level → level ≤ M) {level : Nat}
    (hl : r.weight = some level ∨ r.parent ≠ none ∧ r.rule.bind LabelRule.level = some level) :
    level ≤ M := by
  have hweight : ∀ level, r.weight = some level → level ≤ M := fun level hw => by
    cases hd with
    | top _ _ _ _ hnone => cases hnone.symm.trans hw
    | nested nested hn _ _ hlevel =>
      obtain ⟨heading, hh, hn⟩ := hn
      exact hM level (.inside hh hn (hlevel.symm.trans hw))
    | handed _ hlevel => exact hM level (declaresLevel_of_level (hlevel level hw))
  rcases hl with hw | ⟨hp, hl⟩
  · exact hweight level hw
  · obtain ⟨own, hrule, hl⟩ := Option.bind_eq_some_iff.1 hl
    rcases (h.hasLevel_of_rule hd hp hrule).cases hl with hw | rfl
    · exact hweight level hw
    · exact Nat.zero_le M

end Described

/-- Sections from the last level that may be declared on. -/
def lastLevels : Collection := single "/a" {
  declarations := ["section:#18446744073709551615"]
  nodes := [.heading none "X" [.heading none "Y" [.heading none "Z" []]]] }

end Collection

end Folio
