import Folio.Proofs.Resolution.Regular

/-!
# Names of labels that are counted with numbers

Where the ranges of a label type are made with plain numbers, the labels of its slots come from a
walk that counts them (`Resolved.exists_counts`). For a type without masters, the name of a label is
the id of its slot with points between the ordinals, and its level is the depth of the slot
(`Resolved.label_eq_of_unled`).
-/

namespace Folio

open Resolution

/-- Without leads, the label of a slot shows its ordinals. -/
structure Label.Shows (label : Label) (path : List Nat) : Prop where
  lead : label.lead? = none
  name : label.rule.name = dotted path
  level : label.rule.level = some ((path.length - 1) % Counter.levelCount)

theorem Label.Shows.nameWith {label : Label} {path : List Nat} (h : label.Shows path)
    (slotName : SlotId → Option String) : label.nameWith slotName = dotted path := by
  have hlead := h.lead
  cases label with
  | plain rule => exact h.name
  | led lead separator rule => cases hlead

namespace Resolution

variable {s : Resolution} {e : Entry} {label : Label}

theorem labelOf?_eq {q : SlotId} {t : Slot} (hq : e.slot = some q)
    (ht : s.numbering.layout.slot? q = some t) (hl : t.label = some label) :
    s.labelOf? e = some label := by
  rw [labelOf?, hq, Option.bind_some, ht, Option.bind_some, hl]

theorem labelReport_name (h : s.labelOf? e = some label) :
    (s.labelReport e).name = s.numbering.layout.labelName label := by
  change ((s.labelOf? e).map s.numbering.layout.labelName).getD "" = _
  rw [h]
  rfl

theorem labelReport_level (h : s.labelOf? e = some label) :
    (s.labelReport e).level = label.rule.level := by
  change (s.labelOf? e).bind (fun label => label.rule.level) = _
  rw [h]
  rfl

end Resolution

namespace Resolved

variable {c : Collection} {W : List (String × List Visit)} {s₀ s₁ s₂ s : Resolution}
  {unled typ : String}

/-- Slots are found after the claims as they are found in the end, labels put aside. -/
theorem slot?_eq (h : Resolved c W s₀ s₁ s₂ s) {q : SlotId} {t : Slot}
    (ht : s.numbering.layout.slot? q = some t) :
    ∃ label, s₁.numbering.layout.slot? q = some { t with label } := by
  rw [h.numbering_eq] at ht
  exact h.bound.relabeled.symm.slot q t ht

/-- The label of a slot comes from a walk from the head of the range of an entry. -/
theorem exists_counts (h : Resolved c W s₀ s₁ s₂ s) (hr : s₀.Regular unled typ s₁)
    (hrule : ∀ d info separator rule, s₀.info? d = some info →
      Run.newRule s₀.options typ (info.document.settings.lookup typ) = .ok (separator, rule) →
      rule = .numbered typ (some 0))
    {q : SlotId} {t : Slot} {label : Label} (ht : s.numbering.layout.slot? q = some t)
    (htyp : t.id.typ = typ) (hlabel : t.label = some label) :
    ∃ root entries e r f u sep ρ, s₁.roots.lookup root = some entries ∧ e ∈ entries ∧
      e.typ = typ ∧ s₁.numbering.layout.range? e.range = some r ∧ r.first = some f ∧
      s₁.numbering.layout.slot? f = some u ∧ u.id = ⟨typ, [1]⟩ ∧ u.parent = none ∧
      s₁.numbering.layout.Counts f r.separator (.numbered typ (some 0)) none q sep ρ ∧
      label = .ofLead t.lead sep ρ := by
  obtain ⟨label', ht₁⟩ := h.slot?_eq ht
  rw [h.numbering_eq] at ht
  obtain ⟨root, entries, e, hlookup, he, r, rule, f, sep, ρ, t', hrange, htop, hf, hc, ht', rfl⟩ :=
    h.borne.label q t label ht hlabel
  cases ht₁.symm.trans ht'
  obtain ⟨r', d, info, rule', hrange', hparent, hrt, hinfo, -, hnew, hrule', -⟩ :=
    hr.configured root entries e hlookup he
  cases hrange.symm.trans hrange'
  have hseq := hr.ordered.sequence e.range r hrange
  obtain ⟨u, hu, hid, hup⟩ := hseq.first f hf
  rw [hseq.top hparent, List.nil_append] at hid
  obtain ⟨v, -, -, hv, hvt, -⟩ := hr.ordered.path_of_reaches hu (by rw [hid]) hc.reaches
  cases ht₁.symm.trans hv
  have hrtyp : r.typ = typ := by
    rw [← htyp, show t.id.typ = u.id.typ from hvt, hid]
  have hetyp : e.typ = typ := hrt.symm.trans hrtyp
  rw [hetyp] at hnew
  have hnumbered := hrule d info r.separator rule' hinfo hnew
  have hrule'' : rule = .numbered typ (some 0) := by
    unfold Range.ruleAtTop? at htop
    rw [hrule', hr.plain.weight e.range r hrange hrtyp, Option.map_some, Option.some.injEq,
      Layout.withLevel_none] at htop
    rw [← htop, hnumbered]
  refine ⟨root, entries, e, r, f, u, sep, ρ, hlookup, he, hetyp, hrange, hf, hu, by rw [hid, hrtyp],
    hup.trans hparent, hrule'' ▸ hc, ?_⟩
  rw [hr.plain.pinned q _ ht₁ htyp, Layout.withLevel_none]

/-- The label of a slot of a type without masters shows the ordinals of the slot. -/
theorem label_eq_of_unled (h : Resolved c W s₀ s₁ s₂ s) (hr : s₀.Regular typ typ s₁)
    (hrule : ∀ d info separator rule, s₀.info? d = some info →
      Run.newRule s₀.options typ (info.document.settings.lookup typ) = .ok (separator, rule) →
      rule = .numbered typ (some 0))
    {q : SlotId} {t : Slot} {label : Label} (ht : s.numbering.layout.slot? q = some t)
    (htyp : t.id.typ = typ) (hlabel : t.label = some label) : label.Shows t.id.path := by
  obtain ⟨root, entries, e, r, f, u, sep, ρ, -, -, -, -, -, hu, hid, hup, hc, rfl⟩ :=
    h.exists_counts hr hrule ht htyp hlabel
  obtain ⟨label', ht₁⟩ := h.slot?_eq ht
  obtain ⟨v, c, hv, -, hlead, rfl, hnumbers, hlevel⟩ :=
    hc.numbered_of_unled hr.ordered hr.plain hr.led hu hid hup
  cases ht₁.symm.trans hv
  rw [show t.lead = none from hlead]
  refine ⟨rfl, ?_, hlevel⟩
  change c.decimalName = _
  rw [Counter.decimalName, hnumbers]
  rfl

end Resolved

end Folio
