import Folio.Proofs.Numbering.Displayed
import Folio.Proofs.Numbering.Rules

/-!
# Display levels along a walk

The display level of a label is that of the counter of its rule. Going on along a range keeps it.
Below a slot a range has a level of its own, if one is set for it or for its rule, and else lies one
below the label of the slot (`Range.level_ruleBelow`). A level that is pinned to a slot counts for
the label there and for what lies below, but not for the slots behind it.

So the level of a label is told by the label above, whatever the rules are and however they are
glued (`Layout.Ordered.level_of_bears`).
-/

namespace Folio

namespace LabelRule

/-- A rule counts with the level of its counter. -/
theorem level_eq (rule : LabelRule) : rule.level = rule.counter.level := by
  induction rule with
  | count => rfl
  | composed _ _ _ _ ih => exact ih

@[simp]
theorem level_next (rule : LabelRule) : rule.next.level = rule.level := by
  rw [level_eq, level_eq, counter_next]
  rfl

@[simp]
theorem level_reset (rule : LabelRule) : rule.reset.level = rule.level := by
  rw [level_eq, level_eq, counter_reset]
  rfl

@[simp]
theorem level_withLevel (rule : LabelRule) (level : Option Nat) :
    (rule.withLevel level).level = level.or rule.level := by
  rw [level_eq, level_eq, counter_withLevel]
  rfl

@[simp]
theorem level_sub (rule : LabelRule) :
    rule.sub.level = some (Counter.levelBelow rule.level) := by
  rw [level_eq, level_eq, counter_sub]
  rfl

@[simp]
theorem level_last (rule : LabelRule) : rule.last.level = rule.level := by
  induction rule with
  | count => rfl
  | composed _ _ _ _ ih => exact ih

@[simp]
theorem level_compose (base : LabelRule) (separator : String) (rule : LabelRule) :
    (compose base separator rule).level =
      some (rule.level.getD (Counter.levelBelow base.level)) := by
  rw [compose, level, level_withLevel, Option.some_or]

end LabelRule

@[simp]
theorem Layout.level_advance (rule : LabelRule) (previous lead : Option SlotId) :
    (Layout.advance rule previous lead).level = rule.level := by
  unfold Layout.advance
  split <;> simp

/-- The level of the labels of a range below a label of the given level. -/
def Range.levelBelow (r : Range) (above : Option Nat) : Nat :=
  r.weight.getD ((r.rule.bind LabelRule.level).getD (Counter.levelBelow above))

/-- An own rule is glued behind the part of the rule above that counts, which has the level of the
whole rule. -/
theorem Range.level_ruleBelow (r : Range) (above : LabelRule) :
    (r.ruleBelow above.sub).level = some (r.levelBelow above.level) := by
  unfold Range.ruleBelow Range.levelBelow
  dsimp only
  rw [LabelRule.level_withLevel, LabelRule.parent?_sub]
  cases r.rule <;> cases r.weight <;> simp

theorem Range.levelBelow_le {r : Range} {above bound : Nat}
    (hset : ∀ level, r.weight = some level ∨ r.rule.bind LabelRule.level = some level →
      level ≤ bound) (h : above + 1 ≤ bound) : r.levelBelow (some above) ≤ bound := by
  unfold Range.levelBelow
  cases hw : r.weight with
  | some weight => exact hset weight (.inl hw)
  | none =>
    cases hown : r.rule.bind LabelRule.level with
    | some own => exact hset own (.inr hown)
    | none => exact Nat.le_trans (Nat.mod_le _ _) h

theorem Label.rule_ofLead (lead : Option SlotId) (separator : String) (rule : LabelRule) :
    (Label.ofLead lead separator rule).rule = rule := by
  cases lead <;> rfl

namespace Layout

variable {l : Layout} {start f q : SlotId} {separator sep : String} {rule ρ : LabelRule}
  {previous : Option SlotId} {range i : RangeId} {r : Range} {t : Slot} {label label' : Label}

/-! ## Along a range -/

/-- The slots of a chain follow the first one. -/
theorem follows_of_mem_chain {m : Nat} {p : SlotId} (hq : q ∈ l.chain m (some p)) :
    l.Follows p q := by
  induction m generalizing p with
  | zero => simp [chain] at hq
  | succ m ih =>
    rcases List.mem_cons.1 hq with rfl | hq
    · exact .refl
    · change q ∈ l.chain m (l.next? p) at hq
      cases hp : l.next? p with
      | none => simp [hp] at hq
      | some p' =>
        rw [hp] at hq
        exact .head hp (ih hq)

/-- The slots that follow the first one of a range lie where the range lies. -/
theorem Ordered.place_of_follows (h : l.Ordered) (hr : l.range? i = some r)
    (hf : r.first = some f) (hq : l.Follows f q) (ht : l.slot? q = some t) :
    t.parent = r.parent ∧ ∃ k, t.id.path = r.ordinals.outer ++ [k] := by
  induction hq generalizing t with
  | refl =>
    obtain ⟨s, hs, hid, hparent⟩ := (h.sequence i r hr).first f hf
    cases hs.symm.trans ht
    exact ⟨hparent, 1, by rw [hid]⟩
  | @tail p q _ hn ih =>
    obtain ⟨s, hs, hnext⟩ := next?_eq_some.1 hn
    obtain ⟨u, outer, k, hu, hparent, hid, hid'⟩ := h.next_id p s q hs hnext
    cases hu.symm.trans ht
    obtain ⟨hp, k', hpath⟩ := ih hs
    have heq : outer ++ [k] = r.ordinals.outer ++ [k'] :=
      (congrArg LabelId.path hid).symm.trans hpath
    obtain ⟨rfl, -⟩ := List.append_singleton_inj.1 heq
    exact ⟨hparent.trans hp, k + 1, by rw [hid']⟩

/-- The slot `t` lies in the range `r` below the slot `u`. -/
structure LiesBelow (l : Layout) (p : SlotId) (u : Slot) (i : RangeId) (r : Range) (t : Slot) :
    Prop where
  slot : l.slot? p = some u
  nested : u.nested = some i
  range : l.range? i = some r
  opened : r.parent = some p
  parent : t.parent = some p
  path : ∃ k, t.id.path = u.id.path ++ [k]

theorem Ordered.liesBelow (h : l.Ordered) {p : SlotId} {u : Slot} (hu : l.slot? p = some u)
    (hi : u.nested = some i) (hr : l.range? i = some r) (hf : r.first = some f)
    (hq : l.Follows f q) (ht : l.slot? q = some t) : l.LiesBelow p u i r t := by
  obtain ⟨r', hr', hparent, -⟩ := h.nested_parent p u i hu hi
  cases hr.symm.trans hr'
  obtain ⟨u', hu', houter, -⟩ := (h.sequence i r hr).outer p hparent
  cases hu.symm.trans hu'
  obtain ⟨hp, hpath⟩ := h.place_of_follows hr hf hq ht
  exact ⟨hu, hi, hr, hparent, hp.trans hparent, houter ▸ hpath⟩

/-- The slots that are listed in the range below a slot lie there. -/
theorem Ordered.liesBelow_of_mem (h : l.Ordered) {p : SlotId} {u : Slot}
    (hu : l.slot? p = some u) (hi : u.nested = some i) (hq : q ∈ l.slotsOf i)
    (ht : l.slot? q = some t) : ∃ r, l.LiesBelow p u i r t := by
  obtain ⟨r, f, -, hr, hf, -⟩ := h.exists_first hq
  unfold slotsOf at hq
  rw [hr, Option.bind_some, hf] at hq
  exact ⟨r, h.liesBelow hu hi hr hf (follows_of_mem_chain hq) ht⟩

/-- A walk comes to a slot along the range it sets out on, or along a range below a slot where it
has been. The level stays along either range. -/
theorem Counts.level (h : l.Counts start separator rule previous q sep ρ) :
    (l.Follows start q ∧ ρ.level = rule.level) ∨
    ∃ p s i r f sep' above, l.Counts start separator rule previous p sep' above ∧
      l.slot? p = some s ∧ s.nested = some i ∧ l.range? i = some r ∧ r.first = some f ∧
      l.Follows f q ∧ ρ.level = some (r.levelBelow (above.withLevel s.pinned).level) := by
  induction h with
  | start s hs => exact .inl ⟨.refl, level_advance ..⟩
  | next s t _ hs hq ht ih =>
    have hnext := next?_eq_some.2 ⟨s, hs, hq⟩
    rw [level_advance]
    rcases ih with ⟨hf, hlevel⟩ | ⟨p, u, i, r, f, sep, above, hc, hu, hi, hr, hfirst, hf, hlevel⟩
    · exact .inl ⟨hf.tail hnext, hlevel⟩
    · exact .inr ⟨p, u, i, r, f, sep, above, hc, hu, hi, hr, hfirst, hf.tail hnext, hlevel⟩
  | nested s t i r hp hs hi hr hq ht _ =>
    refine .inr ⟨_, s, i, r, _, _, _, hp, hs, hi, hr, hq, .refl, ?_⟩
    rw [level_advance, Range.level_ruleBelow]

/-! ## The labels of a range at the top -/

/-- A walk binds one label to a slot. -/
theorem Sound.bears_unique (h : l.Sound) (hq : l.Bears range q label)
    (hq' : l.Bears range q label') : label = label' := by
  obtain ⟨r, rule, f, sep, ρ, t, hr, hrule, hf, hc, ht, rfl⟩ := hq
  obtain ⟨r', rule', f', sep', ρ', t', hr', hrule', hf', hc', ht', rfl⟩ := hq'
  cases hr.symm.trans hr'
  cases hrule.symm.trans hrule'
  cases hf.symm.trans hf'
  obtain ⟨u, hu, hbound⟩ := h.label_bindFrom (l.slots.size + 1) (by omega) hc
  obtain ⟨u', hu', hbound'⟩ := h.label_bindFrom (l.slots.size + 1) (by omega) hc'
  cases ht.symm.trans hu
  cases ht.symm.trans ht'
  cases ht.symm.trans hu'
  exact Option.some.inj (congrArg Slot.label (Option.some.inj (hbound.symm.trans hbound')))

/-- The level of a label is that of the range at the top or comes from the label above, unless one
is pinned to the slot. -/
theorem Ordered.level_of_bears (h : l.Ordered) (hr : l.range? range = some r)
    (hp : r.parent = none) (hq : l.Bears range q label) (ht : l.slot? q = some t) :
    (t.parent = none ∧ (∃ k, t.id.path = [k]) ∧ ∃ rule, r.ruleAtTop? = some rule ∧
      label.rule.level = t.pinned.or rule.level) ∨
    ∃ p u i v upper, l.LiesBelow p u i v t ∧ l.Bears range p upper ∧
      label.rule.level = some (t.pinned.getD (v.levelBelow upper.rule.level)) := by
  obtain ⟨r', rule, f, sep, ρ, t', hr', hrule, hf, hc, ht', rfl⟩ := hq
  cases hr.symm.trans hr'
  cases ht.symm.trans ht'
  rw [Label.rule_ofLead, LabelRule.level_withLevel]
  rcases hc.level with ⟨hfollows, hlevel⟩ |
    ⟨p, u, i, v, g, sep', above, hcounts, hu, hi, hv, hg, hfollows, hlevel⟩
  · obtain ⟨hparent, hpath⟩ := h.place_of_follows hr hf hfollows ht
    rw [(h.sequence range r hr).top hp] at hpath
    exact .inl ⟨hparent.trans hp, hpath, rule, hrule, by rw [hlevel]⟩
  · refine .inr ⟨p, u, i, v, _, h.liesBelow hu hi hv hg hfollows ht,
      ⟨r, rule, f, sep', above, u, hr, hrule, hf, hcounts, hu, rfl⟩, ?_⟩
    rw [Label.rule_ofLead, hlevel]
    cases t.pinned <;> rfl

end Layout

end Folio
