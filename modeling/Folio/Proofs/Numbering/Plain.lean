import Folio.Proofs.Numbering.Ordered

/-!
# Ranges that count plainly

A range can have a rule, a display level and a lead of its own. `Layout.Plain` says of a label type
that nothing of that kind is set below its ranges at the top, so that the rule there decides on all
its labels.

Leads belong to ranges at the top. Below, a slot has the lead of the slot above (`Numbering.Led`).
The slots of a label type without masters have none (`Numbering.Unled`).
-/

namespace Folio

/-- Rule, display level and separator are those of the slots of a label type at the top. -/
structure Layout.Plain (typ : String) (l : Layout) : Prop where
  weight : ∀ i r, l.range? i = some r → r.typ = typ → r.weight = none
  rule : ∀ i r, l.range? i = some r → r.typ = typ → r.parent ≠ none → r.rule = none
  pinned : ∀ q s, l.slot? q = some s → s.id.typ = typ → s.pinned = none

namespace Layout.Plain

variable {typ : String} {l l' : Layout} {range : RangeId} {r new : Range} {opened : Bool}
  {lead : Option SlotId} {pinned : Option Nat}

theorem empty : ({} : Layout).Plain typ := by
  constructor <;> simp [slot?, range?]

theorem claimed (h : l.Plain typ) (hc : l.Claimed l' range r opened lead pinned)
    (hp : r.typ = typ → pinned = none) : l'.Plain typ where
  weight i u hu := by
    by_cases hi : i = range
    · subst hi
      cases hc.range_self.symm.trans hu
      exact h.weight i r hc.before
    · exact h.weight i u ((hc.range_other hi).symm.trans hu)
  rule i u hu := by
    by_cases hi : i = range
    · subst hi
      cases hc.range_self.symm.trans hu
      exact h.rule i r hc.before
    · exact h.rule i u ((hc.range_other hi).symm.trans hu)
  pinned q t ht := by
    rcases hc.slot_cases ht with ⟨rfl, rfl⟩ | ⟨s, hs, rfl⟩
    · exact hp
    · simpa using h.pinned q s hs

theorem ranges (h : l.Plain typ) (hslot : ∀ q, l'.slot? q = l.slot? q)
    (hrange : ∀ i r', l'.range? i = some r' → r'.typ = typ →
      (∃ r, l.range? i = some r ∧ r.typ = typ ∧ r'.parent = r.parent ∧ r'.weight = r.weight ∧
        r'.rule = r.rule) ∨
      r'.weight = none ∧ (r'.parent ≠ none → r'.rule = none)) : l'.Plain typ where
  weight i r' hr' ht := by
    rcases hrange i r' hr' ht with ⟨r, hr, ht, -, hw, -⟩ | ⟨hw, -⟩
    · rw [hw, h.weight i r hr ht]
    · exact hw
  rule i r' hr' ht hp := by
    rcases hrange i r' hr' ht with ⟨r, hr, ht, hp', -, hrule⟩ | ⟨-, hrule⟩
    · rw [hrule, h.rule i r hr ht (hp' ▸ hp)]
    · exact hrule hp
  pinned q s hs := h.pinned q s (hslot q ▸ hs)

/-! ## The operations -/

variable {n n' : Numbering}

theorem newRange (h : n.layout.Plain typ) (t abbreviation : String) (lead : Option Lead) :
    (n.newRange t abbreviation lead).2.layout.Plain typ := by
  rw [Numbering.layout_newRange]
  refine h.ranges (fun _ => rfl) fun i r' hr' ht => ?_
  rw [range?_addRange] at hr'
  split at hr'
  · cases hr'
    exact .inr ⟨rfl, fun _ => rfl⟩
  · exact .inl ⟨r', hr', ht, rfl, rfl, rfl⟩

/-- The rule of a range at the top may be set, or that of another label type. -/
theorem setRule (h : n.layout.Plain typ) (range : RangeId) (separator : String)
    (rule : Option LabelRule)
    (hr : ∀ r, n.layout.range? range = some r → r.typ = typ → r.parent = none) :
    (n.setRule range separator rule).layout.Plain typ := by
  refine h.ranges (fun _ => rfl) fun i r' hr' ht => ?_
  rw [Numbering.range?_setRule] at hr'
  split at hr'
  next hi =>
    obtain ⟨r, hold, rfl⟩ := Option.map_eq_some_iff.1 hr'
    have hp := hr r (hi ▸ hold) ht
    exact .inr ⟨h.weight i r hold ht, fun hp' => (hp' hp).elim⟩
  · exact .inl ⟨r', hr', ht, rfl, rfl, rfl⟩

theorem setWeight (h : n.layout.Plain typ) (range : RangeId) (weight : Option Nat)
    (hr : ∀ r, n.layout.range? range = some r → r.typ ≠ typ) :
    (n.setWeight range weight).layout.Plain typ := by
  refine h.ranges (fun _ => rfl) fun i r' hr' ht => ?_
  rw [Numbering.range?_setWeight] at hr'
  split at hr'
  next hi =>
    obtain ⟨r, hold, rfl⟩ := Option.map_eq_some_iff.1 hr'
    exact (hr r (hi ▸ hold) ht).elim
  · exact .inl ⟨r', hr', ht, rfl, rfl, rfl⟩

theorem setActive (h : n.layout.Plain typ) (active : List (String × RangeId)) :
    (n.setActive active).layout.Plain typ :=
  h.ranges (fun _ => rfl) fun _ r hr ht => .inl ⟨r, hr, ht, rfl, rfl, rfl⟩

theorem next (h : n.layout.Plain typ) (hs : n.layout.Sound) {slot : SlotId}
    (hn : n.next range = .ok (slot, n')) : n'.layout.Plain typ := by
  obtain ⟨r, hr, -, ⟨-, -, rfl⟩ | ⟨-, heq⟩⟩ := Numbering.next_cases hn
  · refine h.ranges (fun _ => rfl) fun i u' hu' ht => .inl ?_
    rw [range?_setRange] at hu'
    split at hu'
    next hi =>
      rw [hi, hr] at hu'
      cases hu'
      exact ⟨r, hi ▸ hr, ht, rfl, rfl, rfl⟩
    · exact ⟨u', hu', ht, rfl, rfl, rfl⟩
  · cases heq
    exact h.claimed (hs.claim hr false none) fun _ => rfl

theorem sub (h : n.layout.Plain typ) {below : RangeId} (hn : n.sub range = .ok (below, n')) :
    n'.layout.Plain typ := by
  obtain ⟨r, slot, s, hr, -, -, -, -, -, ho⟩ := Numbering.sub_cases hn
  refine h.ranges ho.slot fun i u' hu' ht => ?_
  rw [ho.range] at hu'
  split at hu'
  · cases hu'
    exact .inr ⟨rfl, fun _ => rfl⟩
  · split at hu'
    next hi =>
      rw [hi, hr] at hu'
      cases hu'
      exact .inl ⟨r, hi ▸ hr, ht, rfl, rfl, rfl⟩
    · exact .inl ⟨u', hu', ht, rfl, rfl, rfl⟩

theorem assign (h : n.layout.Plain typ) (hs : n.layout.Sound) {level : Option Nat}
    {handle : RangeId} (hn : n.assign range level = .ok (handle, n'))
    (hlevel : ∀ r, n.layout.range? range = some r → r.typ = typ → level = none) :
    n'.layout.Plain typ := by
  obtain ⟨r, hr, -, -, hl⟩ := Numbering.assign_cases hn
  rw [hl]
  have hc := hs.claim hr r.subOpened level
  refine (h.claimed hc (hlevel r hr)).ranges (fun _ => rfl) fun i u' hu' ht => ?_
  rw [range?_addRange] at hu'
  split at hu'
  · cases hu'
    exact .inr ⟨hlevel r hr ht, fun _ => rfl⟩
  · exact .inl ⟨u', hu', ht, rfl, rfl, rfl⟩

end Layout.Plain

/-! ## Leads -/

/-- Only ranges at the top have leads of their own, and none of the given label type. -/
structure Numbering.Led (unled : String) (n : Numbering) : Prop where
  top : ∀ i lead, n.leads.lookup i = some lead → ∃ r, n.layout.range? i = some r ∧
    r.parent = none ∧ r.typ ≠ unled
  range : ∀ i r p, n.layout.range? i = some r → r.parent = some p →
    ∃ s, n.layout.slot? p = some s ∧ r.lead = s.lead
  slot : ∀ q t p, n.layout.slot? q = some t → t.parent = some p →
    ∃ s, n.layout.slot? p = some s ∧ t.lead = s.lead
  unled_range : ∀ i r, n.layout.range? i = some r → r.typ = unled → r.lead = none
  unled_slot : ∀ q s, n.layout.slot? q = some s → s.id.typ = unled → s.lead = none

namespace Numbering.Led

variable {unled : String} {n n' : Numbering} {range : RangeId} {r : Range}

theorem empty : ({} : Numbering).Led unled := by
  constructor <;> simp [Layout.slot?, Layout.range?]

theorem leadFor_eq (h : n.Led unled) (hr : n.layout.range? range = some r)
    (hp : r.parent ≠ none ∨ r.typ = unled) : n.leadFor range r = r.lead := by
  unfold leadFor
  split
  next lead hl =>
    obtain ⟨r', hr', hp', ht⟩ := h.top range lead hl
    cases hr.symm.trans hr'
    rcases hp with hp | hp
    · exact (hp hp').elim
    · exact (ht hp).elim
  · rfl

theorem claimed (h : n.Led unled) {opened : Bool} {pinned : Option Nat}
    (hc : n.layout.Claimed n'.layout range r opened (n.leadFor range r) pinned)
    (hleads : n'.leads = n.leads) : n'.Led unled where
  top i lead hl := by
    obtain ⟨u, hu, hp, ht⟩ := h.top i lead (hleads ▸ hl)
    by_cases hi : i = range
    · subst hi
      cases hc.before.symm.trans hu
      exact ⟨_, hc.range_self, hp, ht⟩
    · exact ⟨u, (hc.range_other hi).trans hu, hp, ht⟩
  range i u p hu hp := by
    by_cases hi : i = range
    · subst hi
      cases hc.range_self.symm.trans hu
      have hp' : r.parent = some p := hp
      obtain ⟨s, hs, hlead⟩ := h.range i r p hc.before hp'
      refine ⟨_, hc.slot_old hs, ?_⟩
      rw [Slot.linked_lead, ← hlead]
      exact h.leadFor_eq hc.before (.inl (by simp [hp']))
    · obtain ⟨s, hs, hlead⟩ := h.range i u p ((hc.range_other hi).symm.trans hu) hp
      exact ⟨_, hc.slot_old hs, by simpa using hlead⟩
  slot q t p ht hp := by
    rcases hc.slot_cases ht with ⟨rfl, rfl⟩ | ⟨s, hs, rfl⟩
    · have hp' : r.parent = some p := hp
      obtain ⟨s, hs, hlead⟩ := h.range range r p hc.before hp'
      refine ⟨_, hc.slot_old hs, ?_⟩
      rw [Slot.linked_lead, ← hlead]
      exact h.leadFor_eq hc.before (.inl (by simp [hp']))
    · rw [Slot.linked_parent] at hp
      obtain ⟨s', hs', hlead⟩ := h.slot q s p hs hp
      exact ⟨_, hc.slot_old hs', by simpa using hlead⟩
  unled_range i u hu ht := by
    by_cases hi : i = range
    · subst hi
      cases hc.range_self.symm.trans hu
      have ht' : r.typ = unled := ht
      exact (h.leadFor_eq hc.before (.inr ht')).trans (h.unled_range i r hc.before ht')
    · exact h.unled_range i u ((hc.range_other hi).symm.trans hu) ht
  unled_slot q t ht htyp := by
    rcases hc.slot_cases ht with ⟨rfl, rfl⟩ | ⟨s, hs, rfl⟩
    · have ht' : r.typ = unled := htyp
      exact (h.leadFor_eq hc.before (.inr ht')).trans (h.unled_range range r hc.before ht')
    · simpa using h.unled_slot q s hs (by simpa using htyp)

/-- Ranges change in what does not concern their slots, and a range whose lead fits is added. -/
theorem ranges (h : n.Led unled) (hleads : n'.leads = n.leads)
    (hslot : ∀ q, n'.layout.slot? q = n.layout.slot? q)
    (hkept : ∀ i r, n.layout.range? i = some r → ∃ r', n'.layout.range? i = some r' ∧
      r.SameSequence r')
    (hnew : ∀ i r', n'.layout.range? i = some r' → n.layout.range? i = none →
      (∀ p, r'.parent = some p → ∃ s, n.layout.slot? p = some s ∧ r'.lead = s.lead) ∧
      (r'.typ = unled → r'.lead = none)) : n'.Led unled where
  top i lead hl := by
    obtain ⟨r, hr, hp, ht⟩ := h.top i lead (hleads ▸ hl)
    obtain ⟨r', hr', hsame⟩ := hkept i r hr
    exact ⟨r', hr', by rw [hsame.parent, hp], by rwa [hsame.typ]⟩
  range i r' p hr' hp := by
    rw [hslot]
    cases hr : n.layout.range? i with
    | none => exact (hnew i r' hr' hr).1 p hp
    | some r =>
      obtain ⟨u, hu, hsame⟩ := hkept i r hr
      cases hr'.symm.trans hu
      rw [hsame.lead]
      exact h.range i r p hr (hsame.parent ▸ hp)
  slot q t p ht hp := by
    rw [hslot] at ht ⊢
    exact h.slot q t p ht hp
  unled_range i r' hr' ht := by
    cases hr : n.layout.range? i with
    | none => exact (hnew i r' hr' hr).2 ht
    | some r =>
      obtain ⟨u, hu, hsame⟩ := hkept i r hr
      cases hr'.symm.trans hu
      rw [hsame.lead]
      exact h.unled_range i r hr (hsame.typ ▸ ht)
  unled_slot q s hs := h.unled_slot q s (hslot q ▸ hs)

/-! ## The operations -/

theorem modify (h : n.Led unled) (f : Range → Range) (hf : ∀ r : Range, r.SameSequence (f r)) :
    Numbering.Led unled { n with
      layout.ranges := n.layout.ranges.modify range.index f } := by
  refine h.ranges rfl (fun _ => rfl) (fun i r hr => ?_) fun i r' hr' hr => ?_
  · rw [Layout.range?_modify, hr]
    split
    · exact ⟨f r, rfl, hf r⟩
    · exact ⟨r, rfl, rfl, rfl, rfl, rfl, rfl, rfl⟩
  · simp [Layout.range?_modify, hr] at hr'

theorem setRule (h : n.Led unled) (range : RangeId) (separator : String)
    (rule : Option LabelRule) : (n.setRule range separator rule).Led unled :=
  h.modify _ fun _ => ⟨rfl, rfl, rfl, rfl, rfl, rfl⟩

theorem setWeight (h : n.Led unled) (range : RangeId) (weight : Option Nat) :
    (n.setWeight range weight).Led unled :=
  h.modify _ fun _ => ⟨rfl, rfl, rfl, rfl, rfl, rfl⟩

theorem setActive (h : n.Led unled) (active : List (String × RangeId)) :
    (n.setActive active).Led unled :=
  h.ranges rfl (fun _ => rfl) (fun _ r hr => ⟨r, hr, rfl, rfl, rfl, rfl, rfl, rfl⟩)
    fun _ _ h h' => by cases h.symm.trans h'

theorem newRange (h : n.Led unled) (typ abbreviation : String) (lead : Option Lead)
    (hl : lead.isSome → typ ≠ unled) : (n.newRange typ abbreviation lead).2.Led unled := by
  have hadd : Numbering.Led unled { n with layout := (n.layout.addRange { typ, abbreviation }).2 } := by
    refine h.ranges rfl (fun _ => rfl)
      (fun i r hr => ⟨r, Layout.range?_addRange_of_some hr _, rfl, rfl, rfl, rfl, rfl, rfl⟩)
      fun i r' hr' hr => ?_
    rw [Layout.range?_addRange, hr] at hr'
    split at hr' <;> cases hr'
    simp
  cases lead with
  | none => exact hadd
  | some lead =>
    refine ⟨fun i l hi => ?_, hadd.range, hadd.slot, hadd.unled_range, hadd.unled_slot⟩
    by_cases hfresh : i = n.layout.freshRange
    · subst hfresh
      exact ⟨{ typ, abbreviation }, by simp [Numbering.newRange, Layout.range?_addRange], rfl,
        hl rfl⟩
    · have hi' : List.lookup i ((n.layout.freshRange, lead) :: n.leads) = some l := hi
      exact hadd.top i l (by rwa [List.lookup_cons, beq_eq_false_iff_ne.2 hfresh] at hi')

theorem next (h : n.Led unled) (hs : n.layout.Sound) {slot : SlotId}
    (hn : n.next range = .ok (slot, n')) : n'.Led unled := by
  obtain ⟨r, hr, -, ⟨-, -, rfl⟩ | ⟨-, heq⟩⟩ := Numbering.next_cases hn
  · refine h.ranges rfl (fun _ => rfl) (fun i u hu => ?_) fun i u' hu' hu => ?_
    · rw [Layout.range?_setRange, hu]
      split
      next hi =>
        subst hi
        cases hr.symm.trans hu
        exact ⟨_, rfl, rfl, rfl, rfl, rfl, rfl, rfl⟩
      · exact ⟨u, rfl, rfl, rfl, rfl, rfl, rfl, rfl⟩
    · simp [Layout.range?_setRange, hu] at hu'
  · obtain rfl := congrArg Prod.snd heq
    exact h.claimed (hs.claim hr false none) (leads_claim ..)

theorem sub (h : n.Led unled) (ho : n.layout.Ordered) {below : RangeId}
    (hn : n.sub range = .ok (below, n')) : n'.Led unled := by
  obtain ⟨r, slot, s, hr, hc, hs, -, -, hleads, hopened⟩ := Numbering.sub_cases hn
  refine h.ranges hleads hopened.slot (fun i u hu => ?_) fun i u' hu' hu => ?_
  · rw [hopened.range, hu, if_neg (by rintro rfl; simp at hu)]
    split
    next hi =>
      subst hi
      cases hr.symm.trans hu
      exact ⟨_, rfl, rfl, rfl, rfl, rfl, rfl, rfl⟩
    · exact ⟨u, rfl, rfl, rfl, rfl, rfl, rfl, rfl⟩
  · rw [hopened.range, hu] at hu'
    split at hu'
    · cases hu'
      obtain ⟨s', hs', -, -, hlead⟩ := (ho.sequence range r hr).latest slot hc
      cases hs.symm.trans hs'
      refine ⟨fun p hp => ?_, h.unled_range range r hr⟩
      cases hp
      exact ⟨s, hs, hlead.symm⟩
    · simp at hu'

theorem assign (h : n.Led unled) (hs : n.layout.Sound) {level : Option Nat} {handle : RangeId}
    (hn : n.assign range level = .ok (handle, n')) : n'.Led unled := by
  obtain ⟨r, hr, -, hleads, hl⟩ := Numbering.assign_cases hn
  have hc := hs.claim hr r.subOpened level
  have hclaim : (n.claim range r level).2.Led unled := h.claimed hc (leads_claim ..)
  refine hclaim.ranges (by rw [hleads, leads_claim]) (fun _ => by rw [hl]; rfl) (fun i u hu => ?_)
    fun i u' hu' hu => ?_
  · refine ⟨u, ?_, rfl, rfl, rfl, rfl, rfl, rfl⟩
    rw [hl, Layout.range?_addRange, if_neg, hu]
    rintro rfl
    simp at hu
  · rw [hl, Layout.range?_addRange, hu] at hu'
    split at hu' <;> cases hu'
    have hgrown := hc.range_self
    exact ⟨fun p hp => (hclaim.range range _ p hgrown hp :), fun ht =>
      (hclaim.unled_range range _ hgrown ht :)⟩

end Numbering.Led

end Folio
