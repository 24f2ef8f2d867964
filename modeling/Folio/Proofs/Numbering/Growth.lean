import Folio.Proofs.Numbering.Tidy

/-!
# Growth of a layout

Claiming adds slots without labels, and ranges that lie below a slot or hand one over. A range
keeps the slot it lies below, and it keeps growing. `Layout.Growth` states this for one step and
for many. Ranges at the top are opened by `Numbering.newRange` alone, which is no growth in this
sense.
-/

namespace Folio

namespace Layout

/-- No label is bound. -/
def Unlabeled (l : Layout) : Prop := ∀ q s, l.slot? q = some s → s.label = none

/-- Ranges keep their places, and a new one hands over a slot or lies below one. -/
structure Growth (l l' : Layout) : Prop where
  kept : ∀ i r, l.range? i = some r → ∃ r', l'.range? i = some r' ∧ r'.parent = r.parent ∧
    (r'.stage = .growing ↔ r.stage = .growing)
  new : ∀ i r', l'.range? i = some r' → l.range? i = none →
    r'.stage = .growing → r'.parent ≠ none
  unlabeled : l.Unlabeled → l'.Unlabeled

namespace Growth

variable {l l' l'' : Layout}

theorem refl (l : Layout) : l.Growth l where
  kept _ r h := ⟨r, h, rfl, Iff.rfl⟩
  new _ _ h h' := by cases h.symm.trans h'
  unlabeled h := h

theorem trans (h : l.Growth l') (h' : l'.Growth l'') : l.Growth l'' where
  kept i r hr := by
    obtain ⟨r', hr', hp, hg⟩ := h.kept i r hr
    obtain ⟨r'', hr'', hp', hg'⟩ := h'.kept i r' hr'
    exact ⟨r'', hr'', hp'.trans hp, hg'.trans hg⟩
  new i r'' hr'' hr hg := by
    cases hr' : l'.range? i with
    | none => exact h'.new i r'' hr'' hr' hg
    | some r' =>
      obtain ⟨u, hu, hp, hg'⟩ := h'.kept i r' hr'
      cases hr''.symm.trans hu
      rw [hp]
      exact h.new i r' hr' hr (hg'.1 hg)
  unlabeled hl := h'.unlabeled (h.unlabeled hl)

/-- Slots stay, and ranges change in what does not concern their places. -/
theorem modify (l : Layout) (range : RangeId) (f : Range → Range)
    (hf : ∀ r, l.range? range = some r → (f r).parent = r.parent ∧
      ((f r).stage = .growing ↔ r.stage = .growing)) :
    l.Growth { l with ranges := l.ranges.modify range.index f } where
  kept i r hr := by
    rw [range?_modify, hr]
    split
    next hi => exact ⟨f r, rfl, hf r (hi ▸ hr)⟩
    · exact ⟨r, rfl, rfl, Iff.rfl⟩
  new i r' hr' hr := by simp [range?_modify, hr] at hr'
  unlabeled h := h

theorem claimed {range : RangeId} {r : Range} {opened : Bool} {lead : Option SlotId}
    {pinned : Option Nat} (h : l.Claimed l' range r opened lead pinned) : l.Growth l' where
  kept i u hu := by
    by_cases hi : i = range
    · subst hi
      cases h.before.symm.trans hu
      exact ⟨_, h.range_self, rfl, Iff.rfl⟩
    · exact ⟨u, (h.range_other hi).trans hu, rfl, Iff.rfl⟩
  new i u' hu' hu := by
    have hi : i ≠ range := by
      rintro rfl
      cases h.before.symm.trans hu
    cases hu.symm.trans ((h.range_other hi).symm.trans hu')
  unlabeled hl q t ht := by
    rcases h.slot_cases ht with ⟨-, rfl⟩ | ⟨s, hs, rfl⟩
    · rfl
    · rw [Slot.linked_label]
      exact hl q s hs

theorem addRange (l : Layout) {new : Range} (h : new.stage = .growing → new.parent ≠ none) :
    l.Growth (l.addRange new).2 where
  kept i r hr := by
    exact ⟨r, range?_addRange_of_some hr new, rfl, Iff.rfl⟩
  new i r' hr' hr := by
    rw [range?_addRange, hr] at hr'
    split at hr' <;> cases hr'
    exact h
  unlabeled h := h

variable {n n' : Numbering} {range : RangeId}

theorem setRule (n : Numbering) (range : RangeId) (separator : String) (rule : Option LabelRule) :
    n.layout.Growth (n.setRule range separator rule).layout :=
  modify _ _ _ fun _ _ => ⟨rfl, Iff.rfl⟩

theorem setWeight (n : Numbering) (range : RangeId) (weight : Option Nat) :
    n.layout.Growth (n.setWeight range weight).layout :=
  modify _ _ _ fun _ _ => ⟨rfl, Iff.rfl⟩

theorem setActive (n : Numbering) (active : List (String × RangeId)) :
    n.layout.Growth (n.setActive active).layout where
  kept _ r h := ⟨r, h, rfl, Iff.rfl⟩
  new _ _ h h' := by cases h.symm.trans h'
  unlabeled h := h

theorem next (hs : n.layout.Sound) {slot : SlotId} (h : n.next range = .ok (slot, n')) :
    n.layout.Growth n'.layout := by
  obtain ⟨r, hr, hf, ⟨ha, -, rfl⟩ | ⟨-, hn⟩⟩ := Numbering.next_cases h
  · refine modify _ _ _ fun u hu => ?_
    cases hr.symm.trans hu
    exact ⟨rfl, by simp [ha]⟩
  · cases hn
    exact claimed (hs.claim hr false none)

theorem sub {below : RangeId} (h : n.sub range = .ok (below, n')) :
    n.layout.Growth n'.layout := by
  obtain ⟨r, slot, s, hr, -, -, -, -, -, ho⟩ := Numbering.sub_cases h
  refine ⟨fun i u hu => ?_, fun i u' hu' hu => ?_, fun hl q t ht => hl q t (ho.slot q ▸ ht)⟩
  · rw [ho.range, hu, if_neg (by rintro rfl; simp at hu)]
    split
    next hi =>
      subst hi
      cases hr.symm.trans hu
      exact ⟨_, rfl, rfl, Iff.rfl⟩
    · exact ⟨u, rfl, rfl, Iff.rfl⟩
  · rw [ho.range, hu] at hu'
    split at hu'
    · cases hu'
      simp
    · simp at hu'

theorem assign (hs : n.layout.Sound) {level : Option Nat} {handle : RangeId}
    (h : n.assign range level = .ok (handle, n')) : n.layout.Growth n'.layout := by
  obtain ⟨r, hr, -, -, hl⟩ := Numbering.assign_cases h
  rw [hl]
  exact (claimed (hs.claim hr r.subOpened level)).trans (addRange _ (by simp [Range.handle]))

end Growth

/-- The range that is opened below a slot grows. -/
theorem growing_of_sub {n n' : Numbering} {range below : RangeId}
    (h : n.sub range = .ok (below, n')) :
    ∃ r, n'.layout.range? below = some r ∧ r.stage = .growing := by
  obtain ⟨r, slot, s, -, -, -, -, rfl, -, ho⟩ := Numbering.sub_cases h
  exact ⟨_, by rw [ho.range, if_pos rfl], rfl⟩

/-- A range that grows does so forever. -/
theorem Growth.growing {l l' : Layout} (h : l.Growth l') {i : RangeId}
    (hi : ∃ r, l.range? i = some r ∧ r.stage = .growing) :
    ∃ r, l'.range? i = some r ∧ r.stage = .growing := by
  obtain ⟨r, hr, hg⟩ := hi
  obtain ⟨r', hr', -, hg'⟩ := h.kept i r hr
  exact ⟨r', hr', hg'.2 hg⟩

end Layout

/-! ## What ranges keep -/

/-- A range keeps what it was made with. -/
structure Range.SameSettings (r r' : Range) : Prop where
  typ : r'.typ = r.typ
  parent : r'.parent = r.parent
  separator : r'.separator = r.separator
  rule : r'.rule = r.rule
  weight : r'.weight = r.weight

namespace Range.SameSettings

variable {n n' : Numbering} {range i : RangeId} {r : Range}

theorem refl (r : Range) : r.SameSettings r := ⟨rfl, rfl, rfl, rfl, rfl⟩

theorem trans {r' r'' : Range} (h : r.SameSettings r') (h' : r'.SameSettings r'') :
    r.SameSettings r'' :=
  ⟨h'.typ.trans h.typ, h'.parent.trans h.parent, h'.separator.trans h.separator,
    h'.rule.trans h.rule, h'.weight.trans h.weight⟩

theorem claimed {l l' : Layout} {u : Range} {opened : Bool} {lead : Option SlotId}
    {pinned : Option Nat} (h : l.Claimed l' range u opened lead pinned) (hr : l.range? i = some r) :
    ∃ r', l'.range? i = some r' ∧ r.SameSettings r' := by
  by_cases hi : i = range
  · subst hi
    cases h.before.symm.trans hr
    exact ⟨_, h.range_self, rfl, rfl, rfl, rfl, rfl⟩
  · exact ⟨r, (h.range_other hi).trans hr, refl r⟩

theorem next (hs : n.layout.Sound) {slot : SlotId} (h : n.next range = .ok (slot, n'))
    (hr : n.layout.range? i = some r) :
    ∃ r', n'.layout.range? i = some r' ∧ r.SameSettings r' := by
  obtain ⟨u, hu, -, ⟨-, -, rfl⟩ | ⟨-, hn⟩⟩ := Numbering.next_cases h
  · rw [Layout.range?_setRange, hr]
    split
    next hi =>
      subst hi
      cases hr.symm.trans hu
      exact ⟨_, rfl, rfl, rfl, rfl, rfl, rfl⟩
    · exact ⟨r, rfl, refl r⟩
  · cases hn
    exact claimed (hs.claim hu false none) hr

theorem sub {below : RangeId} (h : n.sub range = .ok (below, n'))
    (hr : n.layout.range? i = some r) :
    ∃ r', n'.layout.range? i = some r' ∧ r.SameSettings r' := by
  obtain ⟨u, slot, s, hu, -, -, -, -, -, ho⟩ := Numbering.sub_cases h
  rw [ho.range, hr, if_neg (Layout.ne_freshRange hr)]
  split
  next hi =>
    subst hi
    cases hr.symm.trans hu
    exact ⟨_, rfl, rfl, rfl, rfl, rfl, rfl⟩
  · exact ⟨r, rfl, refl r⟩

theorem assign (hs : n.layout.Sound) {level : Option Nat} {handle : RangeId}
    (h : n.assign range level = .ok (handle, n')) (hr : n.layout.range? i = some r) :
    ∃ r', n'.layout.range? i = some r' ∧ r.SameSettings r' := by
  obtain ⟨u, hu, -, -, hl⟩ := Numbering.assign_cases h
  obtain ⟨r', hr', hsame⟩ := claimed (hs.claim hu u.subOpened level) hr
  exact ⟨r', hl ▸ Layout.range?_addRange_of_some hr' _, hsame⟩

end Range.SameSettings

end Folio
