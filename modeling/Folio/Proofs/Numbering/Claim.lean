import Folio.Numbering.Binding
import Mathlib.Tactic.Lemma

/-!
# What a claim changes

`Numbering.next` and `Numbering.assign` claim slots, `Numbering.sub` and `Numbering.newRange` add
ranges. This file says what each of them does to every slot and every range of the layout, as
equations about `Layout.slot?` and `Layout.range?`. The invariants of layouts rest on these
equations alone; nothing else looks into the two arrays.
-/

namespace Folio

namespace Layout

variable (l : Layout)

@[simp]
theorem slot?_setRange (range : RangeId) (r : Range) (q : SlotId) :
    (l.setRange range r).slot? q = l.slot? q := rfl

theorem range?_modify (range : RangeId) (f : Range → Range) (i : RangeId) :
    range? { l with ranges := l.ranges.modify range.index f } i =
      if i = range then (l.range? i).map f else l.range? i := by
  obtain ⟨i⟩ := i
  obtain ⟨range⟩ := range
  simp only [range?, Array.getElem?_modify, RangeId.mk.injEq]
  by_cases h : i = range
  · simp [h]
  · simp [h, Ne.symm h]

theorem range?_setRange (range : RangeId) (r : Range) (i : RangeId) :
    (l.setRange range r).range? i = if i = range then (l.range? i).map fun _ => r
      else l.range? i :=
  l.range?_modify range _ i

theorem slot?_modifySlot (slot : SlotId) (f : Slot → Slot) (q : SlotId) :
    (l.modifySlot slot f).slot? q = if q = slot then (l.slot? q).map f else l.slot? q := by
  obtain ⟨q⟩ := q
  obtain ⟨slot⟩ := slot
  simp only [slot?, modifySlot, Array.getElem?_modify, SlotId.mk.injEq]
  by_cases h : q = slot
  · simp [h]
  · simp [h, Ne.symm h]

@[simp]
theorem range?_modifySlot (slot : SlotId) (f : Slot → Slot) (i : RangeId) :
    (l.modifySlot slot f).range? i = l.range? i := rfl

@[simp]
theorem size_modifySlot (slot : SlotId) (f : Slot → Slot) :
    (l.modifySlot slot f).slots.size = l.slots.size := by
  simp [modifySlot]

@[simp]
theorem size_setRange (range : RangeId) (r : Range) :
    (l.setRange range r).slots.size = l.slots.size := rfl

theorem range?_addRange (r : Range) (i : RangeId) :
    (l.addRange r).2.range? i = if i = (l.addRange r).1 then some r else l.range? i := by
  obtain ⟨i⟩ := i
  simp only [range?, addRange, Array.getElem?_push, RangeId.mk.injEq]

@[simp]
theorem slot?_addRange (r : Range) (q : SlotId) : (l.addRange r).2.slot? q = l.slot? q := rfl

theorem slot?_lt {l : Layout} {q : SlotId} {s : Slot} (h : l.slot? q = some s) :
    q.index < l.slots.size :=
  (Array.getElem?_eq_some_iff.1 h).1

theorem slot?_isSome {l : Layout} {q : SlotId} (h : q.index < l.slots.size) :
    ∃ s, l.slot? q = some s :=
  ⟨_, Array.getElem?_eq_some_iff.2 ⟨h, rfl⟩⟩

theorem range?_lt {l : Layout} {i : RangeId} {r : Range} (h : l.range? i = some r) :
    i.index < l.ranges.size :=
  (Array.getElem?_eq_some_iff.1 h).1

/-- The position of the next range. -/
def freshRange : RangeId := ⟨l.ranges.size⟩

/-- The position of the next slot. -/
def freshSlot : SlotId := ⟨l.slots.size⟩

@[simp]
theorem addRange_fst (r : Range) : (l.addRange r).1 = l.freshRange := rfl

@[simp]
theorem range?_freshRange : l.range? l.freshRange = none := by
  simp [range?, freshRange]

@[simp]
theorem slot?_freshSlot : l.slot? l.freshSlot = none := by
  simp [slot?, freshSlot]

theorem ne_freshRange {l : Layout} {i : RangeId} {r : Range} (hr : l.range? i = some r) :
    i ≠ l.freshRange := by
  rintro rfl
  simp at hr

theorem range?_addRange_of_some {l : Layout} {i : RangeId} {r : Range} (hr : l.range? i = some r)
    (new : Range) : (l.addRange new).2.range? i = some r := by
  rw [range?_addRange, addRange_fst, if_neg (ne_freshRange hr), hr]

end Layout

namespace Range

/-- The slot that a range claims next, when it has the given lead. -/
def newSlot (r : Range) (range : RangeId) (lead : Option SlotId) (pinned : Option Nat) : Slot :=
  { id := r.ordinals.next.id r.typ
    range, level := r.level, parent := r.parent, lead, pinned }

/-- The range after it has claimed a slot. -/
def grown (r : Range) (id : SlotId) (lead : Option SlotId) : Range :=
  { r with
    lead
    ordinals := r.ordinals.next
    first := if r.current.isNone then some id else r.first
    current := some id }

/-- The range that hands out the slot which a range has just claimed. -/
def handle (r : Range) (slot : SlotId) (lead : Option SlotId) (level : Option Nat) : Range :=
  { typ := r.typ, abbreviation := r.abbreviation, level := r.level, ordinals := r.ordinals.next
    parent := r.parent, current := some slot, lead, separator := r.separator, weight := level
    stage := .assigned }

end Range

/-- What a claim of a new slot `id` in a range does to the slot at `q`: the slot before the new
one, or the slot above the first one, is linked to it. -/
def Slot.linked (s : Slot) (q : SlotId) (range : RangeId) (r : Range) (id : SlotId) : Slot :=
  if r.current = some q then { s with next := some id }
  else if r.current = none ∧ r.parent = some q then { s with nested := some range }
  else s

namespace Layout

/-- The layout with a new slot at the end of a range, before it is linked. -/
private def withSlot (l : Layout) (range : RangeId) (r : Range) (pinned : Option Nat) : Layout :=
  { l with slots := l.slots.push (r.newSlot range r.lead pinned) }.setRange range
    (r.grown l.freshSlot r.lead)

private theorem addSlot_eq (l : Layout) (range : RangeId) (r : Range) (pinned : Option Nat) :
    l.addSlot range r pinned = (l.freshSlot,
      match r.current, r.parent with
      | some previous, _ =>
        (l.withSlot range r pinned).modifySlot previous fun s => { s with next := l.freshSlot }
      | none, some parent =>
        (l.withSlot range r pinned).modifySlot parent fun s => { s with nested := range }
      | none, none => l.withSlot range r pinned) := by
  obtain ⟨_, _, _, _, parent, _, current, _, _, _, _, _, _⟩ := r
  cases current <;> cases parent <;> rfl

private theorem slot?_withSlot (l : Layout) (range : RangeId) (r : Range) (pinned : Option Nat)
    (q : SlotId) : (l.withSlot range r pinned).slot? q =
      if q = l.freshSlot then some (r.newSlot range r.lead pinned) else l.slot? q := by
  obtain ⟨q⟩ := q
  change (l.slots.push _)[q]? = _
  simp only [slot?, freshSlot, Array.getElem?_push, SlotId.mk.injEq]

private theorem range?_withSlot (l : Layout) (range : RangeId) (r : Range) (pinned : Option Nat)
    (i : RangeId) : (l.withSlot range r pinned).range? i =
      if i = range then (l.range? i).map fun _ => r.grown l.freshSlot r.lead else l.range? i :=
  range?_setRange _ _ _ _

theorem addSlot_fst (l : Layout) (range : RangeId) (r : Range) (pinned : Option Nat) :
    (l.addSlot range r pinned).1 = l.freshSlot := by
  rw [addSlot_eq]

theorem range?_addSlot (l : Layout) (range : RangeId) (r : Range) (pinned : Option Nat)
    (i : RangeId) :
    (l.addSlot range r pinned).2.range? i =
      if i = range then (l.range? i).map fun _ => r.grown l.freshSlot r.lead else l.range? i := by
  rw [addSlot_eq, ← range?_withSlot l range r pinned i]
  rcases r.current with _ | previous <;> rcases r.parent with _ | parent <;> rfl

theorem slot?_addSlot (l : Layout) (range : RangeId) (r : Range) (pinned : Option Nat)
    (hc : r.current ≠ some l.freshSlot) (hp : r.parent ≠ some l.freshSlot) (q : SlotId) :
    (l.addSlot range r pinned).2.slot? q =
      if q = l.freshSlot then some (r.newSlot range r.lead pinned)
      else (l.slot? q).map fun s => s.linked q range r l.freshSlot := by
  rw [addSlot_eq]
  unfold Slot.linked
  rcases hcur : r.current with _ | previous <;> rcases hpar : r.parent with _ | parent <;>
    rcases hs : l.slot? q with _ | s <;>
    simp only [slot?_modifySlot, slot?_withSlot] <;> grind

theorem size_addSlot (l : Layout) (range : RangeId) (r : Range) (pinned : Option Nat) :
    (l.addSlot range r pinned).2.slots.size = l.slots.size + 1 := by
  rw [addSlot_eq]
  rcases r.current with _ | previous <;> rcases r.parent with _ | parent <;>
    simp [withSlot, modifySlot, setRange]

@[simp]
theorem ranges_size_addSlot (l : Layout) (range : RangeId) (r : Range) (pinned : Option Nat) :
    (l.addSlot range r pinned).2.ranges.size = l.ranges.size := by
  rw [addSlot_eq]
  rcases r.current with _ | previous <;> rcases r.parent with _ | parent <;>
    simp [withSlot, modifySlot, setRange]

@[simp]
theorem active_addSlot (l : Layout) (range : RangeId) (r : Range) (pinned : Option Nat) :
    (l.addSlot range r pinned).2.active = l.active := by
  rw [addSlot_eq]
  rcases r.current with _ | previous <;> rcases r.parent with _ | parent <;> rfl

end Layout

/-! ## The operations on a numbering -/

/-- `l'` comes from `l` by a claim of the range at `range`, which was `r` and may have its mark for
a sub range reset to `opened`. -/
structure Layout.Claimed (l l' : Layout) (range : RangeId) (r : Range) (opened : Bool)
    (lead : Option SlotId) (pinned : Option Nat) : Prop where
  before : l.range? range = some r
  size : l'.slots.size = l.slots.size + 1
  ranges_size : l'.ranges.size = l.ranges.size
  active : l'.active = l.active
  slot : ∀ q, l'.slot? q =
    if q = l.freshSlot then some (r.newSlot range lead pinned)
    else (l.slot? q).map fun s => s.linked q range r l.freshSlot
  range : ∀ i, l'.range? i =
    if i = range then some { r.grown l.freshSlot lead with subOpened := opened } else l.range? i

namespace Slot

variable (s : Slot) (q : SlotId) (range : RangeId) (r : Range) (id : SlotId)

theorem linked_eq : s.linked q range r id =
    { s with
      next := if r.current = some q then some id else s.next
      nested := if r.current = none ∧ r.parent = some q then some range else s.nested } := by
  unfold linked
  split
  next h => simp [h]
  · split <;> rfl

@[simp]
theorem linked_id : (s.linked q range r id).id = s.id := by rw [linked_eq]

@[simp]
theorem linked_range : (s.linked q range r id).range = s.range := by rw [linked_eq]

@[simp]
theorem linked_level : (s.linked q range r id).level = s.level := by rw [linked_eq]

@[simp]
theorem linked_parent : (s.linked q range r id).parent = s.parent := by rw [linked_eq]

@[simp]
theorem linked_lead : (s.linked q range r id).lead = s.lead := by rw [linked_eq]

@[simp]
theorem linked_pinned : (s.linked q range r id).pinned = s.pinned := by rw [linked_eq]

@[simp]
theorem linked_label : (s.linked q range r id).label = s.label := by rw [linked_eq]

theorem linked_next : (s.linked q range r id).next =
    if r.current = some q then some id else s.next := by rw [linked_eq]

theorem linked_nested : (s.linked q range r id).nested =
    if r.current = none ∧ r.parent = some q then some range else s.nested := by rw [linked_eq]

end Slot

namespace Layout.Claimed

variable {l l' : Layout} {range : RangeId} {r : Range} {opened : Bool} {lead : Option SlotId}
  {pinned : Option Nat}

theorem slot_cases (h : l.Claimed l' range r opened lead pinned) {q : SlotId} {t : Slot}
    (ht : l'.slot? q = some t) :
    (q = l.freshSlot ∧ t = r.newSlot range lead pinned) ∨
      ∃ s, l.slot? q = some s ∧ t = s.linked q range r l.freshSlot := by
  rw [h.slot] at ht
  split at ht
  next hq => exact .inl ⟨hq, (Option.some.inj ht).symm⟩
  next hq =>
    obtain ⟨s, hs, rfl⟩ := Option.map_eq_some_iff.1 ht
    exact .inr ⟨s, hs, rfl⟩

theorem slot_fresh (h : l.Claimed l' range r opened lead pinned) :
    l'.slot? l.freshSlot = some (r.newSlot range lead pinned) := by
  simp [h.slot]

theorem slot_old (h : l.Claimed l' range r opened lead pinned) {q : SlotId} {s : Slot}
    (hs : l.slot? q = some s) : l'.slot? q = some (s.linked q range r l.freshSlot) := by
  rw [h.slot, if_neg (by rintro rfl; simp at hs), hs, Option.map_some]

theorem next_cases (h : l.Claimed l' range r opened lead pinned) {p q : SlotId} {t : Slot}
    (ht : l'.slot? p = some t) (hq : t.next = some q) :
    (∃ s, l.slot? p = some s ∧ r.current = some p ∧ q = l.freshSlot) ∨
      ∃ s, l.slot? p = some s ∧ s.next = some q := by
  rcases h.slot_cases ht with ⟨-, rfl⟩ | ⟨s, hs, rfl⟩
  · simp [Range.newSlot] at hq
  · unfold Slot.linked at hq
    split at hq
    next hc => exact .inl ⟨s, hs, hc, (Option.some.inj hq).symm⟩
    · split at hq <;> exact .inr ⟨s, hs, hq⟩

theorem nested_cases (h : l.Claimed l' range r opened lead pinned) {p : SlotId} {t : Slot}
    {i : RangeId} (ht : l'.slot? p = some t) (hi : t.nested = some i) :
    (∃ s, l.slot? p = some s ∧ r.current = none ∧ r.parent = some p ∧ i = range) ∨
      ∃ s, l.slot? p = some s ∧ s.nested = some i := by
  rcases h.slot_cases ht with ⟨-, rfl⟩ | ⟨s, hs, rfl⟩
  · simp [Range.newSlot] at hi
  · unfold Slot.linked at hi
    split at hi
    · exact .inr ⟨s, hs, hi⟩
    · split at hi
      next hc => exact .inl ⟨s, hs, hc.1, hc.2, (Option.some.inj hi).symm⟩
      · exact .inr ⟨s, hs, hi⟩

theorem range_self (h : l.Claimed l' range r opened lead pinned) :
    l'.range? range = some { r.grown l.freshSlot lead with subOpened := opened } := by
  simp [h.range]

theorem range_other (h : l.Claimed l' range r opened lead pinned) {i : RangeId} (hi : i ≠ range) :
    l'.range? i = l.range? i := by
  simp [h.range, hi]

theorem range_cases (h : l.Claimed l' range r opened lead pinned) {i : RangeId} {t : Range}
    (ht : l'.range? i = some t) :
    (i = range ∧ t.parent = r.parent ∧ t.current = some l.freshSlot ∧
      (r.current = none ∧ t.first = some l.freshSlot ∨ r.current ≠ none ∧ t.first = r.first)) ∨
      (i ≠ range ∧ l.range? i = some t) := by
  by_cases hi : i = range
  · subst hi
    cases h.range_self.symm.trans ht
    refine .inl ⟨rfl, rfl, rfl, ?_⟩
    cases hc : r.current <;> simp [Range.grown, hc]
  · exact .inr ⟨hi, (h.range_other hi).symm.trans ht⟩

end Layout.Claimed

/-- `l'` comes from `l` by changing the range at `range` to `r'` and adding `new`. -/
structure Layout.Opened (l l' : Layout) (range : RangeId) (r' new : Range) : Prop where
  size : l'.slots.size = l.slots.size
  ranges_size : l'.ranges.size = l.ranges.size + 1
  active : l'.active = l.active
  slot : ∀ q, l'.slot? q = l.slot? q
  range : ∀ i, l'.range? i =
    if i = l.freshRange then some new else if i = range then (l.range? i).map fun _ => r'
    else l.range? i

namespace Numbering

variable {n n' : Numbering} {range : RangeId} {r : Range}

theorem layout_newRange (n : Numbering) (typ abbreviation : String) (lead : Option Lead) :
    (n.newRange typ abbreviation lead).2.layout = (n.layout.addRange { typ, abbreviation }).2 := by
  cases lead <;> rfl

theorem newRange_fst (n : Numbering) (typ abbreviation : String) (lead : Option Lead) :
    (n.newRange typ abbreviation lead).1 = n.layout.freshRange := by
  cases lead <;> rfl

theorem range?_setRule (n : Numbering) (range : RangeId) (separator : String)
    (rule : Option LabelRule) (i : RangeId) :
    (n.setRule range separator rule).layout.range? i = if i = range then
      (n.layout.range? i).map fun r => { r with separator, rule } else n.layout.range? i :=
  n.layout.range?_modify range _ i

theorem range?_setWeight (n : Numbering) (range : RangeId) (weight : Option Nat) (i : RangeId) :
    (n.setWeight range weight).layout.range? i = if i = range then
      (n.layout.range? i).map fun r => { r with weight } else n.layout.range? i :=
  n.layout.range?_modify range _ i

/-- The lead of the next slot of a range. -/
def leadFor (n : Numbering) (range : RangeId) (r : Range) : Option SlotId :=
  match n.leads.lookup range with
  | some lead => lead n.layout
  | none => r.lead

theorem claim_eq (n : Numbering) (range : RangeId) (r : Range) (pinned : Option Nat) :
    n.claim range r pinned = (n.layout.freshSlot,
      { n with
        layout := (n.layout.addSlot range { r with lead := n.leadFor range r } pinned).2 }) := by
  unfold claim leadFor
  split <;> simp [Layout.addSlot_fst, *]

theorem leads_claim (n : Numbering) (range : RangeId) (r : Range) (pinned : Option Nat) :
    (n.claim range r pinned).2.leads = n.leads := by
  rw [claim_eq]

theorem claim_claimed (h : n.layout.range? range = some r) (hc : r.current ≠ some n.layout.freshSlot)
    (hp : r.parent ≠ some n.layout.freshSlot) (opened : Bool) (pinned : Option Nat) :
    n.layout.Claimed (n.claim range { r with subOpened := opened } pinned).2.layout range r opened
      (n.leadFor range { r with subOpened := opened }) pinned := by
  rw [claim_eq]
  refine ⟨h, Layout.size_addSlot .., by simp, by simp, fun q => ?_, fun i => ?_⟩
  · exact Layout.slot?_addSlot n.layout range { r with subOpened := opened, lead := _ } pinned hc hp q
  · refine (Layout.range?_addSlot ..).trans ?_
    by_cases hi : i = range
    · subst hi
      simp [h, Range.grown]
    · simp [hi]

/-- A range hands out the slot it was made for, or claims a new one. -/
theorem next_cases {slot : SlotId} (h : n.next range = .ok (slot, n')) :
    ∃ r, n.layout.range? range = some r ∧ r.stage ≠ .finalized ∧
      ((r.stage = .assigned ∧ r.current = some slot ∧ n' = { n with
          layout := n.layout.setRange range { r with subOpened := false, stage := .finalized } }) ∨
       ((r.stage = .assigned → r.current = none) ∧
          (slot, n') = n.claim range { r with subOpened := false } none)) := by
  unfold next at h
  cases hr : n.layout.range? range with
  | none => simp [hr] at h
  | some r =>
    rw [hr] at h
    dsimp only at h
    split at h
    · simp at h
    · next c hs hc =>
      injection h with h
      injection h with hslot hn
      exact ⟨r, rfl, by simp [hs], .inl ⟨hs, hslot ▸ hc, hn.symm⟩⟩
    · next hf ha =>
      injection h with h
      refine ⟨r, rfl, fun hs => hf hs, .inr ⟨fun hs => ?_, h.symm⟩⟩
      cases hc : r.current with
      | none => rfl
      | some c => exact (ha c hs hc).elim

/-- A handle lies behind all ranges and has the slot that was just claimed. -/
theorem assign_cases {level : Option Nat} {id : RangeId} (h : n.assign range level = .ok (id, n')) :
    ∃ r, n.layout.range? range = some r ∧ id = n.layout.freshRange ∧ n'.leads = n.leads ∧
      n'.layout = ((n.claim range r level).2.layout.addRange
        (r.handle n.layout.freshSlot (n.leadFor range r) level)).2 := by
  unfold assign at h
  cases hr : n.layout.range? range with
  | none => simp [hr] at h
  | some r =>
    rw [hr] at h
    simp only [claim_eq, Layout.range?_addSlot, hr, if_true, Option.map_some, Option.getD_some,
      Except.ok.injEq, Prod.mk.injEq] at h
    obtain ⟨rfl, rfl⟩ := h
    refine ⟨r, rfl, ?_, rfl, by rw [claim_eq]; rfl⟩
    simp [Layout.addRange_fst, Layout.freshRange]

/-- The handle that a range makes. -/
theorem range?_handle {level : Option Nat} {id : RangeId}
    (h : n.assign range level = .ok (id, n')) :
    ∃ r, n.layout.range? range = some r ∧
      n'.layout.range? id = some (r.handle n.layout.freshSlot (n.leadFor range r) level) := by
  obtain ⟨r, hr, rfl, -, hl⟩ := assign_cases h
  have hfresh : (n.claim range r level).2.layout.freshRange = n.layout.freshRange := by
    rw [claim_eq]
    simp [Layout.freshRange]
  refine ⟨r, hr, ?_⟩
  rw [hl, Layout.range?_addRange, Layout.addRange_fst, hfresh, if_pos rfl]

theorem sub_cases {below : RangeId} (h : n.sub range = .ok (below, n')) :
    ∃ r slot s, n.layout.range? range = some r ∧ r.current = some slot ∧
      n.layout.slot? slot = some s ∧ r.subOpened = false ∧ below = n.layout.freshRange ∧
      n'.leads = n.leads ∧
      n.layout.Opened n'.layout range { r with subOpened := true }
        { typ := r.typ, abbreviation := r.abbreviation, level := r.level + 1
          ordinals := .below s.id, parent := some slot, lead := r.lead
          separator := r.separator } := by
  unfold sub at h
  cases hr : n.layout.range? range with
  | none => simp [hr] at h
  | some r =>
    rw [hr] at h
    dsimp only at h
    split at h
    · simp at h
    · next slot s hslot =>
      obtain ⟨c, hc, hs⟩ := Option.bind_eq_some_iff.1 hslot
      obtain ⟨s', hs, heq⟩ := Option.map_eq_some_iff.1 hs
      cases heq
      split at h
      · simp at h
      · next ho =>
        injection h with h
        injection h with hb hn
        have hfresh : (n.layout.setRange range { r with subOpened := true }).freshRange =
            n.layout.freshRange := by
          simp [Layout.freshRange, Layout.setRange]
        subst hn
        refine ⟨r, slot, s, rfl, hc, hs, by simpa using ho, ?_, rfl, rfl, ?_, rfl, fun q => rfl,
          fun i => ?_⟩
        · rw [← hb, Layout.addRange_fst, hfresh]
        · simp [Layout.addRange, Layout.setRange]
        · rw [Layout.range?_addRange, Layout.range?_setRange, Layout.addRange_fst, hfresh]

end Numbering

end Folio
