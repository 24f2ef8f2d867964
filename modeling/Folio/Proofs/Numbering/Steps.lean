import Folio.Proofs.Numbering.Runs

/-!
# What an operation does to a layout

Eight operations change a layout in three ways. A slot is claimed (`Layout.Claimed`), or labels are
bound, or slots stay as they are while ranges change or are added (`Layout.Rearranged`): a new range
is empty, or it is a second handle on the latest slot of another one. An operation does one of these,
or claims a slot and makes a handle for it (`Numbering.perform_cases`). So an invariant of layouts
takes three lemmas, whatever operations there are.
-/

namespace Folio

/-- The place of a range in a layout `l` that it is new in, or was changed in. -/
inductive Range.Placed (l : Layout) (r' : Range) : Prop
  /-- The range has the place of one in `l`. -/
  | beside (i : RangeId) (r : Range) (hr : l.range? i = some r) (hparent : r'.parent = r.parent)
    (hlevel : r'.level = r.level) (hcurrent : r'.current = r.current) (hlead : r'.lead = r.lead)
  | top (hparent : r'.parent = none) (hlevel : r'.level = 0) (hcurrent : r'.current = none)
    (hlead : r'.lead = none)
  /-- The range lies below the latest slot of one in `l`. -/
  | below (i : RangeId) (r : Range) (q : SlotId) (hr : l.range? i = some r) (hq : r.current = some q)
    (hparent : r'.parent = some q) (hlevel : r'.level = r.level + 1) (hcurrent : r'.current = none)
    (hlead : r'.lead = r.lead)

/-- `l'` has the slots of `l`. Its ranges have places that they can have in `l`, and stay below the
slots that they lie below. -/
structure Layout.Rearranged (l l' : Layout) : Prop where
  size : l'.slots.size = l.slots.size
  slot : ∀ q, l'.slot? q = l.slot? q
  kept : ∀ i r, l.range? i = some r → ∃ r', l'.range? i = some r' ∧ r'.parent = r.parent
  range : ∀ i r', l'.range? i = some r' → r'.Placed l

namespace Layout.Rearranged

variable {l : Layout} {n n' : Numbering} {range : RangeId}

theorem refl (l : Layout) : l.Rearranged l where
  size := rfl
  slot _ := rfl
  kept _ r hr := ⟨r, hr, rfl⟩
  range i r hr := .beside i r hr rfl rfl rfl rfl

theorem modify (l : Layout) (range : RangeId) (f : Range → Range)
    (hf : ∀ r, l.range? range = some r → (f r).parent = r.parent ∧ (f r).level = r.level ∧
      (f r).current = r.current ∧ (f r).lead = r.lead) :
    l.Rearranged { l with ranges := l.ranges.modify range.index f } where
  size := rfl
  slot _ := rfl
  kept i r hr := by
    rw [range?_modify, hr]
    split
    next hi => exact ⟨f r, rfl, (hf r (hi ▸ hr)).1⟩
    · exact ⟨r, rfl, rfl⟩
  range i r' hr' := by
    rw [range?_modify] at hr'
    split at hr'
    next hi =>
      obtain ⟨r, hr, rfl⟩ := Option.map_eq_some_iff.1 hr'
      obtain ⟨hparent, hlevel, hcurrent, hlead⟩ := hf r (hi ▸ hr)
      exact .beside i r hr hparent hlevel hcurrent hlead
    · exact .beside i r' hr' rfl rfl rfl rfl

theorem addRange {new : Range} (h : new.Placed l) : l.Rearranged (l.addRange new).2 where
  size := rfl
  slot _ := rfl
  kept _ r hr := ⟨r, range?_addRange_of_some hr new, rfl⟩
  range i r' hr' := by
    rw [range?_addRange] at hr'
    split at hr'
    · cases hr'
      exact h
    · exact .beside i r' hr' rfl rfl rfl rfl

theorem newRange (n : Numbering) (typ abbreviation : String) (lead : Option Lead) :
    n.layout.Rearranged (n.newRange typ abbreviation lead).2.layout := by
  rw [Numbering.layout_newRange]
  exact addRange (.top rfl rfl rfl rfl)

theorem setActive (n : Numbering) (active : List (String × RangeId)) :
    n.layout.Rearranged (n.setActive active).layout where
  size := rfl
  slot _ := rfl
  kept _ r hr := ⟨r, hr, rfl⟩
  range i r hr := .beside i r hr rfl rfl rfl rfl

theorem sub {below : RangeId} (h : n.sub range = .ok (below, n')) :
    n.layout.Rearranged n'.layout := by
  obtain ⟨r, slot, s, hr, hc, -, -, -, -, ho⟩ := Numbering.sub_cases h
  refine ⟨ho.size, ho.slot, fun i u hu => ?_, fun i u' hu' => ?_⟩
  · rw [ho.range, hu, if_neg (ne_freshRange hu)]
    split
    next hi =>
      subst hi
      cases hr.symm.trans hu
      exact ⟨_, rfl, rfl⟩
    · exact ⟨u, rfl, rfl⟩
  · rw [ho.range] at hu'
    split at hu'
    · cases hu'
      exact .below range r slot hr hc rfl rfl rfl rfl
    · split at hu'
      next hi =>
        rw [hi, hr] at hu'
        cases hu'
        exact .beside range r hr rfl rfl rfl rfl
      · exact .beside i u' hu' rfl rfl rfl rfl

end Layout.Rearranged

/-- The range in which an operation may claim a slot. -/
def Operation.range? : Operation → Option RangeId
  | .next range => some range
  | .assign range _ => some range
  | _ => none

namespace Numbering

variable {n n' : Numbering} {range : RangeId}

/-- A range that hands out the slot it was made for claims none. -/
theorem next_claims (hs : n.layout.Sound) {slot : SlotId} (h : n.next range = .ok (slot, n')) :
    n.layout.Rearranged n'.layout ∨
      ∃ r, n.layout.Claimed n'.layout range r false (n.leadFor range r) none := by
  obtain ⟨r, hr, -, ⟨-, -, rfl⟩ | ⟨-, heq⟩⟩ := next_cases h
  · refine .inl (.modify n.layout range _ fun u hu => ?_)
    cases hr.symm.trans hu
    exact ⟨rfl, rfl, rfl, rfl⟩
  · cases heq
    exact .inr ⟨r, hs.claim hr false none⟩

/-- A slot is claimed, and a handle is made for it. -/
theorem assign_claims (hs : n.layout.Sound) {level : Option Nat} {handle : RangeId}
    (h : n.assign range level = .ok (handle, n')) :
    ∃ r l, n.layout.Claimed l range r r.subOpened (n.leadFor range r) level ∧
      l.Rearranged n'.layout := by
  obtain ⟨r, hr, -, -, hl⟩ := assign_cases h
  have hc := hs.claim hr r.subOpened level
  refine ⟨r, _, hc, ?_⟩
  rw [hl]
  exact .addRange (.beside range _ hc.range_self rfl rfl rfl rfl)

/-- Labels are bound, or slots stay as they are, or one is claimed in a range, with the lead that
the range has. -/
theorem perform_cases (hs : n.layout.Sound) (op : Operation) :
    (∃ range incoming, n.layout.createLabels range incoming = .ok (n.perform op).layout) ∨
    n.layout.Rearranged (n.perform op).layout ∨
    ∃ range r opened pinned l, op.range? = some range ∧
      n.layout.Claimed l range r opened (n.leadFor range r) pinned ∧
      l.Rearranged (n.perform op).layout := by
  refine perform_induction (I := fun n' =>
    (∃ range incoming, n.layout.createLabels range incoming = .ok n'.layout) ∨
    n.layout.Rearranged n'.layout ∨
    ∃ range r opened pinned l, op.range? = some range ∧
      n.layout.Claimed l range r opened (n.leadFor range r) pinned ∧ l.Rearranged n'.layout)
    (.inr (.inl (.refl _))) ?_ ?_ ?_ ?_ ?_ ?_ ?_ ?_
  · exact fun typ abbreviation lead _ => .inr (.inl (.newRange n typ abbreviation lead))
  · rintro range slot n' rfl hn
    rcases next_claims hs hn with h | ⟨r, hc⟩
    · exact .inr (.inl h)
    · exact .inr (.inr ⟨range, r, false, none, n'.layout, rfl, hc, .refl _⟩)
  · exact fun range below n' _ hn => .inr (.inl (.sub hn))
  · rintro range level handle n' rfl hn
    obtain ⟨r, l, hc, hl⟩ := assign_claims hs hn
    exact .inr (.inr ⟨range, r, r.subOpened, level, l, rfl, hc, hl⟩)
  · exact fun range separator rule _ => .inr (.inl (.modify _ _ _ fun _ _ => ⟨rfl, rfl, rfl, rfl⟩))
  · exact fun range weight _ => .inr (.inl (.modify _ _ _ fun _ _ => ⟨rfl, rfl, rfl, rfl⟩))
  · exact fun active _ => .inr (.inl (.setActive n active))
  · exact fun range incoming n' _ hn => .inl ⟨range, incoming, (createLabels_layout hn).1⟩

/-- An operation claims one slot at most. -/
theorem size_perform (hs : n.layout.Sound) (op : Operation) :
    n.layout.slots.size ≤ (n.perform op).layout.slots.size ∧
      (n.perform op).layout.slots.size ≤ n.layout.slots.size + 1 := by
  rcases perform_cases hs op with ⟨range, incoming, hl⟩ | hr | ⟨range, r, opened, pinned, l, -, hc, hr⟩
  · have := (Layout.createLabels_relabeled hl).size
    omega
  · have := hr.size
    omega
  · have := hr.size
    have := hc.size
    omega

end Numbering

end Folio
