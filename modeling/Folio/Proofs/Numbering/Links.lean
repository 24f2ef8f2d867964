import Folio.Proofs.Numbering.Claim
import Mathlib.Logic.Relation

/-!
# Links of a layout

A slot is linked to the slot behind it in its range and to the first slot of the range below it.
In every layout that the operations can build, links lead to later slots, and at most one link
leads to a slot: the links form a forest. `Layout.Sound` states this, together with what it takes
to keep it up.
-/

namespace Folio

/-- Two ranges have the same place among the slots. -/
def Range.SamePlace (r r' : Range) : Prop :=
  r'.parent = r.parent ∧ r'.first = r.first ∧ r'.current = r.current

namespace Layout

/-- A slot is linked to the one behind it, or to the first one below it. -/
inductive Link (l : Layout) (p q : SlotId) : Prop
  | next (s : Slot) (hs : l.slot? p = some s) (hq : s.next = some q)
  | nested (s : Slot) (i : RangeId) (r : Range) (hs : l.slot? p = some s) (hi : s.nested = some i)
      (hr : l.range? i = some r) (hq : r.first = some q)

/-- A slot can be reached from another one over links. -/
abbrev Reaches (l : Layout) : SlotId → SlotId → Prop := Relation.ReflTransGen l.Link

/-- References lead to what exists, links lead to later slots, and no two links to the same one. -/
structure Sound (l : Layout) : Prop where
  next_gt : ∀ p s q, l.slot? p = some s → s.next = some q →
    p.index < q.index ∧ q.index < l.slots.size
  next_inj : ∀ p s p' s' q, l.slot? p = some s → l.slot? p' = some s' → s.next = some q →
    s'.next = some q → p = p'
  nested_parent : ∀ p s i, l.slot? p = some s → s.nested = some i →
    ∃ r, l.range? i = some r ∧ r.parent = some p ∧ r.first.isSome
  parent_lt : ∀ i r p, l.range? i = some r → r.parent = some p → p.index < l.slots.size
  current_lt : ∀ i r q, l.range? i = some r → r.current = some q → q.index < l.slots.size
  first_gt : ∀ i r q, l.range? i = some r → r.first = some q →
    q.index < l.slots.size ∧ ∀ p, r.parent = some p → p.index < q.index
  first_inj : ∀ i r i' r' q, l.range? i = some r → l.range? i' = some r' → r.first = some q →
    r'.first = some q → i = i'
  first_next : ∀ i r p s q, l.range? i = some r → l.slot? p = some s → r.first = some q →
    s.next ≠ some q

/-- `l'` has the slots and the links of `l`. A range that is new in it has no slots of its own. -/
structure SameLinks (l l' : Layout) : Prop where
  size : l'.slots.size = l.slots.size
  slot : ∀ q t, l'.slot? q = some t → ∃ s, l.slot? q = some s ∧ t.next = s.next ∧ t.nested = s.nested
  kept : ∀ i r, l.range? i = some r → ∃ r', l'.range? i = some r' ∧ r.SamePlace r'
  range : ∀ i r', l'.range? i = some r' → (∃ r, l.range? i = some r ∧ r.SamePlace r') ∨
    (l.range? i = none ∧ r'.first = none ∧ (∀ p, r'.parent = some p → p.index < l.slots.size) ∧
      ∀ q, r'.current = some q → q.index < l.slots.size)

namespace Sound

variable {l l' : Layout} {range : RangeId} {r r' new : Range} {opened : Bool}
  {lead : Option SlotId} {pinned : Option Nat}

theorem empty : ({} : Layout).Sound := by
  constructor <;> simp [slot?, range?]

theorem current_ne_fresh (h : l.Sound) (hr : l.range? range = some r) :
    r.current ≠ some l.freshSlot := fun hc =>
  absurd (h.current_lt _ _ _ hr hc) (Nat.lt_irrefl _)

theorem parent_ne_fresh (h : l.Sound) (hr : l.range? range = some r) :
    r.parent ≠ some l.freshSlot := fun hc =>
  absurd (h.parent_lt _ _ _ hr hc) (Nat.lt_irrefl _)

theorem claimed (h : l.Sound) (hc : l.Claimed l' range r opened lead pinned) : l'.Sound := by
  have hf : l.freshSlot.index = l.slots.size := rfl
  have hr := hc.before
  have hsize := hc.size
  constructor
  case next_gt =>
    intro p s q hs hq
    rcases hc.next_cases hs hq with ⟨s, hs, hcur, rfl⟩ | ⟨s, hs, hq⟩
    · have := slot?_lt hs
      omega
    · have := h.next_gt p s q hs hq
      omega
  case next_inj =>
    intro p s p' s' q hs hs' hq hq'
    rcases hc.next_cases hs hq with ⟨s, hs, hcur, rfl⟩ | ⟨s, hs, hq⟩ <;>
      rcases hc.next_cases hs' hq' with ⟨s', hs', hcur', hq'⟩ | ⟨s', hs', hq'⟩
    · exact Option.some.inj (hcur.symm.trans hcur')
    · have := (h.next_gt p' s' _ hs' hq').2
      omega
    · subst hq'
      have := (h.next_gt p s _ hs hq).2
      omega
    · exact h.next_inj p s p' s' q hs hs' hq hq'
  case nested_parent =>
    intro p s i hs hi
    rcases hc.nested_cases hs hi with ⟨s, hs, hcur, hpar, rfl⟩ | ⟨s, hs, hi⟩
    · exact ⟨_, hc.range_self, hpar, by simp [Range.grown, hcur]⟩
    · obtain ⟨t, ht, hpar, hfirst⟩ := h.nested_parent p s i hs hi
      by_cases hir : i = range
      · subst hir
        cases hr.symm.trans ht
        refine ⟨_, hc.range_self, hpar, ?_⟩
        simp only [Range.grown]
        split <;> simp_all
      · exact ⟨t, (hc.range_other hir).trans ht, hpar, hfirst⟩
  case parent_lt =>
    intro i t p ht hpar
    rcases hc.range_cases ht with ⟨rfl, hparent, -⟩ | ⟨-, ht⟩
    · have := h.parent_lt _ r p hr (hparent ▸ hpar)
      omega
    · have := h.parent_lt i t p ht hpar
      omega
  case current_lt =>
    intro i t q ht hq
    rcases hc.range_cases ht with ⟨rfl, -, hcur, -⟩ | ⟨-, ht⟩
    · cases hcur.symm.trans hq
      omega
    · have := h.current_lt i t q ht hq
      omega
  case first_gt =>
    intro i t q ht hq
    rcases hc.range_cases ht with ⟨rfl, hparent, -, hfirst | hfirst⟩ | ⟨-, ht⟩
    · cases hfirst.2.symm.trans hq
      exact ⟨by omega, fun p hp => h.parent_lt _ r p hr (hparent ▸ hp)⟩
    · obtain ⟨hlt, hp⟩ := h.first_gt _ r q hr (hfirst.2 ▸ hq)
      exact ⟨by omega, fun p hp' => hp p (hparent ▸ hp')⟩
    · obtain ⟨hlt, hp⟩ := h.first_gt i t q ht hq
      exact ⟨by omega, hp⟩
  case first_inj =>
    intro i t i' t' q ht ht' hq hq'
    have hold : ∀ {j u}, l.range? j = some u → u.first = some q → q.index < l.slots.size :=
      fun hu huq => (h.first_gt _ _ q hu huq).1
    rcases hc.range_cases ht with ⟨rfl, -, -, hfirst | hfirst⟩ | ⟨hi, ht⟩ <;>
      rcases hc.range_cases ht' with ⟨hi', -, -, hfirst' | hfirst'⟩ | ⟨hi', ht'⟩ <;>
      first
        | exact hi'.symm
        | skip
    · cases hfirst.2.symm.trans hq
      have := hold ht' hq'
      omega
    · exact h.first_inj _ r i' t' q hr ht' (hfirst.2 ▸ hq) hq'
    · cases hfirst'.2.symm.trans hq'
      have := hold ht hq
      omega
    · subst hi'
      exact h.first_inj i t _ r q ht hr hq (hfirst'.2 ▸ hq')
    · exact h.first_inj i t i' t' q ht ht' hq hq'
  case first_next =>
    intro i t p s q ht hs hq hn
    rcases hc.next_cases hs hn with ⟨s, hs, hcur, rfl⟩ | ⟨s, hs, hn⟩ <;>
      rcases hc.range_cases ht with ⟨rfl, -, -, hfirst | hfirst⟩ | ⟨-, ht⟩
    · simp [hcur] at hfirst
    · have := (h.first_gt _ r _ hr (hfirst.2 ▸ hq)).1
      omega
    · have := (h.first_gt i t _ ht hq).1
      omega
    · cases hfirst.2.symm.trans hq
      have := (h.next_gt p s _ hs hn).2
      omega
    · exact h.first_next _ r p s q hr hs (hfirst.2 ▸ hq) hn
    · exact h.first_next i t p s q ht hs hq hn

theorem sameLinks (h : l.Sound) (hl : l.SameLinks l') : l'.Sound := by
  obtain ⟨hsize, hslot, hkept, hrange⟩ := hl
  constructor
  case next_gt =>
    intro p t q ht hq
    obtain ⟨s, hs, hn, -⟩ := hslot p t ht
    exact hsize ▸ h.next_gt p s q hs (hn ▸ hq)
  case next_inj =>
    intro p t p' t' q ht ht' hq hq'
    obtain ⟨s, hs, hn, -⟩ := hslot p t ht
    obtain ⟨s', hs', hn', -⟩ := hslot p' t' ht'
    exact h.next_inj p s p' s' q hs hs' (hn ▸ hq) (hn' ▸ hq')
  case nested_parent =>
    intro p t i ht hi
    obtain ⟨s, hs, -, hn⟩ := hslot p t ht
    obtain ⟨r, hr, hp, hf⟩ := h.nested_parent p s i hs (hn ▸ hi)
    obtain ⟨r', hr', hp', hf', -⟩ := hkept i r hr
    exact ⟨r', hr', hp' ▸ hp, hf' ▸ hf⟩
  case parent_lt =>
    intro i r' p hr' hp
    rcases hrange i r' hr' with ⟨r, hr, hp', -⟩ | ⟨-, -, hb, -⟩
    · exact hsize ▸ h.parent_lt i r p hr (hp' ▸ hp)
    · exact hsize ▸ hb p hp
  case current_lt =>
    intro i r' q hr' hq
    rcases hrange i r' hr' with ⟨r, hr, -, -, hc⟩ | ⟨-, -, -, hb⟩
    · exact hsize ▸ h.current_lt i r q hr (hc ▸ hq)
    · exact hsize ▸ hb q hq
  case first_gt =>
    intro i r' q hr' hq
    rcases hrange i r' hr' with ⟨r, hr, hp, hf, -⟩ | ⟨-, hf, -, -⟩
    · rw [hsize, hp]
      exact h.first_gt i r q hr (hf ▸ hq)
    · simp [hf] at hq
  case first_inj =>
    intro i r' j u' q hr' hu' hq hq'
    rcases hrange i r' hr' with ⟨r, hr, -, hf, -⟩ | ⟨-, hf, -, -⟩ <;>
      rcases hrange j u' hu' with ⟨u, hu, -, hf', -⟩ | ⟨-, hf', -, -⟩ <;> simp_all
    exact h.first_inj i r j u q hr hu (by assumption) (by assumption)
  case first_next =>
    intro i r' p t q hr' ht hq
    obtain ⟨s, hs, hn, -⟩ := hslot p t ht
    rcases hrange i r' hr' with ⟨r, hr, -, hf, -⟩ | ⟨-, hf, -, -⟩
    · exact hn ▸ h.first_next i r p s q hr hs (hf ▸ hq)
    · simp [hf] at hq

/-- Changes of ranges that leave their places alone, and a new range without slots. -/
theorem ranges (h : l.Sound) (hslots : l'.slots = l.slots)
    (hkept : ∀ i r, l.range? i = some r → ∃ r', l'.range? i = some r' ∧ r.SamePlace r')
    (hnew : ∀ i r', l'.range? i = some r' → l.range? i = none → r'.first = none ∧
      (∀ p, r'.parent = some p → p.index < l.slots.size) ∧
      ∀ q, r'.current = some q → q.index < l.slots.size) : l'.Sound := by
  refine h.sameLinks ⟨by rw [hslots], fun q t ht => ⟨t, ?_, rfl, rfl⟩, hkept, fun i r' hr' => ?_⟩
  · rwa [slot?, ← hslots]
  · cases hr : l.range? i with
    | none => exact .inr ⟨rfl, hnew i r' hr' hr⟩
    | some r =>
      obtain ⟨u, hu, hsame⟩ := hkept i r hr
      cases hr'.symm.trans hu
      exact .inl ⟨r, rfl, hsame⟩

theorem addRange (h : l.Sound) (hf : new.first = none)
    (hp : ∀ p, new.parent = some p → p.index < l.slots.size)
    (hc : ∀ q, new.current = some q → q.index < l.slots.size) : (l.addRange new).2.Sound := by
  refine h.ranges rfl (fun i r hr => ⟨r, range?_addRange_of_some hr new, rfl, rfl, rfl⟩)
    fun i r' hr' hr => ?_
  rw [range?_addRange, hr] at hr'
  split at hr' <;> cases hr'
  exact ⟨hf, hp, hc⟩

theorem modify (h : l.Sound) (f : Range → Range) (hf : ∀ r : Range, r.SamePlace (f r)) :
    ({ l with ranges := l.ranges.modify range.index f } : Layout).Sound := by
  refine h.ranges rfl (fun i r hr => ?_) fun i r' hr' hr => ?_
  · rw [range?_modify, hr]
    split
    · exact ⟨f r, rfl, hf r⟩
    · exact ⟨r, rfl, rfl, rfl, rfl⟩
  · simp [range?_modify, hr] at hr'

end Sound

/-! ## The operations -/

namespace Sound

variable {n n' : Numbering} {range : RangeId} {r : Range}

theorem claim (h : n.layout.Sound) (hr : n.layout.range? range = some r) (opened : Bool)
    (pinned : Option Nat) :
    n.layout.Claimed (n.claim range { r with subOpened := opened } pinned).2.layout range r opened
      (n.leadFor range { r with subOpened := opened }) pinned :=
  Numbering.claim_claimed hr (h.current_ne_fresh hr) (h.parent_ne_fresh hr) opened pinned

theorem newRange (h : n.layout.Sound) (typ abbreviation : String) (lead : Option Lead) :
    (n.newRange typ abbreviation lead).2.layout.Sound := by
  rw [Numbering.layout_newRange]
  exact h.addRange rfl (by simp) (by simp)

theorem setRule (h : n.layout.Sound) (range : RangeId) (separator : String)
    (rule : Option LabelRule) : (n.setRule range separator rule).layout.Sound :=
  h.modify _ fun _ => ⟨rfl, rfl, rfl⟩

theorem setWeight (h : n.layout.Sound) (range : RangeId) (weight : Option Nat) :
    (n.setWeight range weight).layout.Sound :=
  h.modify _ fun _ => ⟨rfl, rfl, rfl⟩

theorem setActive (h : n.layout.Sound) (active : List (String × RangeId)) :
    (n.setActive active).layout.Sound :=
  h.ranges rfl (fun _ r hr => ⟨r, hr, rfl, rfl, rfl⟩) fun i r' hr' hr => by
    cases hr.symm.trans hr'

theorem next (h : n.layout.Sound) {slot : SlotId} (hn : n.next range = .ok (slot, n')) :
    n'.layout.Sound := by
  obtain ⟨r, hr, -, ⟨-, -, rfl⟩ | ⟨-, hn⟩⟩ := Numbering.next_cases hn
  · refine h.ranges rfl (fun i u hu => ?_) fun i u' hu' hu => ?_
    · rw [range?_setRange, hu]
      split
      next hi =>
        subst hi
        cases hr.symm.trans hu
        exact ⟨_, rfl, rfl, rfl, rfl⟩
      · exact ⟨u, rfl, rfl, rfl, rfl⟩
    · simp [range?_setRange, hu] at hu'
  · cases hn
    exact h.claimed (h.claim hr false none)

theorem sub (h : n.layout.Sound) {below : RangeId} (hn : n.sub range = .ok (below, n')) :
    n'.layout.Sound := by
  obtain ⟨r, slot, s, hr, hc, hs, -, -, -, ho⟩ := Numbering.sub_cases hn
  refine h.sameLinks ⟨ho.size, fun q t ht => ⟨t, ho.slot q ▸ ht, rfl, rfl⟩, fun i u hu => ?_,
    fun i u' hu' => ?_⟩
  · rw [ho.range, hu, if_neg (by rintro rfl; simp at hu)]
    split
    next hi =>
      subst hi
      cases hr.symm.trans hu
      exact ⟨_, rfl, rfl, rfl, rfl⟩
    · exact ⟨u, rfl, rfl, rfl, rfl⟩
  · rw [ho.range] at hu'
    split at hu'
    next hi =>
      cases hu'
      subst hi
      exact .inr ⟨by simp, rfl, fun p hp => by cases hp; exact slot?_lt hs, by simp⟩
    · split at hu'
      next hi =>
        subst hi
        rw [hr, Option.map_some] at hu'
        cases hu'
        exact .inl ⟨r, hr, rfl, rfl, rfl⟩
      · exact .inl ⟨u', hu', rfl, rfl, rfl⟩

theorem assign (h : n.layout.Sound) {level : Option Nat} {handle : RangeId}
    (hn : n.assign range level = .ok (handle, n')) : n'.layout.Sound := by
  obtain ⟨r, hr, -, -, hl⟩ := Numbering.assign_cases hn
  have hc := h.claim hr r.subOpened level
  rw [hl]
  refine (h.claimed hc).addRange rfl (fun p hp => ?_) fun q hq => ?_
  · have := h.parent_lt range r p hr hp
    rw [hc.size]
    omega
  · cases hq
    rw [hc.size]
    exact Nat.lt_succ_self _

end Sound

/-! ## Sizes -/

namespace Sound

variable {n n' : Numbering} {range : RangeId}

theorem lt_of_next (h : n.layout.Sound) {slot : SlotId} (hn : n.next range = .ok (slot, n')) :
    slot.index < n'.layout.slots.size ∧ n.layout.slots.size ≤ n'.layout.slots.size := by
  obtain ⟨r, hr, -, ⟨-, hc, rfl⟩ | ⟨-, hn⟩⟩ := Numbering.next_cases hn
  · exact ⟨h.current_lt range r slot hr hc, Nat.le_refl _⟩
  · have hc := h.claim hr false none
    rw [← hn] at hc
    have hslot : slot = n.layout.freshSlot := by
      rw [Numbering.claim_eq] at hn
      exact (Prod.mk.inj hn).1
    rw [hc.size, hslot]
    exact ⟨Nat.lt_succ_self _, Nat.le_succ _⟩

theorem size_sub {below : RangeId} (hn : n.sub range = .ok (below, n')) :
    n'.layout.slots.size = n.layout.slots.size := by
  obtain ⟨_, _, _, -, -, -, -, -, -, ho⟩ := Numbering.sub_cases hn
  exact ho.size

theorem size_assign (h : n.layout.Sound) {level : Option Nat} {handle : RangeId}
    (hn : n.assign range level = .ok (handle, n')) :
    n'.layout.slots.size = n.layout.slots.size + 1 := by
  obtain ⟨r, hr, -, -, hl⟩ := Numbering.assign_cases hn
  rw [hl]
  exact (h.claim hr r.subOpened level).size

end Sound

/-! ## Reaching slots over links -/

namespace Sound

variable {l : Layout} {p q : SlotId}

theorem link_lt (h : l.Sound) (hl : l.Link p q) : p.index < q.index := by
  rcases hl with ⟨s, hs, hq⟩ | ⟨s, i, r, hs, hi, hr, hq⟩
  · exact (h.next_gt p s q hs hq).1
  · obtain ⟨r', hr', hp, -⟩ := h.nested_parent p s i hs hi
    cases hr.symm.trans hr'
    exact (h.first_gt i r q hr hq).2 p hp

theorem link_lt_size (h : l.Sound) (hl : l.Link p q) : q.index < l.slots.size := by
  rcases hl with ⟨s, hs, hq⟩ | ⟨s, i, r, hs, hi, hr, hq⟩
  · exact (h.next_gt p s q hs hq).2
  · exact (h.first_gt i r q hr hq).1

/-- At most one link leads to a slot. -/
theorem link_unique (h : l.Sound) {p' : SlotId} (hl : l.Link p q) (hl' : l.Link p' q) :
    p = p' := by
  rcases hl with ⟨s, hs, hq⟩ | ⟨s, i, r, hs, hi, hr, hq⟩ <;>
    rcases hl' with ⟨s', hs', hq'⟩ | ⟨s', i', r', hs', hi', hr', hq'⟩
  · exact h.next_inj p s p' s' q hs hs' hq hq'
  · exact (h.first_next i' r' p s q hr' hs hq' hq).elim
  · exact (h.first_next i r p' s' q hr hs' hq hq').elim
  · cases h.first_inj i r i' r' q hr hr' hq hq'
    obtain ⟨u, hu, hp, -⟩ := h.nested_parent p s i hs hi
    obtain ⟨u', hu', hp', -⟩ := h.nested_parent p' s' i hs' hi'
    cases hu.symm.trans hu'
    exact Option.some.inj (hp.symm.trans hp')

theorem reaches_le (h : l.Sound) (hl : l.Reaches p q) : p.index ≤ q.index := by
  induction hl with
  | refl => exact Nat.le_refl _
  | tail _ hlink ih => exact Nat.le_trans ih (Nat.le_of_lt (h.link_lt hlink))

/-- Of two slots that reach a third one, the first reaches the second or the other way round. -/
theorem reaches_total (h : l.Sound) {p' : SlotId} (hl : l.Reaches p q) (hl' : l.Reaches p' q) :
    l.Reaches p p' ∨ l.Reaches p' p := by
  induction hl with
  | refl => exact .inr hl'
  | @tail b c hb hlink ih =>
    rcases hl'.cases_tail with rfl | ⟨b', hb', hlink'⟩
    · exact .inl (hb.tail hlink)
    · cases h.link_unique hlink hlink'
      exact ih hb'

end Sound

end Layout

end Folio
