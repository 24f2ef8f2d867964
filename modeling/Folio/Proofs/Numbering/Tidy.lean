import Folio.Proofs.Numbering.Labels

/-!
# Layouts without lost slots

A slot is lost when the link to it is written over. `Layout.Tidy` is the invariant that excludes
this: the latest slot of a growing range has nothing behind it, at most one growing range lies
below a slot, and a slot that was handed over has none below it before somebody takes it. Every
slot then hangs on a link or at the head of a range at the top.

Ranges at the top, slots of growing ranges, ranges below a slot that was just taken, and slots
that are handed over from growing ranges keep a layout tidy. A slot that is claimed behind a
handed over one does not, since that one may have a slot behind it already.
-/

namespace Folio

namespace Layout

/-- No range lies below a slot or is kept for it. -/
structure Bare (l : Layout) (q : SlotId) : Prop where
  parent : ∀ i r, l.range? i = some r → r.stage = .growing → r.parent ≠ some q
  assigned : ∀ i r, l.range? i = some r → r.stage = .assigned → r.current ≠ some q

/-- Nothing is lost. -/
structure Tidy (l : Layout) : Prop extends l.Sound where
  slot_range : ∀ q s, l.slot? q = some s → ∃ r, l.range? s.range = some r ∧ r.stage = .growing
  current : ∀ i r q, l.range? i = some r → r.stage = .growing → r.current = some q →
    ∃ s, l.slot? q = some s ∧ s.range = i ∧ s.next = none
  first_iff : ∀ i r, l.range? i = some r → r.stage = .growing →
    (r.first = none ↔ r.current = none)
  below : ∀ i r p, l.range? i = some r → r.stage = .growing → r.parent = some p →
    ∃ s, l.slot? p = some s ∧ s.nested = if r.current = none then none else some i
  parent_inj : ∀ i r j u p, l.range? i = some r → r.stage = .growing → l.range? j = some u →
    u.stage = .growing → r.parent = some p → u.parent = some p → i = j
  handle_first : ∀ i r, l.range? i = some r → r.stage ≠ .growing → r.first = none
  reserved : ∀ i r, l.range? i = some r → r.stage = .assigned → ∃ q s, r.current = some q ∧
    l.slot? q = some s ∧ (∀ j u, l.range? j = some u → u.stage = .growing → u.parent ≠ some q) ∧
    ∀ j u, l.range? j = some u → u.stage = .assigned → u.current = some q → j = i
  hung : ∀ q s, l.slot? q = some s → (∃ p, l.Link p q) ∨
    ∃ i r, l.range? i = some r ∧ r.stage = .growing ∧ r.parent = none ∧ r.first = some q

/-- A range that may be added: it grows below a bare slot or at the top, or it hands over a bare
slot. -/
structure Addable (l : Layout) (r : Range) : Prop where
  first : r.first = none
  parent : ∀ p, r.parent = some p → p.index < l.slots.size
  fits : (r.stage = .growing ∧ r.current = none ∧ ∀ p, r.parent = some p → l.Bare p) ∨
    r.stage = .assigned ∧ ∃ q s, r.current = some q ∧ l.slot? q = some s ∧ l.Bare q

/-- `l'` comes from `l` without a claim: labels are bound, ranges change in what does not concern
their slots, handed over slots are taken, a range is added. -/
structure Adjusted (l l' : Layout) : Prop where
  size : l'.slots.size = l.slots.size
  slot : ∀ q s, l.slot? q = some s → ∃ label, l'.slot? q = some { s with label }
  kept : ∀ i r, l.range? i = some r → ∃ r', l'.range? i = some r' ∧ r.SamePlace r' ∧
    (r'.stage = r.stage ∨ r.stage = .assigned ∧ r'.stage = .finalized)
  added : ∀ i r', l'.range? i = some r' → l.range? i = none → i = l.freshRange ∧ l.Addable r'

theorem Adjusted.slot_of {l l' : Layout} (h : l.Adjusted l') {q : SlotId} {t : Slot}
    (ht : l'.slot? q = some t) : ∃ s label, l.slot? q = some s ∧ t = { s with label } := by
  obtain ⟨s, hs⟩ := slot?_isSome (h.size ▸ slot?_lt ht)
  obtain ⟨label, hs'⟩ := h.slot q s hs
  exact ⟨s, label, hs, Option.some.inj (ht.symm.trans hs')⟩

variable {l l' : Layout} {range : RangeId} {r new : Range} {opened : Bool}
  {lead : Option SlotId} {pinned : Option Nat}

namespace Claimed

/-- Links stay when a range claims a slot whose latest slot has nothing behind it, or above which
nothing hangs yet. -/
theorem link (hc : l.Claimed l' range r opened lead pinned)
    (hnext : ∀ q s, r.current = some q → l.slot? q = some s → s.next = none)
    (hnested : ∀ p s, r.current = none → r.parent = some p → l.slot? p = some s → s.nested = none)
    (hfirst : r.current = none → r.first = none)
    {p q : SlotId} (hl : l.Link p q) : l'.Link p q := by
  rcases hl with ⟨s, hs, hq⟩ | ⟨s, i, u, hs, hi, hu, hq⟩
  · refine .next _ (hc.slot_old hs) ?_
    unfold Slot.linked
    split
    next hcur => simp [hnext p s hcur hs] at hq
    · split <;> exact hq
  · refine .nested _ i (if i = range then
        { r.grown l.freshSlot lead with subOpened := opened } else u) (hc.slot_old hs) ?_ ?_ ?_
    · unfold Slot.linked
      split
      · exact hi
      · split
        next h => simp [hnested p s h.1 h.2 hs] at hi
        · exact hi
    · rw [hc.range]
      split
      · rfl
      · exact hu
    · split
      next h =>
        subst h
        cases hc.before.symm.trans hu
        cases hcur : r.current with
        | none => simp [hfirst hcur] at hq
        | some c => simpa [Range.grown, hcur] using hq
      · exact hq

end Claimed

namespace Tidy

theorem empty : ({} : Layout).Tidy :=
  { Sound.empty with
    slot_range := by simp [slot?]
    current := by simp [range?]
    first_iff := by simp [range?]
    below := by simp [range?]
    parent_inj := by simp [range?]
    handle_first := by simp [range?]
    reserved := by simp [range?]
    hung := by simp [slot?] }

/-- Below a slot without a growing range there is no link. -/
theorem nested_eq_none (h : l.Tidy) {q : SlotId} {s : Slot} (hs : l.slot? q = some s)
    (hq : ∀ i r, l.range? i = some r → r.stage = .growing → r.parent ≠ some q) :
    s.nested = none := by
  cases hi : s.nested with
  | none => rfl
  | some i =>
    obtain ⟨u, hu, hp, hf⟩ := h.nested_parent q s i hs hi
    by_cases hg : u.stage = .growing
    · exact (hq i u hu hg hp).elim
    · simp [h.handle_first i u hu hg] at hf

/-- Links stay when a growing range claims a slot. -/
theorem link_claimed (h : l.Tidy) (hc : l.Claimed l' range r opened lead pinned)
    (hg : r.stage = .growing) {p q : SlotId} (hl : l.Link p q) : l'.Link p q := by
  refine hc.link (fun q s hcur hs => ?_) (fun p s hcur hp hs => ?_)
    (h.first_iff _ r hc.before hg).2 hl
  · obtain ⟨s', hs', -, hn⟩ := h.current _ r q hc.before hg hcur
    cases hs.symm.trans hs'
    exact hn
  · obtain ⟨s', hs', hn⟩ := h.below _ r p hc.before hg hp
    cases hs.symm.trans hs'
    rwa [if_pos hcur] at hn

/-- The new slot hangs behind the latest one, below the slot above, or at the head of a range at the
top. The others hang where they hung. -/
theorem hung_claimed (h : l.Tidy) (hc : l.Claimed l' range r opened lead pinned)
    (hg : r.stage = .growing) {q : SlotId} {t : Slot} (ht : l'.slot? q = some t) :
    (∃ p, l'.Link p q) ∨
      ∃ i r, l'.range? i = some r ∧ r.stage = .growing ∧ r.parent = none ∧ r.first = some q := by
  have hr := hc.before
  rcases hc.slot_cases ht with ⟨rfl, rfl⟩ | ⟨s, hs, rfl⟩
  · cases hcur : r.current with
    | some c =>
      obtain ⟨s, hs, -, -⟩ := h.current range r c hr hg hcur
      exact .inl ⟨c, .next _ (hc.slot_old hs) (by simp [Slot.linked_next, hcur])⟩
    | none =>
      cases hpar : r.parent with
      | none => exact .inr ⟨range, _, hc.range_self, hg, hpar, by simp [Range.grown, hcur]⟩
      | some p =>
        obtain ⟨s, hs, -⟩ := h.below range r p hr hg hpar
        exact .inl ⟨p, .nested _ range _ (hc.slot_old hs)
          (by simp [Slot.linked_nested, hcur, hpar]) hc.range_self (by simp [Range.grown, hcur])⟩
  · rcases h.hung q s hs with ⟨p, hl⟩ | ⟨i, u, hu, hug, hp, hf⟩
    · exact .inl ⟨p, h.link_claimed hc hg hl⟩
    · right
      by_cases hi : i = range
      · subst hi
        cases hr.symm.trans hu
        refine ⟨i, _, hc.range_self, hg, hp, ?_⟩
        cases hcur : r.current with
        | none => simp [(h.first_iff i r hr hg).2 hcur] at hf
        | some c => simpa [Range.grown, hcur] using hf
      · exact ⟨i, u, (hc.range_other hi).trans hu, hug, hp, hf⟩

/-- Tidy layouts stay so when a growing range claims a slot. -/
theorem claimed (h : l.Tidy) (hc : l.Claimed l' range r opened lead pinned)
    (hg : r.stage = .growing) : l'.Tidy := by
  have hr := hc.before
  have hold : ∀ {i u}, l.range? i = some u → ∃ u', l'.range? i = some u' ∧ u'.stage = u.stage := by
    intro i u hu
    by_cases hi : i = range
    · subst hi
      cases hr.symm.trans hu
      exact ⟨_, hc.range_self, rfl⟩
    · exact ⟨u, (hc.range_other hi).trans hu, rfl⟩
  refine { h.toSound.claimed hc with
    slot_range := ?slot_range, current := ?current, first_iff := ?first_iff, below := ?below
    parent_inj := ?parent_inj, handle_first := ?handle_first, reserved := ?reserved
    hung := ?hung }
  case slot_range =>
    intro q t ht
    rcases hc.slot_cases ht with ⟨-, rfl⟩ | ⟨s, hs, rfl⟩
    · exact ⟨_, hc.range_self, hg⟩
    · obtain ⟨u, hu, hug⟩ := h.slot_range q s hs
      obtain ⟨u', hu', hst⟩ := hold hu
      exact ⟨u', by simpa using hu', hst.trans hug⟩
  case current =>
    intro i u q hu hug hq
    by_cases hi : i = range
    · subst hi
      cases hc.range_self.symm.trans hu
      cases hq
      exact ⟨_, hc.slot_fresh, rfl, rfl⟩
    · rw [hc.range_other hi] at hu
      obtain ⟨s, hs, hsi, hn⟩ := h.current i u q hu hug hq
      refine ⟨_, hc.slot_old hs, by simpa using hsi, ?_⟩
      rw [Slot.linked_next, if_neg, hn]
      intro hcur
      obtain ⟨s', hs', hsr, -⟩ := h.current range r q hr hg hcur
      cases hs.symm.trans hs'
      exact hi (hsi.symm.trans hsr)
  case first_iff =>
    intro i u hu hug
    by_cases hi : i = range
    · subst hi
      cases hc.range_self.symm.trans hu
      have := h.first_iff i r hr hg
      cases hcur : r.current <;> simp_all [Range.grown]
    · exact h.first_iff i u ((hc.range_other hi).symm.trans hu) hug
  case below =>
    intro i u p hu hug hp
    by_cases hi : i = range
    · subst hi
      cases hc.range_self.symm.trans hu
      obtain ⟨s, hs, hn⟩ := h.below i r p hr hg hp
      refine ⟨_, hc.slot_old hs, ?_⟩
      rw [Slot.linked_nested]
      have hp' : r.parent = some p := hp
      cases hcur : r.current <;> simp_all [Range.grown]
    · rw [hc.range_other hi] at hu
      obtain ⟨s, hs, hn⟩ := h.below i u p hu hug hp
      refine ⟨_, hc.slot_old hs, ?_⟩
      rw [Slot.linked_nested, if_neg, hn]
      exact fun hcp => hi (h.parent_inj i u range r p hu hug hr hg hp hcp.2)
  case parent_inj =>
    intro i u j v p hu hug hv hvg hp hp'
    rcases hc.range_cases hu with ⟨rfl, hpar, -⟩ | ⟨-, hu⟩ <;>
      rcases hc.range_cases hv with ⟨rfl, hpar', -⟩ | ⟨-, hv⟩
    · rfl
    · exact h.parent_inj _ r j v p hr hg hv hvg (hpar ▸ hp) hp'
    · exact h.parent_inj i u _ r p hu hug hr hg hp (hpar' ▸ hp')
    · exact h.parent_inj i u j v p hu hug hv hvg hp hp'
  case handle_first =>
    intro i u hu hug
    by_cases hi : i = range
    · subst hi
      cases hc.range_self.symm.trans hu
      exact (hug hg).elim
    · exact h.handle_first i u ((hc.range_other hi).symm.trans hu) hug
  case reserved =>
    intro i u hu hua
    have hne : ∀ {j v}, l'.range? j = some v → v.stage = .assigned → l.range? j = some v := by
      intro j v hv hva
      by_cases hj : j = range
      · subst hj
        cases hc.range_self.symm.trans hv
        simp [Range.grown, hg] at hva
      · exact (hc.range_other hj).symm.trans hv
    obtain ⟨q, s, hq, hs, hpar, huniq⟩ := h.reserved i u (hne hu hua) hua
    refine ⟨q, _, hq, hc.slot_old hs, fun j v hv hvg hp => ?_, fun j v hv hva hvq => ?_⟩
    · rcases hc.range_cases hv with ⟨rfl, hpar', -⟩ | ⟨-, hv⟩
      · exact hpar _ r hr hg (hpar' ▸ hp)
      · exact hpar j v hv hvg hp
    · exact huniq j v (hne hv hva) hva hvq
  case hung =>
    exact fun q t ht => h.hung_claimed hc hg ht

end Tidy

namespace Adjusted

/-- A range that grows afterwards has grown before, or is new and lies below a bare slot or at the
top. -/
theorem growing_of (ha : l.Adjusted l') {i : RangeId} {r' : Range} (hr' : l'.range? i = some r')
    (hg : r'.stage = .growing) :
    (∃ r, l.range? i = some r ∧ r.SamePlace r' ∧ r.stage = .growing) ∨
      (i = l.freshRange ∧ r'.first = none ∧ r'.current = none ∧
        ∀ p, r'.parent = some p → l.Bare p ∧ p.index < l.slots.size) := by
  cases hr : l.range? i with
  | some r =>
    obtain ⟨u, hu, hsame, hst | hst⟩ := ha.kept i r hr <;> cases hr'.symm.trans hu
    · exact .inl ⟨r, rfl, hsame, hst ▸ hg⟩
    · simp [hst.2] at hg
  | none =>
    obtain ⟨hi, hadd⟩ := ha.added i r' hr' hr
    rcases hadd.fits with ⟨-, hc, hp⟩ | ⟨hst, -⟩
    · exact .inr ⟨hi, hadd.first, hc, fun p hp' => ⟨hp p hp', hadd.parent p hp'⟩⟩
    · simp [hst] at hg

/-- A range that hands over a slot afterwards has done so before, or is new and the slot is bare. -/
theorem assigned_of (ha : l.Adjusted l') {i : RangeId} {r' : Range}
    (hr' : l'.range? i = some r') (hg : r'.stage = .assigned) :
    (∃ r, l.range? i = some r ∧ r.SamePlace r' ∧ r.stage = .assigned) ∨
      (i = l.freshRange ∧ ∃ q s, r'.current = some q ∧ l.slot? q = some s ∧ l.Bare q) := by
  cases hr : l.range? i with
  | some r =>
    obtain ⟨u, hu, hsame, hst | hst⟩ := ha.kept i r hr <;> cases hr'.symm.trans hu
    · exact .inl ⟨r, rfl, hsame, hst ▸ hg⟩
    · simp [hst.2] at hg
  | none =>
    obtain ⟨hi, hadd⟩ := ha.added i r' hr' hr
    rcases hadd.fits with ⟨hst, -⟩ | ⟨-, hq⟩
    · simp [hst] at hg
    · exact .inr ⟨hi, hq⟩

theorem link (ha : l.Adjusted l') {p q : SlotId} (hl : l.Link p q) : l'.Link p q := by
  rcases hl with ⟨s, hs, hq⟩ | ⟨s, i, r, hs, hi, hr, hq⟩ <;> obtain ⟨label, hs'⟩ := ha.slot p s hs
  · exact .next _ hs' hq
  · obtain ⟨r', hr', hsame, -⟩ := ha.kept i r hr
    exact .nested _ i r' hs' hi hr' (hsame.2.1.trans hq)

theorem sound (ha : l.Adjusted l') (h : l.Sound) : l'.Sound := by
  refine h.sameLinks ⟨ha.size, fun q t ht => ?_, fun i r hr => ?_, fun i r' hr' => ?_⟩
  · obtain ⟨s, label, hs, rfl⟩ := ha.slot_of ht
    exact ⟨s, hs, rfl, rfl⟩
  · obtain ⟨r', hr', hsame, -⟩ := ha.kept i r hr
    exact ⟨r', hr', hsame⟩
  · cases hr : l.range? i with
    | some r =>
      obtain ⟨u, hu, hsame, -⟩ := ha.kept i r hr
      cases hr'.symm.trans hu
      exact .inl ⟨r, rfl, hsame⟩
    | none =>
      obtain ⟨-, hadd⟩ := ha.added i r' hr' hr
      refine .inr ⟨rfl, hadd.first, hadd.parent, fun q hq => ?_⟩
      rcases hadd.fits with ⟨-, hc, -⟩ | ⟨-, q', s, hc, hs, -⟩
      · simp [hc] at hq
      · cases hc.symm.trans hq
        exact slot?_lt hs

end Adjusted

namespace Tidy

/-- Tidy layouts stay so when they are adjusted. -/
theorem adjusted (h : l.Tidy) (ha : l.Adjusted l') : l'.Tidy := by
  refine { ha.sound h.toSound with
    slot_range := ?slot_range, current := ?current, first_iff := ?first_iff, below := ?below
    parent_inj := ?parent_inj, handle_first := ?handle_first, reserved := ?reserved
    hung := ?hung }
  case slot_range =>
    intro q t ht
    obtain ⟨s, label, hs, rfl⟩ := ha.slot_of ht
    obtain ⟨r, hr, hg⟩ := h.slot_range q s hs
    obtain ⟨r', hr', -, hst | hst⟩ := ha.kept _ r hr
    · exact ⟨r', hr', hst.trans hg⟩
    · simp [hst.1] at hg
  case current =>
    intro i r' q hr' hg hq
    rcases ha.growing_of hr' hg with ⟨r, hr, hsame, hg⟩ | ⟨-, -, hc, -⟩
    · obtain ⟨s, hs, hsi, hn⟩ := h.current i r q hr hg (hsame.2.2 ▸ hq)
      obtain ⟨label, hs'⟩ := ha.slot q s hs
      exact ⟨_, hs', hsi, hn⟩
    · simp [hc] at hq
  case first_iff =>
    intro i r' hr' hg
    rcases ha.growing_of hr' hg with ⟨r, hr, hsame, hg⟩ | ⟨-, hf, hc, -⟩
    · rw [hsame.2.1, hsame.2.2]
      exact h.first_iff i r hr hg
    · simp [hf, hc]
  case below =>
    intro i r' p hr' hg hp
    rcases ha.growing_of hr' hg with ⟨r, hr, hsame, hg⟩ | ⟨-, -, hc, hbare⟩
    · rw [hsame.2.2]
      obtain ⟨s, hs, hn⟩ := h.below i r p hr hg (hsame.1 ▸ hp)
      obtain ⟨label, hs'⟩ := ha.slot p s hs
      exact ⟨_, hs', hn⟩
    · obtain ⟨s, hs⟩ := slot?_isSome (hbare p hp).2
      obtain ⟨label, hs'⟩ := ha.slot p s hs
      refine ⟨_, hs', ?_⟩
      rw [if_pos hc, ← h.nested_eq_none hs (hbare p hp).1.parent]
  case parent_inj =>
    intro i r' j u' p hr' hg hu' hug hp hp'
    rcases ha.growing_of hr' hg with ⟨r, hr, hsame, hg⟩ | ⟨rfl, -, -, hbare⟩ <;>
      rcases ha.growing_of hu' hug with ⟨u, hu, hsame', hug⟩ | ⟨rfl, -, -, hbare'⟩
    · exact h.parent_inj i r j u p hr hg hu hug (hsame.1 ▸ hp) (hsame'.1 ▸ hp')
    · exact ((hbare' p hp').1.parent i r hr hg (hsame.1 ▸ hp)).elim
    · exact ((hbare p hp).1.parent j u hu hug (hsame'.1 ▸ hp')).elim
    · rfl
  case handle_first =>
    intro i r' hr' hg
    cases hr : l.range? i with
    | some r =>
      obtain ⟨u, hu, hsame, hst⟩ := ha.kept i r hr
      cases hr'.symm.trans hu
      rw [hsame.2.1]
      refine h.handle_first i r hr ?_
      rcases hst with hst | ⟨hst, -⟩
      · exact fun hrg => hg (hst.trans hrg)
      · simp [hst]
    | none => exact (ha.added i r' hr' hr).2.first
  case reserved =>
    intro i r' hr' has
    rcases ha.assigned_of hr' has with ⟨r, hr, hsame, has⟩ | ⟨rfl, q, s, hq, hs, hbare⟩
    · obtain ⟨q, s, hq, hs, hpar, huniq⟩ := h.reserved i r hr has
      obtain ⟨label, hs'⟩ := ha.slot q s hs
      refine ⟨q, _, hsame.2.2.trans hq, hs', fun j u' hu' hug hp => ?_, fun j u' hu' hua hq' => ?_⟩
      · rcases ha.growing_of hu' hug with ⟨u, hu, hsame', hug⟩ | ⟨-, -, -, hbare⟩
        · exact hpar j u hu hug (hsame'.1 ▸ hp)
        · exact (hbare q hp).1.assigned i r hr has hq
      · rcases ha.assigned_of hu' hua with ⟨u, hu, hsame', hua⟩ | ⟨-, q', s', hq'', -, hbare⟩
        · exact huniq j u hu hua (hsame'.2.2 ▸ hq')
        · cases hq''.symm.trans hq'
          exact (hbare.assigned i r hr has hq).elim
    · obtain ⟨label, hs'⟩ := ha.slot q s hs
      refine ⟨q, _, hq, hs', fun j u' hu' hug hp => ?_, fun j u' hu' hua hq' => ?_⟩
      · rcases ha.growing_of hu' hug with ⟨u, hu, hsame', hug⟩ | ⟨rfl, -, -, -⟩
        · exact hbare.parent j u hu hug (hsame'.1 ▸ hp)
        · cases hr'.symm.trans hu'
          simp [has] at hug
      · rcases ha.assigned_of hu' hua with ⟨u, hu, hsame', hua⟩ | ⟨rfl, -⟩
        · exact (hbare.assigned j u hu hua (hsame'.2.2 ▸ hq')).elim
        · rfl
  case hung =>
    intro q t ht
    obtain ⟨s, label, hs, rfl⟩ := ha.slot_of ht
    rcases h.hung q s hs with ⟨p, hl⟩ | ⟨i, r, hr, hg, hp, hf⟩
    · exact .inl ⟨p, ha.link hl⟩
    · obtain ⟨r', hr', hsame, hst | hst⟩ := ha.kept i r hr
      · exact .inr ⟨i, r', hr', hst.trans hg, hsame.1.trans hp, hsame.2.1.trans hf⟩
      · simp [hst.1] at hg

/-- Every slot is covered by a range at the top. -/
theorem covered (h : l.Tidy) {q : SlotId} {s : Slot} (hs : l.slot? q = some s) :
    ∃ i r, l.range? i = some r ∧ r.stage = .growing ∧ r.parent = none ∧ l.Covers i q := by
  obtain ⟨n, hn⟩ : ∃ n, n = q.index := ⟨_, rfl⟩
  induction n using Nat.strongRecOn generalizing q s with
  | ind n ih =>
    subst hn
    rcases h.hung q s hs with ⟨p, hl⟩ | ⟨i, r, hr, hg, hp, hf⟩
    · have hlt := h.link_lt hl
      obtain ⟨t, ht⟩ := slot?_isSome (Nat.lt_trans hlt (slot?_lt hs))
      obtain ⟨i, r, hr, hg, hp, r', f, hr', hf, hreach⟩ := ih p.index hlt ht rfl
      exact ⟨i, r, hr, hg, hp, r', f, hr', hf, hreach.tail hl⟩
    · exact ⟨i, r, hr, hg, hp, r, q, hr, hf, .refl⟩

/-! ## The operations -/

variable {n n' : Numbering}

theorem addRange (h : l.Tidy) (hn : l.Addable new) : (l.addRange new).2.Tidy := by
  refine h.adjusted ⟨rfl, fun q s hs => ⟨s.label, hs⟩,
    fun i r hr => ⟨r, range?_addRange_of_some hr new, ⟨rfl, rfl, rfl⟩, .inl rfl⟩,
    fun i r' hr' hr => ?_⟩
  rw [range?_addRange, hr] at hr'
  split at hr' <;> cases hr'
  exact ⟨by assumption, hn⟩

theorem modify (h : l.Tidy) (range : RangeId) (f : Range → Range)
    (hf : ∀ r, l.range? range = some r → r.SamePlace (f r) ∧
      ((f r).stage = r.stage ∨ r.stage = .assigned ∧ (f r).stage = .finalized)) :
    ({ l with ranges := l.ranges.modify range.index f } : Layout).Tidy := by
  refine h.adjusted ⟨rfl, fun q s hs => ⟨s.label, hs⟩, fun i r hr => ?_, fun i r' hr' hr => ?_⟩
  · rw [range?_modify, hr]
    split
    next hi => exact ⟨f r, rfl, hf r (hi ▸ hr)⟩
    · exact ⟨r, rfl, ⟨rfl, rfl, rfl⟩, .inl rfl⟩
  · simp [range?_modify, hr] at hr'

theorem newRange (h : n.layout.Tidy) (typ abbreviation : String) (lead : Option Lead) :
    (n.newRange typ abbreviation lead).2.layout.Tidy := by
  rw [Numbering.layout_newRange]
  exact h.addRange ⟨rfl, by simp, .inl ⟨rfl, rfl, by simp⟩⟩

theorem setRule (h : n.layout.Tidy) (range : RangeId) (separator : String)
    (rule : Option LabelRule) : (n.setRule range separator rule).layout.Tidy :=
  h.modify range _ fun _ _ => ⟨⟨rfl, rfl, rfl⟩, .inl rfl⟩

theorem setWeight (h : n.layout.Tidy) (range : RangeId) (weight : Option Nat) :
    (n.setWeight range weight).layout.Tidy :=
  h.modify range _ fun _ _ => ⟨⟨rfl, rfl, rfl⟩, .inl rfl⟩

theorem setActive (h : n.layout.Tidy) (active : List (String × RangeId)) :
    (n.setActive active).layout.Tidy :=
  h.adjusted ⟨rfl, fun _ s hs => ⟨s.label, hs⟩, fun _ r hr => ⟨r, hr, ⟨rfl, rfl, rfl⟩, .inl rfl⟩,
    fun _ _ hr' hr => by cases hr.symm.trans hr'⟩

/-- No range lies below a slot that was just claimed. -/
theorem bare_fresh (h : l.Sound) (hc : l.Claimed l' range r opened lead pinned)
    (hg : r.stage = .growing) : l'.Bare l.freshSlot := by
  constructor
  · intro i u hu hug hp
    rcases hc.range_cases hu with ⟨rfl, hpar, -⟩ | ⟨-, hu⟩
    · exact h.parent_ne_fresh hc.before (hpar ▸ hp)
    · exact h.parent_ne_fresh hu hp
  · intro i u hu hua hq
    by_cases hi : i = range
    · subst hi
      cases hc.range_self.symm.trans hu
      simp [Range.grown, hg] at hua
    · exact h.current_ne_fresh ((hc.range_other hi).symm.trans hu) hq

/-- A slot that is handed out is the latest one of its range and has nothing below it. -/
theorem next (h : n.layout.Tidy) {slot : SlotId} (hn : n.next range = .ok (slot, n')) :
    n'.layout.Tidy ∧ n'.layout.Bare slot ∧ slot.index < n'.layout.slots.size ∧
      ∃ r', n'.layout.range? range = some r' ∧ r'.current = some slot := by
  obtain ⟨r, hr, hf, ⟨ha, hc, rfl⟩ | ⟨hnone, hn⟩⟩ := Numbering.next_cases hn
  · have hself : (n.layout.setRange range { r with subOpened := false, stage := .finalized }).range?
        range = some { r with subOpened := false, stage := .finalized } := by
      simp [range?_setRange, hr]
    refine ⟨?_, ⟨?_, ?_⟩, h.current_lt range r slot hr hc, _, hself, hc⟩
    · refine h.modify range _ fun u hu => ?_
      cases hr.symm.trans hu
      exact ⟨⟨rfl, rfl, rfl⟩, .inr ⟨ha, rfl⟩⟩
    · obtain ⟨q, s, hq, -, hpar, -⟩ := h.reserved range r hr ha
      cases hc.symm.trans hq
      intro i u hu hug
      rw [range?_setRange] at hu
      split at hu
      next hi =>
        subst hi
        rw [hr] at hu
        cases hu
        simp at hug
      · exact hpar i u hu hug
    · obtain ⟨q, s, hq, -, -, huniq⟩ := h.reserved range r hr ha
      cases hc.symm.trans hq
      intro i u hu hua huq
      rw [range?_setRange] at hu
      split at hu
      next hi =>
        subst hi
        rw [hr] at hu
        cases hu
        simp at hua
      next hi => exact hi (huniq i u hu hua huq)
  · have hg : r.stage = .growing := by
      cases hst : r.stage with
      | growing => rfl
      | finalized => exact (hf hst).elim
      | assigned =>
        obtain ⟨q, s, hq, -⟩ := h.reserved range r hr hst
        simp [hnone hst] at hq
    have hc := h.claim hr false none
    rw [← hn] at hc
    obtain rfl : slot = n.layout.freshSlot := by
      rw [Numbering.claim_eq] at hn
      exact (Prod.mk.inj hn).1
    refine ⟨h.claimed hc hg, bare_fresh h.toSound hc hg, ?_, _, hc.range_self, rfl⟩
    rw [hc.size]
    exact Nat.lt_succ_self _

/-- A range may be opened below a slot that was just taken. -/
theorem sub (h : n.layout.Tidy) {below : RangeId} (hn : n.sub range = .ok (below, n'))
    (hb : ∀ r q, n.layout.range? range = some r → r.current = some q → n.layout.Bare q) :
    n'.layout.Tidy := by
  obtain ⟨r, slot, s, hr, hc, hs, -, -, -, ho⟩ := Numbering.sub_cases hn
  refine h.adjusted ⟨ho.size, fun q t ht => ⟨t.label, (ho.slot q).trans ht⟩, fun i u hu => ?_,
    fun i u' hu' hu => ?_⟩
  · rw [ho.range, hu, if_neg (by rintro rfl; simp at hu)]
    split
    next hi =>
      subst hi
      cases hr.symm.trans hu
      exact ⟨_, rfl, ⟨rfl, rfl, rfl⟩, .inl rfl⟩
    · exact ⟨u, rfl, ⟨rfl, rfl, rfl⟩, .inl rfl⟩
  · rw [ho.range, hu] at hu'
    split at hu'
    next hi =>
      cases hu'
      refine ⟨hi, rfl, fun p hp => by cases hp; exact slot?_lt hs, .inl ⟨rfl, rfl, fun p hp => ?_⟩⟩
      cases hp
      exact hb r slot hr hc
    · simp at hu'

/-- A growing range may hand over a slot. -/
theorem assign (h : n.layout.Tidy) {level : Option Nat} {handle : RangeId}
    (hn : n.assign range level = .ok (handle, n'))
    (hg : ∀ r, n.layout.range? range = some r → r.stage = .growing) : n'.layout.Tidy := by
  obtain ⟨r, hr, -, -, hl⟩ := Numbering.assign_cases hn
  have hc := h.claim hr r.subOpened level
  rw [hl]
  refine (h.claimed hc (hg r hr)).addRange ⟨rfl, fun p hp => ?_, .inr ⟨rfl, _, _, rfl, hc.slot_fresh,
    bare_fresh h.toSound hc (hg r hr)⟩⟩
  have := h.parent_lt range r p hr hp
  rw [hc.size]
  omega

end Tidy

end Layout

end Folio
