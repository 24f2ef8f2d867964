import Folio.Proofs.Numbering.Growing
import Folio.Proofs.Numbering.Growth

/-!
# Trees of slots

The slots that hang on a range at the top form its tree, and a slot hangs on one such range only
(`Layout.Sound.covers_unique`). A range serves a tree if everything it has to do with lies there:
its latest slot, the slot above it, and the slots it will claim (`Layout.Serves`). The range at the
top serves its own tree, a range serves the tree of the slot it was opened below, and a range that
was made for a slot the tree of that slot. Claiming keeps this up, as long as only growing ranges
hand slots over.

The leads of a tree are the slots that may lead its slots. Which ones these are depends on the tree
alone, so `Serves` takes them as a relation.
-/

namespace Folio

/-- A range that hands out slots as another one did, or is done. -/
structure Range.Continues (r r' : Range) : Prop where
  current : r'.current = r.current
  first : r'.first = r.first
  parent : r'.parent = r.parent
  lead : r'.lead = r.lead
  separator : r'.separator = r.separator
  stage : r'.stage = .growing → r.stage = .growing

theorem Range.Continues.refl (r : Range) : r.Continues r := ⟨rfl, rfl, rfl, rfl, rfl, id⟩

namespace Numbering

variable {n n' : Numbering} {range i : RangeId} {r' : Range}

/-- Handing out a slot adds no range. -/
theorem range?_of_next (hs : n.layout.Sound) {slot : SlotId} (h : n.next range = .ok (slot, n'))
    (hi : n'.layout.range? i = some r') : ∃ r, n.layout.range? i = some r := by
  obtain ⟨r, hr, -, ⟨-, -, rfl⟩ | ⟨-, heq⟩⟩ := next_cases h
  · rw [Layout.range?_setRange] at hi
    split at hi
    · obtain ⟨u, hu, -⟩ := Option.map_eq_some_iff.1 hi
      exact ⟨u, hu⟩
    · exact ⟨r', hi⟩
  · cases heq
    by_cases heq : i = range
    · exact ⟨r, heq ▸ hr⟩
    · exact ⟨r', ((hs.claim hr false none).range_other heq).symm.trans hi⟩

theorem range?_of_sub {below : RangeId} (h : n.sub range = .ok (below, n'))
    (hi : n'.layout.range? i = some r') : i = below ∨ ∃ r, n.layout.range? i = some r := by
  obtain ⟨r, slot, s, -, -, -, -, rfl, -, ho⟩ := sub_cases h
  rw [ho.range] at hi
  split at hi
  next heq => exact .inl heq
  · split at hi
    · obtain ⟨u, hu, -⟩ := Option.map_eq_some_iff.1 hi
      exact .inr ⟨u, hu⟩
    · exact .inr ⟨r', hi⟩

theorem range?_of_assign (hs : n.layout.Sound) {level : Option Nat} {handle : RangeId}
    (h : n.assign range level = .ok (handle, n')) (hi : n'.layout.range? i = some r') :
    i = handle ∨ ∃ r, n.layout.range? i = some r := by
  obtain ⟨r, hr, rfl, -, hl⟩ := assign_cases h
  have hc := hs.claim hr r.subOpened level
  have hfresh : (n.claim range r level).2.layout.freshRange = n.layout.freshRange := by
    rw [Layout.freshRange, hc.ranges_size]
    rfl
  rw [hl, Layout.range?_addRange, Layout.addRange_fst, hfresh] at hi
  split at hi
  next heq => exact .inl heq
  · by_cases heq : i = range
    · exact .inr ⟨r, heq ▸ hr⟩
    · exact .inr ⟨r', (hc.range_other heq).symm.trans hi⟩

end Numbering

namespace Layout

/-- The ranges of `l` and their slots are linked in `l'` as they were, with the same leads and the
same separators. -/
structure Retains (l l' : Layout) : Prop where
  link : ∀ p q, l.Link p q → l'.Link p q
  slot : ∀ q s, l.slot? q = some s → ∃ s', l'.slot? q = some s' ∧ s'.lead = s.lead
  range : ∀ i r, l.range? i = some r → ∃ r', l'.range? i = some r' ∧ r'.parent = r.parent ∧
    r'.separator = r.separator ∧ ∀ f, r.first = some f → r'.first = some f

namespace Retains

variable {l l' l'' : Layout} {range : RangeId} {r : Range} {opened : Bool} {lead : Option SlotId}
  {pinned : Option Nat}

theorem refl (l : Layout) : l.Retains l :=
  ⟨fun _ _ h => h, fun _ s h => ⟨s, h, rfl⟩, fun _ r h => ⟨r, h, rfl, rfl, fun _ hf => hf⟩⟩

theorem trans (h : l.Retains l') (h' : l'.Retains l'') : l.Retains l'' where
  link p q hl := h'.link p q (h.link p q hl)
  slot q s hs := by
    obtain ⟨s', hs', hlead⟩ := h.slot q s hs
    obtain ⟨s'', hs'', hlead'⟩ := h'.slot q s' hs'
    exact ⟨s'', hs'', hlead'.trans hlead⟩
  range i r hr := by
    obtain ⟨r', hr', hp, hsep, hf⟩ := h.range i r hr
    obtain ⟨r'', hr'', hp', hsep', hf'⟩ := h'.range i r' hr'
    exact ⟨r'', hr'', hp'.trans hp, hsep'.trans hsep, fun f h => hf' f (hf f h)⟩

theorem covers (h : l.Retains l') {i : RangeId} {q : SlotId} (hc : l.Covers i q) :
    l'.Covers i q := by
  obtain ⟨r, f, hr, hf, hreach⟩ := hc
  obtain ⟨r', hr', -, -, hf'⟩ := h.range i r hr
  exact ⟨r', f, hr', hf' f hf, Relation.ReflTransGen.mono (fun p q => h.link p q) _ _ hreach⟩

/-- Ranges change in what does not concern their slots, and ranges are added. -/
theorem of_ranges (hslot : ∀ q, l'.slot? q = l.slot? q)
    (hrange : ∀ i r, l.range? i = some r → ∃ r', l'.range? i = some r' ∧ r'.parent = r.parent ∧
      r'.separator = r.separator ∧ r'.first = r.first) : l.Retains l' where
  link p q hl := by
    rcases hl with ⟨s, hs, hq⟩ | ⟨s, i, r, hs, hi, hr, hq⟩
    · exact .next s ((hslot p).trans hs) hq
    · obtain ⟨r', hr', -, -, hf⟩ := hrange i r hr
      exact .nested s i r' ((hslot p).trans hs) hi hr' (hf.trans hq)
  slot q s hs := ⟨s, (hslot q).trans hs, rfl⟩
  range i r hr := by
    obtain ⟨r', hr', hp, hsep, hf⟩ := hrange i r hr
    exact ⟨r', hr', hp, hsep, fun f h => hf.trans h⟩

/-- A growing range claims a slot. -/
theorem claimed (h : l.Tidy) (hc : l.Claimed l' range r opened lead pinned)
    (hg : r.stage = .growing) : l.Retains l' where
  link p q hl := by
    refine hc.link (fun c s hcur hs => ?_) (fun p s hcur hp hs => ?_)
      (h.first_iff range r hc.before hg).2 hl
    · obtain ⟨s', hs', -, hn⟩ := h.current range r c hc.before hg hcur
      cases hs.symm.trans hs'
      exact hn
    · obtain ⟨s', hs', hn⟩ := h.below range r p hc.before hg hp
      cases hs.symm.trans hs'
      rwa [if_pos hcur] at hn
  slot q s hs := ⟨_, hc.slot_old hs, Slot.linked_lead ..⟩
  range i u hu := by
    by_cases hi : i = range
    · subst hi
      cases hc.before.symm.trans hu
      refine ⟨_, hc.range_self, rfl, rfl, fun f hf => ?_⟩
      cases hcur : r.current with
      | none => simp [(h.first_iff i r hc.before hg).2 hcur] at hf
      | some c => simpa [Range.grown, hcur] using hf
    · exact ⟨u, (hc.range_other hi).trans hu, rfl, rfl, fun f hf => hf⟩

theorem addRange (l : Layout) (new : Range) : l.Retains (l.addRange new).2 :=
  .of_ranges (fun _ => rfl) fun _ u hu => ⟨u, range?_addRange_of_some hu new, rfl, rfl, rfl⟩

end Retains

/-- A slot hangs on one range at the top. -/
theorem Sound.covers_unique {l : Layout} (h : l.Sound) {i j : RangeId} {r u : Range} {q : SlotId}
    (hr : l.range? i = some r) (hu : l.range? j = some u) (hp : r.parent = none)
    (hp' : u.parent = none) (hi : l.Covers i q) (hj : l.Covers j q) : i = j := by
  -- nothing leads to the head of a range at the top
  have hhead : ∀ {i r f p}, l.range? i = some r → r.parent = none → r.first = some f →
      ¬l.Link p f := by
    rintro i r f p hr hp hf (⟨s, hs, hn⟩ | ⟨s, k, v, hs, hk, hv, hvf⟩)
    · exact h.first_next i r p s f hr hs hf hn
    · obtain rfl := h.first_inj i r k v f hr hv hf hvf
      obtain ⟨v', hv', hparent, -⟩ := h.nested_parent p s i hs hk
      cases hr.symm.trans hv'
      rw [hp] at hparent
      cases hparent
  have hsame : ∀ {i r j u f g}, l.range? i = some r → r.parent = none → l.range? j = some u →
      r.first = some f → u.first = some g → l.Reaches g f → j = i := by
    intro i r j u f g hr hp hu hf hg hreach
    rcases hreach.cases_tail with rfl | ⟨b, -, hb⟩
    · exact h.first_inj j u i r f hu hr hg hf
    · exact (hhead hr hp hf hb).elim
  obtain ⟨r', f, hr', hf, hfq⟩ := hi
  obtain ⟨u', g, hu', hg, hgq⟩ := hj
  cases hr.symm.trans hr'
  cases hu.symm.trans hu'
  rcases h.reaches_total hfq hgq with hfg | hgf
  · exact hsame hu hp' hr hg hf hfg
  · exact (hsame hr hp hu hf hg hgf).symm

/-! ## Ranges that serve a tree -/

/-- The range at `i` serves the tree of the range at `top`, whose leads are those in `P top`. -/
structure Serves (l : Layout) (P : RangeId → SlotId → Prop) (top i : RangeId) : Prop where
  root : ∃ u, l.range? top = some u ∧ u.parent = none
  isSome : ∃ r, l.range? i = some r
  current : ∀ r q, l.range? i = some r → r.current = some q → l.Covers top q
  parent : ∀ r p, l.range? i = some r → r.parent = some p → l.Covers top p
  head : ∀ r, l.range? i = some r → r.stage = .growing → r.parent = none → i = top
  lead : ∀ r x, l.range? i = some r → r.lead = some x → P top x

namespace Serves

variable {l l' : Layout} {P P' : RangeId → SlotId → Prop} {top top' i range : RangeId} {r : Range}
  {opened : Bool} {lead : Option SlotId} {pinned : Option Nat}

theorem mono (h : l.Serves P top i) (hl : l.Retains l') (hP : ∀ x, P top x → P' top x)
    (hrange : ∀ r, l.range? i = some r → ∃ r', l'.range? i = some r' ∧ r.Continues r') :
    l'.Serves P' top i := by
  obtain ⟨r, hr⟩ := h.isSome
  obtain ⟨r', hr', hsame⟩ := hrange r hr
  obtain ⟨u, hu, hp⟩ := h.root
  obtain ⟨u', hu', hparent, -⟩ := hl.range top u hu
  refine ⟨⟨u', hu', hparent.trans hp⟩, ⟨r', hr'⟩, fun v q hv hq => ?_, fun v p hv hp => ?_,
    fun v hv hg hp => ?_, fun v x hv hx => ?_⟩ <;> cases hr'.symm.trans hv
  · exact hl.covers (h.current r q hr (hsame.current ▸ hq))
  · exact hl.covers (h.parent r p hr (hsame.parent ▸ hp))
  · exact h.head r hr (hsame.stage hg) (hsame.parent ▸ hp)
  · exact hP x (h.lead r x hr (hsame.lead ▸ hx))

/-- A range that grows serves one tree. -/
theorem unique (h : l.Serves P top i) (h' : l.Serves P top' i) (hs : l.Sound)
    (hr : l.range? i = some r) (hg : r.stage = .growing) : top' = top := by
  cases hp : r.parent with
  | none => exact (h'.head r hr hg hp).symm.trans (h.head r hr hg hp)
  | some p =>
    obtain ⟨u, hu, hup⟩ := h.root
    obtain ⟨v, hv, hvp⟩ := h'.root
    exact hs.covers_unique hv hu hvp hup (h'.parent r p hr hp) (h.parent r p hr hp)

/-- A new slot hangs on the range at the top that its range serves. -/
theorem covers_fresh (h : l.Serves P top range) (hl : l.Tidy)
    (hc : l.Claimed l' range r opened lead pinned) (hg : r.stage = .growing) :
    l'.Covers top l.freshSlot := by
  have hretains := Retains.claimed hl hc hg
  have hr := hc.before
  cases hcur : r.current with
  | some c =>
    obtain ⟨s, hs, -, -⟩ := hl.current range r c hr hg hcur
    obtain ⟨u, f, hu, hf, hreach⟩ := hretains.covers (h.current r c hr hcur)
    exact ⟨u, f, hu, hf, hreach.tail (.next _ (hc.slot_old hs) (by simp [Slot.linked_next, hcur]))⟩
  | none =>
    have hfirst : (r.grown l.freshSlot lead).first = some l.freshSlot := by
      simp [Range.grown, hcur]
    cases hp : r.parent with
    | some p =>
      obtain ⟨s, hs, -⟩ := hl.below range r p hr hg hp
      obtain ⟨u, f, hu, hf, hreach⟩ := hretains.covers (h.parent r p hr hp)
      exact ⟨u, f, hu, hf, hreach.tail (.nested _ range _ (hc.slot_old hs)
        (by simp [Slot.linked_nested, hcur, hp]) hc.range_self hfirst)⟩
    | none =>
      obtain rfl := h.head r hr hg hp
      exact ⟨_, _, hc.range_self, hfirst, .refl⟩

/-- A claim in a range that serves a tree keeps all ranges in their trees. -/
theorem claimed (h : l.Serves P top range) (hl : l.Tidy)
    (hc : l.Claimed l' range r opened lead pinned) (hg : r.stage = .growing)
    (hlead : ∀ x, lead = some x → P top x) (h' : l.Serves P top' i) : l'.Serves P top' i := by
  have hretains := Retains.claimed hl hc hg
  by_cases hi : i = range
  · subst hi
    obtain rfl := h.unique h' hl.toSound hc.before hg
    obtain ⟨u, hu, hp⟩ := h.root
    obtain ⟨u', hu', hparent, -⟩ := hretains.range _ u hu
    refine ⟨⟨u', hu', hparent.trans hp⟩, ⟨_, hc.range_self⟩, fun v q hv hq => ?_,
      fun v p hv hp => ?_, fun v hv hg hp => ?_, fun v x hv hx => ?_⟩ <;>
      cases hc.range_self.symm.trans hv
    · cases hq
      exact h.covers_fresh hl hc hg
    · exact hretains.covers (h.parent r p hc.before hp)
    · exact h.head r hc.before hg hp
    · exact hlead x hx
  · exact h'.mono hretains (fun _ hx => hx) fun u hu => ⟨u, (hc.range_other hi).trans hu, .refl u⟩

variable {n n' : Numbering}

/-- The slot that is handed out next hangs on the range at the top that its range serves. -/
theorem next (h : n.layout.Serves P top range) (hl : n.layout.Tidy) {slot : SlotId}
    (hn : n.next range = .ok (slot, n'))
    (hlead : ∀ r x, n.layout.range? range = some r → r.stage = .growing →
      n.leadFor range r = some x → P top x) :
    n.layout.Retains n'.layout ∧
      ∀ top' i, n.layout.Serves P top' i → n'.layout.Serves P top' i := by
  obtain ⟨r, hr, hf, ⟨ha, hc, rfl⟩ | ⟨hnone, hn⟩⟩ := Numbering.next_cases hn
  · have hrange : ∀ j u, n.layout.range? j = some u → ∃ u',
        (n.layout.setRange range { r with subOpened := false, stage := .finalized }).range? j =
          some u' ∧ u.Continues u' := by
      intro j u hu
      rw [range?_setRange, hu]
      split
      next hj =>
        subst hj
        cases hr.symm.trans hu
        exact ⟨_, rfl, rfl, rfl, rfl, rfl, rfl, fun hst => by cases hst⟩
      · exact ⟨u, rfl, .refl u⟩
    have hretains : n.layout.Retains
        (n.layout.setRange range { r with subOpened := false, stage := .finalized }) := by
      refine .of_ranges (fun _ => rfl) fun j u hu => ?_
      obtain ⟨u', hu', hsame⟩ := hrange j u hu
      exact ⟨u', hu', hsame.parent, hsame.separator, hsame.first⟩
    refine ⟨hretains, fun top' i h' => h'.mono hretains (fun _ hx => hx) fun u hu => ?_⟩
    exact hrange i u hu
  · have hg : r.stage = .growing := by
      cases hst : r.stage with
      | growing => rfl
      | finalized => exact (hf hst).elim
      | assigned =>
        obtain ⟨q, s, hq, -⟩ := hl.reserved range r hr hst
        simp [hnone hst] at hq
    have hc := hl.claim hr false none
    rw [← hn] at hc
    exact ⟨.claimed hl hc hg, fun top' i => h.claimed hl hc hg fun x hx => hlead r x hr hg hx⟩

/-- The range below a slot serves the tree of the slot. -/
theorem sub (h : n.layout.Serves P top range) {below : RangeId}
    (hn : n.sub range = .ok (below, n')) :
    n.layout.Retains n'.layout ∧ n'.layout.Serves P top below ∧
      ∀ top' i, n.layout.Serves P top' i → n'.layout.Serves P top' i := by
  obtain ⟨r, slot, s, hr, hc, hs, -, rfl, -, ho⟩ := Numbering.sub_cases hn
  have hrange : ∀ j u, n.layout.range? j = some u → ∃ u', n'.layout.range? j = some u' ∧
      u.Continues u' := by
    intro j u hu
    rw [ho.range, hu, if_neg (by rintro rfl; simp at hu)]
    split
    next hj =>
      subst hj
      cases hr.symm.trans hu
      exact ⟨_, rfl, rfl, rfl, rfl, rfl, rfl, fun hst => hst⟩
    · exact ⟨u, rfl, .refl u⟩
  have hretains : n.layout.Retains n'.layout := by
    refine .of_ranges ho.slot fun j u hu => ?_
    obtain ⟨u', hu', hsame⟩ := hrange j u hu
    exact ⟨u', hu', hsame.parent, hsame.separator, hsame.first⟩
  have hbelow := ho.range n.layout.freshRange
  rw [if_pos rfl] at hbelow
  obtain ⟨u, hu, hp⟩ := h.root
  obtain ⟨u', hu', hparent, -⟩ := hretains.range _ u hu
  refine ⟨hretains, ⟨⟨u', hu', hparent.trans hp⟩, ⟨_, hbelow⟩, fun v q hv hq => ?_,
    fun v p hv hp => ?_, fun v hv hg hp => ?_, fun v x hv hx => ?_⟩, fun top' i h' => ?_⟩
  · cases hbelow.symm.trans hv
    cases hq
  · cases hbelow.symm.trans hv
    cases hp
    exact hretains.covers (h.current r slot hr hc)
  · cases hbelow.symm.trans hv
    cases hp
  · cases hbelow.symm.trans hv
    exact h.lead r x hr hx
  · exact h'.mono hretains (fun _ hx => hx) fun v hv => hrange i v hv

/-- Ranges are added. -/
theorem addRange (new : Range) (h : l.Serves P top i) : (l.addRange new).2.Serves P top i :=
  h.mono (.addRange l new) (fun _ hx => hx) fun u hu => ⟨u, range?_addRange_of_some hu new, .refl u⟩

end Serves

/-- A range that is made for a slot serves the tree of the slot. -/
theorem Serves.assign {n n' : Numbering} {P : RangeId → SlotId → Prop} {top range handle : RangeId}
    (h : n.layout.Serves P top range) (hl : n.layout.Tidy) {level : Option Nat}
    (hn : n.assign range level = .ok (handle, n'))
    (hg : ∀ r, n.layout.range? range = some r → r.stage = .growing)
    (hlead : ∀ r x, n.layout.range? range = some r → n.leadFor range r = some x → P top x) :
    n.layout.Retains n'.layout ∧ n'.layout.Serves P top handle ∧
      ∀ top' i, n.layout.Serves P top' i → n'.layout.Serves P top' i := by
  obtain ⟨r, hr, hhandle⟩ := Numbering.range?_handle hn
  obtain ⟨r', hr', rfl, -, hlayout⟩ := Numbering.assign_cases hn
  cases hr.symm.trans hr'
  have hc := hl.claim hr r.subOpened level
  have hretains := Retains.claimed hl hc (hg r hr)
  have hadd := Retains.addRange (n.claim range r level).2.layout
    (r.handle n.layout.freshSlot (n.leadFor range r) level)
  have hkeep : ∀ top' i, n.layout.Serves P top' i → n'.layout.Serves P top' i := by
    intro top' i h'
    rw [hlayout]
    exact (h.claimed hl hc (hg r hr) (fun x hx => hlead r x hr hx) h').addRange _
  have hserves := hkeep top range h
  have hall : n.layout.Retains n'.layout := by
    rw [hlayout]
    exact hretains.trans hadd
  refine ⟨hall, ⟨hserves.root, ⟨_, hhandle⟩, fun v q hv hq => ?_, fun v p hv hp => ?_,
    fun v hv hst hp => ?_, fun v x hv hx => ?_⟩, hkeep⟩ <;> cases hhandle.symm.trans hv
  · cases hq
    rw [hlayout]
    exact hadd.covers (h.covers_fresh hl hc (hg r hr))
  · exact hall.covers (h.parent r p hr hp)
  · cases hst
  · exact hlead r x hr hx

end Layout

end Folio
