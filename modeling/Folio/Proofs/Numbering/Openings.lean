import Folio.Proofs.Numbering.Runs
import Mathlib.Data.List.Induction

/-!
# Ranges opened below slots

`Numbering.sub` opens a range below the latest slot of a range, and is meant to do so once for each
slot. What it looks at is a mark of the range, though. `Layout.Guarded` says for which slots the mark
tells the truth: for all that were claimed by `Numbering.next`. A slot that was claimed by
`Numbering.assign` is the latest one of two ranges, the one that claimed it and the handle. Each of
them has a mark of its own, and the first one keeps the mark of the slot before
(`Numbering.not_forall_openedBelow_inj`, `Numbering.not_forall_sub_ok`).
-/

namespace Folio

/-- Two ranges agree in what counts when a range is opened below their latest slots. -/
structure Range.SameUse (r r' : Range) : Prop where
  current : r'.current = r.current
  parent : r'.parent = r.parent
  stage : r'.stage = r.stage
  subOpened : r'.subOpened = r.subOpened

theorem Range.SameUse.refl (r : Range) : r.SameUse r := ⟨rfl, rfl, rfl, rfl⟩

namespace Layout

/-- The range at `i` was opened below the slot at `q`. -/
def OpenedBelow (l : Layout) (i : RangeId) (q : SlotId) : Prop :=
  ∃ r, l.range? i = some r ∧ r.stage = .growing ∧ r.parent = some q

/-- The marks of ranges are right about all slots but those in `taken`, and a range that does not
grow has one of these. -/
structure Guarded (l : Layout) (taken : SlotId → Prop) : Prop where
  home : ∀ i r q, l.range? i = some r → r.current = some q → ¬ taken q →
    ∃ s, l.slot? q = some s ∧ s.range = i
  mark : ∀ i r q, l.range? i = some r → r.current = some q → ¬ taken q →
    (r.subOpened = true ↔ ∃ j, l.OpenedBelow j q)
  single : ∀ i j q, l.OpenedBelow i q → l.OpenedBelow j q → ¬ taken q → i = j
  handle : ∀ i r, l.range? i = some r → r.stage ≠ .growing → ∃ q, r.current = some q ∧ taken q

namespace Guarded

variable {l l' : Layout} {taken : SlotId → Prop} {range : RangeId} {r : Range} {opened : Bool}
  {lead : Option SlotId} {pinned : Option Nat}

theorem empty (taken : SlotId → Prop) : ({} : Layout).Guarded taken where
  home i r q hr := by simp [range?] at hr
  mark i r q hr := by simp [range?] at hr
  single i j q hi := by simp [OpenedBelow, range?] at hi
  handle i r hr := by simp [range?] at hr

/-- Ranges change in what does not concern the use of their slots, and ranges are added at the
top. -/
theorem congr (h : l.Guarded taken)
    (hslot : ∀ q s, l.slot? q = some s → ∃ s', l'.slot? q = some s' ∧ s'.range = s.range)
    (hkept : ∀ i r, l.range? i = some r → ∃ r', l'.range? i = some r' ∧ r.SameUse r')
    (hadded : ∀ i r', l'.range? i = some r' → l.range? i = none →
      r'.stage = .growing ∧ r'.current = none ∧ r'.parent = none) : l'.Guarded taken := by
  have hrange : ∀ i r', l'.range? i = some r' → (∃ r, l.range? i = some r ∧ r.SameUse r') ∨
      r'.stage = .growing ∧ r'.current = none ∧ r'.parent = none := by
    intro i r' hr'
    cases hr : l.range? i with
    | none => exact .inr (hadded i r' hr' hr)
    | some r =>
      obtain ⟨u, hu, hsame⟩ := hkept i r hr
      cases hr'.symm.trans hu
      exact .inl ⟨r, rfl, hsame⟩
  have hopened : ∀ i q, l'.OpenedBelow i q ↔ l.OpenedBelow i q := by
    intro i q
    constructor
    · rintro ⟨r', hr', hg, hp⟩
      rcases hrange i r' hr' with ⟨r, hr, hsame⟩ | ⟨-, -, hnone⟩
      · exact ⟨r, hr, hsame.stage.symm.trans hg, hsame.parent.symm.trans hp⟩
      · simp [hnone] at hp
    · rintro ⟨r, hr, hg, hp⟩
      obtain ⟨r', hr', hsame⟩ := hkept i r hr
      exact ⟨r', hr', hsame.stage.trans hg, hsame.parent.trans hp⟩
  refine ⟨fun i r' q hr' hq ht => ?_, fun i r' q hr' hq ht => ?_, fun i j q hi hj => ?_,
    fun i r' hr' hg => ?_⟩
  · rcases hrange i r' hr' with ⟨r, hr, hsame⟩ | ⟨-, hnone, -⟩
    · obtain ⟨s, hs, hi⟩ := h.home i r q hr (hsame.current.symm.trans hq) ht
      obtain ⟨s', hs', hi'⟩ := hslot q s hs
      exact ⟨s', hs', hi'.trans hi⟩
    · simp [hnone] at hq
  · rcases hrange i r' hr' with ⟨r, hr, hsame⟩ | ⟨-, hnone, -⟩
    · rw [hsame.subOpened, h.mark i r q hr (hsame.current.symm.trans hq) ht]
      simp only [hopened]
    · simp [hnone] at hq
  · exact h.single i j q ((hopened i q).1 hi) ((hopened j q).1 hj)
  · rcases hrange i r' hr' with ⟨r, hr, hsame⟩ | ⟨hgrow, -⟩
    · rw [hsame.current]
      exact h.handle i r hr fun hrg => hg (hsame.stage.trans hrg)
    · exact (hg hgrow).elim

theorem modify (h : l.Guarded taken) (f : Range → Range) (hf : ∀ r : Range, r.SameUse (f r)) :
    ({ l with ranges := l.ranges.modify range.index f } : Layout).Guarded taken := by
  refine h.congr (fun _ s hs => ⟨s, hs, rfl⟩) (fun i r hr => ?_) fun i r' hr' hr => ?_
  · rw [range?_modify, hr]
    split
    · exact ⟨f r, rfl, hf r⟩
    · exact ⟨r, rfl, .refl r⟩
  · simp [range?_modify, hr] at hr'

theorem relabeled (h : l.Guarded taken) (hl : l.Relabeled l') : l'.Guarded taken := by
  refine h.congr (fun q s hs => ?_) (fun i r hr => ⟨r, (hl.range? i).trans hr, .refl r⟩)
    fun i r' hr' hr => ?_
  · obtain ⟨label, hs'⟩ := hl.slot q s hs
    exact ⟨_, hs', rfl⟩
  · cases hr.symm.trans ((hl.range? i).symm.trans hr')

/-- No range is opened below a slot that does not exist yet. -/
theorem not_openedBelow_fresh (hs : l.Sound) (i : RangeId) : ¬ l.OpenedBelow i l.freshSlot := by
  rintro ⟨r, hr, -, hp⟩
  exact hs.parent_ne_fresh hr hp

theorem openedBelow_claimed (hc : l.Claimed l' range r opened lead pinned) (i : RangeId)
    (q : SlotId) : l'.OpenedBelow i q ↔ l.OpenedBelow i q := by
  by_cases hi : i = range
  · subst hi
    simp [OpenedBelow, hc.range_self, hc.before, Range.grown]
  · simp [OpenedBelow, hc.range_other hi]

/-- A range claims a slot, which is one of `taken` unless the range grows and takes its mark
back. -/
theorem claimed (h : l.Guarded taken) (hs : l.Sound)
    (hc : l.Claimed l' range r opened lead pinned)
    (hfresh : r.stage = .growing ∧ opened = false ∨ taken l.freshSlot) : l'.Guarded taken := by
  have hopened := openedBelow_claimed hc
  refine ⟨fun i u q hu hq ht => ?_, fun i u q hu hq ht => ?_, fun i j q hi hj => ?_,
    fun i u hu hg => ?_⟩
  · by_cases hi : i = range
    · subst hi
      cases hc.range_self.symm.trans hu
      cases hq
      exact ⟨_, hc.slot_fresh, rfl⟩
    · obtain ⟨s, hs, hsi⟩ := h.home i u q ((hc.range_other hi).symm.trans hu) hq ht
      exact ⟨_, hc.slot_old hs, by rw [Slot.linked_range, hsi]⟩
  · simp only [hopened]
    by_cases hi : i = range
    · subst hi
      cases hc.range_self.symm.trans hu
      cases hq
      rcases hfresh with ⟨-, rfl⟩ | htaken
      · simp [not_openedBelow_fresh hs]
      · exact (ht htaken).elim
    · exact h.mark i u q ((hc.range_other hi).symm.trans hu) hq ht
  · exact h.single i j q ((hopened i q).1 hi) ((hopened j q).1 hj)
  · by_cases hi : i = range
    · subst hi
      cases hc.range_self.symm.trans hu
      rcases hfresh with ⟨hgrow, -⟩ | htaken
      · exact (hg hgrow).elim
      · exact ⟨_, rfl, htaken⟩
    · exact h.handle i u ((hc.range_other hi).symm.trans hu) hg

/-- More slots may be taken. -/
theorem mono {taken' : SlotId → Prop} (h : l.Guarded taken) (ht : ∀ q, taken q → taken' q) :
    l.Guarded taken' where
  home i r q hr hq hn := h.home i r q hr hq fun hq => hn (ht q hq)
  mark i r q hr hq hn := h.mark i r q hr hq fun hq => hn (ht q hq)
  single i j q hi hj hn := h.single i j q hi hj fun hq => hn (ht q hq)
  handle i r hr hg := by
    obtain ⟨q, hq, hqt⟩ := h.handle i r hr hg
    exact ⟨q, hq, ht q hqt⟩

/-- A handle is made for a slot that is taken. -/
theorem addHandle (h : l.Guarded taken) {new : Range} {slot : SlotId} (hg : new.stage = .assigned)
    (hc : new.current = some slot) (ht : taken slot) : (l.addRange new).2.Guarded taken := by
  have hold : ∀ i r', (l.addRange new).2.range? i = some r' → r' = new ∨ l.range? i = some r' := by
    intro i r' hr'
    rw [range?_addRange] at hr'
    split at hr'
    · exact .inl (Option.some.inj hr').symm
    · exact .inr hr'
  have hkept : ∀ i r, l.range? i = some r → (l.addRange new).2.range? i = some r :=
    fun _ _ hr => range?_addRange_of_some hr new
  have hopened : ∀ i q, (l.addRange new).2.OpenedBelow i q ↔ l.OpenedBelow i q := by
    intro i q
    constructor
    · rintro ⟨r', hr', hgrow, hp⟩
      rcases hold i r' hr' with rfl | hr
      · simp [hg] at hgrow
      · exact ⟨r', hr, hgrow, hp⟩
    · rintro ⟨r, hr, hgrow, hp⟩
      exact ⟨r, hkept i r hr, hgrow, hp⟩
  refine ⟨fun i r' q hr' hq hn => ?_, fun i r' q hr' hq hn => ?_, fun i j q hi hj => ?_,
    fun i r' hr' hgrow => ?_⟩
  · rcases hold i r' hr' with rfl | hr
    · cases hc.symm.trans hq
      exact (hn ht).elim
    · exact h.home i r' q hr hq hn
  · simp only [hopened]
    rcases hold i r' hr' with rfl | hr
    · cases hc.symm.trans hq
      exact (hn ht).elim
    · exact h.mark i r' q hr hq hn
  · exact h.single i j q ((hopened i q).1 hi) ((hopened j q).1 hj)
  · rcases hold i r' hr' with rfl | hr
    · exact ⟨slot, hc, ht⟩
    · exact h.handle i r' hr hgrow

/-! ## The operations -/

variable {n n' : Numbering}

theorem next (h : n.layout.Guarded taken) (hs : n.layout.Sound) {slot : SlotId}
    (hn : n.next range = .ok (slot, n')) : n'.layout.Guarded taken := by
  obtain ⟨r, hr, hf, ⟨ha, hc, rfl⟩ | ⟨hnone, heq⟩⟩ := Numbering.next_cases hn
  · -- The slot of a handle is taken, so the mark need not be right about it.
    obtain ⟨q, hq, ht⟩ := h.handle range r hr (by simp [ha])
    cases hc.symm.trans hq
    have hold : ∀ i u', (n.layout.setRange range
        { r with subOpened := false, stage := .finalized }).range? i = some u' →
        i = range ∧ u'.current = some slot ∧ u'.stage = .finalized ∨
          i ≠ range ∧ n.layout.range? i = some u' := by
      intro i u' hu'
      rw [range?_setRange] at hu'
      split at hu'
      next hi =>
        subst hi
        rw [hr] at hu'
        cases hu'
        exact .inl ⟨rfl, hc, rfl⟩
      next hi => exact .inr ⟨hi, hu'⟩
    have hopened : ∀ i q, (n.layout.setRange range
        { r with subOpened := false, stage := .finalized }).OpenedBelow i q ↔
          n.layout.OpenedBelow i q := by
      intro i q
      by_cases hi : i = range
      · subst hi
        simp [OpenedBelow, range?_setRange, hr, ha]
      · simp [OpenedBelow, range?_setRange, hi]
    refine ⟨fun i u' q hu' hq hnt => ?_, fun i u' q hu' hq hnt => ?_, fun i j q hi hj => ?_,
      fun i u' hu' hg => ?_⟩
    · rcases hold i u' hu' with ⟨rfl, hcur, -⟩ | ⟨hi, hu⟩
      · cases hcur.symm.trans hq
        exact (hnt ht).elim
      · exact h.home i u' q hu hq hnt
    · simp only [hopened]
      rcases hold i u' hu' with ⟨rfl, hcur, -⟩ | ⟨hi, hu⟩
      · cases hcur.symm.trans hq
        exact (hnt ht).elim
      · exact h.mark i u' q hu hq hnt
    · exact h.single i j q ((hopened i q).1 hi) ((hopened j q).1 hj)
    · rcases hold i u' hu' with ⟨rfl, hcur, -⟩ | ⟨hi, hu⟩
      · exact ⟨slot, hcur, ht⟩
      · exact h.handle i u' hu hg
  · have hg : r.stage = .growing := by
      cases hst : r.stage with
      | growing => rfl
      | finalized => exact (hf hst).elim
      | assigned =>
        obtain ⟨q, hq, -⟩ := h.handle range r hr (by simp [hst])
        simp [hnone hst] at hq
    cases heq
    exact h.claimed hs (hs.claim hr false none) (.inl ⟨hg, rfl⟩)

theorem assign (h : n.layout.Guarded taken) (hs : n.layout.Sound) {level : Option Nat}
    {handle : RangeId} (hn : n.assign range level = .ok (handle, n'))
    (ht : taken n.layout.freshSlot) : n'.layout.Guarded taken := by
  obtain ⟨r, hr, -, -, hl⟩ := Numbering.assign_cases hn
  rw [hl]
  exact (h.claimed hs (hs.claim hr r.subOpened level) (.inr ht)).addHandle rfl rfl ht

theorem openedBelow_sub {below : RangeId} (hn : n.sub range = .ok (below, n')) (i : RangeId)
    (q : SlotId) : n'.layout.OpenedBelow i q ↔
      i = below ∧ n.layout.current range = some q ∨ n.layout.OpenedBelow i q := by
  obtain ⟨r, slot, s, hr, hc, hs, -, rfl, -, ho⟩ := Numbering.sub_cases hn
  by_cases hfresh : i = n.layout.freshRange
  · subst hfresh
    simp [OpenedBelow, ho.range, current, hr, hc]
  · by_cases hi : i = range
    · subst hi
      simp [OpenedBelow, ho.range, hfresh, hr]
    · simp [OpenedBelow, ho.range, hfresh, hi]

theorem sub (h : n.layout.Guarded taken) {below : RangeId} (hn : n.sub range = .ok (below, n')) :
    n'.layout.Guarded taken := by
  have hopened := openedBelow_sub hn
  obtain ⟨r, slot, s, hr, hc, hs, hunmarked, rfl, -, ho⟩ := Numbering.sub_cases hn
  have hcur : n.layout.current range = some slot := by rw [current, hr, Option.bind_some, hc]
  -- A range is opened below a slot that has none yet, if it is not taken.
  have hnone : ¬ taken slot → ∀ j, ¬ n.layout.OpenedBelow j slot := by
    intro ht j hj
    have hmark := (h.mark range r slot hr hc ht).2 ⟨j, hj⟩
    simp [hunmarked] at hmark
  have hold : ∀ i u', n'.layout.range? i = some u' →
      (i = n.layout.freshRange ∧ u'.stage = .growing ∧ u'.current = none) ∨
      (i = range ∧ u' = { r with subOpened := true }) ∨
      (i ≠ range ∧ n.layout.range? i = some u') := by
    intro i u' hu'
    rw [ho.range] at hu'
    split at hu'
    next hi =>
      cases hu'
      exact .inl ⟨hi, rfl, rfl⟩
    · split at hu'
      next hi =>
        subst hi
        rw [hr] at hu'
        exact .inr (.inl ⟨rfl, (Option.some.inj hu').symm⟩)
      next hi => exact .inr (.inr ⟨hi, hu'⟩)
  refine ⟨fun i u' q hu' hq ht => ?_, fun i u' q hu' hq ht => ?_, fun i j q hi hj ht => ?_,
    fun i u' hu' hg => ?_⟩
  · rw [ho.slot]
    rcases hold i u' hu' with ⟨-, -, hblank⟩ | ⟨rfl, rfl⟩ | ⟨-, hu⟩
    · simp [hblank] at hq
    · exact h.home i r q hr hq ht
    · exact h.home i u' q hu hq ht
  · simp only [hopened, hcur]
    rcases hold i u' hu' with ⟨-, -, hblank⟩ | ⟨rfl, rfl⟩ | ⟨hi, hu⟩
    · simp [hblank] at hq
    · cases hc.symm.trans hq
      simp
    · -- The slot belongs to one range, so no other range has it.
      have hne : slot ≠ q := by
        rintro rfl
        obtain ⟨t, ht', hti⟩ := h.home i u' slot hu hq ht
        obtain ⟨t', ht'', hti'⟩ := h.home range r slot hr hc ht
        cases ht'.symm.trans ht''
        exact hi (hti.symm.trans hti')
      simp [hne, h.mark i u' q hu hq ht]
  · rw [hopened, hcur] at hi hj
    rcases hi with ⟨rfl, hi⟩ | hi <;> rcases hj with ⟨rfl, hj⟩ | hj
    · rfl
    · cases hi
      exact (hnone ht j hj).elim
    · cases hj
      exact (hnone ht i hi).elim
    · exact h.single i j q hi hj ht
  · rcases hold i u' hu' with ⟨-, hgrow, -⟩ | ⟨rfl, rfl⟩ | ⟨hi, hu⟩
    · exact (hg hgrow).elim
    · exact h.handle i r hr hg
    · exact h.handle i u' hu hg

end Guarded

end Layout

namespace Numbering

open Layout

variable {n n' : Numbering} {op : Operation} {ops : List Operation} {range : RangeId} {q : SlotId}

/-! ## Slots that were assigned -/

/-- An operation claims the slot at `q` by an assignment. -/
def Assigns (n : Numbering) (op : Operation) (q : SlotId) : Prop :=
  ∃ range level handle n', op = .assign range level ∧ n.assign range level = .ok (handle, n') ∧
    q = n.layout.freshSlot

/-- The slot at `q` was claimed by an assignment of a run. -/
def Assigned (q : SlotId) : Numbering → List Operation → Prop
  | _, [] => False
  | n, op :: ops => n.Assigns op q ∨ Assigned q (n.perform op) ops

theorem assigned_concat : Assigned q n (ops ++ [op]) ↔ Assigned q n ops ∨ (n.run ops).Assigns op q := by
  induction ops generalizing n with
  | nil => simp [Assigned]
  | cons op ops ih => simp [Assigned, ih, or_assoc]

theorem guarded_perform {taken : SlotId → Prop} (h : n.layout.Guarded taken) (hs : n.layout.Sound)
    (hop : ∀ q, n.Assigns op q → taken q) : (n.perform op).layout.Guarded taken := by
  refine perform_induction (I := fun n => n.layout.Guarded taken) h ?_ ?_ ?_ ?_ ?_ ?_ ?_ ?_
  · intro typ abbreviation lead _
    rw [layout_newRange]
    refine h.congr (fun _ s hs => ⟨s, hs, rfl⟩)
      (fun i r hr => ⟨r, range?_addRange_of_some hr _, .refl r⟩) fun i r' hr' hr => ?_
    rw [range?_addRange, hr] at hr'
    split at hr' <;> cases hr'
    exact ⟨rfl, rfl, rfl⟩
  · exact fun range slot n' _ hn => h.next hs hn
  · exact fun range below n' _ hn => h.sub hn
  · exact fun range level handle n' heq hn =>
      h.assign hs hn (hop _ ⟨range, level, handle, n', heq, hn, rfl⟩)
  · exact fun range separator rule _ => h.modify _ fun _ => ⟨rfl, rfl, rfl, rfl⟩
  · exact fun range weight _ => h.modify _ fun _ => ⟨rfl, rfl, rfl, rfl⟩
  · exact fun active _ => h.congr (fun _ s hs => ⟨s, hs, rfl⟩) (fun _ r hr => ⟨r, hr, .refl r⟩)
      fun _ _ hr' hr => by cases hr.symm.trans hr'
  · intro range incoming n' _ hn
    obtain ⟨hl, -⟩ := createLabels_layout hn
    exact h.relabeled (Layout.createLabels_relabeled hl)

/-- After any run, marks are right about all slots that were not assigned. -/
theorem guarded_run (ops : List Operation) :
    (run {} ops).layout.Guarded fun q => Assigned q {} ops := by
  induction ops using List.reverseRecOn with
  | nil => exact .empty _
  | append_singleton ops op ih =>
    rw [run_concat]
    refine guarded_perform (ih.mono fun q hq => assigned_concat.2 (.inl hq))
      (ordered_run ops).toSound fun q hq => assigned_concat.2 (.inr hq)

/-! ## Opening a range -/

/-- After any run, a range can be opened below the latest slot of a range exactly if none was opened
there yet, and at most one is, unless the slot was assigned. -/
theorem sub_ok_iff (ops : List Operation) {r : Range} {s : Slot}
    (hr : (run {} ops).layout.range? range = some r) (hq : r.current = some q)
    (hs : (run {} ops).layout.slot? q = some s) (hfree : ¬ Assigned q {} ops) :
    ((∀ i, ¬ (run {} ops).layout.OpenedBelow i q) → ∃ below n',
      (run {} ops).sub range = .ok (below, n') ∧ n'.layout.OpenedBelow below q) ∧
    ((∃ i, (run {} ops).layout.OpenedBelow i q) →
      (run {} ops).sub range = .error (.subRangeExists s.id)) ∧
    ∀ i j, (run {} ops).layout.OpenedBelow i q → (run {} ops).layout.OpenedBelow j q → i = j := by
  have h := guarded_run ops
  have hmark := h.mark range r q hr hq hfree
  have hslot : (r.current.bind fun slot => ((run {} ops).layout.slot? slot).map (slot, ·)) =
      some (q, s) := by
    rw [hq, Option.bind_some, hs, Option.map_some]
  refine ⟨fun hnone => ?_, fun hsome => ?_, fun i j hi hj => h.single i j q hi hj hfree⟩
  · have hfalse : r.subOpened = false := by
      cases hb : r.subOpened with
      | false => rfl
      | true =>
        obtain ⟨j, hj⟩ := hmark.1 hb
        exact (hnone j hj).elim
    obtain ⟨below, n', hn⟩ : ∃ below n', (run {} ops).sub range = .ok (below, n') := by
      simp [sub, hr, hslot, hfalse]
    refine ⟨below, n', hn, (Guarded.openedBelow_sub hn below q).2 (.inl ⟨rfl, ?_⟩)⟩
    rw [current, hr, Option.bind_some, hq]
  · simp [sub, hr, hslot, hmark.2 hsome]

/-- Below the second slot of a range a range is opened, and no second one. -/
theorem sub_ok_iff_second_slot :
    let ops : List Operation := [.newRange "section" "" none, .assign ⟨0⟩ none, .next ⟨0⟩, .sub ⟨0⟩]
    ¬ Assigned ⟨1⟩ {} ops ∧ (run {} ops).layout.OpenedBelow ⟨2⟩ ⟨1⟩ ∧
      (run {} ops).sub ⟨0⟩ = .error (.subRangeExists ⟨"section", [2]⟩) := by
  have hfree : ¬ Assigned ⟨1⟩ {} [.newRange "section" "" none, .assign ⟨0⟩ none, .next ⟨0⟩,
      .sub ⟨0⟩] := by
    simp only [Assigned, Assigns]
    rintro (⟨_, _, _, _, h, -⟩ | ⟨-, -, -, -, -, -, h⟩ | ⟨_, _, _, _, h, -⟩ | ⟨_, _, _, _, h, -⟩ | h)
    · cases h
    · revert h
      decide
    · cases h
    · cases h
    · exact h
  have hopened : (run {} [.newRange "section" "" none, .assign ⟨0⟩ none, .next ⟨0⟩,
      .sub ⟨0⟩]).layout.OpenedBelow ⟨2⟩ ⟨1⟩ := ⟨_, rfl, rfl, rfl⟩
  exact ⟨hfree, hopened, (sub_ok_iff _ rfl rfl rfl hfree).2.1 ⟨_, hopened⟩⟩

/-- Two ranges can be opened below a slot that was assigned. -/
theorem not_forall_openedBelow_inj : ¬ ∀ (ops : List Operation) (i j : RangeId) (q : SlotId),
    (run {} ops).layout.OpenedBelow i q → (run {} ops).layout.OpenedBelow j q → i = j := by
  intro h
  have heq := h [.newRange "section" "" none, .assign ⟨0⟩ none, .sub ⟨0⟩, .sub ⟨1⟩] ⟨2⟩ ⟨3⟩ ⟨0⟩
    ⟨_, rfl, rfl, rfl⟩ ⟨_, rfl, rfl, rfl⟩
  cases heq

/-- None can be opened below a slot that was assigned if one was opened below the slot before. -/
theorem not_forall_sub_ok : ¬ ∀ (ops : List Operation) (range : RangeId) (q : SlotId),
    (run {} ops).layout.current range = some q →
      (∀ i, ¬ (run {} ops).layout.OpenedBelow i q) → ∃ p, (run {} ops).sub range = .ok p := by
  intro h
  have hnone : ∀ i, ¬ (run {} [.newRange "section" "" none, .next ⟨0⟩, .sub ⟨0⟩,
      .assign ⟨0⟩ none]).layout.OpenedBelow i ⟨1⟩ := by
    rintro ⟨i⟩ ⟨r, hr, hg, hp⟩
    have hlt := range?_lt hr
    match i, hlt with
    | 0, _ => cases hr; cases hp
    | 1, _ => cases hr; cases hp
    | 2, _ => cases hr; cases hg
  obtain ⟨p, hp⟩ := h _ ⟨0⟩ ⟨1⟩ rfl hnone
  cases hp

end Numbering

end Folio
