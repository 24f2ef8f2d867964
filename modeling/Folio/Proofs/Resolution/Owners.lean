import Folio.Proofs.Numbering.Openings
import Folio.Proofs.Resolution.Orderly

/-!
# Owners of slots

A labeled node that has claimed a slot opens a range below it. No range lies below a slot that is
about to be claimed, so nobody else has it: no two entries have the same slot
(`Prepared.owned`).
-/

namespace Folio

open Resolution

namespace Resolution

/-- Claiming goes on without losses, and each slot of an entry is that of this entry alone. -/
structure Owned (s₀ s : Resolution) : Prop extends s₀.Orderly s where
  opened : ∀ e entry q, s.registry.entryAt? e = some entry → entry.slot = some q →
    ∃ i, s.numbering.layout.OpenedBelow i q
  inj : ∀ e entry e' entry' q, s.registry.entryAt? e = some entry →
    s.registry.entryAt? e' = some entry' → entry.slot = some q → entry'.slot = some q → e = e'

end Resolution

/-- Ranges below slots stay. -/
theorem Layout.Growth.openedBelow {l l' : Layout} (h : l.Growth l') {i : RangeId} {q : SlotId}
    (hi : l.OpenedBelow i q) : l'.OpenedBelow i q := by
  obtain ⟨r, hr, hg, hp⟩ := hi
  obtain ⟨r', hr', hparent, hstage⟩ := h.kept i r hr
  exact ⟨r', hr', hstage.2 hg, hparent.trans hp⟩

namespace Resolution

variable {s₀ s s' : Resolution}

/-- A labeled node opens a range below its slot. -/
theorem Labeled.openedBelow {f : FrameId} {h : Heading} {entry : EntryId} {inner : FrameId}
    {range : RangeId} {slot : SlotId} {below : RangeId} {n₁ n₂ : Numbering} {r : Range}
    (hl : s.Labeled s' f h entry inner range slot below n₁ n₂)
    (hr : n₁.layout.range? range = some r) (hcur : r.current = some slot) :
    s'.numbering.layout.OpenedBelow below slot := by
  obtain ⟨r', c, t, hr', hc, -, -, rfl, -, hopened⟩ := Numbering.sub_cases hl.sub
  cases hr.symm.trans hr'
  cases hcur.symm.trans hc
  have hbelow : n₂.layout.OpenedBelow n₁.layout.freshRange slot :=
    ⟨_, by rw [hopened.range, if_pos rfl], rfl, rfl⟩
  rw [hl.numbering_eq]
  exact (Layout.Growth.withNested n₂ _ h.nested).openedBelow hbelow

/-- Entries keep their slots while the layout grows. -/
theorem Owned.grow (h : s₀.Owned s) (ho : s₀.Orderly s')
    (hg : s.numbering.layout.Growth s'.numbering.layout) (hr : s'.registry = s.registry) :
    s₀.Owned s' where
  toOrderly := ho
  opened e entry q he hq := by
    obtain ⟨i, hi⟩ := h.opened e entry q (hr ▸ he) hq
    exact ⟨i, hg.openedBelow hi⟩
  inj e entry e' entry' q he he' := h.inj e entry e' entry' q (hr ▸ he) (hr ▸ he')

end Resolution

/-- No two entries have the same slot. -/
theorem Prepared.owned {c : Collection} {W : List (String × List Visit)} {s₀ : Resolution}
    (h : Prepared c W s₀) (hinner : s₀.InnerReferences) :
    Claiming.Invariant W s₀ fun _ => s₀.Owned where
  start d := by
    refine ⟨(h.orderly hinner).start d, fun e entry q he hq => ?_,
      fun e entry _ _ q he _ hq => ?_⟩ <;>
      · rw [h.unslotted e entry he] at hq
        cases hq
  progress _ t ht := ⟨ht.progress, ht.sound⟩
  range e t d info typ location separator rule ht hd htyp hnone hrule := by
    have ho := (h.orderly hinner).range e t d info typ location separator rule ht.toOrderly hd htyp
      hnone hrule
    refine ⟨ho, fun e entry q he hq => ?_, ht.inj⟩
    obtain ⟨i, r, hr, hg, hp⟩ := ht.opened e entry q he hq
    exact ⟨i, r, range?_withRange_of_some hr, hg, hp⟩
  active e t d info ht hd := by
    refine ht.grow ((h.orderly hinner).active e t d info ht.toOrderly hd) ?_ rfl
    exact .setActive t.numbering _
  visit t t' d info vs v ht hd hw hv hready hb hvisit := by
    have ho := (h.orderly hinner).visit t t' d info vs v ht.toOrderly hd hw hv hready hb hvisit
    have hgrowth := hvisit.growth ht.sound
    cases hvisit with
    | text _ _ hn | term _ _ _ _ hn =>
      exact ht.grow ho hgrowth (by rw [hn.same])
    | expansion _ _ _ _ heq => exact heq ▸ ht
    | embedding f key location link document info' range handle n hh =>
      exact ht.grow ho hgrowth (by rw [hh.same]; rfl)
    | heading f h' entry inner range slot below n₁ n₂ hl =>
      obtain ⟨-, hbare, -, r, hr, hcur⟩ := ht.tidy.next hl.next
      have hold : ∀ e en, t'.registry.entryAt? e = some en → e ≠ entry →
          t.registry.entryAt? e = some en := by
        intro e en he hne
        rwa [hl.entryAt?, if_neg hne] at he
      have hnew : ∀ en, t'.registry.entryAt? entry = some en → en.slot = some slot := by
        intro en he
        rw [hl.entryAt?, if_pos rfl] at he
        obtain ⟨old, -, rfl⟩ := Option.map_eq_some_iff.1 he
        rfl
      -- the slot was nobody's, since no range lay below it
      have hfree : ∀ e en, t.registry.entryAt? e = some en → en.slot ≠ some slot := by
        intro e en he hslot
        obtain ⟨i, hi⟩ := ht.opened e en slot he hslot
        obtain ⟨u, hu, hg, hp⟩ := (Layout.Growth.next ht.sound hl.next).openedBelow hi
        exact hbare.parent i u hu hg hp
      refine ⟨ho, fun e en q he hq => ?_, fun e en e' en' q he he' hq hq' => ?_⟩
      · by_cases heq : e = entry
        · subst heq
          cases (hnew en he).symm.trans hq
          exact ⟨below, hl.openedBelow hr hcur⟩
        · obtain ⟨i, hi⟩ := ht.opened e en q (hold e en he heq) hq
          exact ⟨i, hgrowth.openedBelow hi⟩
      · by_cases heq : e = entry
        · by_cases heq' : e' = entry
          · exact heq.trans heq'.symm
          · subst heq
            cases (hnew en he).symm.trans hq
            exact (hfree e' en' (hold e' en' he' heq') hq').elim
        · by_cases heq' : e' = entry
          · subst heq'
            cases (hnew en' he').symm.trans hq'
            exact (hfree e en (hold e en he heq) hq).elim
          · exact ht.inj e en e' en' q (hold e en he heq) (hold e' en' he' heq') hq hq'

end Folio
