import Folio.Proofs.Numbering.Runs
import Folio.Proofs.Numbering.Trees

/-!
# Labels of separate ranges

The labels that a walk binds depend on the shape of the numbering alone: on the slots that hang on
its range, the links between them, and their leads (`Layout.Sound.slot?_createLabels_congr`). Names
are put together later, so it does not matter whether a lead has its label already. A slot hangs on
one range at the top only. So walks from different ones bind different slots, and they can change
places (`Layout.Sound.createLabels_comm`), as often as one likes
(`Numbering.run_createLabels_perm`).
-/

namespace Folio

namespace Layout

variable {l l' m m' : Layout} {i j : RangeId} {a b : Option LabelRule} {q : SlotId}

/-- Layouts are the same if they differ in labels only, and have the same labels. -/
theorem Relabeled.eq_of_slot? (h : l.Relabeled l') (hslot : ∀ q, l'.slot? q = l.slot? q) :
    l' = l := by
  have hslots : l'.slots = l.slots := by
    refine Array.ext h.size fun n hn hn' => ?_
    have heq := hslot ⟨n⟩
    simp only [slot?, Array.getElem?_eq_getElem hn, Array.getElem?_eq_getElem hn'] at heq
    exact Option.some.inj heq
  cases l
  cases l'
  obtain rfl := hslots
  obtain rfl := h.ranges
  obtain rfl := h.active
  rfl

/-- Slots that the range does not cover keep their labels. -/
theorem slot?_createLabels_of_not_covers (h : l.createLabels i a = .ok l') (hq : ¬l.Covers i q) :
    l'.slot? q = l.slot? q := by
  obtain ⟨r, rule, hr, -, rfl⟩ := createLabels_cases h
  exact slot?_bindFrom_of_not_reaches _ _ _ _ _ _ _ fun f hf hreach => hq ⟨r, f, hr, hf, hreach⟩

/-- What is bound to a slot that the range covers does not depend on the labels that there are. -/
theorem Sound.slot?_createLabels_congr (hl : l.Sound) (hm : l.Relabeled m)
    (h : l.createLabels i a = .ok l') (h' : m.createLabels i a = .ok m') (hq : l.Covers i q) :
    m'.slot? q = l'.slot? q := by
  obtain ⟨r, rule, hr, hrule, rfl⟩ := createLabels_cases h
  obtain ⟨r', rule', hr', hrule', rfl⟩ := createLabels_cases h'
  cases hr.symm.trans ((hm.range? i).symm.trans hr')
  cases hrule.symm.trans hrule'
  obtain ⟨r', f, hr', hf, hreach⟩ := hq
  cases hr.symm.trans hr'
  obtain ⟨sep, ρ, hc⟩ :=
    hl.exists_counts hreach (hl.first_gt i r f hr hf).1 r.separator rule none
  obtain ⟨s, hs, hbound⟩ := hl.label_bindFrom (l.slots.size + 1) (by omega) hc
  obtain ⟨t, ht, hbound'⟩ :=
    (hm.sound hl).label_bindFrom (m.slots.size + 1) (by omega) (hc.relabeled hm)
  obtain ⟨label, hs'⟩ := hm.slot q s hs
  cases hs'.symm.trans ht
  rw [hf, hbound, hbound']

/-- Whether labels can be created does not depend on the labels that there are. -/
theorem Relabeled.outcome_createLabels (h : l.Relabeled m) (i : RangeId) (a : Option LabelRule) :
    (m.createLabels i a).map (fun _ => ()) = (l.createLabels i a).map fun _ => () := by
  unfold createLabels
  rw [h.range? i]
  cases l.range? i with
  | none => rfl
  | some r =>
    cases a with
    | some rule => rfl
    | none =>
      dsimp only
      cases r.ruleAtTop? <;> rfl

/-- A range that was made at the top. -/
def AtTop (l : Layout) (i : RangeId) : Prop := ∃ r, l.range? i = some r ∧ r.parent = none

theorem Relabeled.atTop (h : l.Relabeled m) (hi : l.AtTop i) : m.AtTop i := by
  obtain ⟨r, hr, hp⟩ := hi
  exact ⟨r, (h.range? i).trans hr, hp⟩

theorem Sound.not_covers_both (hl : l.Sound) (hi : l.AtTop i) (hj : l.AtTop j) (hne : i ≠ j)
    (hq : l.Covers i q) : ¬l.Covers j q := by
  obtain ⟨r, hr, hp⟩ := hi
  obtain ⟨u, hu, hp'⟩ := hj
  exact fun hq' => hne (hl.covers_unique hr hu hp hp' hq hq')

/-- Walks from different ranges at the top can change places. -/
theorem Sound.createLabels_comm (hl : l.Sound) (hi : l.AtTop i) (hj : l.AtTop j) (hne : i ≠ j)
    {l₁ l₂ l₁₂ l₂₁ : Layout} (h₁ : l.createLabels i a = .ok l₁)
    (h₁₂ : l₁.createLabels j b = .ok l₁₂) (h₂ : l.createLabels j b = .ok l₂)
    (h₂₁ : l₂.createLabels i a = .ok l₂₁) : l₁₂ = l₂₁ := by
  have hl₁ := createLabels_relabeled h₁
  have hl₂ := createLabels_relabeled h₂
  have hboth := (hl₂.trans (createLabels_relabeled h₂₁)).symm.trans
    (hl₁.trans (createLabels_relabeled h₁₂))
  refine hboth.eq_of_slot? fun q => ?_
  have hkeep₁ : ¬l.Covers j q → l₁₂.slot? q = l₁.slot? q := fun hq =>
    slot?_createLabels_of_not_covers h₁₂ fun hq' => hq (hl₁.covers_iff.1 hq')
  have hkeep₂ : ¬l.Covers i q → l₂₁.slot? q = l₂.slot? q := fun hq =>
    slot?_createLabels_of_not_covers h₂₁ fun hq' => hq (hl₂.covers_iff.1 hq')
  by_cases hqi : l.Covers i q
  · rw [hkeep₁ (hl.not_covers_both hi hj hne hqi), hl.slot?_createLabels_congr hl₂ h₁ h₂₁ hqi]
  · by_cases hqj : l.Covers j q
    · rw [hkeep₂ hqi, hl.slot?_createLabels_congr hl₁ h₂ h₁₂ hqj]
    · rw [hkeep₁ hqj, hkeep₂ hqi, slot?_createLabels_of_not_covers h₁ hqi,
        slot?_createLabels_of_not_covers h₂ hqj]

end Layout

namespace Numbering

variable {n n' : Numbering} {i j : RangeId} {a b : Option LabelRule}

/-- What creating labels leads to, apart from the labels. -/
def outcome (n : Numbering) (i : RangeId) (a : Option LabelRule) : Except NumberingError Unit :=
  (n.createLabels i a).map fun _ => ()

theorem outcome_eq (n : Numbering) (i : RangeId) (a : Option LabelRule) :
    n.outcome i a = (n.layout.createLabels i a).map fun _ => () := by
  unfold outcome createLabels
  cases n.layout.createLabels i a <;> rfl

theorem perform_createLabels_of_ok {l : Layout} (h : n.layout.createLabels i a = .ok l) :
    n.perform (.createLabels i a) = { n with layout := l } := by
  simp [perform, attempt, createLabels, h, Except.map]

theorem perform_createLabels_of_error {e : NumberingError}
    (h : n.layout.createLabels i a = .error e) : n.perform (.createLabels i a) = n :=
  perform_of_error (e := e) (by simp [attempt, createLabels, h, Except.map])

theorem relabeled_createLabels (n : Numbering) (i : RangeId) (a : Option LabelRule) :
    n.layout.Relabeled (n.perform (.createLabels i a)).layout := by
  cases h : n.layout.createLabels i a with
  | ok l =>
    rw [perform_createLabels_of_ok h]
    exact Layout.createLabels_relabeled h
  | error e =>
    rw [perform_createLabels_of_error h]
    exact .refl _

theorem outcome_perform (n : Numbering) (i j : RangeId) (a b : Option LabelRule) :
    (n.perform (.createLabels i a)).outcome j b = n.outcome j b := by
  rw [outcome_eq, outcome_eq]
  exact (n.relabeled_createLabels i a).outcome_createLabels j b

/-- If labels cannot be created, they cannot be created after those of another range either. -/
theorem createLabels_error_perform {e : NumberingError} (h : n.layout.createLabels j b = .error e)
    (i : RangeId) (a : Option LabelRule) :
    (n.perform (.createLabels i a)).layout.createLabels j b = .error e := by
  have heq := (n.relabeled_createLabels i a).outcome_createLabels j b
  rw [h] at heq
  cases h' : (n.perform (.createLabels i a)).layout.createLabels j b with
  | ok l => simp [h', Except.map] at heq
  | error e' => simpa [h', Except.map] using heq

theorem createLabels_ok_perform {l : Layout} (h : n.layout.createLabels j b = .ok l)
    (i : RangeId) (a : Option LabelRule) :
    ∃ l', (n.perform (.createLabels i a)).layout.createLabels j b = .ok l' := by
  have heq := (n.relabeled_createLabels i a).outcome_createLabels j b
  rw [h] at heq
  cases h' : (n.perform (.createLabels i a)).layout.createLabels j b with
  | ok l' => exact ⟨l', rfl⟩
  | error e => simp [h', Except.map] at heq

theorem perform_createLabels_comm (hn : n.layout.Sound) (hi : n.layout.AtTop i)
    (hj : n.layout.AtTop j) (hne : i ≠ j) (a b : Option LabelRule) :
    (n.perform (.createLabels i a)).perform (.createLabels j b) =
      (n.perform (.createLabels j b)).perform (.createLabels i a) := by
  cases h₁ : n.layout.createLabels i a with
  | error e =>
    rw [perform_createLabels_of_error h₁,
      perform_createLabels_of_error (createLabels_error_perform h₁ j b)]
  | ok l₁ =>
    cases h₂ : n.layout.createLabels j b with
    | error e =>
      rw [perform_createLabels_of_error h₂,
        perform_createLabels_of_error (createLabels_error_perform h₂ i a)]
    | ok l₂ =>
      obtain ⟨l₁₂, h₁₂⟩ := createLabels_ok_perform h₂ i a
      obtain ⟨l₂₁, h₂₁⟩ := createLabels_ok_perform h₁ j b
      rw [perform_createLabels_of_ok h₁₂, perform_createLabels_of_ok h₂₁]
      rw [perform_createLabels_of_ok h₁] at h₁₂ ⊢
      rw [perform_createLabels_of_ok h₂] at h₂₁ ⊢
      rw [hn.createLabels_comm hi hj hne h₁ h₁₂ h₂ h₂₁]

/-- Labels of ranges at the top can be created in any order. -/
theorem run_createLabels_perm {ranges ranges' : List RangeId} (hp : ranges.Perm ranges')
    (hn : n.layout.Sound) (htop : ∀ i ∈ ranges, n.layout.AtTop i) (a : RangeId → Option LabelRule) :
    n.run (ranges.map fun i => .createLabels i (a i)) =
      n.run (ranges'.map fun i => .createLabels i (a i)) := by
  induction hp generalizing n with
  | nil => rfl
  | @cons i ranges ranges' _ ih =>
    have hl := n.relabeled_createLabels i (a i)
    exact ih (hl.sound hn) fun j hj => hl.atTop (htop j (List.mem_cons_of_mem _ hj))
  | swap i j ranges =>
    by_cases hne : i = j
    · rw [hne]
    · have hcomm :=
        perform_createLabels_comm hn (htop i (by simp)) (htop j (by simp)) hne (a i) (a j)
      simp only [List.map_cons, run_cons, hcomm]
  | trans h _ ih ih' =>
    exact (ih hn htop).trans (ih' hn fun i hi => htop i (h.mem_iff.2 hi))

/-! ## Ranges that are made in a run -/

/-- A range at the top stays there, whatever is done. -/
theorem atTop_perform (hn : n.layout.Sound) (hi : n.layout.AtTop i) (op : Operation) :
    (n.perform op).layout.AtTop i := by
  obtain ⟨r, hr, hp⟩ := hi
  have hkeep : ∀ n' : Numbering, (∃ r', n'.layout.range? i = some r' ∧ r.SameSettings r') →
      n'.layout.AtTop i := fun n' ⟨r', hr', hsame⟩ => ⟨r', hr', hsame.parent.trans hp⟩
  refine perform_induction (I := fun n => n.layout.AtTop i) ⟨r, hr, hp⟩ ?_ ?_ ?_ ?_ ?_ ?_ ?_ ?_
  · intro typ abbreviation lead _
    rw [layout_newRange]
    exact ⟨r, Layout.range?_addRange_of_some hr _, hp⟩
  · exact fun _ _ _ _ hnext => hkeep _ (Range.SameSettings.next hn hnext hr)
  · exact fun _ _ _ _ hsub => hkeep _ (Range.SameSettings.sub hsub hr)
  · exact fun _ _ _ _ _ hassign => hkeep _ (Range.SameSettings.assign hn hassign hr)
  · intro range separator rule _
    rw [Layout.AtTop, range?_setRule, hr]
    split <;> exact ⟨_, rfl, hp⟩
  · intro range weight _
    rw [Layout.AtTop, range?_setWeight, hr]
    split <;> exact ⟨_, rfl, hp⟩
  · exact fun active _ => ⟨r, hr, hp⟩
  · intro range incoming n' _ hcreate
    exact (Layout.createLabels_relabeled (createLabels_layout hcreate).1).atTop ⟨r, hr, hp⟩

/-- A run makes a range at the top. -/
def Makes (ops : List Operation) (i : RangeId) : Prop :=
  ∃ before typ abbreviation lead after, ops = before ++ .newRange typ abbreviation lead :: after ∧
    ((run {} before).newRange typ abbreviation lead).1 = i

theorem Makes.atTop {ops : List Operation} (h : Makes ops i) : (run {} ops).layout.AtTop i := by
  obtain ⟨before, typ, abbreviation, lead, after, rfl, rfl⟩ := h
  have hsplit : run {} (before ++ .newRange typ abbreviation lead :: after) =
      ((run {} before).perform (.newRange typ abbreviation lead)).run after := by
    simp [run, List.foldl_append]
  have hmade := ordered_perform (ordered_run before) (.newRange typ abbreviation lead)
  have htop : ((run {} before).perform (.newRange typ abbreviation lead)).layout.AtTop
      ((run {} before).newRange typ abbreviation lead).1 := by
    refine ⟨{ typ, abbreviation }, ?_, rfl⟩
    change ((run {} before).newRange typ abbreviation lead).2.layout.range? _ = _
    rw [layout_newRange, newRange_fst, Layout.range?_addRange, Layout.addRange_fst, if_pos rfl]
  rw [hsplit]
  exact (run_induction (I := fun n => n.layout.Ordered ∧ n.layout.AtTop _) ⟨hmade, htop⟩
    (fun n op h => ⟨ordered_perform h.1 op, atTop_perform h.1.toSound h.2 op⟩) after).2

end Numbering

end Folio
