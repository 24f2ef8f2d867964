import Folio.Proofs.Numbering.Links
import Mathlib.Tactic.Set

/-!
# The labels that a walk binds

`Layout.bindFrom` walks along links and carries a rule on. `Layout.Counts` says with which rule it
comes to a slot, without walking: one constructor for the first slot, one for a step to the next
slot, one for a step below. Main statement: in a sound layout the walk comes to every slot that
can be reached, once, and binds to it the label that `Counts` gives (`label_bindFrom`). It
changes nothing else (`bindFrom_relabeled`, `slot?_bindFrom_of_not_reaches`).
-/

namespace Folio

namespace Layout

/-- `l'` differs from `l` in the labels of slots only. -/
structure Relabeled (l l' : Layout) : Prop where
  ranges : l'.ranges = l.ranges
  active : l'.active = l.active
  size : l'.slots.size = l.slots.size
  slot : ∀ q s, l.slot? q = some s → ∃ label, l'.slot? q = some { s with label }

namespace Relabeled

variable {l l' l'' : Layout}

theorem refl (l : Layout) : l.Relabeled l := ⟨rfl, rfl, rfl, fun _ s hs => ⟨s.label, hs⟩⟩

theorem trans (h : l.Relabeled l') (h' : l'.Relabeled l'') : l.Relabeled l'' := by
  refine ⟨h'.ranges.trans h.ranges, h'.active.trans h.active, h'.size.trans h.size, fun q s hs => ?_⟩
  obtain ⟨label, hs'⟩ := h.slot q s hs
  obtain ⟨label', hs''⟩ := h'.slot q _ hs'
  exact ⟨label', hs''⟩

theorem symm (h : l.Relabeled l') : l'.Relabeled l := by
  refine ⟨h.ranges.symm, h.active.symm, h.size.symm, fun q s' hs' => ?_⟩
  obtain ⟨s, hs⟩ := slot?_isSome (h.size ▸ slot?_lt hs')
  obtain ⟨label, hl⟩ := h.slot q s hs
  cases hs'.symm.trans hl
  exact ⟨s.label, hs⟩

theorem range? (h : l.Relabeled l') (i : RangeId) : l'.range? i = l.range? i := by
  simp [Layout.range?, h.ranges]

theorem link (h : l.Relabeled l') {p q : SlotId} (hl : l.Link p q) : l'.Link p q := by
  rcases hl with ⟨s, hs, hq⟩ | ⟨s, i, r, hs, hi, hr, hq⟩ <;> obtain ⟨label, hs'⟩ := h.slot p s hs
  · exact .next _ hs' hq
  · exact .nested _ i r hs' hi ((h.range? i).trans hr) hq

theorem reaches_iff (h : l.Relabeled l') {p q : SlotId} : l'.Reaches p q ↔ l.Reaches p q :=
  ⟨Relation.ReflTransGen.mono (fun _ _ hl => h.symm.link hl) _ _,
    Relation.ReflTransGen.mono (fun _ _ hl => h.link hl) _ _⟩

theorem sound (h : l.Relabeled l') (hs : l.Sound) : l'.Sound := by
  refine hs.sameLinks ⟨h.size, fun q t ht => ?_, fun i r hr => ?_, fun i r hr => ?_⟩
  · obtain ⟨label, hs⟩ := h.symm.slot q t ht
    exact ⟨_, hs, rfl, rfl⟩
  · exact ⟨r, (h.range? i).trans hr, rfl, rfl, rfl⟩
  · exact .inl ⟨r, (h.range? i).symm.trans hr, rfl, rfl, rfl⟩

theorem modifySlot (l : Layout) (q : SlotId) (label : Option Label) :
    l.Relabeled (l.modifySlot q fun s => { s with label }) := by
  refine ⟨rfl, rfl, by simp, fun p s hs => ?_⟩
  rw [slot?_modifySlot]
  split
  · exact ⟨label, by simp [hs]⟩
  · exact ⟨s.label, hs⟩

end Relabeled

/-! ## The rule at a slot -/

/-- On a walk from `start` that sets out with a rule behind a slot with the lead `previous`, the
label of a slot gets the given separator and rule. -/
inductive Counts (l : Layout) (start : SlotId) (separator : String) (rule : LabelRule)
    (previous : Option SlotId) : SlotId → String → LabelRule → Prop
  | start (s : Slot) (hs : l.slot? start = some s) :
    Counts l start separator rule previous start separator (advance rule previous s.lead)
  | next {p q : SlotId} {sep : String} {ρ : LabelRule} (s t : Slot)
    (hp : Counts l start separator rule previous p sep ρ) (hs : l.slot? p = some s)
    (hq : s.next = some q) (ht : l.slot? q = some t) :
    Counts l start separator rule previous q sep (advance ρ s.lead t.lead)
  | nested {p q : SlotId} {sep : String} {ρ : LabelRule} (s t : Slot) (i : RangeId) (r : Range)
    (hp : Counts l start separator rule previous p sep ρ) (hs : l.slot? p = some s)
    (hi : s.nested = some i) (hr : l.range? i = some r) (hq : r.first = some q)
    (ht : l.slot? q = some t) :
    Counts l start separator rule previous q r.separator
      (advance (r.ruleBelow (ρ.withLevel s.pinned).sub) none t.lead)

variable {l l' : Layout} {start q : SlotId} {separator sep : String} {rule ρ : LabelRule}
  {previous : Option SlotId}

theorem Counts.reaches (h : l.Counts start separator rule previous q sep ρ) :
    l.Reaches start q := by
  induction h with
  | start => exact .refl
  | next s t _ hs hq _ ih => exact ih.tail (.next s hs hq)
  | nested s t i r _ hs hi hr hq _ ih => exact ih.tail (.nested s i r hs hi hr hq)

/-- Every slot that can be reached has its separator and its rule. -/
theorem Sound.exists_counts (h : l.Sound) (hq : l.Reaches start q) (hs : start.index < l.slots.size)
    (separator : String) (rule : LabelRule) (previous : Option SlotId) :
    ∃ sep ρ, l.Counts start separator rule previous q sep ρ := by
  induction hq with
  | refl =>
    obtain ⟨s, hs⟩ := slot?_isSome hs
    exact ⟨_, _, .start s hs⟩
  | tail _ hlink ih =>
    obtain ⟨sep, ρ, hp⟩ := ih
    obtain ⟨t, ht⟩ := slot?_isSome (h.link_lt_size hlink)
    rcases hlink with ⟨s, hs, hq⟩ | ⟨s, i, r, hs, hi, hr, hq⟩
    · exact ⟨_, _, .next s t hp hs hq ht⟩
    · exact ⟨_, _, .nested s t i r hp hs hi hr hq ht⟩

theorem Counts.relabeled (h : l.Counts start separator rule previous q sep ρ)
    (hl : l.Relabeled l') : l'.Counts start separator rule previous q sep ρ := by
  induction h with
  | start s hs =>
    obtain ⟨label, hs'⟩ := hl.slot _ s hs
    exact .start { s with label } hs'
  | next s t _ hs hq ht ih =>
    obtain ⟨label, hs'⟩ := hl.slot _ s hs
    obtain ⟨label', ht'⟩ := hl.slot _ t ht
    exact .next { s with label } { t with label := label' } ih hs' hq ht'
  | nested s t i r _ hs hi hr hq ht ih =>
    obtain ⟨label, hs'⟩ := hl.slot _ s hs
    obtain ⟨label', ht'⟩ := hl.slot _ t ht
    exact .nested { s with label } { t with label := label' } i r ih hs' hi
      ((hl.range? i).trans hr) hq ht'

/-- A walk starts at its first slot, goes on behind it, or goes on below it. -/
theorem Counts.cases_head (h : l.Counts start separator rule previous q sep ρ) :
    ∃ s, l.slot? start = some s ∧
      ((q = start ∧ sep = separator ∧ ρ = advance rule previous s.lead) ∨
       (∃ n, s.next = some n ∧
          l.Counts n separator (advance rule previous s.lead) s.lead q sep ρ) ∨
       (∃ i r f, s.nested = some i ∧ l.range? i = some r ∧ r.first = some f ∧
          l.Counts f r.separator
            (r.ruleBelow ((advance rule previous s.lead).withLevel s.pinned).sub) none q sep ρ)) := by
  induction h with
  | start s hs => exact ⟨s, hs, .inl ⟨rfl, rfl, rfl⟩⟩
  | next u t _ hu hq ht ih =>
    obtain ⟨s, hs, ⟨rfl, rfl, rfl⟩ | ⟨n, hn, hp⟩ | ⟨i, r, f, hi, hr, hf, hp⟩⟩ := ih
    · cases hs.symm.trans hu
      exact ⟨u, hu, .inr (.inl ⟨_, hq, .start t ht⟩)⟩
    · exact ⟨s, hs, .inr (.inl ⟨n, hn, .next u t hp hu hq ht⟩)⟩
    · exact ⟨s, hs, .inr (.inr ⟨i, r, f, hi, hr, hf, .next u t hp hu hq ht⟩)⟩
  | nested u t j w _ hu hj hw hq ht ih =>
    obtain ⟨s, hs, ⟨rfl, rfl, rfl⟩ | ⟨n, hn, hp⟩ | ⟨i, r, f, hi, hr, hf, hp⟩⟩ := ih
    · cases hs.symm.trans hu
      exact ⟨u, hu, .inr (.inr ⟨j, w, _, hj, hw, hq, .start t ht⟩)⟩
    · exact ⟨s, hs, .inr (.inl ⟨n, hn, .nested u t j w hp hu hj hw hq ht⟩)⟩
    · exact ⟨s, hs, .inr (.inr ⟨i, r, f, hi, hr, hf, .nested u t j w hp hu hj hw hq ht⟩)⟩

/-! ## The walk -/

/-- The walk below a slot. -/
def bindBelow (fuel : Nat) (s : Slot) (bound : LabelRule) (l : Layout) : Layout :=
  match s.nested.bind l.range? with
  | none => l
  | some r => bindFrom fuel r.separator (r.ruleBelow bound.sub) none r.first l

theorem bindFrom_some (fuel : Nat) (l : Layout) (separator : String) (rule : LabelRule)
    (previous : Option SlotId) {id : SlotId} {s : Slot} (hs : l.slot? id = some s) :
    bindFrom (fuel + 1) separator rule previous (some id) l =
      bindFrom fuel separator (advance rule previous s.lead) s.lead s.next
        (bindBelow fuel s ((advance rule previous s.lead).withLevel s.pinned)
          (l.modifySlot id fun t => { t with label := some (.ofLead s.lead separator
            ((advance rule previous s.lead).withLevel s.pinned)) })) := by
  rw [bindFrom]
  simp only [Option.bind_some, hs, Option.map_some]
  rfl

theorem bindFrom_relabeled (fuel : Nat) (separator : String) (rule : LabelRule)
    (previous cursor : Option SlotId) (l : Layout) :
    l.Relabeled (bindFrom fuel separator rule previous cursor l) := by
  induction fuel generalizing separator rule previous cursor l with
  | zero => exact .refl l
  | succ fuel ih =>
    rcases hc : cursor.bind fun id => (l.slot? id).map (id, ·) with _ | ⟨id, s⟩
    · rw [bindFrom, hc]
      exact .refl l
    · obtain ⟨id', rfl, h⟩ := Option.bind_eq_some_iff.1 hc
      obtain ⟨s', hs, heq⟩ := Option.map_eq_some_iff.1 h
      cases heq
      rw [bindFrom_some fuel l separator rule previous hs]
      generalize (advance rule previous s.lead).withLevel s.pinned = bound
      refine (Relabeled.modifySlot l id (some (.ofLead s.lead separator bound))).trans
        (Relabeled.trans ?_ (ih _ _ _ _ _))
      unfold bindBelow
      split
      · exact .refl _
      · exact ih _ _ _ _ _

theorem slot?_bindFrom_of_not_reaches (fuel : Nat) (separator : String) (rule : LabelRule)
    (previous cursor : Option SlotId) (l : Layout) (q : SlotId)
    (hq : ∀ c, cursor = some c → ¬l.Reaches c q) :
    (bindFrom fuel separator rule previous cursor l).slot? q = l.slot? q := by
  induction fuel generalizing separator rule previous cursor l with
  | zero => rfl
  | succ fuel ih =>
    rcases hc : cursor.bind fun id => (l.slot? id).map (id, ·) with _ | ⟨id, s⟩
    · rw [bindFrom, hc]
    · obtain ⟨id', rfl, h⟩ := Option.bind_eq_some_iff.1 hc
      obtain ⟨s', hs, heq⟩ := Option.map_eq_some_iff.1 h
      cases heq
      have hnot := hq id rfl
      rw [bindFrom_some fuel l separator rule previous hs]
      generalize (advance rule previous s.lead).withLevel s.pinned = bound
      set l₁ := l.modifySlot id fun t => { t with label := some (.ofLead s.lead separator bound) }
        with hl₁
      have h₁ : l.Relabeled l₁ := Relabeled.modifySlot l id _
      have hbelow : l₁.Relabeled (bindBelow fuel s bound l₁) ∧
          (bindBelow fuel s bound l₁).slot? q = l₁.slot? q := by
        unfold bindBelow
        split
        · exact ⟨.refl _, rfl⟩
        next r hr =>
          obtain ⟨i, hi, hr⟩ := Option.bind_eq_some_iff.1 hr
          refine ⟨bindFrom_relabeled .., ih _ _ _ _ _ fun f hf hreach => hnot ?_⟩
          exact .head (.nested s i r hs hi (h₁.range? i ▸ hr) hf) (h₁.reaches_iff.1 hreach)
      rw [ih, hbelow.2, hl₁, slot?_modifySlot, if_neg]
      · rintro rfl
        exact hnot .refl
      · intro n hn hreach
        exact hnot (.head (.next s hs hn) (h₁.reaches_iff.1 (hbelow.1.reaches_iff.1 hreach)))

/-- The slots from the next slot on and those below a slot have nothing in common. -/
theorem Sound.not_reaches_both (h : l.Sound) {c n f q : SlotId} {s : Slot} {i : RangeId} {r : Range}
    (hs : l.slot? c = some s) (hn : s.next = some n) (hi : s.nested = some i)
    (hr : l.range? i = some r) (hf : r.first = some f) (hfq : l.Reaches f q) :
    ¬l.Reaches n q := by
  intro hnq
  have hcn : l.Link c n := .next s hs hn
  have hcf : l.Link c f := .nested s i r hs hi hr hf
  rcases h.reaches_total hnq hfq with hnf | hfn
  · rcases hnf.cases_tail with rfl | ⟨b, hnb, hbf⟩
    · exact h.first_next i r c s _ hr hs hf hn
    · cases h.link_unique hcf hbf
      exact absurd (h.reaches_le hnb) (Nat.not_le.2 (h.link_lt hcn))
  · rcases hfn.cases_tail with rfl | ⟨b, hfb, hbn⟩
    · exact h.first_next i r c s _ hr hs hf hn
    · cases h.link_unique hcn hbn
      exact absurd (h.reaches_le hfb) (Nat.not_le.2 (h.link_lt hcf))

/-- The walk binds to each slot that it can reach the label that `Counts` gives. -/
theorem Sound.label_bindFrom (h : l.Sound) (fuel : Nat)
    (hfuel : l.slots.size < fuel + start.index)
    (hq : l.Counts start separator rule previous q sep ρ) :
    ∃ t, l.slot? q = some t ∧ (bindFrom fuel separator rule previous (some start) l).slot? q =
      some { t with label := some (.ofLead t.lead sep (ρ.withLevel t.pinned)) } := by
  induction fuel generalizing separator rule previous start l with
  | zero =>
    obtain ⟨s, hs, -⟩ := hq.cases_head
    have := slot?_lt hs
    omega
  | succ fuel ih =>
    obtain ⟨s, hs, hcases⟩ := hq.cases_head
    rw [bindFrom_some fuel l separator rule previous hs]
    generalize hb : (advance rule previous s.lead).withLevel s.pinned = bound at hcases ⊢
    set l₁ := l.modifySlot start fun t => { t with label := some (.ofLead s.lead separator bound) }
      with hl₁
    have h₁ : l.Relabeled l₁ := Relabeled.modifySlot l start _
    have hbelow : l₁.Relabeled (bindBelow fuel s bound l₁) := by
      unfold bindBelow
      split
      · exact .refl _
      · exact bindFrom_relabeled ..
    set l₂ := bindBelow fuel s bound l₁ with hl₂
    have h₂ : l.Relabeled l₂ := h₁.trans hbelow
    -- what is set below the slot stays, since the walk behind the slot does not come there
    have hkeep : ∀ p, (∀ n, s.next = some n → ¬l.Reaches n p) →
        (bindFrom fuel separator (advance rule previous s.lead) s.lead s.next l₂).slot? p =
          l₂.slot? p := fun p hp =>
      slot?_bindFrom_of_not_reaches _ _ _ _ _ _ p fun n hn hr => hp n hn (h₂.reaches_iff.1 hr)
    rcases hcases with ⟨rfl, rfl, rfl⟩ | ⟨n, hn, hp⟩ | ⟨i, r, f, hi, hr, hf, hp⟩
    · refine ⟨s, hs, ?_⟩
      rw [hkeep, hb]
      · have hnot : ∀ i r f, s.nested = some i → l.range? i = some r → r.first = some f →
            ¬l.Reaches f q := fun i r f hi hr hf hreach =>
          absurd (h.reaches_le hreach) (Nat.not_le.2 (h.link_lt (.nested s i r hs hi hr hf)))
        have : l₂.slot? q = l₁.slot? q := by
          rw [hl₂]
          unfold bindBelow
          split
          · rfl
          next r hr =>
            obtain ⟨i, hi, hr⟩ := Option.bind_eq_some_iff.1 hr
            refine slot?_bindFrom_of_not_reaches _ _ _ _ _ _ q fun f hf hreach => ?_
            exact hnot i r f hi (h₁.range? i ▸ hr) hf (h₁.reaches_iff.1 hreach)
        rw [this, hl₁, slot?_modifySlot, if_pos rfl, hs, Option.map_some]
      · exact fun n hn hreach =>
          absurd (h.reaches_le hreach) (Nat.not_le.2 (h.link_lt (.next s hs hn)))
    · have hlt := h.link_lt (.next s hs hn)
      rw [hn]
      obtain ⟨t, ht, hlabel⟩ := ih (h₂.sound h) (by rw [h₂.size]; omega) (hp.relabeled h₂)
      obtain ⟨label, hs'⟩ := h₂.symm.slot q t ht
      exact ⟨_, hs', hlabel⟩
    · have hlt := h.link_lt (.nested s i r hs hi hr hf)
      have hl₂' : l₂ = bindFrom fuel r.separator (r.ruleBelow bound.sub) none (some f) l₁ := by
        rw [hl₂]
        unfold bindBelow
        rw [hi, Option.bind_some, h₁.range? i, hr, ← hf]
      obtain ⟨t, ht, hlabel⟩ := ih (h₁.sound h) (by rw [h₁.size]; omega) (hp.relabeled h₁)
      obtain ⟨label, hs'⟩ := h₁.symm.slot q t ht
      refine ⟨_, hs', ?_⟩
      rw [hkeep q fun n hn => h.not_reaches_both hs hn hi hr hf hp.reaches, hl₂', hlabel]

/-! ## Creating the labels of a range -/

/-- The head of the range reaches the slot. -/
def Covers (l : Layout) (range : RangeId) (q : SlotId) : Prop :=
  ∃ r f, l.range? range = some r ∧ r.first = some f ∧ l.Reaches f q

theorem Relabeled.covers_iff (h : l.Relabeled l') {range : RangeId} :
    l'.Covers range q ↔ l.Covers range q := by
  simp only [Covers, h.range?, h.reaches_iff]

variable {range : RangeId} {incoming : Option LabelRule}

/-- The walk sets out from the head of the range, with a rule that is fixed for the range. -/
theorem createLabels_cases (h : l.createLabels range incoming = .ok l') :
    ∃ r rule, l.range? range = some r ∧
      (match incoming with
        | some rule => some (r.ruleBelow rule)
        | none => r.ruleAtTop?) = some rule ∧
      l' = l.bindFrom (l.slots.size + 1) r.separator rule none r.first := by
  unfold createLabels at h
  cases hr : l.range? range with
  | none => simp [hr] at h
  | some r =>
    rw [hr] at h
    dsimp only at h
    split at h
    · simp at h
    next rule hrule =>
      refine ⟨r, rule, rfl, ?_, (Except.ok.inj h).symm⟩
      cases incoming <;> exact hrule

theorem createLabels_relabeled (h : l.createLabels range incoming = .ok l') : l.Relabeled l' := by
  obtain ⟨r, rule, -, -, rfl⟩ := createLabels_cases h
  exact bindFrom_relabeled ..

/-- Afterwards the slots that the range covers have labels, besides those that had one before. -/
theorem Sound.isSome_label_createLabels (hl : l.Sound)
    (h : l.createLabels range incoming = .ok l') {s t : Slot} (hs : l.slot? q = some s)
    (ht : l'.slot? q = some t) : t.label.isSome ↔ s.label.isSome ∨ l.Covers range q := by
  obtain ⟨r, rule, hr, -, rfl⟩ := createLabels_cases h
  by_cases hq : l.Covers range q
  · obtain ⟨r', f, hr', hf, hreach⟩ := hq
    cases hr.symm.trans hr'
    obtain ⟨sep, ρ, hcounts⟩ := hl.exists_counts hreach (hl.first_gt range r f hr hf).1
      r.separator rule none
    obtain ⟨u, -, hu⟩ := hl.label_bindFrom (l.slots.size + 1) (by omega) hcounts
    rw [hf, hu] at ht
    cases ht
    simp only [Option.isSome_some, true_iff]
    exact .inr ⟨r, f, hr, hf, hreach⟩
  · rw [slot?_bindFrom_of_not_reaches _ _ _ _ _ _ _ fun c hc hreach => hq ⟨r, c, hr, hc, hreach⟩,
      hs] at ht
    cases ht
    simp [hq]

/-- The label that a walk from the head of a range binds to a slot. -/
def Bears (l : Layout) (range : RangeId) (q : SlotId) (label : Label) : Prop :=
  ∃ r rule f sep ρ t, l.range? range = some r ∧ r.ruleAtTop? = some rule ∧ r.first = some f ∧
    l.Counts f r.separator rule none q sep ρ ∧ l.slot? q = some t ∧
    label = .ofLead t.lead sep (ρ.withLevel t.pinned)

theorem Bears.relabeled {label : Label} (h : l.Bears range q label) (hl : l.Relabeled l') :
    l'.Bears range q label := by
  obtain ⟨r, rule, f, sep, ρ, t, hr, hrule, hf, hc, ht, rfl⟩ := h
  obtain ⟨label, ht'⟩ := hl.slot q t ht
  exact ⟨r, rule, f, sep, ρ, { t with label }, (hl.range? range).trans hr, hrule, hf,
    hc.relabeled hl, ht', rfl⟩

/-- A slot keeps its label unless the walk binds one to it. -/
theorem Sound.label_createLabels (hl : l.Sound) (h : l.createLabels range none = .ok l')
    {t : Slot} {label : Label} (ht : l'.slot? q = some t) (hlabel : t.label = some label) :
    l.Bears range q label ∨ ∃ s, l.slot? q = some s ∧ s.label = some label := by
  obtain ⟨r, rule, hr, hrule, rfl⟩ := createLabels_cases h
  by_cases hq : l.Covers range q
  · obtain ⟨r', f, hr', hf, hreach⟩ := hq
    cases hr.symm.trans hr'
    obtain ⟨sep, ρ, hcounts⟩ := hl.exists_counts hreach (hl.first_gt range r f hr hf).1
      r.separator rule none
    obtain ⟨u, hu, hbound⟩ := hl.label_bindFrom (l.slots.size + 1) (by omega) hcounts
    rw [hf, hbound] at ht
    cases ht
    exact .inl ⟨r, rule, f, sep, ρ, u, hr, hrule, hf, hcounts, hu, (Option.some.inj hlabel).symm⟩
  · rw [slot?_bindFrom_of_not_reaches _ _ _ _ _ _ _ fun c hc hreach =>
      hq ⟨r, c, hr, hc, hreach⟩] at ht
    exact .inr ⟨t, ht, hlabel⟩

end Layout

end Folio
